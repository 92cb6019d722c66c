/-
# `Xv6.Vm.Layout` — addresses, page table entries and the kernel's map

`mmu.h`, `memlayout.h` and the table `kmap` of `vm.c`.  An address is a 32-bit
word, with the arithmetic of `uint`; a virtual page is a pair of indices, into the
page directory and into a page table, numbered in the order of the addresses.
`data` and `end` are symbols of the linker script, which puts `data` on a page
boundary after the kernel's text; `Link` is what the rest needs to know of them.
-/
import Mathlib.Data.Nat.Bitwise
import Mathlib.Tactic.IntervalCases

namespace Xv6.Vm

open List

/-- A `uint`: an address, a size or an entry of a page table. -/
abbrev Word : Type := BitVec 32

instance : LawfulBEq Word := inferInstance

/-! ## Constants and macros -/

def PGSIZE : Word := 4096
def EXTMEM : Word := 0x100000
def PHYSTOP : Word := 0xE000000
def DEVSPACE : Word := 0xFE000000
def KERNBASE : Word := 0x80000000
def KERNLINK : Word := KERNBASE + EXTMEM

def PTE_P : Word := 0x001
def PTE_W : Word := 0x002
def PTE_U : Word := 0x004

/-- Physical address of a kernel address. -/
def V2P (a : Word) : Word := a - KERNBASE

/-- Kernel address of a physical address. -/
def P2V (a : Word) : Word := a + KERNBASE

def PGROUNDUP (sz : Word) : Word := (sz + PGSIZE - 1) &&& ~~~ (PGSIZE - 1)
def PGROUNDDOWN (a : Word) : Word := a &&& ~~~ (PGSIZE - 1)

def PTE_ADDR (pte : Word) : Word := pte &&& ~~~ 0xFFF
def PTE_FLAGS (pte : Word) : Word := pte &&& 0xFFF

/-- An index into a page directory or a page table. -/
abbrev Idx : Type := Fin 1024

instance idxNeZero : NeZero 1024 := ⟨by decide⟩

def PDX (va : Word) : Idx := Fin.ofNat 1024 ((va >>> 22) &&& 0x3FF).toNat

def PTX (va : Word) : Idx := Fin.ofNat 1024 ((va >>> 12) &&& 0x3FF).toNat

/-- The address with the given indices and offset. -/
def PGADDR (d t o : Word) : Word := d <<< 22 ||| t <<< 12 ||| o

def Present (pte : Word) : Prop := pte &&& PTE_P ≠ 0

instance (pte : Word) : Decidable (Present pte) := inferInstanceAs (Decidable (_ ≠ _))

/-! ## Words as numbers -/

/-- Clearing the low bits rounds down. -/
theorem and_not_mask (w : Word) (i : Nat) :
    (w &&& ~~~ BitVec.ofNat 32 (2 ^ i - 1)).toNat = w.toNat / 2 ^ i * 2 ^ i := by
  have h : w &&& ~~~ BitVec.ofNat 32 (2 ^ i - 1) = (w >>> i) <<< i := by
    ext j hj
    have hbit : (BitVec.ofNat 32 (2 ^ i - 1))[j] = decide (j < i) := by
      rw [← BitVec.getLsbD_eq_getElem, BitVec.getLsbD_ofNat, Nat.testBit_two_pow_sub_one,
        decide_eq_true hj, Bool.true_and]
    simp only [BitVec.getElem_and, BitVec.getElem_not, BitVec.getElem_shiftLeft,
      BitVec.getElem_ushiftRight, hbit]
    by_cases hij : j < i
    · simp [hij]
    · have : i + (j - i) = j := by omega
      simp [hij, this, BitVec.getLsbD_eq_getElem hj]
  have hlt := w.isLt
  have hle := Nat.div_mul_le_self w.toNat (2 ^ i)
  rw [h, BitVec.toNat_shiftLeft, BitVec.toNat_ushiftRight, Nat.shiftRight_eq_div_pow,
    Nat.shiftLeft_eq, Nat.mod_eq_of_lt (Nat.lt_of_le_of_lt hle hlt)]

theorem toNat_PGROUNDDOWN (a : Word) : (PGROUNDDOWN a).toNat = a.toNat / 4096 * 4096 :=
  and_not_mask a 12

variable {a : Word}

theorem toNat_PGROUNDUP (h : a.toNat ≤ 2 ^ 32 - 4096) :
    (PGROUNDUP a).toNat = (a.toNat + 4095) / 4096 * 4096 := by
  have hsum : (a + PGSIZE - 1).toNat = a.toNat + 4095 := by
    have hone : a + PGSIZE - 1 = a + 4095#32 := by
      rw [PGSIZE]
      bv_omega
    rw [hone, BitVec.toNat_add, BitVec.toNat_ofNat]
    omega
  rw [← hsum]
  exact and_not_mask _ 12

theorem PDX_val (va : Word) : (PDX va).val = va.toNat / 2 ^ 22 := by
  show ((va >>> 22) &&& 0x3FF#32).toNat % 1024 = va.toNat / 2 ^ 22
  rw [BitVec.toNat_and, BitVec.toNat_ushiftRight, Nat.shiftRight_eq_div_pow]
  show (va.toNat / 2 ^ 22 &&& 2 ^ 10 - 1) % 1024 = _
  rw [Nat.and_two_pow_sub_one_eq_mod]
  omega

theorem PTX_val (va : Word) : (PTX va).val = va.toNat / 2 ^ 12 % 1024 := by
  show ((va >>> 12) &&& 0x3FF#32).toNat % 1024 = va.toNat / 2 ^ 12 % 1024
  rw [BitVec.toNat_and, BitVec.toNat_ushiftRight, Nat.shiftRight_eq_div_pow]
  show (va.toNat / 2 ^ 12 &&& 2 ^ 10 - 1) % 1024 = _
  rw [Nat.and_two_pow_sub_one_eq_mod]
  omega

/-! ## Virtual pages -/

/-- A virtual page. -/
abbrev Vpn : Type := Idx × Idx

/-- The page of a virtual address. -/
def vpn (va : Word) : Vpn := (PDX va, PTX va)

/-- Its number. -/
def Vpn.num (x : Vpn) : Nat := x.1.val * 1024 + x.2.val

/-- The first address of a page. -/
def Vpn.base (x : Vpn) : Word := BitVec.ofNat 32 (x.num * 4096)

theorem num_vpn (va : Word) : (vpn va).num = va.toNat / 4096 := by
  show (PDX va).val * 1024 + (PTX va).val = _
  rw [PDX_val, PTX_val]
  omega

theorem Vpn.num_lt (x : Vpn) : x.num < 2 ^ 20 := by
  unfold Vpn.num
  omega

variable {x : Vpn}

theorem Vpn.num_inj {y : Vpn} (h : x.num = y.num) : x = y := by
  unfold Vpn.num at h
  refine Prod.ext (Fin.ext ?_) (Fin.ext ?_)
  · omega
  · omega

@[simp]
theorem Vpn.toNat_base (x : Vpn) : x.base.toNat = x.num * 4096 := by
  have := x.num_lt
  show (BitVec.ofNat 32 (x.num * 4096)).toNat = _
  rw [BitVec.toNat_ofNat]
  omega

@[simp]
theorem vpn_base (x : Vpn) : vpn x.base = x := by
  refine Vpn.num_inj ?_
  rw [num_vpn, Vpn.toNat_base]
  omega

theorem eq_vpn_iff (ha : a.toNat % 4096 = 0) : x = vpn a ↔ x.num * 4096 = a.toNat := by
  have hnum := num_vpn a
  constructor
  · rintro rfl
    omega
  · intro h
    exact Vpn.num_inj (by omega)

/-- The page starts between two addresses. -/
def Vpn.In (x : Vpn) (lo hi : Nat) : Prop := lo ≤ x.num * 4096 ∧ x.num * 4096 < hi

variable {hi : Nat}

theorem Vpn.in_next (ha : a.toNat % 4096 = 0) :
    x.In (a.toNat + 4096) hi ↔ x.In a.toNat hi ∧ x ≠ vpn a := by
  rw [Ne, eq_vpn_iff ha]
  unfold Vpn.In
  omega

theorem Vpn.in_self (ha : a.toNat % 4096 = 0) (hlt : a.toNat < hi) : (vpn a).In a.toNat hi := by
  have hvpn := (eq_vpn_iff ha).mp rfl
  exact ⟨hvpn.ge, by omega⟩

theorem Vpn.not_in {lo : Nat} (h : ¬ lo < hi) (x : Vpn) : ¬ x.In lo hi :=
  fun hx => h (Nat.lt_of_le_of_lt hx.1 hx.2)

/-- A loop over the pages of a range, which makes `A` true of each of them and changes no other
entry, ends with an empty range. -/
theorem Vpn.range_nil {A : Vpn → Prop} {v : Vpn → Word} {lo : Nat} (h : ¬ lo < hi) (x : Vpn) :
    (x.In lo hi → A x) ∧ (¬ x.In lo hi → v x = v x) :=
  ⟨fun hx => absurd hx (not_in h x), fun _ => rfl⟩

theorem Vpn.range_cons {A : Vpn → Prop} {v v₁ v' : Vpn → Word} {b : Nat} (ha : a.toNat % 4096 = 0)
    (hlt : a.toNat < hi) (hb : b = a.toNat + 4096) (h₁ : ∀ x, x ≠ vpn a → v₁ x = v x)
    (hself : v' (vpn a) = v₁ (vpn a) → A (vpn a))
    (h : ∀ x : Vpn, (x.In b hi → A x) ∧ (¬ x.In b hi → v' x = v₁ x)) (x : Vpn) :
    (x.In a.toNat hi → A x) ∧ (¬ x.In a.toNat hi → v' x = v x) := by
  subst hb
  refine ⟨fun hx => ?_, fun hx => ?_⟩
  · rcases eq_or_ne x (vpn a) with rfl | hxa
    · exact hself ((h _).2 fun hc => ((in_next ha).mp hc).2 rfl)
    · exact (h x).1 ((in_next ha).mpr ⟨hx, hxa⟩)
  · rw [(h x).2 fun hc => hx ((in_next ha).mp hc).1, h₁ x]
    rintro rfl
    exact hx (in_self ha hlt)

theorem toNat_next {b : Word} (h : a < b) (hb : b.toNat ≤ 2 ^ 31) :
    (a + PGSIZE).toNat = a.toNat + 4096 := by
  have h' : a.toNat < b.toNat := h
  show (a.toNat + 4096) % 2 ^ 32 = _
  omega

/-- The pages of the user half: the page directory has 512 entries for it. -/
def Vpn.User (x : Vpn) : Prop := x.1.val < 512

instance (x : Vpn) : Decidable x.User := inferInstanceAs (Decidable (_ < _))

variable {va : Word}

theorem user_vpn : (vpn va).User ↔ va < KERNBASE := by
  show (PDX va).val < 512 ↔ va.toNat < 0x80000000
  rw [PDX_val]
  omega

theorem Vpn.user_iff : x.User ↔ x.num * 4096 < 2 ^ 31 := by
  unfold Vpn.User Vpn.num
  omega

theorem Vpn.not_user (h : ¬ x.User) : 2 ^ 31 ≤ x.num * 4096 :=
  Nat.le_of_not_lt (Vpn.user_iff.not.mp h)

/-! ## Entries -/

theorem toNat_offset (va : Word) : (va &&& 0xFFF).toNat = va.toNat % 4096 := by
  show va.toNat &&& 2 ^ 12 - 1 = _
  rw [Nat.and_two_pow_sub_one_eq_mod]

/-- A page-aligned address. -/
def Aligned (a : Word) : Prop := a &&& 0xFFF = 0

theorem aligned_iff : Aligned a ↔ a.toNat % 4096 = 0 := by
  rw [← toNat_offset, Aligned, ← BitVec.toNat_inj]
  rfl

/-- The bits of an entry that are not an address. -/
def Flags (w : Word) : Prop := w &&& ~~~ 0xFFF = 0

instance (w : Word) : Decidable (Flags w) := inferInstanceAs (Decidable (_ = _))

theorem flags_PTE_FLAGS (w : Word) : Flags (PTE_FLAGS w) := by
  have h : (0xFFF : Word) &&& ~~~ 0xFFF = 0 := by decide
  rw [Flags, PTE_FLAGS, BitVec.and_assoc, h]
  exact BitVec.and_zero

variable {f m : Word}

private theorem mask_or (ha : a &&& m = 0) (hf : f &&& ~~~ m = 0) : (a ||| f) &&& ~~~ m = a := by
  ext i hi
  have ha' := congrArg (fun w : Word => w[i]) ha
  have hf' := congrArg (fun w : Word => w[i]) hf
  simp only [BitVec.getElem_and, BitVec.getElem_or, BitVec.getElem_not]
    at ha' hf' ⊢
  revert ha' hf'
  cases a[i] <;> cases f[i] <;> cases m[i] <;> simp

private theorem mask_or' (ha : a &&& m = 0) (hf : f &&& ~~~ m = 0) : (a ||| f) &&& m = f := by
  have h := mask_or hf (by rw [BitVec.not_not]; exact ha)
  rw [BitVec.not_not, BitVec.or_comm] at h
  exact h

theorem PTE_ADDR_or (ha : Aligned a) (hf : Flags f) : PTE_ADDR (a ||| f) = a :=
  mask_or ha hf

theorem PTE_FLAGS_or (ha : Aligned a) (hf : Flags f) : PTE_FLAGS (a ||| f) = f :=
  mask_or' ha hf

theorem flags_or {g : Word} (hf : Flags f) (hg : Flags g) : Flags (f ||| g) := by
  unfold Flags at *
  rw [BitVec.and_comm, BitVec.and_or_distrib_left, BitVec.and_comm, hf, BitVec.and_comm, hg]
  rfl

variable {w : Word}

theorem and_not_of_and (h : w &&& m = 0) : w &&& ~~~ m = w := by
  ext i hi
  have h' := congrArg (fun w : Word => w[i]) h
  simp only [BitVec.getElem_and, BitVec.getElem_not] at h' ⊢
  revert h'
  cases w[i] <;> cases m[i] <;> simp

theorem base_add_offset (va : Word) : (vpn va).base + (va &&& 0xFFF) = va := by
  rw [← BitVec.toNat_inj, BitVec.toNat_add, Vpn.toNat_base, num_vpn, toNat_offset]
  omega

/-- An address has no flag. -/
theorem aligned_and (ha : Aligned a) (hf : Flags f) : a &&& f = 0 := by
  have hm : f = 0xFFF &&& f := by
    have h := and_not_of_and hf
    rw [BitVec.and_comm]
    exact h.symm
  rw [hm, ← BitVec.and_assoc, ha]
  exact BitVec.zero_and

theorem present_or (w : Word) : Present (w ||| PTE_P) := by
  intro h
  have := congrArg (fun w : Word => w[0]) h
  simp [PTE_P] at this

@[simp]
theorem not_present_zero : ¬ Present 0 := by decide

/-- Whether an entry is present is one of its flags. -/
theorem present_flags : Present (PTE_FLAGS w) ↔ Present w := by
  unfold Present PTE_FLAGS
  rw [BitVec.and_assoc]
  rfl

theorem flags_or_present (h : Present w) : PTE_FLAGS w ||| PTE_P = PTE_FLAGS w := by
  have hnat : (PTE_FLAGS w &&& PTE_P).toNat = (PTE_FLAGS w).toNat % 2 := by
    exact Nat.and_one_is_mod _
  have hone : PTE_FLAGS w &&& PTE_P = PTE_P := by
    have hne : (PTE_FLAGS w &&& PTE_P).toNat ≠ 0 :=
      fun hc => present_flags.mpr h (BitVec.toNat_inj.mp hc)
    refine BitVec.toNat_inj.mp ?_
    show _ = 1
    omega
  ext i hi
  have hbit := congrArg (fun v : Word => v[i]) hone
  simp only [BitVec.getElem_and, BitVec.getElem_or] at hbit ⊢
  revert hbit
  cases (PTE_FLAGS w)[i] <;> cases PTE_P[i] <;> simp

/-! ## The kernel's map -/

/-- An entry of `kmap`. -/
structure Kmap where
  virt : Word
  physStart : Word
  physEnd : Word
  perm : Word

/-- The symbols `data` and `end` of the linker script: the kernel's data starts on a page
boundary after its text, and ends inside the memory there is. -/
structure Link where
  data : Word
  kend : Word
  aligned : Aligned data
  after_text : KERNLINK < data
  in_memory : data < P2V PHYSTOP
  ordered : data ≤ kend
  kend_le : kend ≤ P2V PHYSTOP

def Link.kmap (L : Link) : List Kmap :=
  [⟨KERNBASE, 0, EXTMEM, PTE_W⟩,
   ⟨KERNLINK, V2P KERNLINK, V2P L.data, 0⟩,
   ⟨L.data, V2P L.data, PHYSTOP, PTE_W⟩,
   ⟨DEVSPACE, DEVSPACE, 0, PTE_W⟩]

variable {e : Kmap}

namespace Kmap

def size (e : Kmap) : Word := e.physEnd - e.physStart

/-- The address is in the range of the entry. -/
def Covers (e : Kmap) (va : Word) : Prop := va - e.virt < e.size

instance (e : Kmap) (va : Word) : Decidable (e.Covers va) := inferInstanceAs (Decidable (_ < _))

/-- Where the entry sends the address. -/
def phys (e : Kmap) (va : Word) : Word := e.physStart + (va - e.virt)

/-- The range of the entry is made of whole pages in the kernel half, and its permission
is made of flags without `PTE_U`. -/
structure Ok (e : Kmap) : Prop where
  virt : e.virt.toNat % 4096 = 0
  physStart : e.physStart.toNat % 4096 = 0
  size : e.size.toNat % 4096 = 0
  pos : 0 < e.size.toNat
  top : e.virt.toNat + e.size.toNat ≤ 2 ^ 32
  kernel : 2 ^ 31 ≤ e.virt.toNat
  perm : Flags e.perm
  user : e.perm &&& PTE_U = 0

theorem Ok.of {v p n : Nat} (hv : e.virt.toNat = v) (hp : e.physStart.toNat = p)
    (hn : e.size.toNat = n) (hmod : v % 4096 = 0 ∧ p % 4096 = 0 ∧ n % 4096 = 0)
    (hrange : 0 < n ∧ v + n ≤ 2 ^ 32 ∧ 2 ^ 31 ≤ v) (hperm : Flags e.perm ∧ e.perm &&& PTE_U = 0) :
    e.Ok := by
  subst hv hp hn
  exact ⟨hmod.1, hmod.2.1, hmod.2.2, hrange.1, hrange.2.1, hrange.2.2, hperm.1, hperm.2⟩

theorem covers_iff (he : e.Ok) :
    e.Covers va ↔ e.virt.toNat ≤ va.toNat ∧ va.toNat < e.virt.toNat + e.size.toNat := by
  have htop := he.top
  show (va - e.virt).toNat < e.size.toNat ↔ _
  rw [BitVec.toNat_sub]
  omega

theorem covers_base (he : e.Ok) :
    e.Covers x.base ↔ e.virt.toNat ≤ x.num * 4096 ∧ x.num * 4096 < e.virt.toNat + e.size.toNat := by
  rw [covers_iff he, Vpn.toNat_base]

/-- An entry covers whole pages. -/
theorem covers_page (he : e.Ok) : e.Covers (vpn va).base ↔ e.Covers va := by
  have h₁ := he.virt
  have h₂ := he.size
  rw [covers_base he, covers_iff he, num_vpn]
  omega

/-- The entry sends pages to pages. -/
theorem aligned_phys (he : e.Ok) (x : Vpn) : Aligned (e.phys x.base) := by
  have h₁ := he.physStart
  have h₂ := he.virt
  rw [aligned_iff, phys, BitVec.toNat_add, BitVec.toNat_sub, Vpn.toNat_base]
  omega

/-- No two entries cover one page. -/
def Apart (e f : Kmap) : Prop := ∀ x : Vpn, e.Covers x.base → ¬ f.Covers x.base

theorem apart_of_le {f : Kmap} (he : e.Ok) (hf : f.Ok)
    (h : e.virt.toNat + e.size.toNat ≤ f.virt.toNat) : e.Apart f := by
  intro x hx hx'
  have h₁ := (covers_base he).mp hx
  have h₂ := (covers_base hf).mp hx'
  omega

end Kmap

/-- What a table of entries says of an address: the physical address and the flags. -/
def kmapAt (es : List Kmap) (va : Word) : Option (Word × Word) :=
  (es.find? fun e => decide (e.Covers va)).map fun e => (e.phys va, e.perm ||| PTE_P)

/-- What the paging hardware makes of an entry: the physical address and the flags. -/
def resolve (pte va : Word) : Option (Word × Word) :=
  if Present pte then some (PTE_ADDR pte + (va &&& 0xFFF), PTE_FLAGS pte) else none

/-- What a table of entries puts into the entry of a page. -/
def kmapWord (es : List Kmap) (x : Vpn) : Word :=
  match es.find? fun e => decide (e.Covers x.base) with
  | some e => e.phys x.base ||| e.perm ||| PTE_P
  | none => 0

variable {es : List Kmap}

theorem kmapWord_of_not_covers (h : ∀ e ∈ es, ¬ e.Covers x.base) : kmapWord es x = 0 := by
  have hnone : es.find? (fun e => decide (e.Covers x.base)) = none :=
    List.find?_eq_none.mpr fun e he hc => h e he (of_decide_eq_true hc)
  rw [kmapWord, hnone]

/-- The kernel's entries do not have `PTE_U`. -/
theorem kmapWord_user (hok : ∀ e ∈ es, e.Ok) (x : Vpn) : kmapWord es x &&& PTE_U = 0 := by
  unfold kmapWord
  split
  · rename_i e he
    have hmem := hok e (mem_of_find?_eq_some he)
    have h₁ := aligned_and (Kmap.aligned_phys hmem x) (by decide : Flags PTE_U)
    have h₂ := hmem.user
    rw [BitVec.and_comm, BitVec.and_or_distrib_left, BitVec.and_or_distrib_left, BitVec.and_comm, h₁,
      BitVec.and_comm, h₂]
    rfl
  · rfl

/-- The entries say of every address what the table says. -/
theorem resolve_kmapWord (hok : ∀ e ∈ es, e.Ok) (va : Word) :
    resolve (kmapWord es (vpn va)) va = kmapAt es va := by
  have hsame : es.find? (fun e => decide (e.Covers (vpn va).base)) =
      es.find? fun e => decide (e.Covers va) := by
    induction es with
    | nil => rfl
    | cons e es ih =>
      have he := hok e mem_cons_self
      rw [List.find?_cons, List.find?_cons, ih fun f hf => hok f (mem_cons_of_mem _ hf),
        decide_eq_decide.mpr (Kmap.covers_page he)]
  unfold kmapWord kmapAt
  rw [hsame]
  cases hf : es.find? fun e => decide (e.Covers va) with
  | none => exact if_neg not_present_zero
  | some e =>
    have he := hok e (mem_of_find?_eq_some hf)
    have hflags : Flags (e.perm ||| PTE_P) := flags_or he.perm (by decide)
    have hphys : e.phys (vpn va).base + (va &&& 0xFFF) = e.phys va := by
      have hva := base_add_offset va
      unfold Kmap.phys
      bv_omega
    show resolve (e.phys (vpn va).base ||| e.perm ||| PTE_P) va = some (e.phys va, e.perm ||| PTE_P)
    rw [resolve, if_pos (present_or _), BitVec.or_assoc,
      PTE_ADDR_or (Kmap.aligned_phys he _) hflags, PTE_FLAGS_or (Kmap.aligned_phys he _) hflags,
      hphys]

theorem kmapWord_snoc (h : ∀ f ∈ es, f.Apart e) (x : Vpn) :
    kmapWord (es ++ [e]) x =
      if e.Covers x.base then e.phys x.base ||| e.perm ||| PTE_P else kmapWord es x := by
  unfold kmapWord
  rw [List.find?_append]
  split_ifs with hc
  · have hnone : es.find? (fun f => decide (f.Covers x.base)) = none := by
      refine List.find?_eq_none.mpr fun f hf hcf => ?_
      exact h f hf x (of_decide_eq_true hcf) hc
    rw [hnone, Option.none_or, List.find?_cons_of_pos (by simpa using hc)]
  · rw [List.find?_cons_of_neg (by simpa using hc), List.find?_nil, Option.or_none]

namespace Link

variable (L : Link)

theorem data_lo : 0x80100000 < L.data.toNat := L.after_text

theorem data_hi : L.data.toNat < 0x8E000000 := L.in_memory

theorem data_mod : L.data.toNat % 4096 = 0 := aligned_iff.mp L.aligned

theorem toNat_V2P_data : (V2P L.data).toNat = L.data.toNat - 0x80000000 := by
  have hlo := L.data_lo
  show (2 ^ 32 - 0x80000000 + L.data.toNat) % 2 ^ 32 = _
  omega

theorem size_text : (V2P L.data - V2P KERNLINK).toNat = L.data.toNat - 0x80100000 := by
  have hlo := L.data_lo
  rw [BitVec.toNat_sub, toNat_V2P_data]
  show (2 ^ 32 - 0x100000 + (L.data.toNat - 0x80000000)) % 2 ^ 32 = _
  omega

theorem size_data : (PHYSTOP - V2P L.data).toNat = 0x8E000000 - L.data.toNat := by
  have hlo := L.data_lo
  have hhi := L.data_hi
  rw [BitVec.toNat_sub, toNat_V2P_data]
  show (2 ^ 32 - (L.data.toNat - 0x80000000) + 0xE000000) % 2 ^ 32 = _
  omega

theorem kmap_ok : ∀ e ∈ L.kmap, e.Ok := by
  have hlo := L.data_lo
  have hhi := L.data_hi
  have hmod := L.data_mod
  intro e he
  rcases mem_cons.mp he with rfl | he
  · exact .of rfl rfl rfl (by decide) (by decide) (by decide)
  rcases mem_cons.mp he with rfl | he
  · have hperm : Flags 0 ∧ (0 : Word) &&& PTE_U = 0 := by decide
    exact .of (v := 0x80100000) (p := 0x100000) rfl rfl L.size_text
      ⟨by decide, by decide, by omega⟩ ⟨by omega, by omega, by omega⟩ hperm
  rcases mem_cons.mp he with rfl | he
  · have hperm : Flags PTE_W ∧ PTE_W &&& PTE_U = 0 := by decide
    exact .of (v := L.data.toNat) rfl L.toNat_V2P_data L.size_data ⟨hmod, by omega, by omega⟩
      ⟨by omega, by omega, by omega⟩ hperm
  rcases mem_cons.mp he with rfl | he
  · exact .of rfl rfl rfl (by decide) (by decide) (by decide)
  cases he

theorem kmap_apart : L.kmap.Pairwise Kmap.Apart := by
  have hlo := L.data_lo
  have hhi := L.data_hi
  have hsorted : L.kmap.Pairwise fun e f => e.virt.toNat + e.size.toNat ≤ f.virt.toNat := by
    have h₁ : (⟨KERNBASE, 0, EXTMEM, PTE_W⟩ : Kmap).virt.toNat +
        (⟨KERNBASE, 0, EXTMEM, PTE_W⟩ : Kmap).size.toNat = 0x80100000 := by decide
    have h₂ : KERNLINK.toNat + (V2P L.data - V2P KERNLINK).toNat = L.data.toNat := by
      rw [L.size_text]
      show 0x80100000 + _ = _
      omega
    have h₃ : L.data.toNat + (PHYSTOP - V2P L.data).toNat = 0x8E000000 := by
      rw [L.size_data]
      omega
    have hd : L.data.toNat ≤ DEVSPACE.toNat := hhi.le.trans (by decide)
    simp only [kmap, pairwise_cons, mem_cons, not_mem_nil, or_false, forall_eq_or_imp,
      forall_eq, List.Pairwise.nil, and_true, IsEmpty.forall_iff, implies_true, h₁]
    exact ⟨⟨by decide, hlo.le, by decide⟩, ⟨h₂.le, h₂.le.trans hd⟩, h₃.le.trans (by decide)⟩
  exact hsorted.imp_of_mem fun he hf h => Kmap.apart_of_le (L.kmap_ok _ he) (L.kmap_ok _ hf) h

end Link

end Xv6.Vm
