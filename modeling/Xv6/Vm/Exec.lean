/-
# `Xv6.Vm.Exec` — the memory of a new program

`exec.c`, with `uva2ka`, `copyout` and `loaduvm` of `vm.c`.  `exec` builds an address
space next to the one in use: the segments of the file, two pages for the stack, the
arguments.  At `bad` it frees what it has built; otherwise it switches to it and frees
the old one.  What `readi` brings from the file and what the argument strings say is up
to the event: it changes the contents of user pages and nothing else.

The kernel writes to user pages at their kernel addresses, which go through the page
directory in use (`poke`).  `uva2ka` does not test the pointer that `walkpgdir` returns.
Where there is no page table it reads the word at address 0, which belongs to the
process, and takes it for the entry.  `copyout` gets there if a string of `exec` is so
long that the stack pointer wraps below the devices; `Arg.Short` rules that out, and
`Draft` says what holds of the new address space on the way:

    low     the pages below the limit are mapped
    high    the user pages above it are not
    kern    the kernel half is what kmap says
-/
import Xv6.Vm.Grow

namespace Xv6.Vm

open Wp

def ELF_MAGIC : Word := 0x464C457F
def ELF_PROG_LOAD : Word := 1
def MAXARG : Nat := 32

/-- The fields of `struct elfhdr` that matter here. -/
structure ElfHdr where
  magic : Word
  phnum : BitVec 16

/-- The fields of `struct proghdr` that matter here. -/
structure ProgHdr where
  type : Word
  vaddr : Word
  filesz : Word
  memsz : Word

/-- What `readi` brings from a file: the headers, unless they are cut off, and what each
page of a segment holds after it was read, and whether it was read whole. -/
structure Image where
  elf : Option ElfHdr
  ph : Nat → Option ProgHdr
  text : Nat → Word → Page → Page
  whole : Nat → Word → Bool

/-- An argument string: its `strlen`, and what the pages it is copied to hold after. -/
structure Arg where
  len : Word
  text : Word → Page → Page

/-- The arguments up to the null pointer, and the same for `ustack`. -/
structure Argv where
  args : List Arg
  ustack : Word → Page → Page

/-! ## The code -/

/-- The kernel writes into the page at an address.  A page fault in the kernel ends the
story: `trap` returns to the instruction that faulted. -/
def poke (cur va : Word) (f : Page → Page) : M Unit := do
  let k ← get
  match target (view k.mem cur (vpn va)) with
  | some p => fill p (f (k.mem p))
  | none => throw .forever

/-- `*pte`, for what `walkpgdir` has returned. -/
def derefPte (cur : Word) : Option (Word × Idx) → M Word
  | some (t, j) => load t j
  | none => do
    let k ← get
    match target (view k.mem cur (0, 0)) with
    | some p => load p 0
    | none => throw .forever

def uva2ka (cur pgdir uva : Word) : M Word := do
  let pte ← walkpgdir pgdir uva false
  let w ← derefPte cur pte
  if Present w then
    if w &&& PTE_U = 0 then
      return 0
    else
      return P2V (PTE_ADDR w)
  else
    return 0

/-- The bytes that the turn of `copyout` at `va` copies. -/
def chunk (va len : Word) : Word :=
  if len < PGSIZE - (va - PGROUNDDOWN va) then len else PGSIZE - (va - PGROUNDDOWN va)

def copyoutLoop (cur pgdir : Word) (text : Word → Page → Page) : Nat → Word → Word → M Bool
  | 0, _, _ => throw .forever
  | n + 1, va, len =>
    if 0 < len then do
      let pa0 ← uva2ka cur pgdir (PGROUNDDOWN va)
      if pa0 = 0 then
        return false
      else
        poke cur pa0 (text (PGROUNDDOWN va))
        copyoutLoop cur pgdir text n (PGROUNDDOWN va + PGSIZE) (len - chunk va len)
    else
      return true

/-- `copyout`; false stands for -1. -/
def copyout (cur pgdir va len : Word) (text : Word → Page → Page) : M Bool :=
  copyoutLoop cur pgdir text turns va len

/-- The loop of `loaduvm`. -/
def loadLoop (cur pgdir addr sz : Word) (text : Word → Page → Page) (whole : Word → Bool) :
    Nat → Word → M Bool
  | 0, _ => throw .forever
  | n + 1, i =>
    if i < sz then do
      match ← walkpgdir pgdir (addr + i) false with
      | none => throw (.panic .loadAddress)
      | some (t, j) =>
        let pte ← load t j
        poke cur (P2V (PTE_ADDR pte)) (text i)
        if whole i then
          loadLoop cur pgdir addr sz text whole n (i + PGSIZE)
        else
          return false
    else
      return true

/-- `loaduvm`; false stands for -1. -/
def loaduvm (cur pgdir addr sz : Word) (text : Word → Page → Page) (whole : Word → Bool) :
    M Bool :=
  if addr % PGSIZE ≠ 0 then
    throw (.panic .loadAligned)
  else
    loadLoop cur pgdir addr sz text whole turns 0

section

variable (L : Link)

/-- The loop of `exec` over the program headers, from the `i`-th on, with the number left;
the result is `sz`, or nothing for the jump to `bad`. -/
def loadSegments (cur pgdir : Word) (f : Image) : Nat → Nat → Word → M (Option Word)
  | 0, _, sz => return some sz
  | n + 1, i, sz =>
    match f.ph i with
    | none => return none
    | some ph =>
      if ph.type ≠ ELF_PROG_LOAD then
        loadSegments cur pgdir f n (i + 1) sz
      else if ph.memsz < ph.filesz then
        return none
      else if ph.vaddr + ph.memsz < ph.vaddr then
        return none
      else do
        let sz ← allocuvm L pgdir sz (ph.vaddr + ph.memsz)
        if sz = 0 then
          return none
        else if ph.vaddr % PGSIZE ≠ 0 then
          return none
        else if ← loaduvm cur pgdir ph.vaddr ph.filesz (f.text i) (f.whole i) then
          loadSegments cur pgdir f n (i + 1) sz
        else
          return none

/-- The loop of `exec` over the arguments: `argc` and `sp` at its end. -/
def pushArgs (cur pgdir : Word) : List Arg → Nat → Word → M (Option (Nat × Word))
  | [], argc, sp => return some (argc, sp)
  | a :: as, argc, sp =>
    if MAXARG ≤ argc then
      return none
    else do
      let sp := (sp - (a.len + 1)) &&& ~~~ 3
      if ← copyout cur pgdir sp (a.len + 1) a.text then
        pushArgs cur pgdir as (argc + 1) sp
      else
        return none

/-- The size of the part of `ustack` that is copied. -/
def ustackLen (argc : Nat) : Word := BitVec.ofNat 32 ((3 + argc + 1) * 4)

/-- The stack and the arguments, once the segments are there. -/
def pushStack (cur pgdir sz : Word) (argv : Argv) : M (Option Word) := do
  let sz ← allocuvm L pgdir (PGROUNDUP sz) (PGROUNDUP sz + 2 * PGSIZE)
  if sz = 0 then
    return none
  else
    clearpteu pgdir (sz - 2 * PGSIZE)
    match ← pushArgs cur pgdir argv.args 0 sz with
    | none => return none
    | some (argc, sp) =>
      if ← copyout cur pgdir (sp - ustackLen argc) (ustackLen argc) argv.ustack then
        return some sz
      else
        return none

/-- The part of `exec` between `setupkvm` and the switch. -/
def buildImage (cur pgdir : Word) (f : Image) (phnum : Nat) (argv : Argv) : M (Option Word) := do
  match ← loadSegments L cur pgdir f phnum 0 0 with
  | none => return none
  | some sz => pushStack L cur pgdir sz argv

/-- `exec`, with the page directory in use: the new one and its size, or nothing for -1.  No
file stands for a `namei` that fails. -/
def exec (cur : Word) (file : Option Image) (argv : Argv) : M (Option (Word × Word)) :=
  match file with
  | none => return none
  | some f =>
    match f.elf with
    | none => return none
    | some elf =>
      if elf.magic ≠ ELF_MAGIC then
        return none
      else do
        let pgdir ← setupkvm L
        if pgdir = 0 then
          return none
        else
          match ← buildImage L cur pgdir f elf.phnum.toNat argv with
          | none => do
            freevm L pgdir
            return none
          | some sz => do
            freevm L cur
            return some (pgdir, sz)

end

/-- A string that cannot take the stack pointer below the devices: it is shorter than 32 MB. -/
def Arg.Short (a : Arg) : Prop := a.len.toNat + 4 ≤ 0x2000000

/-! ## The address space on the way -/

section

variable {L : Link} {own own' : Word → Owner} {k k' : Kmem} {cur d p va : Word} {lim : Nat}
  {x : Vpn}

/-- **The new address space `d` with the pages below `lim`**, while `cur` is in use. -/
structure Draft (L : Link) (cur d : Word) (own : Word → Owner) (k : Kmem) (lim : Nat) : Prop where
  owns : Owns L own k
  dir : own d = .dir
  kern : Kern L k.mem d
  low : ∀ x : Vpn, x.num * 4096 < lim → Present (view k.mem d x)
  high : ∀ x : Vpn, x.User → lim ≤ x.num * 4096 → ¬ Present (view k.mem d x)
  curDir : own cur = .dir
  curKern : Kern L k.mem cur
  ne : cur ≠ d

theorem Kern.congr {m m' : Word → Page} (h : Kern L m d) (hv : view m' d = view m d) : Kern L m' d := by
  intro x hx
  rw [hv]
  exact h x hx

/-- A user page is written: no address space changes. -/
theorem Owns.writeFrame (h : Owns L own k) (hp : own p = .frame d x) (c : Page) :
    Owns L own (k.setPage p c) ∧ (∀ e, own e = .dir → view (k.setPage p c).mem e = view k.mem e) ∧
      Local d own k own (k.setPage p c) := by
  have hne : ¬ (own p).Entries ∧ own p ≠ .free := by
    rw [hp]
    exact ⟨id, nofun⟩
  have hm : ∀ q, (own q).Entries → (k.setPage p c).mem q = k.mem q := by
    intro q hq
    refine Kmem.setPage_of_ne ?_
    rintro rfl
    exact hne.1 hq
  refine ⟨h.scribble c hne, fun e he => ?_, fun q => .inl rfl, fun q hq => ?_⟩
  · exact h.view_congr he (hm e (by rw [he]; trivial)) fun i t ht => hm t (by rw [ht]; trivial)
  · refine Kmem.setPage_of_ne ?_
    rintro rfl
    rw [hp] at hq
    exact hq mine_frame

namespace Draft

section

variable (h : Draft L cur d own k lim)
include h

theorem keep_cur (hloc : Local d own k own' k') : own' cur = .dir ∧ Kern L k'.mem cur := by
  refine ⟨?_, h.curKern.congr (hloc.view h.owns (.inl h.dir) h.curDir h.ne)⟩
  exact hloc.keep_dir h.curDir h.ne

theorem write (hp : own p = .frame d x) (c : Page) :
    Draft L cur d own (k.setPage p c) lim ∧ Local d own k own (k.setPage p c) := by
  obtain ⟨ho, hview, hloc⟩ := h.owns.writeFrame hp c
  have hd := hview d h.dir
  refine ⟨⟨ho, h.dir, h.kern.congr hd, ?_, ?_, h.curDir, h.curKern.congr (hview cur h.curDir), h.ne⟩,
    hloc⟩
  · rw [hd]
    exact h.low
  · rw [hd]
    exact h.high

theorem poke (hp : own p = .frame d x) (f : Page → Page) :
    Meets (poke cur p f) k
      (fun _ k' => Draft L cur d own k' lim ∧ Local d own k own k') fun _ => False := by
  have hpool : Pool L p := h.owns.pool_of hp nofun
  refine of_bind (of_get ?_)
  rw [h.curKern.pool hpool]
  exact of_modify (h.write hp _)

/-- A page below the limit is a user page. -/
theorem mapped (hva : va.toNat < lim) : Present (view k.mem d (vpn va)) := by
  refine h.low _ ?_
  rw [num_vpn]
  omega

theorem frame (hva : va.toNat < lim) (hlim : lim ≤ 2 ^ 31) :
    own (P2V (PTE_ADDR (view k.mem d (vpn va)))) = .frame d (vpn va) :=
  h.owns.frame.mpr ⟨h.dir, user_vpn.mpr (Nat.lt_of_lt_of_le hva hlim),
    target_eq_some.mpr ⟨h.mapped hva, rfl⟩⟩

end

end Draft

/-! ## `copyout` -/

/-- `uva2ka` where there is an entry: a user page of `d`, or null. -/
theorem uva2ka_meets (h : Draft L cur d own k lim) (hp : Present (view k.mem d (vpn va))) :
    Meets (uva2ka cur d va) k (fun r k' => k' = k ∧
      (r = 0 ∨ (vpn va).User ∧ own r = .frame d (vpn va))) fun _ => False := by
  refine call (walk_meets h.owns h.dir va) (fun _ => id) ?_
  rintro r k₁ ⟨rfl, ⟨rfl, hnone⟩ | ⟨t, rfl, ht⟩⟩
  · rw [view_of_none hnone] at hp
    exact absurd hp not_present_zero
  have hentry : k₁.mem t (PTX va) = view k₁.mem d (vpn va) := (h.owns.view_eq ht _).symm
  refine load_bind ?_
  rw [hentry]
  refine of_ite (fun _ => ?_) (absurd hp)
  refine of_ite (fun _ => of_pure ⟨rfl, .inl rfl⟩) fun hu => of_pure ⟨rfl, .inr ?_⟩
  have huser : (vpn va).User := by
    by_contra hk
    rw [h.kern _ hk] at hu
    exact hu (kmapWord_user L.kmap_ok _)
  exact ⟨huser, h.owns.frame.mpr ⟨h.dir, huser, target_eq_some.mpr ⟨hp, rfl⟩⟩⟩

/-- A turn of `copyout` ends at the end of the page or of the bytes. -/
theorem toNat_chunk (va len : Word) :
    (chunk va len).toNat = min len.toNat (4096 - va.toNat % 4096) := by
  have hdown := toNat_PGROUNDDOWN va
  have hoff : (va - PGROUNDDOWN va).toNat = va.toNat % 4096 := by
    rw [BitVec.toNat_sub, hdown]
    omega
  have hroom : (PGSIZE - (va - PGROUNDDOWN va)).toNat = 4096 - va.toNat % 4096 := by
    rw [BitVec.toNat_sub, hoff]
    show (2 ^ 32 - va.toNat % 4096 + 4096) % 2 ^ 32 = _
    omega
  unfold chunk
  split
  · rename_i h
    have h' : len.toNat < (PGSIZE - (va - PGROUNDDOWN va)).toNat := h
    omega
  · rename_i h
    have h' : ¬ len.toNat < (PGSIZE - (va - PGROUNDDOWN va)).toNat := h
    omega

/-- **The loop of `copyout`** below the limit: it writes user pages of `d`. -/
theorem copyoutLoop_meets (hlim : lim ≤ 2 ^ 31) (text : Word → Page → Page) (n : Nat) :
    ∀ {k : Kmem} {va len : Word}, Draft L cur d own k lim →
    (len.toNat = 0 ∨ va.toNat + len.toNat ≤ lim) → len.toNat + va.toNat % 4096 ≤ 4096 * n →
    Meets (copyoutLoop cur d text (n + 1) va len) k
      (fun _ k' => Draft L cur d own k' lim ∧ Local d own k own k') fun _ => False := by
  induction n with
  | zero =>
    intro k va len h hend hn
    refine of_ite (fun hpos => ?_) fun _ => of_pure ⟨h, .refl⟩
    have hpos' : 0 < len.toNat := hpos
    omega
  | succ n ih =>
    intro k va len h hend hn
    refine of_ite (fun hpos => ?_) fun _ => of_pure ⟨h, .refl⟩
    have hpos' : 0 < len.toNat := hpos
    have hdown := toNat_PGROUNDDOWN va
    refine call (uva2ka_meets h (h.mapped (by omega))) (fun _ => id) ?_
    rintro pa k₁ ⟨rfl, hpa⟩
    refine of_ite (fun _ => of_pure ⟨h, .refl⟩) fun hne => ?_
    refine call (h.poke (hpa.resolve_left hne).2 _) (fun _ => id) ?_
    rintro _ k₂ ⟨h₂, hloc₂⟩
    have hchunk := toNat_chunk va len
    have hlen : (len - chunk va len).toNat = len.toNat - (chunk va len).toNat := by
      rw [BitVec.toNat_sub_of_le]
      show (chunk va len).toNat ≤ len.toNat
      omega
    have hnext : (PGROUNDDOWN va + PGSIZE).toNat = va.toNat / 4096 * 4096 + 4096 := by
      show (_ + 4096) % 2 ^ 32 = _
      omega
    refine mono (ih h₂ (by omega) (by omega)) ?_ fun _ => id
    rintro _ k' ⟨h', hloc'⟩
    exact ⟨h', hloc₂.trans hloc'⟩

/-- **`copyout` from a stack pointer `sp` down by `size`**: it stays below the limit, or the
pointer has wrapped to the devices, where no page is the user's. -/
theorem copyout_meets (hlim : lim ≤ 2 ^ 31) (text : Word → Page → Page)
    (h : Draft L cur d own k lim) {sp len : Word} (hsp : sp.toNat ≤ lim) (hlen : 0 < len.toNat)
    (hva : va.toNat + len.toNat ≤ sp.toNat ∨ DEVSPACE ≤ va) :
    Meets (copyout cur d va len text) k (fun ok k' => Draft L cur d own k' lim ∧
      Local d own k own k' ∧ (ok = true → va.toNat ≤ lim)) fun _ => False := by
  rcases hva with hva | hva
  · refine mono (copyoutLoop_meets hlim text (2 ^ 20) h (.inr (by omega)) (by omega)) ?_ fun _ => id
    rintro ok k' ⟨h', hloc⟩
    exact ⟨h', hloc, fun _ => by omega⟩
  · have hva' : 0xFE000000 ≤ va.toNat := hva
    have hdown := toNat_PGROUNDDOWN va
    have hnum := num_vpn (PGROUNDDOWN va)
    have hkernel : ¬ (vpn (PGROUNDDOWN va)).User := by
      rw [user_vpn]
      show ¬ (PGROUNDDOWN va).toNat < 0x80000000
      omega
    have hp : Present (view k.mem d (vpn (PGROUNDDOWN va))) := by
      have hmem : (⟨DEVSPACE, DEVSPACE, 0, PTE_W⟩ : Kmap) ∈ L.kmap := by simp [Link.kmap]
      rw [h.kern _ hkernel]
      refine present_kmapWord hmem ?_
      rw [Kmap.covers_base (L.kmap_ok _ hmem)]
      show 0xFE000000 ≤ _ ∧ _ < 0xFE000000 + 0x2000000
      omega
    refine of_ite (fun _ => call (uva2ka_meets h hp) (fun _ => id) ?_) (absurd hlen)
    rintro pa k₁ ⟨rfl, hpa⟩
    refine of_ite (fun _ => of_pure ⟨h, .refl, by simp⟩) fun hne => ?_
    exact absurd (hpa.resolve_left hne).1 hkernel

/-- Moving a stack pointer down by a short size and to a multiple of 4. -/
theorem below_or_devices {sp size : Word} (hsize : size.toNat + 3 ≤ 0x2000000)
    (hva : va = (sp - size) &&& ~~~ 3 ∨ va = sp - size) :
    va.toNat + size.toNat ≤ sp.toNat ∨ DEVSPACE ≤ va := by
  have hsub : (sp - size).toNat = (2 ^ 32 - size.toNat + sp.toNat) % 2 ^ 32 := BitVec.toNat_sub ..
  have hround : ((sp - size) &&& ~~~ 3).toNat = (sp - size).toNat / 4 * 4 :=
    and_not_mask _ 2
  show _ ∨ 0xFE000000 ≤ va.toNat
  rcases hva with rfl | rfl <;> omega

/-- **The loop over the arguments.** -/
theorem pushArgs_meets (hlim : lim ≤ 2 ^ 31) (as : List Arg) : ∀ {k : Kmem} {argc : Nat} {sp : Word},
    Draft L cur d own k lim → (∀ a ∈ as, a.Short) → argc ≤ MAXARG → sp.toNat ≤ lim →
    Meets (pushArgs cur d as argc sp) k (fun r k' => Draft L cur d own k' lim ∧
      Local d own k own k' ∧ ∀ n sp', r = some (n, sp') → n ≤ MAXARG ∧ sp'.toNat ≤ lim)
      fun _ => False := by
  induction as with
  | nil =>
    intro k argc sp h _ hargc hsp
    refine of_pure ⟨h, .refl, fun n sp' hr => ?_⟩
    cases hr
    exact ⟨hargc, hsp⟩
  | cons a as ih =>
    intro k argc sp h hshort hargc hsp
    refine of_ite (fun _ => of_pure ⟨h, .refl, nofun⟩) fun hlt => ?_
    have ha : a.len.toNat + 4 ≤ 0x2000000 := hshort a List.mem_cons_self
    have hsize : (a.len + 1).toNat = a.len.toNat + 1 := by
      show (a.len.toNat + 1) % 2 ^ 32 = _
      omega
    refine call (copyout_meets hlim a.text h hsp (by omega)
      (below_or_devices (by omega) (.inl rfl))) (fun _ => id) ?_
    rintro (_ | _) k₁ ⟨h₁, hloc₁, hle⟩
    · exact of_false (of_pure ⟨h₁, hloc₁, nofun⟩)
    · refine of_true (mono (ih h₁ (fun b hb => hshort b (List.mem_cons_of_mem _ hb))
        (Nat.lt_of_not_le hlt) (hle rfl)) ?_ fun _ => id)
      rintro r k' ⟨h', hloc', hr⟩
      exact ⟨h', hloc₁.trans hloc', hr⟩

/-! ## `loaduvm` and `allocuvm` -/

/-- **The loop of `loaduvm`** below the limit: it writes user pages of `d`. -/
theorem loadLoop_meets (hlim : lim ≤ 2 ^ 31) {addr sz : Word} (hsz : addr.toNat + sz.toNat ≤ lim)
    (text : Word → Page → Page) (whole : Word → Bool) (n : Nat) :
    ∀ {k : Kmem} {i : Word}, Draft L cur d own k lim → sz.toNat ≤ i.toNat + 4096 * n →
    Meets (loadLoop cur d addr sz text whole (n + 1) i) k
      (fun _ k' => Draft L cur d own k' lim ∧ Local d own k own k') fun _ => False := by
  induction n with
  | zero =>
    intro k i h hn
    refine of_ite (fun hlt => ?_) fun _ => of_pure ⟨h, .refl⟩
    have hlt' : i.toNat < sz.toNat := hlt
    omega
  | succ n ih =>
    intro k i h hn
    refine of_ite (fun hlt => ?_) fun _ => of_pure ⟨h, .refl⟩
    have hlt' : i.toNat < sz.toNat := hlt
    have hsum : (addr + i).toNat = addr.toNat + i.toNat := by
      rw [BitVec.toNat_add]
      omega
    have hnext : (i + PGSIZE).toNat = i.toNat + 4096 := by
      show (i.toNat + 4096) % 2 ^ 32 = _
      omega
    have hin : (addr + i).toNat < lim := by omega
    refine call (walk_meets h.owns h.dir (addr + i)) (fun _ => id) ?_
    rintro r k₁ ⟨rfl, ⟨rfl, hnone⟩ | ⟨t, rfl, ht⟩⟩
    · have hp := h.mapped hin
      rw [view_of_none hnone] at hp
      exact absurd hp not_present_zero
    have hentry : k₁.mem t (PTX (addr + i)) = view k₁.mem d (vpn (addr + i)) :=
      (h.owns.view_eq ht _).symm
    refine load_bind ?_
    rw [hentry]
    refine call (h.poke (h.frame hin hlim) _) (fun _ => id) ?_
    rintro _ k₂ ⟨h₂, hloc₂⟩
    refine of_ite (fun _ => ?_) fun _ => of_pure ⟨h₂, hloc₂⟩
    refine mono (ih h₂ (by omega)) ?_ fun _ => id
    rintro _ k' ⟨h', hloc'⟩
    exact ⟨h', hloc₂.trans hloc'⟩

namespace Draft

/-- The limit may be rounded up to a page. -/
theorem round (h : Draft L cur d own k lim) {lim' : Nat} (hlim : lim ≤ lim')
    (hpage : lim' < lim + 4096) (hmod : lim' % 4096 = 0) : Draft L cur d own k lim' :=
  ⟨h.owns, h.dir, h.kern, fun x hx => h.low x (by omega), fun x hu hx => h.high x hu (by omega),
    h.curDir, h.curKern, h.ne⟩

/-- **`allocuvm`** from the limit on: the limit is the new size. -/
theorem alloc {oldsz : Word} (h : Draft L cur d own k oldsz.toNat) (hold : oldsz.toNat ≤ 2 ^ 31)
    (newsz : Word) : Meets (allocuvm L d oldsz newsz) k (fun r k' => ∃ own', Owns L own' k' ∧
      own' d = .dir ∧ Local d own k own' k' ∧
      (r ≠ 0 → newsz.toNat ≤ r.toNat ∧ r.toNat ≤ 2 ^ 31 ∧ Draft L cur d own' k' r.toNat))
      fun _ => False := by
  have hup := toNat_PGROUNDUP (a := oldsz) (by omega)
  refine mono (allocuvm_meets h.owns h.dir oldsz newsz) ?_ ?_
  · rintro r k' ⟨own', h', hd', hloc, hr⟩
    refine ⟨own', h', hd', hloc, fun hne => ?_⟩
    rcases hr with ⟨hr, -⟩ | ⟨hlt, rfl, rfl⟩ | ⟨hle, hlt, rfl, hfill, -⟩
    · exact absurd hr hne
    · have hlt' : newsz.toNat < r.toNat := hlt
      obtain ⟨hcd, hck⟩ := h.keep_cur hloc
      exact ⟨hlt'.le, hold, h', hd', h.kern, h.low, h.high, hcd, hck, h.ne⟩
    · have hle' : oldsz.toNat ≤ r.toNat := hle
      have hlt' : r.toNat < 2 ^ 31 := hlt
      obtain ⟨hcd, hck⟩ := h.keep_cur hloc
      refine ⟨le_rfl, hlt'.le, h', hd', ?_, fun x hx => ?_, fun x hu hx => ?_, hcd, hck, h.ne⟩
      · exact h.kern.of_outside hlt'.le fun x hx => (hfill x).2 hx
      · by_cases hin : x.In (PGROUNDUP oldsz).toNat r.toNat
        · exact (hfill x).1 hin
        · rw [(hfill x).2 hin]
          refine h.low x ?_
          unfold Vpn.In at hin
          omega
      · rw [(hfill x).2 fun hin => absurd hin.2 (Nat.not_lt.mpr hx)]
        exact h.high x hu (hle'.trans hx)
  · rintro _ ⟨hlt, x, hin, hp⟩
    have hlt' : newsz.toNat < 2 ^ 31 := hlt
    have hin₁ := hin.1
    have hin₂ := hin.2
    refine h.high x ?_ (by omega) hp
    unfold Vpn.num at hin₂
    unfold Vpn.User
    omega

/-- **`clearpteu`** on a page below the limit. -/
theorem clear (h : Draft L cur d own k lim) (hlim : lim ≤ 2 ^ 31) {uva : Word} (hu : uva.toNat < lim) :
    Meets (clearpteu d uva) k (fun _ k' => Draft L cur d own k' lim ∧ Local d own k own k')
      fun _ => False := by
  refine mono (clearpteu_meets h.owns h.dir uva) ?_ fun _ hc => hc (h.mapped hu)
  rintro _ k' ⟨h', hloc, hview⟩
  have huser : (vpn uva).User := user_vpn.mpr (Nat.lt_of_lt_of_le hu hlim)
  have hpres : ∀ x, Present (view k'.mem d x) ↔ Present (view k.mem d x) := by
    intro x
    rw [hview]
    rcases eq_or_ne x (vpn uva) with rfl | hx
    · rw [Function.update_self]
      exact present_and_not_user _
    · rw [Function.update_of_ne hx]
  obtain ⟨hcd, hck⟩ := h.keep_cur hloc
  refine ⟨⟨h', h.dir, fun x hx => ?_, fun x hx => (hpres x).mpr (h.low x hx),
    fun x hux hx hp => h.high x hux hx ((hpres x).mp hp), hcd, hck, h.ne⟩, hloc⟩
  rw [hview, Function.update_of_ne]
  · exact h.kern x hx
  · rintro rfl
    exact hx huser

end Draft

/-! ## `exec` -/

/-- **What a part of `exec` leaves**: an address space that can be freed, and a draft of the
size it returns. -/
def Leaves (L : Link) (cur d : Word) (own : Word → Owner) (k : Kmem) (r : Option Word) (k' : Kmem) :
    Prop :=
  ∃ own', Owns L own' k' ∧ own' d = .dir ∧ Local d own k own' k' ∧
    ∀ sz, r = some sz → sz.toNat ≤ 2 ^ 31 ∧ Draft L cur d own' k' sz.toNat

theorem Leaves.after {own₁ : Word → Owner} {k₁ : Kmem} {r : Option Word}
    (h : Leaves L cur d own₁ k₁ r k') (hloc : Local d own k own₁ k₁) : Leaves L cur d own k r k' := by
  obtain ⟨own', h', hd', hloc', hr⟩ := h
  exact ⟨own', h', hd', hloc.trans hloc', hr⟩

theorem Draft.leaves (h : Draft L cur d own k lim) : Leaves L cur d own k none k :=
  ⟨own, h.owns, h.dir, .refl, nofun⟩

/-- **The loop over the program headers.** -/
theorem loadSegments_meets (f : Image) (n : Nat) :
    ∀ {own : Word → Owner} {k : Kmem} {i : Nat} {sz : Word}, Draft L cur d own k sz.toNat →
    sz.toNat ≤ 2 ^ 31 →
    Meets (loadSegments L cur d f n i sz) k (Leaves L cur d own k) fun _ => False := by
  induction n with
  | zero =>
    intro own k i sz h hsz
    refine of_pure ⟨own, h.owns, h.dir, .refl, fun sz' hr => ?_⟩
    cases hr
    exact ⟨hsz, h⟩
  | succ n ih =>
    intro own k i sz h hsz
    unfold loadSegments
    cases f.ph i with
    | none => exact of_pure h.leaves
    | some ph =>
      refine of_ite (fun _ => ih h hsz) fun _ => ?_
      refine of_ite (fun _ => of_pure h.leaves) fun hfile => ?_
      refine of_ite (fun _ => of_pure h.leaves) fun hwrap => ?_
      refine call (h.alloc hsz _) (fun _ => id) ?_
      rintro r k₁ ⟨own₁, h₁, hd₁, hloc₁, hr⟩
      refine of_ite (fun _ => of_pure ⟨own₁, h₁, hd₁, hloc₁, nofun⟩) fun hne => ?_
      obtain ⟨hle, hmax, hdraft⟩ := hr hne
      refine of_ite (fun _ => of_pure (hdraft.leaves.after hloc₁)) fun halign => ?_
      have hfile' : ¬ ph.memsz.toNat < ph.filesz.toNat := hfile
      have hwrap' : ¬ (ph.vaddr + ph.memsz).toNat < ph.vaddr.toNat := hwrap
      have hsum := BitVec.toNat_add ph.vaddr ph.memsz
      have hend : ph.vaddr.toNat + ph.filesz.toNat ≤ r.toNat := by omega
      have hload := loadLoop_meets hmax hend (f.text i) (f.whole i) (2 ^ 20) (i := 0) hdraft
        (by omega)
      refine call (of_ite (fun hc => absurd hc halign) fun _ => hload) (fun _ => id) ?_
      rintro (_ | _) k₂ ⟨h₂, hloc₂⟩
      · exact of_false (of_pure (h₂.leaves.after (hloc₁.trans hloc₂)))
      · refine of_true (mono (ih h₂ hmax) ?_ fun _ => id)
        intro r k' hr
        exact hr.after (hloc₁.trans hloc₂)

/-- **The stack and the arguments.** -/
theorem pushStack_meets {sz : Word} (h : Draft L cur d own k sz.toNat) (hsz : sz.toNat ≤ 2 ^ 31)
    {argv : Argv} (hargs : ∀ a ∈ argv.args, a.Short) :
    Meets (pushStack L cur d sz argv) k (Leaves L cur d own k) fun _ => False := by
  have hup := toNat_PGROUNDUP (a := sz) (by omega)
  have h₀ : Draft L cur d own k (PGROUNDUP sz).toNat := h.round (by omega) (by omega) (by omega)
  have hsum : (PGROUNDUP sz + 2 * PGSIZE).toNat = (PGROUNDUP sz).toNat + 8192 := by
    show ((PGROUNDUP sz).toNat + 8192) % 2 ^ 32 = _
    omega
  refine call (h₀.alloc (by omega) _) (fun _ => id) ?_
  rintro r k₁ ⟨own₁, h₁, hd₁, hloc₁, hr⟩
  refine of_ite (fun _ => of_pure ⟨own₁, h₁, hd₁, hloc₁, nofun⟩) fun hne => ?_
  obtain ⟨hle, hmax, hdraft⟩ := hr hne
  have hguard : (r - 2 * PGSIZE).toNat < r.toNat := by
    show (2 ^ 32 - 8192 + r.toNat) % 2 ^ 32 < r.toNat
    omega
  refine call (hdraft.clear hmax hguard) (fun _ => id) ?_
  rintro _ k₂ ⟨h₂, hloc₂⟩
  refine call (pushArgs_meets hmax argv.args h₂ hargs (Nat.zero_le _) le_rfl) (fun _ => id) ?_
  rintro (_ | ⟨argc, sp⟩) k₃ ⟨h₃, hloc₃, hend⟩
  · exact of_pure (h₃.leaves.after ((hloc₁.trans hloc₂).trans hloc₃))
  obtain ⟨hargc, hsp⟩ := hend argc sp rfl
  have hargc' : argc ≤ 32 := hargc
  have hlen : (ustackLen argc).toNat = (3 + argc + 1) * 4 := by
    rw [ustackLen, BitVec.toNat_ofNat]
    omega
  refine call (copyout_meets hmax argv.ustack h₃ hsp (by omega)
    (below_or_devices (by omega) (.inr rfl))) (fun _ => id) ?_
  rintro (_ | _) k₄ ⟨h₄, hloc₄, -⟩
  · exact of_false (of_pure (h₄.leaves.after (((hloc₁.trans hloc₂).trans hloc₃).trans hloc₄)))
  · refine of_true (of_pure ⟨own₁, h₄.owns, h₄.dir, ((hloc₁.trans hloc₂).trans hloc₃).trans hloc₄,
      fun sz' hr => ?_⟩)
    cases hr
    exact ⟨hmax, h₄⟩

/-- The address space that `setupkvm` has made. -/
theorem Draft.start {own₁ : Word → Owner} {k₁ : Kmem} (h : Owns L own k) (hfree : own d = .free)
    (hc : own cur = .dir) (hk : Kern L k.mem cur) (h₁ : Owns L own₁ k₁) (hd₁ : own₁ d = .dir)
    (hloc : Local d own k own₁ k₁) (hkern : Kern L k₁.mem d)
    (huser : ∀ x : Vpn, x.User → view k₁.mem d x = 0) : Draft L cur d own₁ k₁ (0 : Word).toNat := by
  have hne : cur ≠ d := ne_of_owner hc hfree nofun
  refine ⟨h₁, hd₁, hkern, fun x hx => absurd hx (Nat.not_lt_zero _), fun x hx _ => ?_, ?_,
    hk.congr (hloc.view h (.inr (.inl hfree)) hc hne), hne⟩
  · rw [huser x hx]
    exact not_present_zero
  · exact hloc.keep_dir hc hne

/-- What `exec` does when it succeeds: it goes over a state with both address spaces. -/
structure Switched (L : Link) (cur d sz : Word) (own : Word → Owner) (k : Kmem) (own' : Word → Owner)
    (k' : Kmem) (own₁ : Word → Owner) (k₁ : Kmem) : Prop where
  fresh : own d = .free
  size : sz.toNat ≤ 2 ^ 31
  built : Local d own k own₁ k₁
  draft : Draft L cur d own₁ k₁ sz.toNat
  freed : Local cur own₁ k₁ own' k'
  owns : Owns L own' k'
  gone : own' cur = .free

/-- **`exec`** never stops the machine, given strings that are not too long.  If it fails,
every page is where it was. -/
theorem exec_meets (h : Owns L own k) (hc : own cur = .dir) (hk : Kern L k.mem cur)
    (file : Option Image) {argv : Argv} (hargs : ∀ a ∈ argv.args, a.Short) :
    Meets (exec L cur file argv) k (fun r k' =>
      r = none ∧ Owns L own k' ∧ (∀ q, own q ≠ .free → k'.mem q = k.mem q) ∨
      ∃ d sz own' own₁ k₁, r = some (d, sz) ∧ Switched L cur d sz own k own' k' own₁ k₁)
      fun _ => False := by
  have hbad : Meets (pure none : M (Option (Word × Word))) k (fun r k' =>
      r = none ∧ Owns L own k' ∧ (∀ q, own q ≠ .free → k'.mem q = k.mem q) ∨
      ∃ d sz own' own₁ k₁, r = some (d, sz) ∧ Switched L cur d sz own k own' k' own₁ k₁)
      fun _ => False := of_pure (.inl ⟨rfl, h, fun _ _ => rfl⟩)
  unfold exec
  cases file with
  | none => exact hbad
  | some f =>
    dsimp only
    cases f.elf with
    | none => exact hbad
    | some elf =>
      refine of_ite (fun _ => hbad) fun _ => ?_
      refine call (setupkvm_meets h) (fun _ => id) ?_
      rintro d k₁ (⟨rfl, h₁, hmem, -⟩ | ⟨hfree, own₁, h₁, hd₁, hloc₁, hkern, huser, -⟩)
      · exact of_ite (fun _ => of_pure (.inl ⟨rfl, h₁, hmem⟩)) (absurd rfl)
      refine of_neg (h.ne_zero hfree nofun) ?_
      have hdraft := Draft.start h hfree hc hk h₁ hd₁ hloc₁ hkern huser
      have hbuild : Meets (buildImage L cur d f elf.phnum.toNat argv) k₁ (Leaves L cur d own₁ k₁)
          fun _ => False := by
        refine call (loadSegments_meets f _ hdraft (Nat.zero_le _)) (fun _ => id) ?_
        rintro (_ | sz) k₂ ⟨own₂, h₂, hd₂, hloc₂, hr⟩
        · exact of_pure ⟨own₂, h₂, hd₂, hloc₂, nofun⟩
        · obtain ⟨hsz, hdraft₂⟩ := hr sz rfl
          exact mono (pushStack_meets hdraft₂ hsz hargs) (fun _ _ hl => hl.after hloc₂) fun _ => id
      refine call hbuild (fun _ => id) ?_
      rintro (_ | sz) k₂ ⟨own₂, h₂, hd₂, hloc₂, hr⟩
      · refine call (freevm_meets h₂ hd₂) (fun _ => id) ?_
        rintro _ k₃ ⟨own₃, h₃, hd₃, hloc₃⟩
        have hall := (hloc₁.trans hloc₂).trans hloc₃
        have hsame : own₃ = own := hall.restored h hfree h₃ hd₃
        subst hsame
        exact of_pure (.inl ⟨rfl, h₃, fun q hq => hall.mem q fun hm => hq (h.free_of_mine hfree hm)⟩)
      · obtain ⟨hsz, hdraft₂⟩ := hr sz rfl
        refine call (freevm_meets h₂ hdraft₂.curDir) (fun _ => id) ?_
        rintro _ k₃ ⟨own₃, h₃, hc₃, hloc₃⟩
        exact of_pure (.inr ⟨d, sz, own₃, own₂, k₂, rfl, hfree, hsz, hloc₁.trans hloc₂, hdraft₂,
          hloc₃, h₃, hc₃⟩)

end

end Xv6.Vm
