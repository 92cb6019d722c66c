/-
# `Xv6.Mmap.Table` — the mapping table of a process, and `mmap`

`mmap` and `find_free_mmt_entry` of `proc.c`.  A process has one page for its
`struct mme` entries; those in use are a doubly linked list from `p->mme`, whose
first entry points back to itself and whose last points on to 0.  An empty list
is the pointer -1.

Memory is a map from pointers to the entries at them: every pointer the code
computes is the start of the page plus a multiple of the size of an entry, or
one of the two end marks, so that two of them name the same entry or do not
overlap.  Reading never fails, also where there is no entry: what is there is
then anything.  An `int` is a word, with the signed order where the source
compares `int`s.

`mmap` asks for a free slot and then goes on only if there is none:
`find_free_mmt_entry` reports failure by -1, and `entry < (struct mme*) -1` is
true of every other pointer.  So no call of `mmap` makes a mapping
(`mmap_never_maps`), and the calls that get past the test and fail later leave
`p->space` advanced (`failed_mmap`).
-/
import Xv6.Fs.Kernel
import Xv6.Lib.Dlist
import Xv6.Vm.Kalloc

namespace Xv6.Mmap

open Vm (Word PGSIZE KERNBASE PGROUNDDOWN)
open Fs (InodeId)
open Function (update)

/-! ## The table -/

/-- `struct mme`.  `ip` is `none` where the pointer is to no inode. -/
structure Mme where
  addr : Word
  sz : Word
  mflags : Word
  offset : Word
  prev : Word
  next : Word
  ip : Option InodeId
  fd : Word
  dirty : Word
  deriving DecidableEq

/-- `sizeof(struct mme)`. -/
def MMESIZE : Nat := 36

def MAP_PRIVATE : Word := 0
def MAP_SHARED : Word := 1
def MAP_FILE : Word := 2

/-- What these functions use of `struct proc`.  `fileIp fd` and `fileSize fd` are what
`p->ofile[fd]->ip` and `p->ofile[fd]->ip->size` read. -/
structure Proc where
  sz : Word
  pgdir : Word
  mmtStart : Word
  mme : Word
  space : Word
  killed : Bool
  fileIp : Word → Option InodeId
  fileSize : Word → Word

/-- The process, the entries in memory, the page tables, and the bytes of the process. -/
structure State where
  p : Proc
  node : Word → Mme
  k : Vm.Kmem
  user : Word → UInt8

/-- The `i`th slot of a table, `start + i`. -/
def slot (start : Word) (i : Nat) : Word := start + BitVec.ofNat 32 (MMESIZE * i)

namespace State

def modify (s : State) (q : Word) (f : Mme → Mme) : State :=
  { s with node := update s.node q (f (s.node q)) }

/-- `p->mme = q`. -/
def setMme (s : State) (q : Word) : State := { s with p := { s.p with mme := q } }

/-- `p->space = n`. -/
def setSpace (s : State) (n : Word) : State := { s with p := { s.p with space := n } }

variable (s : State) (q n : Word) (f : Mme → Mme)

@[simp] theorem modify_p : (s.modify q f).p = s.p := rfl
@[simp] theorem modify_k : (s.modify q f).k = s.k := rfl
@[simp] theorem modify_user : (s.modify q f).user = s.user := rfl
@[simp] theorem setMme_mme : (s.setMme q).p.mme = q := rfl
@[simp] theorem setMme_space : (s.setMme q).p.space = s.p.space := rfl
@[simp] theorem setMme_node : (s.setMme q).node = s.node := rfl
@[simp] theorem setSpace_mme : (s.setSpace n).p.mme = s.p.mme := rfl
@[simp] theorem setSpace_space : (s.setSpace n).p.space = n := rfl
@[simp] theorem setSpace_fileSize : (s.setSpace n).p.fileSize = s.p.fileSize := rfl
@[simp] theorem setSpace_node : (s.setSpace n).node = s.node := rfl

theorem modify_self : (s.modify q f).node q = f (s.node q) := Function.update_self ..

theorem modify_of_ne {s : State} {q r : Word} {f : Mme → Mme} (h : r ≠ q) :
    (s.modify q f).node r = s.node r :=
  Function.update_of_ne h ..

end State

/-- **The list of mappings is `l`**, and well formed. -/
structure Listed (s : State) (l : List Word) : Prop where
  head : s.p.mme = l.headD (-1)
  links : Dlist.Seg (fun q => (s.node q).prev) (fun q => (s.node q).next) 0 s.p.mme l
  nodup : l.Nodup
  real : ∀ q ∈ l, q ≠ 0 ∧ q ≠ -1
  addrs : (l.map fun q => (s.node q).addr).Nodup

/-- Two entries record the same mapping. -/
def Mme.Same (e e' : Mme) : Prop :=
  e.addr = e'.addr ∧ e.sz = e'.sz ∧ e.mflags = e'.mflags ∧ e.offset = e'.offset ∧ e.ip = e'.ip ∧
    e.fd = e'.fd ∧ e.dirty = e'.dirty

/-! ## Finding a slot -/

/-- The values of `i` in the loop of `find_free_mmt_entry`. -/
def probes : List Nat := (List.range 114).map (MMESIZE * ·)

/-- The loop of `find_free_mmt_entry`: `entry` does not move. -/
def findLoop (node : Word → Mme) (entry : Word) : List Nat → Word
  | [] => -1
  | i :: is => if (node (slot entry i)).prev = 0 then entry else findLoop node entry is

def findFreeMmtEntry (node : Word → Mme) (start : Word) : Word := findLoop node start probes

theorem findLoop_eq (node : Word → Mme) (entry : Word) (is : List Nat) : findLoop node entry is =
    if ∃ i ∈ is, (node (slot entry i)).prev = 0 then entry else -1 := by
  induction is with
  | nil => simp [findLoop]
  | cons i is ih =>
    rw [findLoop, ih]
    by_cases hi : (node (slot entry i)).prev = 0
    · rw [if_pos hi, if_pos ⟨i, List.mem_cons_self, hi⟩]
    · rw [if_neg hi]
      simp only [List.exists_mem_cons_iff, hi, false_or]

/-- A slot that is found is the first one, whichever of them was free. -/
theorem findFreeMmtEntry_eq (node : Word → Mme) (start : Word) : findFreeMmtEntry node start =
    if ∃ i ∈ probes, (node (slot start i)).prev = 0 then start else -1 :=
  findLoop_eq node start probes

/-- The number of slots that lie wholly inside the page. -/
def NSLOTS : Nat := 113

/-- The slots whose `prev` the loop reads, in order. -/
def findReads (node : Word → Mme) (entry : Word) : List Nat → List Nat
  | [] => []
  | i :: is => i :: if (node (slot entry i)).prev = 0 then [] else findReads node entry is

/-- What `find_free_mmt_entry` is for: it reads the page only, finds a slot that is free, and fails
if there is none.  `prev` is the bytes 16 to 19 of an entry. -/
structure FindsFree (node : Word → Mme) (start : Word) : Prop where
  reads : ∀ i ∈ findReads node start probes, MMESIZE * i + 20 ≤ PGSIZE.toNat
  found : (∃ i, i < NSLOTS ∧ (node (slot start i)).prev = 0) → ∃ i, i < NSLOTS ∧
    findFreeMmtEntry node start = slot start i ∧ (node (slot start i)).prev = 0
  failed : findFreeMmtEntry node start = -1 ↔ ∀ i, i < NSLOTS → (node (slot start i)).prev ≠ 0

theorem slot_zero (start : Word) : slot start 0 = start := BitVec.add_zero start

/-- **`find_free_mmt_entry` does what it is for only if the first slot is free.**  The loop counts
bytes and takes them for slots, so it looks at every 36th slot, and behind the page from the fifth
turn on; and what it returns is the first slot. -/
theorem findsFree_iff (node : Word → Mme) {start : Word} (hpage : start % PGSIZE = 0) :
    FindsFree node start ↔ (node start).prev = 0 := by
  have hprobes : probes = 0 :: 36 :: 72 :: 108 :: 144 :: (List.range' 5 109).map (MMESIZE * ·) := by
    decide
  constructor
  · intro h
    by_contra hused
    have hfirst : (node (slot start 0)).prev ≠ 0 := by rwa [slot_zero]
    by_cases hprobe : ∃ i ∈ [36, 72, 108], (node (slot start i)).prev = 0
    · obtain ⟨i, hi, hfree⟩ := hprobe
      have hin : i < NSLOTS ∧ i ∈ probes :=
        (by decide : ∀ i ∈ [36, 72, 108], i < NSLOTS ∧ i ∈ probes) i hi
      obtain ⟨j, -, hj, hzero⟩ := h.found ⟨i, hin.1, hfree⟩
      rw [← hj, findFreeMmtEntry_eq, if_pos ⟨i, hin.2, hfree⟩] at hzero
      exact hused hzero
    · have hno : ∀ i ∈ [36, 72, 108], (node (slot start i)).prev ≠ 0 := fun i hi hz => hprobe ⟨i, hi, hz⟩
      have hread : 144 ∈ findReads node start probes := by
        rw [hprobes, findReads, if_neg hfirst, findReads, if_neg (hno 36 (by decide)), findReads,
          if_neg (hno 72 (by decide)), findReads, if_neg (hno 108 (by decide)), findReads]
        simp
      exact absurd (h.reads 144 hread) (by decide)
  · intro hfree
    have hfirst : (node (slot start 0)).prev = 0 := by rwa [slot_zero]
    have heq : findFreeMmtEntry node start = start := by
      rw [findFreeMmtEntry_eq, if_pos ⟨0, by decide, hfirst⟩]
    refine ⟨fun i hi => ?_, fun _ => ⟨0, by decide, heq.trans (slot_zero start).symm, hfirst⟩, ?_⟩
    · rw [hprobes, findReads, if_pos hfirst] at hi
      rw [List.mem_singleton.mp hi]
      decide
    · refine iff_of_false (fun he => ?_) fun hno => hno 0 (by decide) hfirst
      rw [← heq, he] at hpage
      exact absurd hpage (by decide)

theorem findsFree_empty : FindsFree (fun _ => ⟨0, 0, 0, 0, 0, 0, none, 0, 0⟩) 0x1000 :=
  (findsFree_iff _ (by decide)).mpr rfl

/-- The first slot is in use and no other, and the first slot is returned. -/
theorem findFree_used : ∃ (node : Word → Mme) (start : Word), start % PGSIZE = 0 ∧
    (node (slot start 1)).prev = 0 ∧ (node (findFreeMmtEntry node start)).prev ≠ 0 :=
  ⟨fun q => ⟨0, 0, 0, 0, if q = 0x1000 then 0x1000 else 0, 0, none, 0, 0⟩, 0x1000, by decide,
    by decide, by decide⟩

/-! ## `mmap` -/

/-- Where `mmap` puts a region: below the space in use, on a page boundary. -/
@[irreducible]
def placeAddr (space : Word) : Word := PGROUNDDOWN (KERNBASE - space)

/-- The new `p->space`, for the next region. -/
def placeSpace (length space : Word) : Word := KERNBASE - placeAddr space + length

/-- The stores of `mmap` once nothing can fail any more. -/
def State.enter (s : State) (entry addr length flags : Word) : State :=
  let s := s.modify entry fun e => { e with mflags := flags, addr := addr, sz := length }
  let s :=
    if s.p.mme = -1 then s.modify entry fun e => { e with prev := entry, next := 0 }
    else (s.modify entry fun e => { e with prev := entry, next := s.p.mme }).modify s.p.mme
      fun e => { e with prev := entry }
  s.setMme entry

/-- The rest of `mmap`, once the region has its address. -/
def mmapAt (fd length offset flags entry addr : Word) (s : State) : Word × State :=
  if flags = MAP_FILE then
    if s.p.fileSize fd < length + offset then (-1, s)
    else
      let s := s.modify entry fun e =>
        { e with ip := s.p.fileIp fd, fd := fd, dirty := 0, offset := offset }
      (addr, s.enter entry addr length flags)
  else (addr, s.enter entry addr length flags)

def mmap (fd length offset flags : Word) (s : State) : Word × State :=
  if length.toInt < 0 ∨ fd.toInt < 0 ∨ flags.toInt < 0 ∨ 2 < flags.toInt then (-1, s)
  else
    let entry := findFreeMmtEntry s.node s.p.mmtStart
    if entry < -1 then (-1, s)
    else
      -- `(int) addr <= p -> sz`, in the unsigned order since `sz` is a `uint`
      let addr := placeAddr s.p.space
      if addr ≤ s.p.sz then (-1, s)
      else mmapAt fd length offset flags entry addr (s.setSpace (placeSpace length s.p.space))

/-- The arguments pass the checks of `mmap`. -/
def Checked (fd length flags : Word) : Prop :=
  0 ≤ length.toInt ∧ 0 ≤ fd.toInt ∧ 0 ≤ flags.toInt ∧ flags.toInt ≤ 2

instance (fd length flags : Word) : Decidable (Checked fd length flags) :=
  inferInstanceAs (Decidable (_ ∧ _))

variable {fd length flags : Word}

theorem not_checked : ¬ Checked fd length flags ↔
    length.toInt < 0 ∨ fd.toInt < 0 ∨ flags.toInt < 0 ∨ 2 < flags.toInt := by
  unfold Checked
  omega

/-- An address on a page boundary is not -1. -/
theorem placeAddr_ne (space : Word) : placeAddr space ≠ -1 := by
  intro h
  have hmod : (placeAddr space).toNat % 4096 = 0 := by
    rw [placeAddr, Vm.toNat_PGROUNDDOWN]
    omega
  rw [h] at hmod
  exact absurd hmod (by decide)

variable {offset : Word}

/-- Past the checks, the slot search and the placement. -/
theorem mmap_placed {s : State} (hargs : Checked fd length flags)
    (hentry : findFreeMmtEntry s.node s.p.mmtStart = -1) (habove : s.p.sz < placeAddr s.p.space) :
    mmap fd length offset flags s =
      mmapAt fd length offset flags (-1) (placeAddr s.p.space)
        (s.setSpace (placeSpace length s.p.space)) := by
  have hargs' := fun hc => not_checked.mpr hc hargs
  have hlt : ¬ (-1 : Word) < -1 := by decide
  simp only [mmap, if_neg hargs', hentry, if_neg hlt, if_neg (BitVec.not_le.mpr habove)]

/-- Before that `mmap` returns -1 and has done nothing. -/
theorem mmap_refused {s : State}
    (h : ¬ (Checked fd length flags ∧ findFreeMmtEntry s.node s.p.mmtStart = -1 ∧
      s.p.sz < placeAddr s.p.space)) : mmap fd length offset flags s = (-1, s) := by
  unfold mmap
  split
  · rfl
  · rename_i hargs
    have hchecked : Checked fd length flags := not_not.mp fun hc => hargs (not_checked.mp hc)
    dsimp only
    generalize findFreeMmtEntry s.node s.p.mmtStart = entry at h
    split
    · rfl
    · rename_i hslot
      have hentry : entry = -1 := by bv_omega
      exact if_pos (BitVec.not_lt.mp fun habove => h ⟨hchecked, hentry, habove⟩)

/-- A file that is too short is noticed after the placement. -/
theorem mmapAt_short {entry addr n : Word} {s : State}
    (h : flags = MAP_FILE ∧ s.p.fileSize fd < length + offset) :
    mmapAt fd length offset flags entry addr (s.setSpace n) = (-1, s.setSpace n) := by
  rw [mmapAt, if_pos h.1, State.setSpace_fileSize, if_pos h.2]

theorem mmapAt_enters {entry addr n : Word} {s : State}
    (h : ¬ (flags = MAP_FILE ∧ s.p.fileSize fd < length + offset)) :
    (mmapAt fd length offset flags entry addr (s.setSpace n)).1 = addr ∧
      (mmapAt fd length offset flags entry addr (s.setSpace n)).2.p.mme = entry := by
  unfold mmapAt
  split
  · rename_i hfile
    rw [State.setSpace_fileSize, if_neg fun hsize => h ⟨hfile, hsize⟩]
    exact ⟨rfl, rfl⟩
  · exact ⟨rfl, rfl⟩

/-! ## Mappings made -/

/-- A call of `mmap` that should succeed: the table has a free slot, the arguments are in order,
the region is above the process, and a file is large enough. -/
structure Possible (s : State) (l : List Word) (fd length offset flags : Word) : Prop where
  listed : Listed s l
  free : ∃ i, MMESIZE * i + MMESIZE ≤ 4096 ∧ (s.node (slot s.p.mmtStart i)).prev = 0
  checked : Checked fd length flags
  above : s.p.sz < placeAddr s.p.space
  file : flags = MAP_FILE → (s.p.fileIp fd).isSome ∧ 0 ≤ offset.toInt ∧
    length.toInt + offset.toInt ≤ (s.p.fileSize fd).toNat

/-- `r` is what `mmap` should give: the address, and a list with one more entry in front. -/
def Maps (s : State) (l : List Word) (fd length offset flags : Word) (r : Word × State) : Prop :=
  r.1 = placeAddr s.p.space ∧ ∃ q, Listed r.2 (q :: l) ∧
    ((r.2.node q).addr = placeAddr s.p.space ∧ (r.2.node q).sz = length ∧
      (r.2.node q).mflags = flags ∧
      (flags = MAP_FILE → (r.2.node q).ip = s.p.fileIp fd ∧ (r.2.node q).offset = offset)) ∧
    ∀ x ∈ l, (r.2.node x).Same (s.node x)

/-- **`mmap` never makes a mapping.** -/
theorem mmap_never_maps (s : State) (l : List Word) (fd length offset flags : Word) :
    ¬ Maps s l fd length offset flags (mmap fd length offset flags s) := by
  rintro ⟨haddr, q, hl, -⟩
  have hq : (mmap fd length offset flags s).2.p.mme = q := hl.head
  by_cases h : Checked fd length flags ∧ findFreeMmtEntry s.node s.p.mmtStart = -1 ∧
      s.p.sz < placeAddr s.p.space
  · rw [mmap_placed h.1 h.2.1 h.2.2] at haddr hq
    by_cases hshort : flags = MAP_FILE ∧ s.p.fileSize fd < length + offset
    · rw [mmapAt_short hshort] at haddr
      exact placeAddr_ne _ haddr.symm
    · rw [(mmapAt_enters hshort).2] at hq
      exact (hl.real q List.mem_cons_self).2 hq.symm
  · rw [mmap_refused h] at haddr
    exact placeAddr_ne _ haddr.symm

/-- A process without mappings, its table zeroed. -/
def fresh : State where
  p := ⟨4096, 0, 0x80400000, -1, 1, false, fun _ => none, fun _ => 0⟩
  node _ := ⟨0, 0, 0, 0, 0, 0, none, 0, 0⟩
  k := ⟨fun _ => Vm.zeros, 0⟩
  user _ := 0

theorem fresh_listed : Listed fresh [] := ⟨rfl, trivial, .nil, nofun, .nil⟩

/-- Ten bytes of anonymous memory for a process with an empty table. -/
theorem mmap_refuses_first : Possible fresh [] 0 10 0 MAP_PRIVATE ∧
    (mmap 0 10 0 MAP_PRIVATE fresh).1 = -1 ∧
    ¬ Maps fresh [] 0 10 0 MAP_PRIVATE (mmap 0 10 0 MAP_PRIVATE fresh) := by
  have hr : (mmap 0 10 0 MAP_PRIVATE fresh).1 = -1 := by decide +kernel
  refine ⟨⟨fresh_listed, ⟨0, by decide, rfl⟩, by decide, by decide +kernel, nofun⟩, hr, fun h => ?_⟩
  exact placeAddr_ne _ (h.1.symm.trans hr)

/-! ## Failed calls -/

/-- A failed call has left everything alone. -/
def FailsClean (s : State) (r : Word × State) : Prop :=
  r.1 = -1 → r.2.p.space = s.p.space ∧ r.2.p.mme = s.p.mme ∧ r.2.node = s.node

/-- A failed call that has set `p->space` should have set it to what it was. -/
theorem failsClean_setSpace {s : State} {n : Word} :
    FailsClean s (-1, s.setSpace n) ↔ n = s.p.space := by
  simp only [FailsClean, State.setSpace_space, State.setSpace_mme, State.setSpace_node, and_true,
    true_implies]

/-- The placement moves `p->space`, unless the region is empty and the space in use ends on a page
boundary. -/
theorem space_eq_iff {space : Word} (h : 0 ≤ length.toInt) :
    placeSpace length space = space ↔ length = 0 ∧ space.toNat % 4096 = 0 := by
  have haddr : (placeAddr space).toNat = (KERNBASE - space).toNat / 4096 * 4096 := by
    rw [placeAddr, Vm.toNat_PGROUNDDOWN]
  have hlen : length.toNat < 2 ^ 31 := by
    rw [BitVec.toInt_eq_toNat_cond] at h
    split at h <;> omega
  have hbase : KERNBASE.toNat = 2 ^ 31 := rfl
  rw [BitVec.toNat_sub, hbase] at haddr
  rw [placeSpace, ← BitVec.toNat_inj, ← BitVec.toNat_inj, BitVec.toNat_add, BitVec.toNat_sub, hbase, haddr]
  show _ ↔ length.toNat = 0 ∧ _
  omega

/-- **A failed `mmap` changes nothing, except** for a file that is too short when the slot search
has failed: then `p->space` has been advanced already. -/
theorem failed_mmap (s : State) (fd length offset flags : Word) :
    FailsClean s (mmap fd length offset flags s) ↔
    ¬ (flags = MAP_FILE ∧ Checked fd length flags ∧
      findFreeMmtEntry s.node s.p.mmtStart = -1 ∧ s.p.sz < placeAddr s.p.space ∧
      s.p.fileSize fd < length + offset ∧ ¬ (length = 0 ∧ s.p.space.toNat % 4096 = 0)) := by
  by_cases h : Checked fd length flags ∧ findFreeMmtEntry s.node s.p.mmtStart = -1 ∧
      s.p.sz < placeAddr s.p.space
  · rw [mmap_placed h.1 h.2.1 h.2.2]
    by_cases hshort : flags = MAP_FILE ∧ s.p.fileSize fd < length + offset
    · rw [mmapAt_short hshort, failsClean_setSpace, space_eq_iff h.1.1]
      constructor
      · rintro hstill ⟨-, -, -, -, -, hmoves⟩
        exact hmoves hstill
      · intro hcond
        by_contra hmoves
        exact hcond ⟨hshort.1, h.1, h.2.1, h.2.2, hshort.2, hmoves⟩
    · refine ⟨fun _ hc => hshort ⟨hc.1, hc.2.2.2.2.1⟩, fun _ hr => ?_⟩
      exact absurd ((mmapAt_enters hshort).1.symm.trans hr) (placeAddr_ne _)
  · rw [mmap_refused h]
    exact ⟨fun _ hc => h ⟨hc.2.1, hc.2.2.1, hc.2.2.2.1⟩, fun _ _ => ⟨rfl, rfl, rfl⟩⟩

/-- A process as `allocproc` leaves it, its table a page that `kalloc` has just handed out, with
a file of ten bytes open. -/
def unzeroed : State :=
  { fresh with
    p := { fresh.p with fileIp := fun _ => some ⟨0, Fs.ninode_pos⟩, fileSize := fun _ => 10 }
    node := fun _ => ⟨0x01010101, 0x01010101, 0x01010101, 0x01010101, 0x01010101, 0x01010101, none,
      0x01010101, 0x01010101⟩ }

/-- Twenty bytes of a file of ten. -/
theorem failed_mmap_advances : (mmap 3 20 0 MAP_FILE unzeroed).1 = -1 ∧
    (mmap 3 20 0 MAP_FILE unzeroed).2.p.space = 4116 ∧ unzeroed.p.space = 1 ∧
    ¬ FailsClean unzeroed (mmap 3 20 0 MAP_FILE unzeroed) := by
  have hr : (mmap 3 20 0 MAP_FILE unzeroed).1 = -1 := by decide +kernel
  have hspace : (mmap 3 20 0 MAP_FILE unzeroed).2.p.space = 4116 := by decide +kernel
  refine ⟨hr, hspace, rfl, fun h => ?_⟩
  exact absurd (hspace.symm.trans (h hr).1) (by decide)

end Xv6.Mmap
