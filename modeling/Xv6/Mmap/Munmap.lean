/-
# `Xv6.Mmap.Munmap` — taking a mapping out of the list

`munmap` of `proc.c`.  It looks for the entry with the address, writes the dirty
pages of a file mapping back, takes the entry out of the list, clears it, and at
last clears the memory of the region.

The search is

    do { mme = mme->next; } while(mme != 0 && mme->addr != addr)

from `p->mme` on, so that the first entry is never looked at and cannot be taken
out.  That the branch for a first entry sets `p->mme` to the entry it removes is
never noticed for the same reason.

`memset` writes through the page table of the process.  A byte that is not mapped
for writing is a page fault in the kernel, and the handler of `Xv6.Mmap.Fault`
returns to the same instruction.  By then the entry is off the list, so that the
handler does not find it, maps nothing, and `munmap` never returns.  `Zeroable`
says that this does not happen.  A region that reaches the kernel ends a run of
the model, which does not follow what clearing the kernel's memory does.
-/
import Xv6.Mmap.Dirty
import Xv6.Mmap.Fault

namespace Xv6.Mmap

open List
open Fs (FsProg)
open Vm (Word PGSIZE KERNBASE PTE_W)
open Function (update update_of_ne update_self)

/-! ## The function -/

/-- Why a call does not return: the kernel panics or goes round for ever, or it writes to its own
memory, or to no inode. -/
inductive Stop where
  | vm (e : Vm.Stop)
  | wild (a : Word)
  deriving DecidableEq

/-- The hardware sets it when a page is written. -/
def PTE_D : Word := 0x040

/-- An entry after `memset(mme, 0, sizeof(struct mme))`. -/
def Mme.zero : Mme := ⟨0, 0, 0, 0, 0, 0, none, 0, 0⟩

/-- The search, in at most `n` turns: the entry, or 0. -/
def findMme (node : Word → Mme) (addr : Word) : Nat → Word → Option Word
  | 0, _ => none
  | n + 1, mme =>
    let mme := (node mme).next
    if mme ≠ 0 ∧ (node mme).addr ≠ addr then findMme node addr n mme else some mme

/-- The bytes of the page at `a`. -/
def State.page (s : State) (a : Word) : List UInt8 :=
  (List.range PGSIZE.toNat).map fun j => s.user (a + BitVec.ofNat 32 j)

/-- The loop over the pages of a file mapping: false if there is no page table for one of them. -/
def writeBack (entry : Mme) (addr length : Word) (s : State) : Nat → Word → ExceptT Stop FsProg Bool
  | 0, _ => throw (.vm .forever)
  | n + 1, i => do
    if i.toInt < length.toInt then
      match Vm.walkpgdir s.p.pgdir (addr + i) false s.k with
      | .error e => throw (.vm e)
      | .ok (none, _) => return false
      | .ok (some (t, j), k) =>
        if k.mem t j &&& PTE_D ≠ 0 then
          match entry.ip with
          | none => throw (.wild 0)
          | some ip => let _ ← mmapWriteDirty entry ip (addr + i) (s.page (addr + i))
        writeBack entry addr length s n (i + PGSIZE)
    else return true

/-- "Removing mme from linked list". -/
def State.unlink (s : State) (mme : Word) : State :=
  if (s.node mme).prev = mme ∧ (s.node mme).next = 0 then
    (s.modify mme fun _ => Mme.zero).setMme (-1)
  else
    let s :=
      if (s.node mme).prev = mme then
        let s := s.modify (s.node mme).next fun e => { e with prev := (s.node mme).next }
        s.setMme mme
      else if (s.node mme).next = 0 then s.modify (s.node mme).prev fun e => { e with next := 0 }
      else
        let s := s.modify (s.node mme).prev fun e => { e with next := (s.node mme).next }
        s.modify (s.node mme).next fun e => { e with prev := (s.node mme).prev }
    s.modify mme fun _ => Mme.zero

/-- The kernel may write the byte at `a`. -/
def State.Writable (s : State) (a : Word) : Prop :=
  Vm.Present (Vm.view s.k.mem s.p.pgdir (Vm.vpn a)) ∧
    Vm.view s.k.mem s.p.pgdir (Vm.vpn a) &&& PTE_W ≠ 0

instance (s : State) (a : Word) : Decidable (s.Writable a) := inferInstanceAs (Decidable (_ ∧ _))

/-- `*a = 0`.  After a page fault the instruction is run again. -/
def storeZero (a : Word) : Nat → State → Except Stop State
  | 0, _ => .error (.vm .forever)
  | n + 1, s =>
    if s.Writable a then
      if a < KERNBASE then .ok { s with user := update s.user a 0 } else .error (.wild a)
    else
      match pgflt false a s with
      | .error e => .error (.vm e)
      | .ok s => storeZero a n s

/-- `memset(dst, 0, n)`.  Four bytes at a time are on one page. -/
def memset (dst : Word) : Nat → State → Except Stop State
  | 0, s => .ok s
  | n + 1, s => do
    let s ← storeZero dst turns s
    memset (dst + 1) n s

def munmap (addr length : Word) (s : State) : ExceptT Stop FsProg (Word × State) := do
  if s.p.mme = -1 then return (-1, s)
  match findMme s.node addr turns s.p.mme with
  | none => throw (.vm .forever)
  | some mme =>
    if mme = 0 then return (-1, s)
    let written ←
      if (s.node mme).mflags &&& MAP_FILE ≠ 0 then writeBack (s.node mme) addr length s turns 0
      else pure true
    if written then
      match memset addr length.toNat (s.unlink mme) with
      | .error e => throw e
      | .ok s => return (0, s)
    else return (-1, s)

/-! ## The search -/

variable {s t : State} {l l₁ l₂ : List Word} {node : Word → Mme} {addr back p q : Word} {n : Nat}
  {a length : Word}

/-- The search finds the first entry behind `q` that has the address. -/
theorem findMme_eq (h : Run node back (q :: l)) (h₀ : 0 ∉ l) (hn : l.length < n) :
    findMme node addr n q = some ((l.find? fun x => (node x).addr = addr).getD 0) := by
  induction l generalizing back q n with
  | nil =>
    obtain ⟨n, rfl⟩ := Nat.exists_eq_succ_of_ne_zero (Nat.ne_of_gt hn)
    have hnext : (node q).next = 0 := h.2.1
    simp only [findMme, hnext]
    rfl
  | cons r l ih =>
    obtain ⟨n, rfl⟩ := Nat.exists_eq_succ_of_ne_zero (Nat.ne_of_gt (Nat.zero_lt_of_lt hn))
    have hnext : (node q).next = r := h.2.1
    have hr : r ≠ 0 := fun e => h₀ (e ▸ mem_cons_self)
    simp only [findMme, hnext]
    rw [List.find?_cons]
    by_cases ha : (node r).addr = addr
    · rw [if_neg fun hc => hc.2 ha, decide_eq_true ha]
      rfl
    · rw [if_pos ⟨hr, ha⟩, decide_eq_false ha]
      exact ih h.2.2 (fun hm => h₀ (mem_cons_of_mem r hm)) (Nat.lt_of_succ_lt_succ hn)

theorem Listed.findMme (h : Listed s (q :: l)) :
    findMme s.node addr turns s.p.mme = some ((l.find? fun x => (s.node x).addr = addr).getD 0) := by
  have hlen : l.length < turns := h.length_le
  have hhead : s.p.mme = q := h.head
  rw [hhead]
  exact findMme_eq h.links (fun hm => (h.real 0 (mem_cons_of_mem q hm)).1 rfl) hlen

/-! ## Taking an entry out -/

/-- The list without `q`, whose slot is free. -/
def State.remove (s : State) (q : Word) : State :=
  { s with
    node := fun x =>
      if x = q then Mme.zero
      else
        { s.node x with
          prev := Dlist.unlinkPrev (fun q => (s.node q).prev) (fun q => (s.node q).next) 0 q x
          next := Dlist.unlinkNext (fun q => (s.node q).prev) (fun q => (s.node q).next) q x } }

theorem remove_self (s : State) (q : Word) : (s.remove q).node q = Mme.zero := if_pos rfl

theorem remove_of_ne (s : State) (hx : p ≠ q) : (s.remove q).node p = { s.node p with
      prev := Dlist.unlinkPrev (fun q => (s.node q).prev) (fun q => (s.node q).next) 0 q p
      next := Dlist.unlinkNext (fun q => (s.node q).prev) (fun q => (s.node q).next) q p } :=
  if_neg hx

/-- The stores of `munmap` take out an entry that is not the first. -/
theorem unlink_eq_remove (h : (s.node q).prev ≠ q) : s.unlink q = s.remove q := by
  have hnode : (s.unlink q).node = (s.remove q).node := by
    funext x
    unfold State.unlink
    rw [if_neg fun hc => h hc.1]
    by_cases hx : x = q
    · subst hx
      rw [State.modify_self, remove_self]
    dsimp only
    rw [State.modify_of_ne hx, if_neg h, remove_of_ne s hx]
    by_cases hnext : (s.node q).next = 0
    · rw [if_pos hnext, Dlist.unlinkPrev, if_pos hnext, Dlist.unlinkNext, hnext]
      by_cases hp : x = (s.node q).prev
      · rw [← hp, State.modify_self, update_self]
      · rw [State.modify_of_ne hp, update_of_ne hp]
    · rw [if_neg hnext, Dlist.unlinkPrev, if_neg hnext, Dlist.unlinkNext,
        State.modify_of_ne (Ne.symm h)]
      by_cases hn : x = (s.node q).next
      · rw [← hn, State.modify_self, update_self]
        by_cases hp : x = (s.node q).prev
        · rw [← hp, State.modify_self, update_self]
        · rw [State.modify_of_ne hp, update_of_ne hp]
      · rw [State.modify_of_ne hn, update_of_ne hn]
        by_cases hp : x = (s.node q).prev
        · rw [← hp, State.modify_self, update_self]
        · rw [State.modify_of_ne hp, update_of_ne hp]
  have hrest : s.unlink q = { s with node := (s.unlink q).node } := by
    unfold State.unlink
    rw [if_neg fun hc => h hc.1]
    rw [if_neg h]
    split
    · rfl
    · rfl
  rw [hrest, hnode]
  rfl

/-- **What is left is a list.** -/
theorem Listed.remove (h : Listed s (l₁ ++ p :: q :: l₂)) :
    Listed (s.remove q) (l₁ ++ p :: l₂) ∧
      ∀ x ∈ l₁ ++ p :: l₂, ((s.remove q).node x).Same (s.node x) := by
  have hsub : (l₁ ++ p :: l₂).Sublist (l₁ ++ p :: q :: l₂) :=
    (List.Sublist.refl l₁).append (.cons_cons p (sublist_cons_self q l₂))
  have hne : ∀ x ∈ l₁ ++ p :: l₂, x ≠ q := by
    rintro x hx rfl
    have hnd := h.nodup
    rw [nodup_append, nodup_cons, nodup_cons] at hnd
    rcases mem_append.mp hx with hx | hx
    · exact hnd.2.2 x hx x (by simp) rfl
    · rcases mem_cons.mp hx with rfl | hx
      · exact hnd.2.1.1 mem_cons_self
      · exact hnd.2.1.2.1 hx
  have hsame : ∀ x ∈ l₁ ++ p :: l₂, ((s.remove q).node x).Same (s.node x) := by
    intro x hx
    rw [remove_of_ne s (hne x hx)]
    exact ⟨rfl, rfl, rfl, rfl, rfl, rfl, rfl⟩
  refine ⟨⟨?_, ?_, h.nodup.sublist hsub, fun x hx => h.real x (hsub.subset hx), ?_⟩, hsame⟩
  · rw [show (s.remove q).p = s.p from rfl, h.head]
    cases l₁ with
    | nil | cons => rfl
  · refine (h.links.unlink h.nodup fun hm => (h.real 0 hm).1 rfl).congr (fun x hx => ?_) fun x hx => ?_
    · rw [remove_of_ne s (hne x hx)]
    · rw [remove_of_ne s (hne x hx)]
  · rw [map_congr_left fun x hx => (hsame x hx).1]
    exact h.addrs.sublist (hsub.map _)

/-! ## Clearing the memory -/

/-- The handler changes nothing but the page tables and the mark of a killed process. -/
theorem pgflt_frame (h : pgflt false a s = .ok t) : t.p = s.p ∧ t.node = s.node := by
  rcases pgflt_ok h with ⟨-, rfl⟩ | ⟨_, _, _, _, _, -, -, -, -, rfl⟩
  · exact ⟨rfl, rfl⟩
  · exact ⟨rfl, rfl⟩

theorem storeZero_frame (h : storeZero a n s = .ok t) : t.p = s.p ∧ t.node = s.node := by
  induction n generalizing s with
  | zero => cases h
  | succ n ih =>
    rw [storeZero] at h
    split at h
    · split at h
      · cases h
        exact ⟨rfl, rfl⟩
      · cases h
    · split at h
      · cases h
      · rename_i s' hs'
        obtain ⟨h₁, h₂⟩ := pgflt_frame hs'
        obtain ⟨h₃, h₄⟩ := ih h
        exact ⟨h₃.trans h₁, h₄.trans h₂⟩

theorem memset_frame (h : memset a n s = .ok t) : t.p = s.p ∧ t.node = s.node := by
  induction n generalizing a s with
  | zero =>
    cases h
    exact ⟨rfl, rfl⟩
  | succ n ih =>
    rw [memset] at h
    cases hs : storeZero a turns s with
    | error e => rw [hs] at h; cases h
    | ok s' =>
      rw [hs] at h
      obtain ⟨h₁, h₂⟩ := storeZero_frame hs
      obtain ⟨h₃, h₄⟩ := ih h
      exact ⟨h₃.trans h₁, h₄.trans h₂⟩

/-- `memset` can clear the `n` bytes from `a` on. -/
def Zeroable (s : State) (a : Word) (n : Nat) : Prop := ∃ t, memset a n s = .ok t

/-- It can if every byte is one of the process and mapped for writing. -/
theorem zeroable_of_writable
    (h : ∀ j, j < n → a + BitVec.ofNat 32 j < KERNBASE ∧ s.Writable (a + BitVec.ofNat 32 j)) :
    Zeroable s a n := by
  induction n generalizing a s with
  | zero => exact ⟨s, rfl⟩
  | succ n ih =>
    obtain ⟨hlt, hw⟩ := h 0 (Nat.succ_pos n)
    rw [show a + BitVec.ofNat 32 0 = a from BitVec.add_zero a] at hlt hw
    have hone : storeZero a turns s = .ok { s with user := update s.user a 0 } := by
      rw [show turns = turns.pred + 1 from rfl, storeZero, if_pos hw, if_pos hlt]
    have hnext : ∀ j, a + 1 + BitVec.ofNat 32 j = a + BitVec.ofNat 32 (j + 1) := by
      intro j
      rw [BitVec.ofNat_add, BitVec.add_assoc, BitVec.add_comm 1]
      rfl
    obtain ⟨t, ht⟩ := ih (s := { s with user := update s.user a 0 }) fun j hj => by
      rw [hnext j]
      exact h (j + 1) (Nat.succ_lt_succ hj)
    refine ⟨t, ?_⟩
    rw [memset, hone]
    exact ht

/-! ## `munmap` -/

/-- A mapping of no file. -/
def Mme.Anonymous (e : Mme) : Prop := e.mflags &&& MAP_FILE = 0

instance (e : Mme) : Decidable e.Anonymous := inferInstanceAs (Decidable (_ = _))

/-- The list has lost `q`, and its slot is free. -/
structure Removed (s : State) (l : List Word) (q : Word) (t : State) : Prop where
  listed : Listed t (l.erase q)
  same : ∀ x ∈ l.erase q, (t.node x).Same (s.node x)
  free : t.node q = Mme.zero

/-- **The call does what it should**: the entry with this address goes, or, if there is none, it
returns -1 and nothing changes. -/
structure Unmaps (s : State) (l : List Word) (addr length : Word) : Prop where
  removes : ∀ q ∈ l, (s.node q).addr = addr → (s.node q).sz = length → (s.node q).Anonymous →
    ∃ t, munmap addr length s = pure (0, t) ∧ Removed s l q t
  refuses : (∀ q ∈ l, (s.node q).addr ≠ addr) → munmap addr length s = pure (-1, s)

theorem munmap_missing (h : Listed s l) (hno : ∀ q ∈ l.tail, (s.node q).addr ≠ addr) :
    munmap addr length s = pure (-1, s) := by
  rw [munmap]
  cases l with
  | nil =>
    have hmme : s.p.mme = -1 := h.head
    rw [if_pos hmme]
  | cons q l =>
    have hmme : s.p.mme ≠ -1 := fun e => (h.real q mem_cons_self).2 (h.head.symm.trans e)
    have hnone : (l.find? fun x => (s.node x).addr = addr) = none :=
      List.find?_eq_none.mpr fun x hx => by simpa using hno x hx
    rw [if_neg hmme, h.findMme, hnone]
    rfl

/-- The search comes to an entry that is not the first. -/
theorem Listed.find_behind (h : Listed s (l₁ ++ p :: q :: l₂)) :
    ∃ r l, l₁ ++ p :: q :: l₂ = r :: l ∧
      (l.find? fun x => (s.node x).addr = (s.node q).addr) = some q := by
  obtain ⟨r, as, hl⟩ : ∃ r as, l₁ ++ p :: q :: l₂ = r :: (as ++ q :: l₂) := by
    cases l₁ with
    | nil => exact ⟨p, [], rfl⟩
    | cons r l₁ => exact ⟨r, l₁ ++ [p], by simp⟩
  rw [hl] at h
  refine ⟨r, _, hl, List.find?_eq_some_iff_append.mpr ⟨decide_eq_true rfl, as, l₂, rfl, fun x hx => ?_⟩⟩
  have hmem : x ∈ r :: (as ++ q :: l₂) := mem_cons_of_mem r (mem_append_left _ hx)
  have hq : q ∈ r :: (as ++ q :: l₂) := by simp
  rw [Bool.not_eq_true', decide_eq_false_iff_not]
  intro e
  obtain rfl := inj_on_of_nodup_map h.addrs hmem hq e
  have hnd := (nodup_cons.mp h.nodup).2
  rw [nodup_append] at hnd
  exact hnd.2.2 x hx x mem_cons_self rfl

theorem munmap_found (h : Listed s (l₁ ++ p :: q :: l₂)) (haddr : (s.node q).addr = addr)
    (hanon : (s.node q).Anonymous) :
    munmap addr length s = match memset addr length.toNat (s.remove q) with
      | .error e => throw e
      | .ok t => pure (0, t) := by
  obtain ⟨r, l, hl, hfind⟩ := h.find_behind
  rw [haddr] at hfind
  have hmem : q ∈ l₁ ++ p :: q :: l₂ := by simp
  have hprev : (s.node q).prev ≠ q := by
    rw [h.links.prev_eq]
    rintro rfl
    have hnd := h.nodup
    rw [nodup_append, nodup_cons] at hnd
    exact hnd.2.1.1 mem_cons_self
  have hreal := h.real
  rw [hl] at h
  have hmme : s.p.mme ≠ -1 := fun e => (h.real r mem_cons_self).2 (h.head.symm.trans e)
  have hq : q ≠ 0 := (hreal q hmem).1
  rw [munmap, if_neg hmme, h.findMme, hfind]
  simp only [Option.getD_some, if_neg hq, unlink_eq_remove hprev]
  have hfile : (s.node q).mflags &&& MAP_FILE = 0 := hanon
  rw [if_neg (not_not.mpr hfile)]
  rfl

/-- An entry that is not the first has one before it. -/
theorem Listed.exists_before (h : Listed s l) (hq : q ∈ l) (hne : q ≠ s.p.mme) :
    ∃ l₁ p l₂, l = l₁ ++ p :: q :: l₂ ∧ l.erase q = l₁ ++ p :: l₂ := by
  obtain ⟨as, l₂, rfl⟩ := append_of_mem hq
  rcases eq_nil_or_concat as with rfl | ⟨l₁, p, rfl⟩
  · exact absurd h.head.symm hne
  · have hnd := h.nodup
    rw [nodup_append] at hnd
    refine ⟨l₁, p, l₂, by simp, ?_⟩
    rw [erase_append_right _ fun hm => hnd.2.2 q hm q mem_cons_self rfl, erase_cons_head]
    simp

theorem munmap_head (h : Listed s l) (hq : q ∈ l) (hhead : q = s.p.mme)
    (haddr : (s.node q).addr = addr) : munmap addr length s = pure (-1, s) := by
  refine munmap_missing h fun x hx e => ?_
  cases l with
  | nil => cases hq
  | cons r l =>
    have hr : q = r := hhead.trans h.head
    subst hr
    have hxq := inj_on_of_nodup_map h.addrs (mem_cons_of_mem q hx) hq (e.trans haddr.symm)
    exact (nodup_cons.mp h.nodup).1 (hxq ▸ hx)

/-- **`munmap` does what it should exactly if** the entry it is called for is not the first of the
list, and the memory of the region can be cleared when the entry is off the list. -/
theorem unmaps_iff (h : Listed s l) (addr length : Word) :
    Unmaps s l addr length ↔ ∀ q ∈ l, (s.node q).addr = addr → (s.node q).sz = length →
      (s.node q).Anonymous → q ≠ s.p.mme ∧ Zeroable (s.remove q) addr length.toNat := by
  constructor
  · intro hu q hq haddr hsz hanon
    obtain ⟨t, hrun, -⟩ := hu.removes q hq haddr hsz hanon
    have hbehind : q ≠ s.p.mme := by
      intro hhead
      rw [munmap_head h hq hhead haddr] at hrun
      cases hrun
    refine ⟨hbehind, ?_⟩
    obtain ⟨l₁, p, l₂, rfl, -⟩ := h.exists_before hq hbehind
    rw [munmap_found h haddr hanon] at hrun
    cases hm : memset addr length.toNat (s.remove q) with
    | error e => rw [hm] at hrun; cases hrun
    | ok t => exact ⟨t, hm⟩
  · intro hcond
    refine ⟨fun q hq haddr hsz hanon => ?_, fun hno => munmap_missing h fun x hx => ?_⟩
    · obtain ⟨hbehind, t, ht⟩ := hcond q hq haddr hsz hanon
      obtain ⟨l₁, p, l₂, rfl, herase⟩ := h.exists_before hq hbehind
      obtain ⟨hlisted, hsame⟩ := h.remove
      obtain ⟨hp, hnode⟩ := memset_frame ht
      refine ⟨t, by rw [munmap_found h haddr hanon, ht], ?_⟩
      rw [← herase] at hlisted hsame
      refine ⟨⟨?_, ?_, hlisted.nodup, hlisted.real, ?_⟩, ?_, ?_⟩
      · rw [hp]
        exact hlisted.head
      · rw [hp, hnode]
        exact hlisted.links
      · rw [hnode]
        exact hlisted.addrs
      · rw [hnode]
        exact hsame
      · rw [hnode]
        exact remove_self s q
    · exact hno x (mem_of_mem_tail hx)

/-- The only entry of a list is not found. -/
theorem only_mapping_stays : Listed (oneMapping 10 0) [0x80400000] ∧
    ((oneMapping 10 0).node 0x80400000).addr = 0x7FFFF000 ∧
    munmap 0x7FFFF000 10 (oneMapping 10 0) = pure (-1, oneMapping 10 0) ∧
    ¬ Unmaps (oneMapping 10 0) [0x80400000] 0x7FFFF000 10 := by
  have hl := oneMapping_listed 10 0
  have hmem : (0x80400000 : Word) ∈ [(0x80400000 : Word)] := mem_singleton_self _
  have haddr : ((oneMapping 10 0).node 0x80400000).addr = 0x7FFFF000 := by rw [oneMapping_node]
  have hrun : munmap 0x7FFFF000 10 (oneMapping 10 0) = pure (-1, oneMapping 10 0) :=
    munmap_head hl hmem rfl haddr
  refine ⟨hl, haddr, hrun, fun hu => ?_⟩
  obtain ⟨t, hrun', -⟩ := hu.removes _ hmem haddr (by rw [oneMapping_node]) (by rw [oneMapping_node]; decide)
  rw [hrun] at hrun'
  cases hrun'

/-- A process with two mappings of ten bytes; the page of the second one is there. -/
def twoMappings : State :=
  { fresh with
    p := { fresh.p with pgdir := 0x80500000, mme := 0x80400024 }
    node := fun q =>
      if q = 0x80400024 then ⟨0x7FFFE000, 10, MAP_PRIVATE, 0, 0x80400024, 0x80400000, none, 0, 0⟩
      else if q = 0x80400000 then ⟨0x7FFFF000, 10, MAP_PRIVATE, 0, 0x80400024, 0, none, 0, 0⟩
      else Mme.zero
    k := ⟨fun v =>
      if v = 0x80500000 then update Vm.zeros 0x1FF 0x00501007
      else if v = 0x80501000 then update Vm.zeros 0x3FF 0x00502007
      else Vm.zeros, 0⟩ }

theorem twoMappings_first : twoMappings.node 0x80400024 =
    ⟨0x7FFFE000, 10, MAP_PRIVATE, 0, 0x80400024, 0x80400000, none, 0, 0⟩ := by
  decide +kernel

theorem twoMappings_second : twoMappings.node 0x80400000 =
    ⟨0x7FFFF000, 10, MAP_PRIVATE, 0, 0x80400024, 0, none, 0, 0⟩ := by
  decide +kernel

theorem twoMappings_listed : Listed twoMappings [0x80400024, 0x80400000] where
  head := rfl
  links := by
    refine ⟨?_, ?_, ?_, ?_, trivial⟩
    · exact congrArg Mme.prev twoMappings_first
    · exact congrArg Mme.next twoMappings_first
    · exact congrArg Mme.prev twoMappings_second
    · exact congrArg Mme.next twoMappings_second
  nodup := by decide
  real := by
    intro q hq
    rcases mem_cons.mp hq with rfl | hq
    · decide
    · rw [mem_singleton.mp hq]
      decide
  addrs := by
    decide

/-- The second one goes. -/
theorem unmaps_second : Unmaps twoMappings [0x80400024, 0x80400000] 0x7FFFF000 10 := by
  refine (unmaps_iff twoMappings_listed 0x7FFFF000 10).mpr fun q hq haddr _ _ => ?_
  rcases mem_cons.mp hq with rfl | hq
  · exact absurd haddr (by decide +kernel)
  · rw [mem_singleton.mp hq]
    exact ⟨by decide, zeroable_of_writable (by decide +kernel)⟩

end Xv6.Mmap
