/-
# `Xv6.Vm.Kalloc` — the page allocator

`kalloc.c`.  Memory is a map from pages to their 1024 words; a page is named by the
kernel's address of its first byte, the address `kalloc` returns.  Every address the
allocator and the page tables use as the name of a page is page-aligned: `kfree` checks
it, and `PTE_ADDR` cuts off the rest.  The free list is threaded through the first words
of the free pages.

A kernel function is `M α`: it may stop the machine, by a panic or by a loop that never
ends.  Loops carry a bound on their turns, which is larger than the number of pages, so
that running out of it is the second.
-/
import Xv6.Lib.Wp
import Xv6.Vm.Layout

namespace Xv6.Vm

open Wp
open Function (update update_comm update_of_ne update_self)

/-- The words of a page. -/
abbrev Page : Type := Idx → Word

/-- Memory and `kmem.freelist`; the null pointer ends the list. -/
structure Kmem where
  mem : Word → Page
  freelist : Word

/-- The panics of `kalloc.c` and `vm.c`, and one of `proc.c`. -/
inductive Panic
  | kfree
  | remap
  | phystop
  | freevm
  | clearpteu
  | copyPte
  | copyPresent
  | loadAligned
  | loadAddress
  | inituvm
  | userinit
  deriving DecidableEq

/-- How the machine stops. -/
inductive Stop
  | panic (p : Panic)
  | forever
  deriving DecidableEq

/-- A kernel function. -/
abbrev M (α : Type) : Type := StateT Kmem (Except Stop) α

/-- A bound on the turns of a loop over pages. -/
def turns : Nat := 2 ^ 20 + 1

variable {v : Word}

namespace Kmem

def setPage (k : Kmem) (v : Word) (c : Page) : Kmem := { k with mem := update k.mem v c }

def setWord (k : Kmem) (v : Word) (i : Idx) (w : Word) : Kmem :=
  k.setPage v (update (k.mem v) i w)

@[simp]
theorem setPage_freelist (k : Kmem) (v : Word) (c : Page) :
    (k.setPage v c).freelist = k.freelist := rfl

@[simp]
theorem setPage_self (k : Kmem) (v : Word) (c : Page) : (k.setPage v c).mem v = c :=
  update_self ..

/-- The state after `kfree`: the page is filled with junk and put in front of the list. -/
def freed (k : Kmem) (v : Word) : Kmem :=
  { k.setPage v (update (fun _ => 0x01010101) 0 k.freelist) with freelist := v }

variable {k : Kmem} {q : Word}

theorem setPage_of_ne {c : Page} (h : q ≠ v) : (k.setPage v c).mem q = k.mem q :=
  update_of_ne h ..

theorem setWord_of_ne {w : Word} {i : Idx} (h : q ≠ v) : (k.setWord v i w).mem q = k.mem q :=
  setPage_of_ne h

theorem freed_of_ne (h : q ≠ v) : (k.freed v).mem q = k.mem q :=
  setPage_of_ne h

theorem freed_self (k : Kmem) (v : Word) : (k.freed v).mem v 0 = k.freelist := by
  have h : (k.freed v).mem v = update (fun _ => 0x01010101) 0 k.freelist :=
    setPage_self ..
  rw [h, update_self]

theorem freed_setWord {t w : Word} {j : Idx} (h : t ≠ v) :
    (k.freed v).setWord t j w = (k.setWord t j w).freed v := by
  have hmem : ((k.freed v).setWord t j w).mem = ((k.setWord t j w).freed v).mem := by
    show update (update k.mem v _) t (update ((k.freed v).mem t) j w) =
      update (update k.mem t (update (k.mem t) j w)) v _
    rw [freed_of_ne h, update_comm h]
    rfl
  exact congrArg (Kmem.mk · v) hmem

end Kmem

def load (v : Word) (i : Idx) : M Word := do
  return (← get).mem v i

def store (v : Word) (i : Idx) (w : Word) : M Unit := modify fun k => k.setWord v i w

/-- `memset` and `memmove` of a whole page. -/
def fill (v : Word) (c : Page) : M Unit := modify fun k => k.setPage v c

def zeros : Page := fun _ => 0

section

variable (L : Link)

/-- The pages `kfree` takes. -/
def Pool (v : Word) : Prop := v % PGSIZE = 0 ∧ ¬ v < L.kend ∧ ¬ PHYSTOP ≤ V2P v

instance (v : Word) : Decidable (Pool L v) := inferInstanceAs (Decidable (_ ∧ _))

def kfree (v : Word) : M Unit := do
  if Pool L v then
    modify fun k => k.freed v
  else
    throw (.panic .kfree)

def kalloc : M Word := do
  let k ← get
  if k.freelist = 0 then
    return 0
  else
    set { k with freelist := k.mem k.freelist 0 }
    return k.freelist

def freerangeLoop (vend : Word) : Nat → Word → M Unit
  | 0, _ => throw .forever
  | n + 1, p =>
    if p + PGSIZE ≤ vend then do
      kfree L p
      freerangeLoop vend n (p + PGSIZE)
    else
      return ()

def freerange (vstart vend : Word) : M Unit := freerangeLoop L vend turns (PGROUNDUP vstart)

/-- `kinit1`, as `main` calls it: the pages up to 4 MB. -/
def kinit1 : M Unit := freerange L L.kend (P2V (4 * 1024 * 1024))

/-- `kinit2`, as `main` calls it: the rest of the memory. -/
def kinit2 : M Unit := freerange L (P2V (4 * 1024 * 1024)) (P2V PHYSTOP)

end

/-! ## The free list -/

/-- The pages of the list that starts at an address. -/
inductive Linked (m : Word → Page) : Word → List Word → Prop
  | nil : Linked m 0 []
  | cons {v : Word} {l : List Word} : v ≠ 0 → Linked m (m v 0) l → Linked m v (v :: l)

theorem Linked.congr {m m' : Word → Page} {l : List Word} (h : Linked m v l)
    (hm : ∀ p ∈ l, m' p = m p) : Linked m' v l := by
  induction h with
  | nil => exact .nil
  | cons hv _ ih =>
    refine .cons hv ?_
    rw [hm _ List.mem_cons_self]
    exact ih fun p hp => hm p (List.mem_cons_of_mem _ hp)

/-- The list is determined by where it starts. -/
theorem Linked.unique {m : Word → Page} {l l' : List Word} (h : Linked m v l) (h' : Linked m v l') :
    l = l' := by
  induction h generalizing l' with
  | nil =>
    cases h' with
    | nil => rfl
    | cons hv => exact absurd rfl hv
  | cons hv _ ih =>
    cases h' with
    | nil => exact absurd rfl hv
    | cons _ h' => rw [ih h']

end Xv6.Vm
