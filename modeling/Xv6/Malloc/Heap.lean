/-
# `Xv6.Malloc.Heap` — the user-level allocator

`umalloc.c`: the first-fit allocator that user programs are linked with.  A block is a
header, with a link and a size, and the memory behind it; sizes count headers.  The free
blocks are on a circular list that starts at `base`, a header of size 0 in the program's
data.

Addresses are numbers.  The memory of a process is below 2^32, so no address and no size
of a block wraps around; what is computed from an argument is computed as the source does.
A header is known by its address, so two headers that overlap are not told apart: the
blocks of `Xv6.Malloc.Sound` never do.
-/
import Mathlib.Logic.Function.Basic
import Xv6.Lib.Fuel
import Xv6.Lib.Trace

namespace Xv6.Malloc

/-! ## Headers -/

/-- `sizeof(Header)`. -/
def HEADER : Nat := 8

/-- Where the program's data lie: `base` is in front of the first address after them. -/
structure Image where
  base : Nat
  end_ : Nat
  base_lt : base + HEADER ≤ end_

/-- The headers in memory, `freep`, and what `sbrk` has given: first address and length, the
latest first. -/
structure Heap where
  ptr : Nat → Nat
  size : Nat → Nat
  freep : Option Nat
  chunks : List (Nat × Nat)

namespace Heap

/-- `p->s.ptr = q`. -/
def setPtr (h : Heap) (p q : Nat) : Heap :=
  ⟨Function.update h.ptr p q, h.size, h.freep, h.chunks⟩

/-- `p->s.size = n`. -/
def setSize (h : Heap) (p n : Nat) : Heap :=
  ⟨h.ptr, Function.update h.size p n, h.freep, h.chunks⟩

/-- `freep = p`. -/
def setFreep (h : Heap) (p : Nat) : Heap := ⟨h.ptr, h.size, some p, h.chunks⟩

/-- The first address after everything so far. -/
def top (L : Image) (h : Heap) : Nat :=
  match h.chunks with
  | [] => L.end_
  | (a, k) :: _ => a + k

end Heap

/-- The kernel's `sbrk`, for the end of the memory in use and a number of bytes: -1, or the
first of as many fresh bytes. -/
structure Sbrk where
  run : Nat → Nat → Option Nat
  fresh : ∀ top k a, run top k = some a → top ≤ a

/-! ## `free` -/

/-- The loop of `free`: the free block after which `bp` belongs. -/
def findPlace (h : Heap) (bp : Nat) : Nat → Nat → Option Nat
  | 0, _ => none
  | n + 1, p =>
    if p < bp ∧ bp < h.ptr p then some p
    else if h.ptr p ≤ p ∧ (p < bp ∨ bp < h.ptr p) then some p
    else findPlace h bp n (h.ptr p)

/-- `bp` and the free block after `p`. -/
def joinUpper (h : Heap) (bp p : Nat) : Heap :=
  if bp + HEADER * h.size bp = h.ptr p then
    (h.setSize bp (h.size bp + h.size (h.ptr p))).setPtr bp (h.ptr (h.ptr p))
  else h.setPtr bp (h.ptr p)

/-- `p` and `bp`. -/
def joinLower (h : Heap) (bp p : Nat) : Heap :=
  if p + HEADER * h.size p = bp then
    (h.setSize p (h.size p + h.size bp)).setPtr p (h.ptr bp)
  else h.setPtr p bp

/-- `free(ap)`; before the first `malloc` there is no list. -/
def free (n : Nat) (h : Heap) (ap : Nat) : Option Heap :=
  let bp := ap - HEADER
  h.freep.bind fun f => (findPlace h bp n f).map fun p =>
    (joinLower (joinUpper h bp p) bp p).setFreep p

/-! ## `malloc` -/

/-- What `morecore` asks for. -/
def coreUnits (nu : Nat) : Nat := if nu < 4096 then 4096 else nu

def morecore (L : Image) (sbrk : Sbrk) (n : Nat) (h : Heap) (nu : Nat) :
    Option (Option Nat × Heap) :=
  let k := coreUnits nu * HEADER % 2 ^ 32
  match sbrk.run (h.top L) k with
  | none => some (none, h)
  | some a =>
    let h₁ : Heap := ⟨h.ptr, Function.update h.size a (coreUnits nu), h.freep, (a, k) :: h.chunks⟩
    (free n h₁ (a + HEADER)).map fun h₂ => (h₂.freep, h₂)

/-- `nunits`. -/
def units (nbytes : Nat) : Nat := ((nbytes + HEADER - 1) % 2 ^ 32 / HEADER + 1) % 2 ^ 32

/-- The block `p`, which is large enough, is handed out, or the end of it. -/
def take (h : Heap) (prevp p nunits : Nat) : Nat × Heap :=
  if h.size p = nunits then (p + HEADER, (h.setPtr prevp (h.ptr p)).setFreep prevp)
  else
    let rest := h.size p - nunits
    let q := p + HEADER * rest
    (q + HEADER, ((h.setSize p rest).setSize q nunits).setFreep prevp)

def mallocLoop (L : Image) (sbrk : Sbrk) (nunits : Nat) : Nat → Nat → Nat → Heap →
    Option (Option Nat × Heap)
  | 0, _, _, _ => none
  | n + 1, prevp, p, h =>
    if nunits ≤ h.size p then
      let r := take h prevp p nunits
      some (some r.1, r.2)
    else if h.freep = some p then
      (morecore L sbrk n h nunits).bind fun r =>
        r.1.elim (some (none, r.2)) fun p => mallocLoop L sbrk nunits n p (r.2.ptr p) r.2
    else mallocLoop L sbrk nunits n p (h.ptr p) h

/-- The list before the first `malloc`: `base` alone. -/
def start (L : Image) (h : Heap) : Heap :=
  ((h.setPtr L.base L.base).setSize L.base 0).setFreep L.base

def malloc (L : Image) (sbrk : Sbrk) (n : Nat) (h : Heap) (nbytes : Nat) :
    Option (Option Nat × Heap) :=
  match h.freep with
  | some f => mallocLoop L sbrk (units nbytes) n f (h.ptr f) h
  | none =>
    let h := start L h
    mallocLoop L sbrk (units nbytes) n L.base (h.ptr L.base) h

/-! ## Runs -/

/-- The heap and the results of `malloc` that have not been freed, with the size asked for. -/
structure State where
  heap : Heap
  live : Nat → Option Nat

inductive Event
  /-- `malloc(nbytes)`, with the kernel's answers. -/
  | malloc (sbrk : Sbrk) (nbytes : Nat)
  | free (p : Nat)
  /-- The program stores to its own bytes, where a header at `a` would have `ptr` and `size`. -/
  | store (p a ptr size : Nat)

/-- A result that is not null is live from now on. -/
def record (s : State) (nbytes : Nat) : Option Nat × Heap → Option Nat × State
  | (none, h) => (none, ⟨h, s.live⟩)
  | (some p, h) => (some p, ⟨h, Function.update s.live p (some nbytes)⟩)

/-- What a call returns, and the state after it. -/
def call (L : Image) (n : Nat) (s : State) : Event → Option (Option Nat × State)
  | .malloc sbrk nbytes => (malloc L sbrk n s.heap nbytes).map (record s nbytes)
  | .free p => (free n s.heap p).map fun h => (none, ⟨h, Function.update s.live p none⟩)
  | .store _ a ptr size => some (none, ⟨(s.heap.setPtr a ptr).setSize a size, s.live⟩)

def step (L : Image) (n : Nat) (s : State) (e : Event) : Option State :=
  (call L n s e).map Prod.snd

/-- No `malloc` yet; the memory holds anything. -/
def init (ptr size : Nat → Nat) : State := ⟨⟨ptr, size, none, []⟩, fun _ => none⟩

/-- What the program keeps to: sizes do not overflow, only live results are freed, and
stores are to bytes that were asked for. -/
def Proper (s : State) : Event → Prop
  | .malloc _ nbytes => nbytes + HEADER - 1 < 2 ^ 32 ∧
      ((nbytes + HEADER - 1) / HEADER + 1) * HEADER < 2 ^ 32
  | .free p => (s.live p).isSome
  | .store p a _ _ => ∃ n ∈ s.live p, a < p + n ∧ p < a + HEADER

instance (s : State) : DecidablePred (Proper s)
  | .malloc _ _ => inferInstanceAs (Decidable (_ ∧ _))
  | .free p => inferInstanceAs (Decidable ((s.live p).isSome = true))
  | .store p a _ _ => inferInstanceAs (Decidable (∃ n ∈ s.live p, a < p + n ∧ p < a + HEADER))

end Xv6.Malloc
