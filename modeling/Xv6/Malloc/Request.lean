/-
# `Xv6.Malloc.Request` — requests of every size

`malloc` computes the number of units from a `uint`, asks `sbrk` for as many bytes, and
`sbrk` takes its argument as an `int`.  A request of more than 2^31 - 16 bytes asks for a
negative number of bytes, or for none: the kernel gives memory back, or does nothing, and
returns the old end of the memory.  `morecore` takes it for the address of a new block.
The last seven requests wrap around, to one unit.

`Xv6.Malloc.Heap` computes with addresses that do not wrap.  That is right for blocks of
memory that is there, but not for a block of such a request, so the functions that compute
with addresses and sizes are here once more, in 32-bit arithmetic.  On the blocks of a
heap in order they agree with those.
-/
import Xv6.Malloc.System
import Xv6.Vm.Args

namespace Xv6.Malloc

open Cyclic Tiling Fuel Option
open Function (update update_idem update_of_ne update_self)

/-! ## The kernel -/

/-- User memory ends here. -/
def KERNBASE : Nat := 2 ^ 31

/-- The size `allocuvm` returns, 0 if it fails; `mem` says whether there are pages for what is asked
for. -/
def allocuvm (oldsz newsz : Nat) (mem : Bool) : Nat :=
  if KERNBASE ≤ newsz then 0
  else if newsz < oldsz then oldsz
  else if mem then newsz else 0

/-- The size `deallocuvm` returns. -/
def deallocuvm (oldsz newsz : Nat) : Nat := if oldsz ≤ newsz then oldsz else newsz

/-- `growproc` of a process of size `sz`: the new size, or nothing for -1. -/
def growproc (sz : Nat) (mem : Bool) (n : Int) : Option Nat :=
  let newsz := ((sz + n) % 2 ^ 32).toNat
  if 0 < n then
    let sz := allocuvm sz newsz mem
    if sz = 0 then none else some sz
  else if n < 0 then
    let sz := deallocuvm sz newsz
    if sz = 0 then none else some sz
  else some sz

/-- `sys_sbrk`: the argument is an `int`, the result is the old size. -/
def sysSbrk (sz : Nat) (mem : Bool) (k : Nat) : Option Nat :=
  (growproc sz mem ((k : Int).bmod (2 ^ 32))).map fun _ => sz

/-- The kernel of a process whose memory ends at `sz`, not below what the allocator has. -/
def kernel (sz : Nat) (mem : Bool) : Sbrk where
  run top k := if top ≤ sz then sysSbrk sz mem k else none
  fresh top k a h := by
    split at h
    · rename_i hle
      obtain ⟨_, _, rfl⟩ := Option.map_eq_some_iff.mp h
      exact hle
    · cases h

namespace Wrap

def joinUpper (h : Heap) (bp p : Nat) : Heap :=
  if (bp + HEADER * h.size bp) % 2 ^ 32 = h.ptr p then
    (h.setSize bp ((h.size bp + h.size (h.ptr p)) % 2 ^ 32)).setPtr bp (h.ptr (h.ptr p))
  else h.setPtr bp (h.ptr p)

def joinLower (h : Heap) (bp p : Nat) : Heap :=
  if (p + HEADER * h.size p) % 2 ^ 32 = bp then
    (h.setSize p ((h.size p + h.size bp) % 2 ^ 32)).setPtr p (h.ptr bp)
  else h.setPtr p bp

def free (n : Nat) (h : Heap) (ap : Nat) : Option Heap :=
  let bp := ap - HEADER
  h.freep.bind fun f => (findPlace h bp n f).map fun p =>
    (joinLower (joinUpper h bp p) bp p).setFreep p

def morecore (L : Image) (sbrk : Sbrk) (n : Nat) (h : Heap) (nu : Nat) :
    Option (Option Nat × Heap) :=
  let k := coreUnits nu * HEADER % 2 ^ 32
  match sbrk.run (h.top L) k with
  | none => some (none, h)
  | some a =>
    let h₁ : Heap := ⟨h.ptr, update h.size a (coreUnits nu), h.freep, (a, k) :: h.chunks⟩
    (free n h₁ (a + HEADER)).map fun h₂ => (h₂.freep, h₂)

def take (h : Heap) (prevp p nunits : Nat) : Nat × Heap :=
  if h.size p = nunits then (p + HEADER, (h.setPtr prevp (h.ptr p)).setFreep prevp)
  else
    let rest := h.size p - nunits
    let q := (p + HEADER * rest) % 2 ^ 32
    (q + HEADER, ((h.setSize p rest).setSize q nunits).setFreep prevp)

def mallocLoop (L : Image) (sbrk : Sbrk) (nunits : Nat) : Nat → Nat → Nat → Heap →
    Option (Option Nat × Heap)
  | 0, _, _, _ => none
  | n + 1, prevp, p, h =>
    if nunits ≤ h.size p then
      let r := take h prevp p nunits
      some (some r.1, r.2)
    else if h.freep = some p then
      (morecore L sbrk n h nunits).bind fun r =>
        r.1.elim (some (none, r.2)) fun p => mallocLoop L sbrk nunits n p (r.2.ptr p) r.2
    else mallocLoop L sbrk nunits n p (h.ptr p) h

def malloc (L : Image) (sbrk : Sbrk) (n : Nat) (h : Heap) (nbytes : Nat) :
    Option (Option Nat × Heap) :=
  match h.freep with
  | some f => mallocLoop L sbrk (units nbytes) n f (h.ptr f) h
  | none =>
    let h := start L h
    mallocLoop L sbrk (units nbytes) n L.base (h.ptr L.base) h

end Wrap

/-! ## Where nothing wraps -/

variable {L : Image} {F : Finset Nat} {held : Nat → Prop} {h h' : Heap} {bp p a x n nunits : Nat}
  {r : Option Nat × Heap}

theorem Cut.block_le (hc : Cut L F held h) (ha : Block L F held a) :
    a + HEADER * h.size a ≤ h.top L := by
  have hpos : 0 < HEADER * h.size a := hc.tiles.pos a ha
  have hlast := hc.given (a + HEADER * h.size a - 1)
    ((hc.tiles.cover _).mpr ⟨a, ha, by omega, Nat.sub_lt (by omega) (by decide)⟩)
  omega

theorem Cut.given_pos (hc : Cut L F held h) (hx : Given h.chunks x) : 0 < x := by
  obtain ⟨a, ha, hle, -⟩ := (hc.tiles.cover x).mp hx
  have habove := hc.above a ha
  rw [HEADER] at habove
  omega

section Kernel

variable {sz : Nat} {mem : Bool}

end Kernel

/-! ## A block that fits is found -/

/-- The list after `free` has put a header of `nu` units at `a` on it, behind all others: `a` is
after the last block `p`, or part of it. -/
structure Appended (F : Finset Nat) (a nu p : Nat) (h h' : Heap) : Prop where
  mem : p ∈ F
  freep : h'.freep = some p
  others : ∀ c ∈ F, c ≠ p → h'.size c = h.size c ∧ h'.ptr c = h.ptr c
  last : (h'.ptr p = a ∧ h'.size a = nu) ∨
    (h'.ptr p ∈ F ∧ p + HEADER * h.size p = a ∧ h'.size p = h.size p + nu)

section

variable (hg : Good L F held h)
include hg

/-- A free block lies below the memory that is behind the top. -/
theorem Good.free_lt {c : Nat} (ha : h.top L ≤ a) (hc : c ∈ F) : c < a := by
  by_cases hb : c = L.base
  · have htop := hg.top
    rw [hb, HEADER] at *
    omega
  · have hle := hg.block_le (.inl ⟨hc, hb⟩)
    have hpos : 0 < HEADER * h.size c := hg.tiles.pos c (.inl ⟨hc, hb⟩)
    omega

end

theorem take_chunks (h : Heap) (prevp p nunits : Nat) : (Wrap.take h prevp p nunits).2.chunks = h.chunks := by
  rw [Wrap.take]
  split
  · rfl
  · rfl

/-- The second round hands out the header at `a`. -/
theorem Appended.loop (sbrk : Sbrk) (hg : Good L F held h) {nu : Nat} (hap : Appended F a nu p h h')
    (ha : h.top L ≤ a) (hlow : a < KERNBASE) (hnone : ∀ c ∈ F, h.size c < nu) :
    Ends (fun n => Wrap.mallocLoop L sbrk nu n p (h'.ptr p) h')
      fun r => r.1 = some (a + HEADER) ∧ r.2.chunks = h'.chunks := by
  have hfound : ∀ prevp c, nu ≤ h'.size c → (Wrap.take h' prevp c nu).1 = a + HEADER →
      Ends (fun n => Wrap.mallocLoop L sbrk nu n prevp c h')
        fun r => r.1 = some (a + HEADER) ∧ r.2.chunks = h'.chunks := fun prevp c hfit htake =>
    .now (fun n => by rw [Wrap.mallocLoop, if_pos hfit])
      ⟨congrArg some htake, take_chunks h' prevp c nu⟩
  rcases hap.last with ⟨hptr, hsize⟩ | ⟨hptr, hjoin, hsize⟩
  · rw [hptr]
    exact hfound p a (Nat.le_of_eq hsize.symm) (by rw [Wrap.take, if_pos hsize])
  · refine hg.ring.reach (P := fun c => ∀ prevp, Ends (fun n => Wrap.mallocLoop L sbrk nu n prevp c h') _)
      hap.mem (fun prevp => hfound prevp p (by omega) ?_) (fun c hc hne hnext prevp => ?_) hptr p
    · -- the end of the block, which is where it was before
      have hpa := hg.free_lt ha hap.mem
      have hne : ¬ h'.size p = nu := by
        rw [HEADER] at hjoin
        omega
      rw [Wrap.take, if_neg hne]
      show (p + HEADER * (h'.size p - nu)) % 2 ^ 32 + HEADER = _
      rw [hsize, Nat.add_sub_cancel, hjoin, Nat.mod_eq_of_lt (by rw [KERNBASE] at hlow; omega)]
    · obtain ⟨hs, hp⟩ := hap.others c hc hne
      refine .later (fun n => ?_) (hnext c)
      rw [Wrap.mallocLoop, hs, hp, if_neg (Nat.not_le.mpr (hnone c hc)), hap.freep,
        if_neg fun he => hne (Option.some.inj he).symm]

/-- The allocator's invariant: there was no `malloc` yet, or the list is in order. -/
def InOrder (L : Image) (h : Heap) : Prop :=
  h.freep = none ∧ h.chunks = [] ∨ ∃ F held, Good L F held h

/-- There is no free block. -/
def Exhausted (L : Image) (h : Heap) : Prop := h.freep = none ∨ h.ptr L.base = L.base

/-- `malloc` is its loop, on a list that is in order. -/
theorem InOrder.malloc (hi : InOrder L h) :
    ∃ F held f h', Good L F held h' ∧ f ∈ F ∧ h'.freep = some f ∧ h'.chunks = h.chunks ∧
      (Exhausted L h ↔ F = {L.base}) ∧
      ∀ sbrk n nbytes, Wrap.malloc L sbrk n h nbytes =
        Wrap.mallocLoop L sbrk (units nbytes) n f (h'.ptr f) h' := by
  rcases hi with ⟨hnone, hchunks⟩ | ⟨F, held, hg⟩
  · have hfresh : Fresh ⟨h, fun _ => none⟩ := ⟨hnone, hchunks, fun _ => rfl⟩
    refine ⟨_, _, L.base, start L h, hfresh.good, Finset.mem_singleton_self _, rfl, rfl,
      ⟨fun _ => rfl, fun _ => .inl hnone⟩, fun sbrk n nbytes => ?_⟩
    simp only [Wrap.malloc, hnone]
  · obtain ⟨f, hf, hfreep⟩ := hg.freep
    refine ⟨F, held, f, h, hg, hf, hfreep, rfl, ⟨?_, fun he => .inr ?_⟩, fun sbrk n nbytes => ?_⟩
    · rintro (hnone | hbase)
      · cases hnone.symm.trans hfreep
      · obtain ⟨-, ⟨hlt, -⟩ | hall⟩ := hg.ring L.base hg.base
        · rw [hbase] at hlt
          exact absurd hlt (Nat.lt_irrefl _)
        · refine Finset.eq_singleton_iff_unique_mem.mpr ⟨hg.base, fun c hc => ?_⟩
          exact Nat.le_antisymm (hall c hc).2 (hg.base_le hc)
    · have hmem := hg.ring.mem hg.base
      rw [he] at hmem
      exact Finset.mem_singleton.mp hmem
    · simp only [Wrap.malloc, hfreep]

section Sizes

variable {nbytes : Nat}

end Sizes

variable {sz : Nat} {mem : Bool} {nbytes f : Nat}

/-- Nothing at or above `KERNBASE` is obtained. -/
theorem Served.low (hs : Served L held nunits h r) (htop : r.2.top L < KERNBASE) :
    ∀ x, Given r.2.chunks x → 0 < x ∧ x < KERNBASE := by
  intro x hx
  rcases hs with ⟨-, ⟨F, hg⟩, -⟩ | ⟨a, -, ⟨F, hg⟩, -⟩
  · exact ⟨hg.given_pos hx, Nat.lt_trans (hg.given x hx) htop⟩
  · exact ⟨hg.given_pos hx, Nat.lt_trans (hg.given x hx) htop⟩

/-- A block that is served is memory the kernel has given. -/
theorem Served.given (hs : Served L held nunits h r) (hp : r.1 = some p) (h₁ : p - HEADER ≤ x)
    (h₂ : x < p - HEADER + HEADER * nunits) : Given r.2.chunks x := by
  rcases hs with ⟨hnone, -⟩ | ⟨a, ha, ⟨F, hg⟩, -, hsize, -⟩
  · cases hnone.symm.trans hp
  · obtain rfl : a + HEADER = p := Option.some.inj (ha.symm.trans hp)
    rw [← hsize] at h₂
    exact (hg.tiles.cover x).mpr ⟨a, .inr (.inr rfl), h₁, h₂⟩

/-- A program that has not called `malloc`. -/
def unused : Heap := ⟨fun _ => 0, fun _ => 0, none, []⟩

end Xv6.Malloc
