/-
# `Xv6.Bio.Recent` — which buffer `bget` recycles

`brelse` puts a buffer in front of the list when its count falls to 0, and nothing else
moves a buffer.  So the list is sorted by the last fall, the latest first, with the
buffers that never fell at the end, whatever the buffers in between are used for; and
`bget`, which looks from the end for a buffer that is free, finds the one whose last fall
is the oldest.  The sections of `bget` and `brelse` under `bcache.lock` come in any
order, and the flags, the lock and the data of a buffer change at any time.
-/
import Xv6.Bio.Cache
import Xv6.Lib.Trace

namespace Xv6.Bio

open List

/-- The cache, and the buffers whose count fell to 0, the latest first.  The code keeps no such
history. -/
structure Recency (P : Type) where
  cache : Bcache P
  drops : List BufId

inductive Use (P : Type)
  | bget (k : Key)
  | brelse (i : BufId)
  /-- what the holder of the lock, the log and the disk driver do to a buffer -/
  | change (i : BufId) (valid dirty : Bool) (lock : Option P) (data : Block)

namespace Recency

variable {P : Type}

def init (P : Type) : Recency P := ⟨.init P, []⟩

/-- The section of `brelse`: the count is an `uint`, and below 0 it is the largest one. -/
def brelse (s : Recency P) (i : BufId) : Recency P :=
  if (s.cache.buf i).refcnt = 0 then
    ⟨s.cache.modify i fun b => { b with refcnt := 2 ^ 32 - 1 }, s.drops⟩
  else ⟨s.cache.unref i, if (s.cache.buf i).refcnt = 1 then i :: s.drops else s.drops⟩

def step (s : Recency P) : Use P → Option (Recency P)
  | .bget k => (s.cache.bget k).map fun r => ⟨r.2, s.drops⟩
  | .brelse i => some (s.brelse i)
  | .change i valid dirty lock data => some ⟨s.cache.modify i fun b =>
    { b with valid := valid, dirty := dirty, lock := lock, data := data }, s.drops⟩

/-- How many falls came after the last one of a buffer: all of them if it never fell. -/
def age (s : Recency P) (i : BufId) : Nat := s.drops.idxOf i

/-- The list runs through all buffers, sorted by age. -/
structure Sorted (s : Recency P) (l : List BufId) : Prop where
  ring : Ring.IsRing s.cache.links none (l.map some)
  all : ∀ i, i ∈ l
  old : l.Pairwise fun i j => s.age i ≤ s.age j

variable {s s' : Recency P} {l : List BufId}

theorem Sorted.init (P : Type) : ∃ l, Sorted (.init P) l := by
  obtain ⟨l, hl⟩ := Tagged.init P
  exact ⟨l, hl.ring, hl.all, pairwise_of_forall fun _ _ => Nat.le_refl _⟩

theorem Sorted.tagged (h : Sorted s l) : Tagged s.cache l fun _ => False :=
  ⟨h.ring, h.all, nofun, pairwise_of_forall fun _ _ _ hj => hj.elim⟩

/-- The buffer moves to the front of the list and of the history. -/
theorem Sorted.drop (h : Sorted s l) {i : BufId} {c : Bcache P}
    (hc : c.links = (s.cache.links.remove (some i)).insert none (some i)) :
    ∃ l', Sorted ⟨c, i :: s.drops⟩ l' := by
  obtain ⟨l₁, l₂, rfl⟩ := append_of_mem (h.all i)
  have hring := h.ring
  have hnd := (nodup_cons.mp (nodup_middle.mp h.tagged.nodup)).1
  rw [map_append, map_cons] at hring
  refine ⟨i :: (l₁ ++ l₂), ?_, fun j => ?_, pairwise_cons.mpr ⟨fun j _ => ?_, ?_⟩⟩
  · rw [map_cons, map_append, hc]
    exact hring.front
  · have := h.all j
    simp only [mem_append, mem_cons] at this ⊢
    tauto
  · rw [age, idxOf_cons_self]
    exact Nat.zero_le _
  · -- every other buffer is one fall older
    have hage : ∀ j ∈ l₁ ++ l₂, age ⟨c, i :: s.drops⟩ j = s.age j + 1 := fun j hj =>
      idxOf_cons_ne _ fun he => hnd (he ▸ hj)
    refine (h.old.sublist (.append_left (sublist_cons_self i l₂) l₁)).imp_of_mem
      fun {j j'} hj hj' hle => ?_
    rw [hage j hj, hage j' hj']
    exact Nat.succ_le_succ hle

/-- **The list stays sorted.** -/
theorem Sorted.step (h : Sorted s l) {e : Use P} (hs : s.step e = some s') :
    ∃ l', Sorted s' l' := by
  cases e with
  | bget k =>
    obtain ⟨⟨i, c⟩, hb, rfl⟩ := Option.map_eq_some_iff.mp hs
    rcases h.tagged.bget_cases hb with ⟨-, -, rfl⟩ | ⟨-, -, -, rfl⟩
    · exact ⟨l, h.ring, h.all, h.old⟩
    · exact ⟨l, h.ring, h.all, h.old⟩
  | brelse i =>
    cases hs
    rw [brelse]
    split
    · exact ⟨l, h.ring, h.all, h.old⟩
    · rename_i hpos
      rw [Bcache.unref]
      simp only [Bcache.modify_same]
      split
      · rename_i hone
        rw [if_pos (by omega)]
        exact h.drop rfl
      · rw [if_neg (by omega)]
        exact ⟨l, h.ring, h.all, h.old⟩
  | change i =>
    cases hs
    exact ⟨l, h.ring, h.all, h.old⟩

/-- **`bget` recycles the buffer that was released least recently**: of the buffers without a
reference that are not dirty, the oldest.  A buffer that was never used is as old as can be. -/
theorem bget_recycles_oldest {es : List (Use P)} (hrun : Trace.Run Recency.step (.init P) es s)
    {k : Key} {i : BufId} {c : Bcache P} (hmiss : s.cache.cached k = none)
    (hget : s.cache.bget k = some (i, c)) :
    (s.cache.buf i).refcnt = 0 ∧ (s.cache.buf i).dirty = false ∧
      ∀ j, (s.cache.buf j).refcnt = 0 → (s.cache.buf j).dirty = false → s.age j ≤ s.age i := by
  obtain ⟨l, h⟩ := hrun.invariant (I := fun _ s => ∃ l, Sorted s l) (Sorted.init P)
    fun _ _ _ _ ⟨_, h⟩ hs => h.step hs
  rw [Bcache.bget, hmiss, h.tagged.unused_eq] at hget
  cases hu : l.reverse.find? (fun i => (s.cache.buf i).refcnt == 0 && !(s.cache.buf i).dirty) with
  | none => rw [hu] at hget; cases hget
  | some j =>
    rw [hu] at hget
    obtain ⟨rfl, -⟩ := Prod.mk.inj (Option.some.inj hget)
    obtain ⟨hfree, l₁, l₂, hl, hbefore⟩ := List.find?_eq_some_iff_append.mp hu
    simp only [Bool.and_eq_true, beq_iff_eq, Bool.not_eq_true'] at hfree
    refine ⟨hfree.1, hfree.2, fun m href hclean => ?_⟩
    have hm : m ∈ l₁ ++ j :: l₂ := hl ▸ mem_reverse.mpr (h.all m)
    have hold := pairwise_reverse.mpr h.old
    rw [hl] at hold
    rcases mem_append.mp hm with hm | hm
    · have := hbefore m hm
      simp [href, hclean] at this
    · rcases mem_cons.mp hm with rfl | hm
      · exact Nat.le_refl _
      · exact (pairwise_cons.mp (pairwise_append.mp hold).2.1).1 m hm

/-- One buffer has been used and released; the next block goes to another one. -/
theorem bget_recycles_oldest_two : ∃ s : Recency Unit,
    Trace.Run Recency.step (.init Unit) [.bget (1, 1), .brelse ⟨0, by decide⟩] s ∧
      ∃ i c, s.cache.bget (1, 2) = some (i, c) ∧ i.val ≠ 0 ∧ s.age ⟨0, by decide⟩ ≤ s.age i := by
  have hex : ∃ s : Recency Unit,
      Trace.Run Recency.step (.init Unit) [.bget (1, 1), .brelse ⟨0, by decide⟩] s ∧
        s.cache.cached (1, 2) = none ∧
        (s.cache.bget (1, 2)).map Prod.fst = some ⟨1, by decide⟩ ∧
        (s.cache.buf ⟨0, by decide⟩).refcnt = 0 ∧ (s.cache.buf ⟨0, by decide⟩).dirty = false :=
    Trace.exists_of_exec (by decide +kernel)
  obtain ⟨s, hrun, hmiss, hget, href, hclean⟩ := hex
  obtain ⟨⟨i, c⟩, hic, rfl⟩ := Option.map_eq_some_iff.mp hget
  exact ⟨s, hrun, _, c, hic, nofun, (bget_recycles_oldest hrun hmiss hic).2.2 _ href hclean⟩

end Recency

end Xv6.Bio
