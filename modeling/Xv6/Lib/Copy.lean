/-
# `Xv6.Lib.Copy` — copying cells one after the other

A memory is a function from cells to values.  `run d s is m` copies the cell `s i`
to the cell `d i`, for each `i` of the list in order.  What the copy leaves depends
on the stores that hit cells of the source.  If no store hits a cell that is read
later, the copy is one of the memory at the start (`run_snapshot`).  If no store
hits a cell that was read before, the cells of a pair are equal in the end
(`run_linked`).
-/
import Mathlib.Data.List.Basic

namespace Copy

open List
open Function (update)

variable {ι α β : Type} [DecidableEq α] {d s : ι → α} {is : List ι} {m : α → β} {i : ι}

def run (d s : ι → α) : List ι → (α → β) → α → β
  | [], m => m
  | i :: is, m => run d s is (update m (d i) (m (s i)))

theorem run_outside {a : α} (h : ∀ i ∈ is, a ≠ d i) : run d s is m a = m a := by
  induction is generalizing m with
  | nil => rfl
  | cons i is ih =>
    rw [run, ih fun j hj => h j (mem_cons_of_mem i hj)]
    exact Function.update_of_ne (h i mem_cons_self) ..

/-- What is stored first stays. -/
theorem run_head (hd : ∀ j ∈ is, d i ≠ d j) : run d s (i :: is) m (d i) = m (s i) := by
  rw [run, run_outside hd, Function.update_self]

/-- **No store hits a cell that is read later.** -/
theorem run_snapshot (hd : is.Pairwise fun i j => d i ≠ d j) (hs : is.Pairwise fun i j => d i ≠ s j)
    (hi : i ∈ is) : run d s is m (d i) = m (s i) := by
  induction is generalizing m with
  | nil => cases hi
  | cons j is ih =>
    rw [pairwise_cons] at hd hs
    rcases mem_cons.mp hi with rfl | hi
    · exact run_head hd.1
    · rw [run, ih hd.2 hs.2 hi]
      exact Function.update_of_ne (hs.1 i hi).symm ..

/-- **No store hits a cell that was read before.** -/
theorem run_linked (hd : is.Pairwise fun i j => d i ≠ d j) (hs : is.Pairwise fun i j => d j ≠ s i)
    (hself : ∀ i ∈ is, d i ≠ s i) (hi : i ∈ is) : run d s is m (d i) = run d s is m (s i) := by
  induction is generalizing m with
  | nil => cases hi
  | cons j is ih =>
    rw [pairwise_cons] at hd hs
    rcases mem_cons.mp hi with rfl | hi
    · have hsource : run d s (i :: is) m (s i) = m (s i) := by
        refine run_outside fun j hj => ?_
        rcases mem_cons.mp hj with rfl | hj
        · exact (hself j mem_cons_self).symm
        · exact (hs.1 j hj).symm
      rw [run_head hd.1, hsource]
    · exact ih hd.2 hs.2 (fun j hj => hself j (mem_cons_of_mem _ hj)) hi

end Copy
