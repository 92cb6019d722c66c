/-
# `Xv6.Lib.Count` — loops that count and stop

A program that looks at the numbers 0, 1, 2, … in chunks, in nested loops, and counts those
with a property.  It also counts how many it has looked at, and every loop is left when
these are `lim`.  Its state is the pair of the two counts.

`loop_counts` goes from a loop's body to the loop, so that a nest of loops takes one use of
it for each.
-/
import Mathlib.Data.Nat.Count

namespace Count

/-- `for(j = …; …; j++) { body; if(seen == lim) break; }`, in `n` turns from `j` on. -/
def loop (lim : Nat) (body : Nat → Nat × Nat → Nat × Nat) : Nat → Nat → Nat × Nat → Nat × Nat
  | 0, _, s => s
  | n + 1, j, s =>
    let s := body j s
    if s.1 = lim then s else loop lim body n (j + 1) s

variable (p : Nat → Prop) [DecidablePred p]

/-- The numbers below `c` have been looked at. -/
def upTo (c : Nat) : Nat × Nat := (c, Nat.count p c)

theorem upTo_zero : upTo p 0 = (0, 0) := rfl

theorem upTo_succ (c : Nat) : upTo p (c + 1) = (c + 1, if p c then (upTo p c).2 + 1 else (upTo p c).2) := by
  rw [upTo, Nat.count_succ, upTo]
  split
  · rfl
  · rfl

variable {p} {lim w : Nat}

/-- **A loop counts**, if each turn counts the next `w` numbers. -/
theorem loop_counts (body : Nat → Nat × Nat → Nat × Nat) (n j c : Nat) (hc : c < lim)
    (hbody : ∀ k < n, c + k * w < lim →
      body (j + k) (upTo p (c + k * w)) = upTo p (min (c + k * w + w) lim)) :
    loop lim body n j (upTo p c) = upTo p (min (c + n * w) lim) := by
  induction n generalizing j c with
  | zero =>
    rw [loop, Nat.zero_mul, Nat.add_zero, Nat.min_eq_left (Nat.le_of_lt hc)]
  | succ n ih =>
    have hfirst := hbody 0 (Nat.succ_pos n) (by rwa [Nat.zero_mul, Nat.add_zero])
    rw [Nat.zero_mul, Nat.add_zero, Nat.add_zero] at hfirst
    have hsucc : ∀ k, c + w + k * w = c + (k + 1) * w := fun k => by rw [Nat.succ_mul]; omega
    rw [loop, hfirst]
    by_cases hlast : lim ≤ c + w
    · have hle : lim ≤ c + (n + 1) * w := Nat.le_trans hlast (by rw [Nat.succ_mul]; omega)
      rw [Nat.min_eq_right hlast, Nat.min_eq_right hle]
      exact if_pos rfl
    · rw [Nat.min_eq_left (by omega)]
      have hne : ¬ (upTo p (c + w)).1 = lim := fun he => hlast (Nat.le_of_eq he.symm)
      rw [if_neg hne, ih (j + 1) (c + w) (by omega) fun k hk hlt => ?_, hsucc]
      rw [hsucc] at hlt ⊢
      have hnext := hbody (k + 1) (by omega) hlt
      rwa [show j + (k + 1) = j + 1 + k by omega] at hnext

end Count
