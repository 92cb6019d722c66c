/-
# `Xv6.Lib.Fuel` — loops with a bound on their turns

A loop of the source that has no bound of its own is a function of one: `g n` is what the
loop gives in at most `n` turns, `none` if it is not done by then.  `Ends g Q` says that it
ends, with a result in `Q`: from some bound on, `g` gives that result.
-/
import Mathlib.Data.Nat.Init

namespace Fuel

variable {α β : Type} {g g' : Nat → Option α} {Q Q' : α → Prop}

/-- `g` ends, with a result in `Q`. -/
def Ends (g : Nat → Option α) (Q : α → Prop) : Prop :=
  ∃ n r, (∀ m, n ≤ m → g m = some r) ∧ Q r

theorem Ends.pure {r : α} (h : Q r) : Ends (fun _ => some r) Q := ⟨0, r, fun _ _ => rfl, h⟩

theorem Ends.now {r : α} (h : ∀ m, g (m + 1) = some r) (hr : Q r) : Ends g Q := by
  refine ⟨1, r, fun m hm => ?_, hr⟩
  obtain ⟨m, rfl⟩ := Nat.exists_eq_add_of_le' hm
  exact h m

theorem Ends.later (h : ∀ m, g (m + 1) = g' m) (hg : Ends g' Q) : Ends g Q := by
  obtain ⟨n, r, hr, hQ⟩ := hg
  refine ⟨n + 1, r, fun m hm => ?_, hQ⟩
  obtain ⟨m, rfl⟩ := Nat.exists_eq_add_of_le' (Nat.le_trans (Nat.le_add_left 1 n) hm)
  rw [h m]
  exact hr m (Nat.le_of_succ_le_succ hm)

theorem Ends.mono (h : Ends g Q) (hQ : ∀ r, Q r → Q' r) : Ends g Q' := by
  obtain ⟨n, r, hr, hq⟩ := h
  exact ⟨n, r, hr, hQ r hq⟩

/-- A loop ends in one way. -/
theorem Ends.both (h : Ends g Q) (h' : Ends g Q') : Ends g fun r => Q r ∧ Q' r := by
  obtain ⟨n, r, hr, hq⟩ := h
  obtain ⟨n', r', hr', hq'⟩ := h'
  have hsame := (hr (max n n') (Nat.le_max_left ..)).symm.trans (hr' (max n n') (Nat.le_max_right ..))
  cases hsame
  exact ⟨n, r, hr, hq, hq'⟩

/-- One loop after the other. -/
theorem Ends.bind {f : Nat → Option β} {k : Nat → β → Option α}
    (h : Ends f fun b => Ends (fun m => k m b) Q) : Ends (fun m => (f m).bind (k m)) Q := by
  obtain ⟨n, b, hb, n', r, hr, hQ⟩ := h
  refine ⟨max n n', r, fun m hm => ?_, hQ⟩
  dsimp only
  rw [hb m (Nat.le_trans (Nat.le_max_left ..) hm), Option.bind_some]
  exact hr m (Nat.le_trans (Nat.le_max_right ..) hm)

/-- More turns do not change what a loop gives. -/
def Steady (g : Nat → Option α) : Prop := ∀ n m r, n ≤ m → g n = some r → g m = some r

/-- What a loop gives is what it ends with. -/
theorem Ends.result (h : Ends g Q) (hg : Steady g) {n : Nat} {r : α} (hr : g n = some r) : Q r := by
  obtain ⟨n', r', hr', hQ⟩ := h
  have h₁ := hg n (max n n') r (Nat.le_max_left ..) hr
  have h₂ := hr' (max n n') (Nat.le_max_right ..)
  rw [h₁] at h₂
  cases h₂
  exact hQ

end Fuel
