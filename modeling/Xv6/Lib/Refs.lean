/-
# `Xv6.Lib.Refs` — counting references

Finitely many holders `h : H` each refer to objects, `w h f` times to the object
`f`.  `total w f` is the number of references to `f`, what a reference count is
meant to be.  A step of a system changes one or two holders, so the one rule is
what `total` does when a holder changes.
-/
import Mathlib.Algebra.Order.BigOperators.Group.Finset
import Mathlib.Data.Fintype.BigOperators

namespace Refs

open Finset

variable {H F : Type} [Fintype H] {w : H → F → Nat} {h : H} {f : F}

def total (w : H → F → Nat) (f : F) : Nat := ∑ h, w h f

/-- The reference a pointer makes. -/
def one [DecidableEq F] (o : Option F) (f : F) : Nat := if o = some f then 1 else 0

@[simp] theorem one_none [DecidableEq F] (f : F) : one none f = 0 := rfl

@[simp] theorem one_self [DecidableEq F] (f : F) : one (some f) f = 1 := if_pos rfl

theorem one_of_ne [DecidableEq F] {g : F} (h : g ≠ f) : one (some g) f = 0 :=
  if_neg fun he => h (Option.some.inj he)

theorem one_pos [DecidableEq F] {o : Option F} : 0 < one o f ↔ o = some f := by
  rw [one]
  split <;> simp_all

theorem total_update [DecidableEq H] (w : H → F → Nat) (h : H) (v : F → Nat) (f : F) :
    total (Function.update w h v) f + w h f = total w f + v f := by
  have hrest : ∑ k ∈ univ.erase h, Function.update w h v k f = ∑ k ∈ univ.erase h, w k f := by
    refine sum_congr rfl fun k hk => ?_
    rw [Function.update_of_ne (ne_of_mem_erase hk)]
  have h₁ := add_sum_erase univ (fun k => Function.update w h v k f) (mem_univ h)
  have h₂ := add_sum_erase univ (fun k => w k f) (mem_univ h)
  simp only [Function.update_self] at h₁
  rw [total, total, ← h₁, ← h₂, hrest]
  omega

theorem le_total (w : H → F → Nat) (h : H) (f : F) : w h f ≤ total w f :=
  single_le_sum (f := fun k => w k f) (fun _ _ => Nat.zero_le _) (mem_univ h)

theorem total_pos_iff : 0 < total w f ↔ ∃ h, 0 < w h f := by
  rw [total, sum_pos_iff]
  simp

end Refs
