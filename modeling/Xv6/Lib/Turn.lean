/-
# `Xv6.Lib.Turn` — taking turns around a table

A table of `n` slots, of which some are ready, and an index: `pick` takes the first
ready slot behind the index, around the end of the table, and the index moves to it.
Which slots are ready may change in any way between two picks.

`gap r s` counts the slots between the index `r` and the slot `s`.  A pick that passes
by `s` although `s` is ready has found a slot before it, so the gap shrinks; since it is
less than `n`, a slot that stays ready is passed by less than `n` times (`gap_run`).
-/
import Mathlib.Data.Fin.Basic
import Mathlib.Data.List.Find
import Mathlib.Data.Nat.ModEq

namespace Turn

variable {n : Nat} [NeZero n]

/-- The slot `i` places behind the one after `r`. -/
def slot (r i : Nat) : Fin n := Fin.ofNat n (i + r + 1)

/-- The first ready slot behind `r`, around the table. -/
def pick (r : Nat) (ready : Fin n → Bool) : Option (Fin n) :=
  ((List.range n).map (slot r)).find? ready

/-- The number of slots between `r` and `s`. -/
def gap (r : Nat) (s : Fin n) : Nat := (s.val + (n - (r + 1) % n)) % n

variable {r i : Nat} {s : Fin n} {ready : Fin n → Bool}

theorem gap_lt (r : Nat) (s : Fin n) : gap r s < n := Nat.mod_lt _ (Nat.pos_of_neZero n)

theorem slot_eq : slot r i = s ↔ i + (r + 1) ≡ s.val [MOD n] := by
  rw [Nat.ModEq, Nat.mod_eq_of_lt s.isLt]
  exact Fin.ext_iff

/-- Behind as many slots as the gap says comes `s`. -/
theorem slot_gap (r : Nat) (s : Fin n) : slot r (gap r s) = s := by
  rw [slot_eq]
  have hle : (r + 1) % n ≤ n := (Nat.mod_lt _ (Nat.pos_of_neZero n)).le
  calc gap r s + (r + 1)
      ≡ s.val + (n - (r + 1) % n) + (r + 1) % n [MOD n] :=
        (Nat.mod_modEq _ _).add (Nat.mod_modEq _ _).symm
    _ = s.val + n := by rw [Nat.add_assoc, Nat.sub_add_cancel hle]
    _ ≡ s.val [MOD n] := Nat.add_mod_right ..

theorem gap_eq (hi : i < n) (h : slot r i = s) : gap r s = i := by
  have hmod : gap r s + (r + 1) ≡ i + (r + 1) [MOD n] :=
    (slot_eq.mp (slot_gap r s)).trans (slot_eq.mp h).symm
  exact (hmod.add_right_cancel' (r + 1)).eq_of_lt_of_lt (gap_lt r s) hi

/-- A slot that is ready is picked, or one before it. -/
theorem pick_ready (hs : ready s = true) : ∃ i, i ≤ gap r s ∧ pick r ready = some (slot r i) := by
  rw [pick, List.find?_map]
  cases h : (List.range n).find? (ready ∘ slot r) with
  | none =>
    have hno := List.find?_eq_none.mp h (gap r s) (List.mem_range.mpr (gap_lt r s))
    rw [Function.comp_apply, slot_gap] at hno
    exact absurd hs hno
  | some i =>
    refine ⟨i, ?_, rfl⟩
    by_contra hlt
    have hbefore := (List.find?_range_eq_some.mp h).2.2 (gap r s) (Nat.lt_of_not_le hlt)
    rw [Function.comp_apply, slot_gap, hs] at hbefore
    cases hbefore

/-- **A pick that passes by a ready slot brings the index closer to it.** -/
theorem gap_step (hs : ready s = true) (hne : pick r ready ≠ some s) :
    ∃ p, pick r ready = some p ∧ gap p.val s < gap r s := by
  obtain ⟨i, hle, hp⟩ := pick_ready hs
  refine ⟨slot r i, hp, ?_⟩
  have hlt : i < gap r s := by
    refine Nat.lt_of_le_of_ne hle fun he => hne ?_
    rw [hp, he, slot_gap]
  have hgap := gap_lt r s
  -- what is left of the gap leads from the new index to `s`
  have hrest : slot (slot (n := n) r i).val (gap r s - (i + 1)) = s := by
    rw [slot_eq]
    calc gap r s - (i + 1) + ((slot r i).val + 1)
        ≡ gap r s - (i + 1) + (i + r + 1 + 1) [MOD n] :=
          (Nat.mod_modEq (i + r + 1) n).add_right 1 |>.add_left _
      _ = gap r s + (r + 1) := by omega
      _ ≡ s.val [MOD n] := slot_eq.mp (slot_gap r s)
  rw [gap_eq (by omega) hrest]
  omega

/-- The index after a pick. -/
def next (r : Nat) (ready : Fin n → Bool) : Nat := (pick r ready).elim r Fin.val

/-- **A slot that is ready and passed by** has the index come closer with every pick. -/
theorem gap_run {index : Nat → Nat} {ready : Nat → Fin n → Bool} {l : Nat}
    (hnext : ∀ j, j < l → index (j + 1) = next (index j) (ready j))
    (hready : ∀ j, j < l → ready j s = true)
    (hpassed : ∀ j, j < l → pick (index j) (ready j) ≠ some s) :
    gap (index l) s + l ≤ gap (index 0) s := by
  induction l with
  | zero => exact Nat.le_refl _
  | succ l ih =>
    have hl := Nat.lt_succ_self l
    obtain ⟨p, hp, hlt⟩ := gap_step (hready l hl) (hpassed l hl)
    have hmoved : index (l + 1) = p.val := by
      rw [hnext l hl, next, hp]
      rfl
    have hbefore := ih (fun j hj => hnext j (hj.trans hl)) (fun j hj => hready j (hj.trans hl))
      fun j hj => hpassed j (hj.trans hl)
    rw [hmoved]
    omega

/-- Less than `n` picks pass by a slot that stays ready. -/
theorem passed_lt (index : Nat → Nat) (ready : Nat → Fin n → Bool) {l : Nat}
    (hnext : ∀ j, j < l → index (j + 1) = next (index j) (ready j))
    (hready : ∀ j, j < l → ready j s = true)
    (hpassed : ∀ j, j < l → pick (index j) (ready j) ≠ some s) : l < n := by
  have hrun := gap_run hnext hready hpassed
  have hgap := gap_lt (index 0) s
  omega

end Turn
