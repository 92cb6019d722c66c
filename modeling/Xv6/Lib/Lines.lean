/-
# `Xv6.Lib.Lines` — texts and their lines

A text is cut at every occurrence of a separator: `cut` gives the lines, without the
separator, and what comes after the last one.  A text that arrives in pieces is cut
piece by piece, the rest of one piece going in front of the next (`cut_append`).
-/
import Mathlib.Data.List.Basic

namespace Lines

open List

variable {α : Type} [DecidableEq α]

/-- The lines of a text and the rest behind the last separator. -/
def cut (sep : α) : List α → List (List α) × List α
  | [] => ([], [])
  | x :: text =>
    if x = sep then ([] :: (cut sep text).1, (cut sep text).2)
    else
      match (cut sep text).1 with
      | [] => ([], x :: (cut sep text).2)
      | l :: ls => ((x :: l) :: ls, (cut sep text).2)

/-- Lines, each with the separator behind it. -/
def join (sep : α) (ls : List (List α)) : List α := (ls.map (· ++ [sep])).flatten

variable {sep : α} {l r text : List α}

theorem cut_of_notMem (h : sep ∉ r) : cut sep r = ([], r) := by
  induction r with
  | nil => rfl
  | cons x r ih =>
    rw [mem_cons, not_or] at h
    rw [cut, if_neg (Ne.symm h.1), ih h.2]

/-- Text without a separator goes to the first line, or to the rest if there is none. -/
theorem cut_notMem_append (h : sep ∉ l) (text : List α) : cut sep (l ++ text) =
    match (cut sep text).1 with
    | [] => ([], l ++ (cut sep text).2)
    | k :: ks => ((l ++ k) :: ks, (cut sep text).2) := by
  induction l with
  | nil =>
    rw [nil_append]
    rcases cut sep text with ⟨ks, r⟩
    cases ks with
    | nil | cons => rfl
  | cons x l ih =>
    rw [mem_cons, not_or] at h
    rw [cons_append, cut, if_neg (Ne.symm h.1), ih h.2]
    rcases cut sep text with ⟨ks, r⟩
    cases ks with
    | nil | cons => rfl

/-- One line, and the text behind it. -/
theorem cut_line (h : sep ∉ l) (text : List α) :
    cut sep (l ++ sep :: text) = (l :: (cut sep text).1, (cut sep text).2) := by
  rw [cut_notMem_append h, cut, if_pos rfl]
  show ((l ++ []) :: (cut sep text).1, (cut sep text).2) = _
  rw [append_nil]

/-- There is no separator in the rest, nor in a line. -/
theorem notMem_cut (sep : α) (text : List α) :
    (∀ l ∈ (cut sep text).1, sep ∉ l) ∧ sep ∉ (cut sep text).2 := by
  induction text with
  | nil => exact ⟨nofun, nofun⟩
  | cons x text ih =>
    obtain ⟨hl, hr⟩ := ih
    rw [cut]
    by_cases hx : x = sep
    · rw [if_pos hx]
      refine ⟨fun l h => ?_, hr⟩
      rcases mem_cons.mp h with rfl | h
      · exact not_mem_nil
      · exact hl l h
    · rw [if_neg hx]
      rcases hcut : cut sep text with ⟨ls, r⟩
      rw [hcut] at hl hr
      cases ls with
      | nil => exact ⟨nofun, not_mem_cons_of_ne_of_not_mem (Ne.symm hx) hr⟩
      | cons k ks =>
        refine ⟨fun l h => ?_, hr⟩
        rcases mem_cons.mp h with rfl | h
        · exact not_mem_cons_of_ne_of_not_mem (Ne.symm hx) (hl k mem_cons_self)
        · exact hl l (mem_cons_of_mem k h)

/-- Nothing is lost. -/
theorem join_cut (sep : α) (text : List α) : join sep (cut sep text).1 ++ (cut sep text).2 = text := by
  induction text with
  | nil => rfl
  | cons x text ih =>
    rw [cut]
    by_cases hx : x = sep
    · rw [if_pos hx, hx]
      exact congrArg (sep :: ·) ih
    · rw [if_neg hx]
      rcases hcut : cut sep text with ⟨ls, r⟩
      rw [hcut] at ih
      cases ls with
      | nil | cons => exact congrArg (x :: ·) ih

/-- A text without a line is its rest. -/
theorem cut_nil (h : (cut sep text).1 = []) : (cut sep text).2 = text ∧ sep ∉ text := by
  suffices hall : sep ∉ text by
    rw [cut_of_notMem hall]
    exact ⟨rfl, hall⟩
  intro hmem
  obtain ⟨a, b, rfl, ha⟩ := eq_append_cons_of_mem hmem
  rw [cut_line ha] at h
  cases h

/-- **A text in two pieces**: the rest of the first goes in front of the second. -/
theorem cut_append (sep : α) (a b : List α) : cut sep (a ++ b) =
    ((cut sep a).1 ++ (cut sep ((cut sep a).2 ++ b)).1, (cut sep ((cut sep a).2 ++ b)).2) := by
  induction a with
  | nil => rfl
  | cons x a ih =>
    rw [cons_append, cut, cut, ih]
    by_cases hx : x = sep
    · rw [if_pos hx, if_pos hx]
      rfl
    · rw [if_neg hx, if_neg hx]
      rcases cut sep a with ⟨ls, r⟩
      cases ls with
      | nil =>
        show _ = ([] ++ (cut sep (x :: (r ++ b))).1, (cut sep (x :: (r ++ b))).2)
        rw [cut, if_neg hx]
        rfl
      | cons l ls => rfl

theorem cut_join {ls : List (List α)} (h : ∀ l ∈ ls, sep ∉ l) : cut sep (join sep ls) = (ls, []) := by
  induction ls with
  | nil => rfl
  | cons l ls ih =>
    have hjoin : join sep (l :: ls) = l ++ sep :: join sep ls := by
      rw [join, map_cons, flatten_cons, append_assoc]
      rfl
    rw [hjoin, cut_line (h l mem_cons_self), ih fun k hk => h k (mem_cons_of_mem l hk)]

end Lines
