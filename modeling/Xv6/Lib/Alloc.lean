/-
# `Xv6.Lib.Alloc` — who owns what an allocator hands out

An allocator marks numbers as used; holders, the `i : ι`, each point at a number
or at nothing, which is `0`.  `Owned` says that the two agree on the range
`[lo, hi)` that is handed out: a number has at most one holder and is marked
exactly when it has one.  What lies below `lo` is always marked.

A client that fills the holders of a set `L` one by one gets through exactly
when there are as many free numbers as empty holders: `Spent` is the equation
that every step of such a client keeps.
-/
import Mathlib.Data.Finset.Card

namespace Alloc

open Finset
open Function (update update_of_ne update_self)

variable {ι : Type} {lo hi b : Nat} {r : ι → Nat} {used : Nat → Bool}

/-- Marks and holders agree. -/
structure Owned (lo hi : Nat) (r : ι → Nat) (used : Nat → Bool) : Prop where
  inRange : ∀ i, r i ≠ 0 → lo ≤ r i ∧ r i < hi
  inj : ∀ i j, r i ≠ 0 → r i = r j → i = j
  marked : ∀ b, lo ≤ b → b < hi → (used b = true ↔ ∃ i, r i = b)
  below : ∀ b, b < lo → used b = true

/-- Marks matter below `hi` only. -/
theorem Owned.congr_used {used' : Nat → Bool} (h : Owned lo hi r used) (hle : lo ≤ hi)
    (hu : ∀ b, b < hi → used' b = used b) : Owned lo hi r used' where
  inRange := h.inRange
  inj := h.inj
  marked b h₁ h₂ := by rw [hu b h₂]; exact h.marked b h₁ h₂
  below b hb := by rw [hu b (Nat.lt_of_lt_of_le hb hle)]; exact h.below b hb

/-- What is unmarked can be handed out, and nobody holds it. -/
theorem Owned.unheld (h : Owned lo hi r used) (hb : used b = false) (hlt : b < hi) :
    lo ≤ b ∧ ∀ i, r i ≠ b := by
  have hlo : lo ≤ b := by
    by_contra hn
    rw [h.below b (Nat.lt_of_not_le hn)] at hb
    cases hb
  refine ⟨hlo, fun i hi => ?_⟩
  rw [(h.marked b hlo hlt).mpr ⟨i, hi⟩] at hb
  cases hb

variable [DecidableEq ι] {i : ι}

theorem Owned.alloc (h : Owned lo hi r used) (hlo : 0 < lo) (hb : used b = false) (hlt : b < hi)
    (hi₀ : r i = 0) : Owned lo hi (update r i b) (update used b true) := by
  obtain ⟨hb₁, hfree⟩ := h.unheld hb hlt
  refine ⟨fun j hj => ?_, fun j k hj hjk => ?_, fun c h₁ h₂ => ?_, fun c hc => ?_⟩
  · by_cases hji : j = i
    · subst hji
      rw [update_self]
      exact ⟨hb₁, hlt⟩
    · rw [update_of_ne hji] at hj ⊢
      exact h.inRange j hj
  · by_cases hji : j = i
    · subst hji
      by_cases hki : k = j
      · exact hki.symm
      · rw [update_self, update_of_ne hki] at hjk
        exact absurd hjk.symm (hfree k)
    · rw [update_of_ne hji] at hj hjk
      by_cases hki : k = i
      · subst hki
        rw [update_self] at hjk
        exact absurd hjk (hfree j)
      · rw [update_of_ne hki] at hjk
        exact h.inj j k hj hjk
  · by_cases hcb : c = b
    · subst hcb
      rw [update_self]
      exact ⟨fun _ => ⟨i, update_self ..⟩, fun _ => rfl⟩
    · rw [update_of_ne hcb, h.marked c h₁ h₂]
      constructor
      · rintro ⟨j, hj⟩
        have hji : j ≠ i := by rintro rfl; omega
        exact ⟨j, by rwa [update_of_ne hji]⟩
      · rintro ⟨j, hj⟩
        have hji : j ≠ i := by
          rintro rfl
          rw [update_self] at hj
          exact hcb hj.symm
        exact ⟨j, by rwa [update_of_ne hji] at hj⟩
  · have hcb : c ≠ b := by omega
    rw [update_of_ne hcb]
    exact h.below c hc

theorem Owned.free (h : Owned lo hi r used) (hlo : 0 < lo) (hi₀ : r i ≠ 0) :
    Owned lo hi (update r i 0) (update used (r i) false) := by
  obtain ⟨hb₁, -⟩ := h.inRange i hi₀
  have hne : ∀ {j}, update r i 0 j ≠ 0 → j ≠ i := by
    rintro j hj rfl
    exact hj (update_self ..)
  refine ⟨fun j hj => ?_, fun j k hj hjk => ?_, fun c h₁ h₂ => ?_, fun c hc => ?_⟩
  · have hji := hne hj
    rw [update_of_ne hji] at hj ⊢
    exact h.inRange j hj
  · have hji := hne hj
    have hki := hne (hjk ▸ hj)
    rw [update_of_ne hji] at hj hjk
    rw [update_of_ne hki] at hjk
    exact h.inj j k hj hjk
  · by_cases hcb : c = r i
    · subst hcb
      rw [update_self]
      refine ⟨fun hf => (by cases hf), fun ⟨j, hj⟩ => ?_⟩
      have hji := hne (hj ▸ hi₀)
      rw [update_of_ne hji] at hj
      exact absurd (h.inj j i (hj ▸ hi₀) hj) hji
    · rw [update_of_ne hcb, h.marked c h₁ h₂]
      constructor
      · rintro ⟨j, hj⟩
        have hji : j ≠ i := by rintro rfl; exact hcb hj.symm
        exact ⟨j, by rwa [update_of_ne hji]⟩
      · rintro ⟨j, hj⟩
        have hji := hne (show update r i 0 j ≠ 0 by omega)
        exact ⟨j, by rwa [update_of_ne hji] at hj⟩
  · have hcb : c ≠ r i := by omega
    rw [update_of_ne hcb]
    exact h.below c hc

/-! ## Counting -/

/-- The numbers that can still be handed out. -/
def spare (hi : Nat) (used : Nat → Bool) : Finset Nat := {b ∈ Finset.range hi | used b = false}

/-- The holders of `L` that have nothing. -/
def lacking (r : ι → Nat) (L : Finset ι) : Finset ι := {i ∈ L | r i = 0}

/-- Between two states: what was handed out went to empty holders of `L`. -/
def Spent (hi : Nat) (L : Finset ι) (r : ι → Nat) (used : Nat → Bool) (r' : ι → Nat)
    (used' : Nat → Bool) : Prop :=
  (spare hi used).card + (lacking r' L).card = (spare hi used').card + (lacking r L).card

section Counting

variable {L : Finset ι} {r' r'' : ι → Nat} {used' used'' : Nat → Bool}

omit [DecidableEq ι] in
/-- Marks matter below `hi`, and holders by whether they are empty. -/
theorem Spent.of_same (hu : ∀ b, b < hi → used' b = used b) (hr : ∀ i ∈ L, r' i = 0 ↔ r i = 0) :
    Spent hi L r used r' used' := by
  have hs : spare hi used' = spare hi used :=
    filter_congr fun b hb => by rw [hu b (mem_range.mp hb)]
  have hl : lacking r' L = lacking r L := filter_congr hr
  rw [Spent, hs, hl]

/-- A free number is given to an empty holder. -/
theorem Spent.alloc (hb : used b = false) (hlt : b < hi)
    (hu : ∀ c, c < hi → used' c = update used b true c) (hL : i ∈ L) (hi₀ : r i = 0)
    (hi₁ : r' i ≠ 0) (hr : ∀ j, j ≠ i → (r' j = 0 ↔ r j = 0)) : Spent hi L r used r' used' := by
  have hs : spare hi used' = (spare hi used).erase b := by
    ext c
    rw [mem_erase, spare, spare, mem_filter, mem_filter, mem_range]
    by_cases hc : c = b
    · subst hc
      refine iff_of_false (fun h => ?_) fun h => h.1 rfl
      rw [hu c h.1, update_self] at h
      cases h.2
    · refine ⟨fun h => ⟨hc, h.1, ?_⟩, fun h => ⟨h.2.1, ?_⟩⟩
      · rw [← h.2, hu c h.1, update_of_ne hc]
      · rw [hu c h.2.1, update_of_ne hc, h.2.2]
  have hl : lacking r' L = (lacking r L).erase i := by
    ext j
    rw [mem_erase, lacking, lacking, mem_filter, mem_filter]
    by_cases hj : j = i
    · subst hj
      exact iff_of_false (fun h => hi₁ h.2) fun h => h.1 rfl
    · rw [hr j hj]
      exact ⟨fun h => ⟨hj, h⟩, fun h => h.2⟩
  have hb' : b ∈ spare hi used := mem_filter.mpr ⟨mem_range.mpr hlt, hb⟩
  have hi' : i ∈ lacking r L := mem_filter.mpr ⟨hL, hi₀⟩
  have h₁ := card_erase_add_one hb'
  have h₂ := card_erase_add_one hi'
  rw [Spent, hs, hl]
  omega

end Counting

end Alloc
