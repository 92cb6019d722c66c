/-
# `Xv6.Lib.Cyclic` — circular lists in order

A circular list whose elements are sorted, but for the one step from the last to the
first.  No list is kept: the elements are a finite set, and `next` leads from each to the
least one above it, from the last to the first.  Inserting and unlinking are then updates
of `next` beside updates of the set, and a walk along `next` comes to every element
(`Ring.reach`).
-/
import Mathlib.Data.Finset.Card
import Mathlib.Data.Nat.Find
import Mathlib.Tactic.Order

namespace Cyclic

open Finset
open Function (update update_of_ne update_self)

variable {α : Type} [LinearOrder α]

/-- `b` is the element of `F` that follows `a`, upwards and around. -/
def Next (F : Finset α) (a b : α) : Prop :=
  b ∈ F ∧ (a < b ∧ (∀ c ∈ F, c ≤ a ∨ b ≤ c) ∨ ∀ c ∈ F, b ≤ c ∧ c ≤ a)

/-- `next` runs around `F`. -/
def Ring (next : α → α) (F : Finset α) : Prop := ∀ a ∈ F, Next F a (next a)

variable {next : α → α} {F : Finset α} {a b x : α}

theorem Ring.mem (h : Ring next F) (ha : a ∈ F) : next a ∈ F := (h a ha).1

theorem Ring.congr {next' : α → α} (h : Ring next F) (he : ∀ a ∈ F, next' a = next a) :
    Ring next' F := by
  intro a ha
  rw [he a ha]
  exact h a ha

/-- No two elements are followed by the same one. -/
theorem Next.unique (ha : a ∈ F) (hb : b ∈ F) (hax : Next F a x) (hbx : Next F b x) : a = b := by
  obtain ⟨hx, ⟨h₁, h₂⟩ | h₁⟩ := hax
  · obtain ⟨-, ⟨h₃, h₄⟩ | h₃⟩ := hbx
    · rcases h₂ b hb with h | h
      · rcases h₄ a ha with h' | h'
        · order
        · order
      · order
    · have := h₃ a ha
      order
  · obtain ⟨-, ⟨h₃, h₄⟩ | h₃⟩ := hbx
    · have := h₁ b hb
      order
    · have := h₁ b hb
      have := h₃ a ha
      order

theorem Ring.insert (h : Ring next F) (ha : a ∈ F) (hax : a < x) (hx : ∀ c ∈ F, c ≤ a ∨ x < c) :
    Ring (update (update next x (next a)) a x) (insert x F) := by
  intro d hd
  by_cases hda : d = a
  · subst hda
    rw [update_self]
    refine ⟨mem_insert_self .., .inl ⟨hax, fun c hc => ?_⟩⟩
    rcases mem_insert.mp hc with rfl | hc
    · exact .inr (le_refl _)
    · exact (hx c hc).imp id le_of_lt
  rw [update_of_ne hda]
  by_cases hdx : d = x
  · subst hdx
    rw [update_self]
    obtain ⟨hm, ⟨h₁, h₂⟩ | h₁⟩ := h a ha
    · refine ⟨mem_insert_of_mem hm, .inl ⟨?_, fun c hc => ?_⟩⟩
      · exact (hx _ hm).resolve_left (not_le_of_gt h₁)
      · rcases mem_insert.mp hc with rfl | hc
        · exact .inl (le_refl _)
        · exact (h₂ c hc).imp (fun h => h.trans hax.le) id
    · refine ⟨mem_insert_of_mem hm, .inr fun c hc => ?_⟩
      have := h₁ a ha
      rcases mem_insert.mp hc with rfl | hc
      · exact ⟨by order, le_refl _⟩
      · have := h₁ c hc
        exact ⟨this.1, by order⟩
  rw [update_of_ne hdx]
  have hdF := (mem_insert.mp hd).resolve_left hdx
  obtain ⟨hm, ⟨h₁, h₂⟩ | h₁⟩ := h d hdF
  · refine ⟨mem_insert_of_mem hm, .inl ⟨h₁, fun c hc => ?_⟩⟩
    rcases mem_insert.mp hc with rfl | hc
    · rcases h₂ a ha with h | h
      · exact .inl ((hx d hdF).resolve_left fun h' => hda (le_antisymm h' h)).le
      · exact .inr (h.trans hax.le)
    · exact h₂ c hc
  · refine ⟨mem_insert_of_mem hm, .inr fun c hc => ?_⟩
    rcases mem_insert.mp hc with rfl | hc
    · have := h₁ a ha
      exact ⟨by order, ((hx d hdF).resolve_left (by order)).le⟩
    · exact h₁ c hc

theorem Ring.erase (h : Ring next F) (ha : a ∈ F) (hne : next a ≠ a) :
    Ring (update next a (next (next a))) (F.erase (next a)) := by
  have hx := h.mem ha
  have hloop : next (next a) ≠ next a := by
    intro he
    obtain ⟨-, ⟨h₁, -⟩ | h₁⟩ := h _ hx
    · exact absurd he.symm h₁.ne
    · have := h₁ a ha
      order
  intro d hd
  obtain ⟨hdx, hdF⟩ := mem_erase.mp hd
  by_cases hda : d = a
  · subst hda
    rw [update_self]
    refine ⟨mem_erase.mpr ⟨hloop, h.mem hx⟩, ?_⟩
    obtain ⟨-, ⟨h₁, h₂⟩ | h₁⟩ := h d hdF
    · obtain ⟨-, ⟨h₃, h₄⟩ | h₃⟩ := h _ hx
      · refine .inl ⟨h₁.trans h₃, fun c hc => ?_⟩
        obtain ⟨hcx, hc⟩ := mem_erase.mp hc
        rcases h₂ c hc with h | h
        · exact .inl h
        · exact .inr ((h₄ c hc).resolve_left (by order))
      · refine .inr fun c hc => ?_
        obtain ⟨hcx, hc⟩ := mem_erase.mp hc
        have := h₃ c hc
        exact ⟨this.1, (h₂ c hc).resolve_right (by order)⟩
    · obtain ⟨-, ⟨h₃, h₄⟩ | h₃⟩ := h _ hx
      · refine .inr fun c hc => ?_
        obtain ⟨hcx, hc⟩ := mem_erase.mp hc
        have := h₁ c hc
        exact ⟨(h₄ c hc).resolve_left (by order), this.2⟩
      · have := h₁ d hdF
        have := h₃ d hdF
        exact absurd (by order) hne
  · rw [update_of_ne hda]
    obtain ⟨hm, hn⟩ := h d hdF
    have hne' : next d ≠ next a := by
      intro he
      have hdn := h d hdF
      rw [he] at hdn
      exact hda (Next.unique hdF ha hdn (h a ha))
    refine ⟨mem_erase.mpr ⟨hne', hm⟩, ?_⟩
    rcases hn with ⟨h₁, h₂⟩ | h₁
    · exact .inl ⟨h₁, fun c hc => h₂ c (mem_of_mem_erase hc)⟩
    · exact .inr fun c hc => h₁ c (mem_of_mem_erase hc)

/-- The elements on the way from `a` to `b`. -/
def ahead (F : Finset α) (a b : α) : Finset α :=
  F.filter fun c => a ≤ b ∧ a < c ∧ c ≤ b ∨ b < a ∧ (a < c ∨ c ≤ b)

theorem Ring.ahead_ssubset (h : Ring next F) (ha : a ∈ F) (hb : b ∈ F) (hne : a ≠ b) :
    ahead F (next a) b ⊂ ahead F a b := by
  have hx := h.mem ha
  have hsub : ahead F (next a) b ⊆ ahead F a b := by
    intro c hc
    obtain ⟨hc, hw⟩ := mem_filter.mp hc
    refine mem_filter.mpr ⟨hc, ?_⟩
    obtain ⟨-, ⟨h₁, h₂⟩ | h₁⟩ := h a ha
    · rcases hw with ⟨h₃, h₄, h₅⟩ | ⟨h₃, h₄⟩
      · exact .inl ⟨by order, by order, h₅⟩
      · have hba : b < a := lt_of_le_of_ne ((h₂ b hb).resolve_right (by order)) (Ne.symm hne)
        exact .inr ⟨hba, h₄.imp (fun h => h₁.trans h) id⟩
    · have hbx := h₁ b hb
      rcases hw with ⟨h₃, h₄, h₅⟩ | ⟨h₃, h₄⟩
      · exact .inr ⟨by order, .inr h₅⟩
      · order
  refine (ssubset_iff_of_subset hsub).mpr ⟨next a, ?_, ?_⟩
  · refine mem_filter.mpr ⟨hx, ?_⟩
    obtain ⟨-, ⟨h₁, h₂⟩ | h₁⟩ := h a ha
    · rcases h₂ b hb with h | h
      · exact .inr ⟨by order, .inl h₁⟩
      · exact .inl ⟨by order, h₁, h⟩
    · have := h₁ b hb
      exact .inr ⟨by order, .inr this.1⟩
  · intro hmem
    obtain ⟨-, ⟨-, h₁, -⟩ | ⟨h₁, h₂ | h₂⟩⟩ := mem_filter.mp hmem
    · exact lt_irrefl _ h₁
    · exact lt_irrefl _ h₂
    · order

/-- **The walk rule**: what holds at `b`, and at an element when it holds at the next one,
holds at every element. -/
theorem Ring.reach {P : α → Prop} (h : Ring next F) (hb : b ∈ F) (hend : P b)
    (hstep : ∀ a ∈ F, a ≠ b → P (next a) → P a) (ha : a ∈ F) : P a := by
  induction hn : (ahead F a b).card using Nat.strong_induction_on generalizing a with
  | _ n ih =>
    by_cases hab : a = b
    · rw [hab]
      exact hend
    · refine hstep a ha hab (ih _ ?_ (h.mem ha) rfl)
      rw [← hn]
      exact card_lt_card (h.ahead_ssubset ha hb hab)

end Cyclic
