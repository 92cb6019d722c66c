/-
# `Xv6.Lib.Dlist` — doubly linked lists

Lists as C programs keep them: each element has a pointer to the one before it
and one to the one after it.  `Seg prev next fin back l` says that the links run
through `l` in both directions: the first element points back to `back`, the
last one on to `fin`.  Taking out an element, wherever it stands behind the
first, is two stores, or one if it is the last; the links then run through what
is left of `l`.
-/
import Mathlib.Data.List.Nodup

namespace Dlist

open List
open Function (update)

variable {P : Type}

/-- The links run through `l`, from `back` to `fin`. -/
def Seg (prev next : P → P) (fin : P) : P → List P → Prop
  | _, [] => True
  | back, q :: l => prev q = back ∧ next q = l.headD fin ∧ Seg prev next fin q l

variable {prev next prev' next' : P → P} {fin back p q : P} {l l₁ l₂ : List P}

/-- The links of the elements decide. -/
theorem Seg.congr (h : Seg prev next fin back l) (hp : ∀ q ∈ l, prev' q = prev q)
    (hn : ∀ q ∈ l, next' q = next q) : Seg prev' next' fin back l := by
  induction l generalizing back with
  | nil => trivial
  | cons q l ih =>
    refine ⟨(hp q mem_cons_self).trans h.1, (hn q mem_cons_self).trans h.2.1, ?_⟩
    exact ih h.2.2 (fun r hr => hp r (mem_cons_of_mem q hr))
      fun r hr => hn r (mem_cons_of_mem q hr)

theorem Seg.suffix (h : Seg prev next fin back (l₁ ++ l₂)) : ∃ b, Seg prev next fin b l₂ := by
  induction l₁ generalizing back with
  | nil => exact ⟨back, h⟩
  | cons p l₁ ih => exact ih h.2.2

/-- What stands behind an element is a list that points back to it. -/
theorem Seg.drop (h : Seg prev next fin back (l₁ ++ q :: l₂)) :
    next q = l₂.headD fin ∧ Seg prev next fin q l₂ := by
  induction l₁ generalizing back with
  | nil => exact h.2
  | cons p l₁ ih => exact ih h.2.2

/-- The element before the last of two neighbours is the other one. -/
theorem Seg.prev_eq (h : Seg prev next fin back (l₁ ++ p :: q :: l₂)) : prev q = p :=
  h.drop.2.1

section Unlink

variable [DecidableEq P]

/-- The stores that take out `q`, which has an element before it: `q->prev->next = q->next`, and
`q->next->prev = q->prev` if there is one behind it. -/
def unlinkNext (prev next : P → P) (q : P) : P → P := update next (prev q) (next q)

@[inherit_doc unlinkNext]
def unlinkPrev (prev next : P → P) (fin q : P) : P → P :=
  if next q = fin then prev else update prev (next q) (prev q)

theorem unlinkNext_of_ne (h : p ≠ prev q) : unlinkNext prev next q p = next p :=
  Function.update_of_ne h ..

theorem unlinkPrev_of_ne (h : p ≠ next q) : unlinkPrev prev next fin q p = prev p := by
  unfold unlinkPrev
  split
  · rfl
  · exact Function.update_of_ne h ..

theorem unlinkPrev_self (h : next q ≠ fin) : unlinkPrev prev next fin q (next q) = prev q := by
  rw [unlinkPrev, if_neg h, Function.update_self]

/-- The list behind `q` is hung on the element before `q`. -/
theorem Seg.rehang (h : Seg prev next fin q l₂) (hq : next q = l₂.headD fin) (hnd : l₂.Nodup)
    (hp : prev q ∉ l₂) (hfin : fin ∉ l₂) :
    Seg (unlinkPrev prev next fin q) (unlinkNext prev next q) fin (prev q) l₂ := by
  have hnext : ∀ a ∈ l₂, unlinkNext prev next q a = next a :=
    fun a ha => unlinkNext_of_ne fun e => hp (e ▸ ha)
  cases l₂ with
  | nil => trivial
  | cons c l₂ =>
    have hc : next q = c := hq
    refine ⟨?_, (hnext c mem_cons_self).trans h.2.1, h.2.2.congr (fun a ha => ?_) fun a ha =>
      hnext a (mem_cons_of_mem c ha)⟩
    · have hne : next q ≠ fin := by
        rintro e
        exact hfin (e ▸ hc ▸ mem_cons_self)
      rw [← hc, unlinkPrev_self hne]
    · refine unlinkPrev_of_ne ?_
      rintro rfl
      rw [hc] at ha
      exact (nodup_cons.mp hnd).1 ha

/-- **An element that is not the first is taken out.** -/
theorem Seg.unlink (h : Seg prev next fin back (l₁ ++ p :: q :: l₂))
    (hnd : (l₁ ++ p :: q :: l₂).Nodup) (hfin : fin ∉ l₁ ++ p :: q :: l₂) :
    Seg (unlinkPrev prev next fin q) (unlinkNext prev next q) fin back (l₁ ++ p :: l₂) := by
  have hprev : prev q = p := h.prev_eq
  have hnext : next q = l₂.headD fin := h.drop.2.2.1
  have hmem : next q ∈ l₂ ∨ next q = fin := by
    rw [hnext]
    cases l₂ with
    | nil => exact .inr rfl
    | cons c l₂ => exact .inl mem_cons_self
  induction l₁ generalizing back with
  | nil =>
    obtain ⟨hpl, hq⟩ := nodup_cons.mp hnd
    have hne : p ≠ next q := by
      rintro e
      rcases hmem with hm | hm
      · exact hpl (mem_cons_of_mem q (e ▸ hm))
      · exact hfin (hm ▸ e ▸ mem_cons_self)
    refine ⟨(unlinkPrev_of_ne hne).trans h.1, ?_, ?_⟩
    · rw [unlinkNext, hprev, Function.update_self, hnext]
    · rw [← hprev]
      refine Seg.rehang h.2.2.2.2 hnext (nodup_cons.mp hq).2 (fun hm => ?_) fun hm => ?_
      · exact hpl (mem_cons_of_mem q (hprev ▸ hm))
      · exact hfin (mem_cons_of_mem p (mem_cons_of_mem q hm))
  | cons c l₁ ih =>
    obtain ⟨hcl, hl⟩ := nodup_cons.mp hnd
    have hcp : c ≠ p := by
      rintro rfl
      exact hcl (mem_append_right l₁ mem_cons_self)
    have hcn : c ≠ next q := by
      rintro e
      rcases hmem with hm | hm
      · exact hcl (mem_append_right l₁ (mem_cons_of_mem p (mem_cons_of_mem q (e ▸ hm))))
      · exact hfin (hm ▸ e ▸ mem_cons_self)
    refine ⟨(unlinkPrev_of_ne hcn).trans h.1, ?_, ih h.2.2 hl fun hm => hfin (mem_cons_of_mem c hm)⟩
    rw [unlinkNext_of_ne (hprev ▸ hcp), h.2.1]
    cases l₁ with
    | nil | cons => rfl

end Unlink

end Dlist
