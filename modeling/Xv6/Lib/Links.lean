/-
# `Xv6.Lib.Links` — queues linked through their elements

A queue as C programs keep it: a pointer to the first element, and in each
element a pointer to the next.  A place where a pointer is stored is `none` for
the head and `some b` for the field of `b`, so that the loop with a pointer to
a pointer is a loop over places.  `Holds q l` says that the links run through
`l`; adding at the end and taking the first element are then `l ++ [b]` and the
tail of `l`.
-/
import Mathlib.Data.List.Nodup

namespace Links

open List

/-- The head pointer and the `next` fields. -/
structure Queue (B : Type) where
  head : Option B
  next : B → Option B

namespace Queue

variable {B : Type} [DecidableEq B]

/-- `*pp`. -/
def deref (q : Queue B) : Option B → Option B
  | none => q.head
  | some b => q.next b

/-- `*pp = v`. -/
def store (q : Queue B) (pp v : Option B) : Queue B :=
  match pp with
  | none => ⟨v, q.next⟩
  | some b => ⟨q.head, Function.update q.next b v⟩

/-- `for(pp = &head; *pp; pp = &(*pp)->next);` from the place `pp` on, in less than `n`
turns. -/
def last (q : Queue B) : Nat → Option B → Option (Option B)
  | 0, _ => none
  | n + 1, pp =>
    match q.deref pp with
    | none => some pp
    | some b => last q n (some b)

/-- `b->next = 0`, and `b` is stored at the last place. -/
def append (q : Queue B) (n : Nat) (b : B) : Option (Queue B) :=
  let q' := q.store (some b) none
  (q'.last n none).map fun pp => q'.store pp (some b)

/-- `head = b->next`. -/
def pop (q : Queue B) (b : B) : Queue B := ⟨q.next b, q.next⟩

/-- The pointer `p` leads through `l` to null. -/
def Chain (next : B → Option B) : Option B → List B → Prop
  | p, [] => p = none
  | p, b :: l => p = some b ∧ Chain next (next b) l

/-- The queue is `l`. -/
def Holds (q : Queue B) (l : List B) : Prop := Chain q.next q.head l

omit [DecidableEq B] in
theorem Chain.congr {next next' : B → Option B} {p : Option B} {l : List B}
    (h : Chain next p l) (hl : ∀ b ∈ l, next' b = next b) : Chain next' p l := by
  induction l generalizing p with
  | nil => exact h
  | cons b l ih =>
    refine ⟨h.1, ?_⟩
    rw [hl b mem_cons_self]
    exact ih h.2 fun c hc => hl c (mem_cons_of_mem b hc)

variable {q : Queue B} {l : List B} {b : B}

omit [DecidableEq B] in
theorem Holds.head (h : q.Holds l) : q.head = l.head? := by
  cases l with
  | nil => exact h
  | cons b l => exact h.1

omit [DecidableEq B] in
theorem Holds.pop (h : q.Holds (b :: l)) : (q.pop b).Holds l := h.2

/-- The last place of a chain that starts at the place `pp`. -/
def lastPlace : Option B → List B → Option B
  | pp, [] => pp
  | _, b :: l => lastPlace (some b) l

omit [DecidableEq B] in
theorem lastPlace_concat (pp : Option B) (l : List B) (b : B) :
    lastPlace pp (l ++ [b]) = some b := by
  induction l generalizing pp with
  | nil => rfl
  | cons c l ih => exact ih (some c)

omit [DecidableEq B] in
theorem last_eq {n : Nat} {pp : Option B} (h : Chain q.next (q.deref pp) l) (hn : l.length < n) :
    q.last n pp = some (lastPlace pp l) := by
  induction n generalizing pp l with
  | zero => exact absurd hn (Nat.not_lt_zero _)
  | succ n ih =>
    cases l with
    | nil => rw [last, show q.deref pp = none from h, lastPlace]
    | cons c l =>
      rw [last, h.1, lastPlace]
      exact ih h.2 (Nat.lt_of_succ_lt_succ hn)

theorem Chain.concat {next : B → Option B} {p : Option B} {c : B} (h : Chain next p (l ++ [c]))
    (hc : c ∉ l) (hbc : b ≠ c) (hb : next b = none) :
    Chain (Function.update next c (some b)) p (l ++ [c] ++ [b]) := by
  induction l generalizing p with
  | nil =>
    refine ⟨h.1, Function.update_self .., ?_⟩
    rw [Chain, Function.update_of_ne hbc, hb]
  | cons d l ih =>
    refine ⟨h.1, ?_⟩
    rw [Function.update_of_ne (ne_of_not_mem_cons hc).symm]
    exact ih h.2 (not_mem_of_not_mem_cons hc)

/-- **A new element goes to the end.** -/
theorem Holds.append {n : Nat} (h : q.Holds l) (hnd : l.Nodup) (hb : b ∉ l) (hn : l.length < n) :
    ∃ q', q.append n b = some q' ∧ q'.Holds (l ++ [b]) := by
  have h' : Chain (q.store (some b) none).next (q.store (some b) none).head l :=
    Chain.congr h fun c hc => Function.update_of_ne (fun he : c = b => hb (he ▸ hc)) ..
  have hnext : (q.store (some b) none).next b = none := Function.update_self ..
  have hlast : (q.store (some b) none).last n none = some (lastPlace none l) := last_eq h' hn
  refine ⟨_, by rw [Queue.append, hlast]; rfl, ?_⟩
  rcases eq_nil_or_concat l with rfl | ⟨l, c, rfl⟩
  · exact ⟨rfl, hnext⟩
  · rw [concat_eq_append] at *
    rw [lastPlace_concat]
    have hbc : b ≠ c := fun he => hb (mem_append_right _ (he ▸ mem_cons_self))
    refine Chain.concat h' (fun hc => ?_) hbc hnext
    exact (nodup_append.mp hnd).2.2 c hc c mem_cons_self rfl

end Queue

end Links
