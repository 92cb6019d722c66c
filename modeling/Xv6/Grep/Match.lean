/-
# `Xv6.Grep.Match` — the matcher of `grep`

`match`, `matchhere` and `matchstar` of `grep.c`, against the language of the pattern.
Strings are the bytes before the NUL.

A pattern is read from the left: a `^` at the start is the front anchor; behind it a
character with a `*` after it is repeated, a `$` that is the last character is the back
anchor, and everything else stands for itself, `.` for any character.  So the `*` of
`^*a`, of `**` behind the first two characters, or at the start of a pattern is a letter,
and so is a `$` or a `^` in the middle.  `Pattern` is what has been read and its language
is the product, in Mathlib's `Language`, of the languages of its parts.
-/
import Mathlib.Computability.Language

namespace Xv6.Grep

open Computability List

/-! ## The matcher -/

/-- `'*'`. -/
def STAR : UInt8 := 42
/-- `'.'`. -/
def DOT : UInt8 := 46
/-- `'^'`. -/
def CARET : UInt8 := 94
/-- `'$'`. -/
def DOLLAR : UInt8 := 36

/-- `matchstar(c, re, text)`, where `here` is `matchhere(re, ·)`. -/
def matchstar (c : UInt8) (here : List UInt8 → Bool) : List UInt8 → Bool
  | [] => here []
  | t :: text => here (t :: text) || (t = c || c = DOT) && matchstar c here text

/-- `*text!='\0' && (c=='.' || c==*text)`, and then `here`, which is `matchhere(re+1, ·)`. -/
def matchone (c : UInt8) (here : List UInt8 → Bool) : List UInt8 → Bool
  | [] => false
  | t :: text => (c = DOT || c = t) && here text

def matchhere : List UInt8 → List UInt8 → Bool
  | [], _ => true
  | [c], text => if c = DOLLAR then text.isEmpty else matchone c (matchhere []) text
  | c :: d :: re, text =>
    if d = STAR then matchstar c (matchhere re) text else matchone c (matchhere (d :: re)) text

/-- The loop of `match`. -/
def matchFrom (re : List UInt8) : List UInt8 → Bool
  | [] => matchhere re []
  | t :: text => matchhere re (t :: text) || matchFrom re text

/-- `match(re, text)`. -/
def match_ (re text : List UInt8) : Bool :=
  if re.head? = some CARET then matchhere re.tail text else matchFrom re text

/-! ## The language of a pattern -/

/-- A part of a pattern: a character, or one that is repeated. -/
inductive Item
  | once (c : UInt8)
  | star (c : UInt8)
  deriving DecidableEq

/-- A pattern as it is read. -/
structure Pattern where
  front : Bool
  items : List Item
  back : Bool
  deriving DecidableEq

/-- The items of a pattern behind the front anchor, and whether it ends in the back anchor. -/
def readItems : List UInt8 → List Item × Bool
  | [] => ([], false)
  | [c] => if c = DOLLAR then ([], true) else ([.once c], false)
  | c :: d :: re =>
    if d = STAR then (.star c :: (readItems re).1, (readItems re).2)
    else (.once c :: (readItems (d :: re)).1, (readItems (d :: re)).2)

/-- What a pattern stands for. -/
def readPattern (re : List UInt8) : Pattern :=
  if re.head? = some CARET then ⟨true, (readItems re.tail).1, (readItems re.tail).2⟩
  else ⟨false, (readItems re).1, (readItems re).2⟩

/-- The letters `c` stands for. -/
def Fits (c x : UInt8) : Prop := c = DOT ∨ c = x

/-- The words of one letter `c` stands for. -/
def letter (c : UInt8) : Language UInt8 := {w | ∃ x, Fits c x ∧ w = [x]}

def Item.lang : Item → Language UInt8
  | .once c => letter c
  | .star c => (letter c)∗

/-- The language of a list of items: one after the other. -/
def lang (items : List Item) : Language UInt8 := (items.map Item.lang).prod

/-- Some part of the text is in the language, and it is at the front or at the back of the text
where the pattern says so. -/
def Pattern.Occurs (P : Pattern) (text : List UInt8) : Prop :=
  ∃ u v w, text = u ++ (v ++ w) ∧ v ∈ lang P.items ∧ (P.front = true → u = []) ∧
    (P.back = true → w = [])

/-! ## Membership -/

variable {c x : UInt8} {v w text : List UInt8} {items : List Item}

theorem mem_letter : w ∈ letter c ↔ ∃ x, Fits c x ∧ w = [x] := Iff.rfl

theorem mem_letter_star : w ∈ (letter c)∗ ↔ ∀ x ∈ w, Fits c x := by
  constructor
  · intro h
    obtain ⟨parts, rfl, hparts⟩ := Language.mem_kstar.mp h
    intro x hx
    obtain ⟨part, hpart, hx⟩ := mem_flatten.mp hx
    obtain ⟨y, hy, rfl⟩ := mem_letter.mp (hparts part hpart)
    rwa [mem_singleton.mp hx]
  · intro h
    refine Language.mem_kstar.mpr ⟨w.map fun x => [x], ?_, fun part hpart => ?_⟩
    · rw [← flatMap_def, flatMap_singleton']
    · obtain ⟨x, hx, rfl⟩ := mem_map.mp hpart
      exact ⟨x, h x hx, rfl⟩

theorem mem_lang_nil : w ∈ lang [] ↔ w = [] := Iff.rfl

theorem mem_lang_cons {e : Item} : w ∈ lang (e :: items) ↔
    ∃ u ∈ e.lang, ∃ v ∈ lang items, u ++ v = w := by
  exact Language.mem_mul

theorem mem_lang_once : w ∈ lang (.once c :: items) ↔
    ∃ x v, Fits c x ∧ v ∈ lang items ∧ w = x :: v := by
  constructor
  · rintro ⟨u, ⟨x, hx, rfl⟩, v, hv, rfl⟩
    exact ⟨x, v, hx, hv, rfl⟩
  · rintro ⟨x, v, hx, hv, rfl⟩
    exact ⟨[x], ⟨x, hx, rfl⟩, v, hv, rfl⟩

/-! ## The matcher meets the language -/

/-- The text starts with a word of the language, and ends with it if `back`. -/
def Starts (r : List Item × Bool) (text : List UInt8) : Prop :=
  ∃ v w, text = v ++ w ∧ v ∈ lang r.1 ∧ (r.2 = true → w = [])

/-- **`matchstar`** tries the rest behind every run of letters `c` stands for. -/
theorem matchstar_iff (here : List UInt8 → Bool) :
    matchstar c here text = true ↔
      ∃ v w, text = v ++ w ∧ (∀ x ∈ v, Fits c x) ∧ here w = true := by
  induction text with
  | nil =>
    constructor
    · intro h
      exact ⟨[], [], rfl, nofun, h⟩
    · rintro ⟨v, w, he, -, h⟩
      obtain ⟨rfl, rfl⟩ := append_eq_nil_iff.mp he.symm
      exact h
  | cons t text ih =>
    rw [matchstar, Bool.or_eq_true, Bool.and_eq_true, ih, Bool.or_eq_true, decide_eq_true_eq,
      decide_eq_true_eq]
    constructor
    · rintro (h | ⟨ht, v, w, rfl, hv, h⟩)
      · exact ⟨[], t :: text, rfl, nofun, h⟩
      · refine ⟨t :: v, w, rfl, fun x hx => ?_, h⟩
        rcases mem_cons.mp hx with rfl | hx
        · exact ht.symm.imp_right Eq.symm
        · exact hv x hx
    · rintro ⟨v, w, he, hv, h⟩
      cases v with
      | nil =>
        left
        rwa [he]
      | cons y v =>
        obtain ⟨rfl, rfl⟩ := List.cons.inj he
        refine .inr ⟨?_, v, w, rfl, fun x hx => hv x (mem_cons_of_mem _ hx), h⟩
        exact (hv t mem_cons_self).symm.imp_left Eq.symm

theorem starts_star {r : List Item × Bool} : Starts (.star c :: r.1, r.2) text ↔
    ∃ v w, text = v ++ w ∧ (∀ x ∈ v, Fits c x) ∧ Starts r w := by
  constructor
  · rintro ⟨v, w, rfl, hv, hw⟩
    obtain ⟨v₁, hv₁, v₂, hv₂, rfl⟩ := mem_lang_cons.mp hv
    refine ⟨v₁, v₂ ++ w, append_assoc .., mem_letter_star.mp hv₁, v₂, w, rfl, hv₂, hw⟩
  · rintro ⟨v, w, rfl, hv, v', w', rfl, hv', hw'⟩
    refine ⟨v ++ v', w', (append_assoc ..).symm, mem_lang_cons.mpr ?_, hw'⟩
    exact ⟨v, mem_letter_star.mpr hv, v', hv', rfl⟩

theorem starts_once {r : List Item × Bool} : Starts (.once c :: r.1, r.2) text ↔
    ∃ x rest, text = x :: rest ∧ Fits c x ∧ Starts r rest := by
  constructor
  · rintro ⟨v, w, rfl, hv, hw⟩
    obtain ⟨x, v', hx, hv', rfl⟩ := mem_lang_once.mp hv
    exact ⟨x, v' ++ w, rfl, hx, v', w, rfl, hv', hw⟩
  · rintro ⟨x, rest, rfl, hx, v, w, rfl, hv, hw⟩
    exact ⟨x :: v, w, rfl, mem_lang_once.mpr ⟨x, v, hx, hv, rfl⟩, hw⟩

theorem starts_nil : Starts ([], false) text := ⟨[], text, rfl, rfl, nofun⟩

theorem starts_end : Starts ([], true) text ↔ text = [] := by
  constructor
  · rintro ⟨v, w, rfl, hv, hw⟩
    rw [mem_lang_nil.mp hv, hw rfl]
    rfl
  · rintro rfl
    exact ⟨[], [], rfl, rfl, fun _ => rfl⟩

/-- One letter, and the rest behind it. -/
theorem matchone_iff (here : List UInt8 → Bool) :
    matchone c here text = true ↔ ∃ x rest, text = x :: rest ∧ Fits c x ∧ here rest = true := by
  cases text with
  | nil => exact ⟨nofun, nofun⟩
  | cons t text =>
    rw [matchone, Bool.and_eq_true, Bool.or_eq_true, decide_eq_true_eq, decide_eq_true_eq]
    constructor
    · rintro ⟨ht, h⟩
      exact ⟨t, text, rfl, ht, h⟩
    · rintro ⟨x, rest, he, hx, h⟩
      obtain ⟨rfl, rfl⟩ := List.cons.inj he
      exact ⟨hx, h⟩

/-- **`matchhere`** decides whether the text starts with a word of the language. -/
theorem matchhere_iff (re text : List UInt8) :
    matchhere re text = true ↔ Starts (readItems re) text := by
  -- along the pattern, as the matcher goes: two characters for a star, one for a letter
  induction re using readItems.induct generalizing text with
  | case1 => exact ⟨fun _ => starts_nil, fun _ => rfl⟩
  | case2 =>
    rw [matchhere, readItems, if_pos rfl, if_pos rfl, starts_end]
    exact isEmpty_iff
  | case3 c hc =>
    rw [matchhere, readItems, if_neg hc, if_neg hc, starts_once (r := ([], false)), matchone_iff]
    constructor
    · rintro ⟨x, rest, he, hx, -⟩
      exact ⟨x, rest, he, hx, starts_nil⟩
    · rintro ⟨x, rest, he, hx, -⟩
      exact ⟨x, rest, he, hx, rfl⟩
  | case4 c re ih =>
    rw [matchhere, readItems, if_pos rfl, if_pos rfl, starts_star, matchstar_iff]
    constructor
    · rintro ⟨v, w, he, hv, h⟩
      exact ⟨v, w, he, hv, (ih w).mp h⟩
    · rintro ⟨v, w, he, hv, h⟩
      exact ⟨v, w, he, hv, (ih w).mpr h⟩
  | case5 c d re hd ih =>
    rw [matchhere, readItems, if_neg hd, if_neg hd, starts_once, matchone_iff]
    constructor
    · rintro ⟨x, rest, he, hx, h⟩
      exact ⟨x, rest, he, hx, (ih rest).mp h⟩
    · rintro ⟨x, rest, he, hx, h⟩
      exact ⟨x, rest, he, hx, (ih rest).mpr h⟩

/-- The loop of `match` tries every end of the text. -/
theorem matchFrom_iff (re text : List UInt8) :
    matchFrom re text = true ↔ ∃ u rest, text = u ++ rest ∧ matchhere re rest = true := by
  induction text with
  | nil =>
    constructor
    · intro h
      exact ⟨[], [], rfl, h⟩
    · rintro ⟨u, rest, he, h⟩
      obtain ⟨rfl, rfl⟩ := append_eq_nil_iff.mp he.symm
      exact h
  | cons t text ih =>
    rw [matchFrom, Bool.or_eq_true, ih]
    constructor
    · rintro (h | ⟨u, rest, rfl, h⟩)
      · exact ⟨[], t :: text, rfl, h⟩
      · exact ⟨t :: u, rest, rfl, h⟩
    · rintro ⟨u, rest, he, h⟩
      cases u with
      | nil =>
        left
        rwa [he]
      | cons y u =>
        obtain ⟨rfl, rfl⟩ := List.cons.inj he
        exact .inr ⟨u, rest, rfl, h⟩

/-- **The matcher matches the language of the pattern**: `match` returns 1 exactly if some part of
the text is a word of the language, one at the front of the text if the pattern starts with `^`,
and one at its end if the pattern ends with a `$` that is not repeated. -/
theorem match_language (re text : List UInt8) :
    match_ re text = true ↔ (readPattern re).Occurs text := by
  rw [match_, readPattern]
  by_cases hc : re.head? = some CARET
  · rw [if_pos hc, if_pos hc, matchhere_iff]
    constructor
    · rintro ⟨v, w, rfl, hv, hw⟩
      exact ⟨[], v, w, rfl, hv, fun _ => rfl, hw⟩
    · rintro ⟨u, v, w, rfl, hv, hu, hw⟩
      rw [hu rfl]
      exact ⟨v, w, rfl, hv, hw⟩
  · rw [if_neg hc, if_neg hc, matchFrom_iff]
    constructor
    · rintro ⟨u, rest, rfl, h⟩
      obtain ⟨v, w, rfl, hv, hw⟩ := (matchhere_iff re rest).mp h
      exact ⟨u, v, w, rfl, hv, nofun, hw⟩
    · rintro ⟨u, v, w, rfl, hv, -, hw⟩
      exact ⟨u, v ++ w, rfl, (matchhere_iff re _).mpr ⟨v, w, rfl, hv, hw⟩⟩

/-- `^*$`, `**`, `a**` and `$*b$`. -/
example : readPattern [CARET, STAR, DOLLAR] = ⟨true, [.once STAR], true⟩ ∧
    readPattern [STAR, STAR] = ⟨false, [.star STAR], false⟩ ∧
    readPattern [97, STAR, STAR] = ⟨false, [.star 97, .once STAR], false⟩ ∧
    readPattern [DOLLAR, STAR, 98, DOLLAR] = ⟨false, [.star DOLLAR, .once 98], true⟩ := by decide

end Xv6.Grep
