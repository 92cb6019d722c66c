/-
# `Xv6.Grep.Lines` — `grep` and the pieces its input arrives in

The loop of `grep` in `grep.c`: it reads into a buffer behind what is left of the read
before, looks at every line that is complete, and moves the rest to the front.  A read
that brings no newline is an exception: the test `p == buf`, which is there for a line
that fills the buffer, then holds as well, and everything in the buffer is forgotten.

`remains` says of each line of the text what is left of it when its newline arrives.  What
`grep` does is then one thing for each line (`grep_remains`), and it is the right thing
exactly where nothing was lost or neither the line nor what is left of it matches.
-/
import Xv6.Grep.Match
import Xv6.Lib.Lines

namespace Xv6.Grep

open List

/-- `'\n'`. -/
def NL : UInt8 := 10

/-- `sizeof(buf)`. -/
def BUFSIZE : Nat := 1024

/-! ## The program -/

/-- `strchr(p, '\n')`: the bytes before the newline and those behind it. -/
def strchr : List UInt8 → Option (List UInt8 × List UInt8)
  | [] => none
  | x :: p =>
    if x = 0 then none
    else if x = NL then some ([], p)
    else (strchr p).map fun q => (x :: q.1, q.2)

/-- What is written for a line. -/
def report (pattern line : List UInt8) : Option (List UInt8) :=
  if match_ pattern line then some (line ++ [NL]) else none

/-- The loop over the lines in the buffer, from `p` on, in at most `n` turns: for each line what is
written, if anything, and `p` at the end. -/
def scan (pattern : List UInt8) : Nat → List UInt8 → List (Option (List UInt8)) × List UInt8
  | 0, p => ([], p)
  | n + 1, p =>
    match strchr p with
    | none => ([], p)
    | some (line, rest) => (report pattern line :: (scan pattern n rest).1, (scan pattern n rest).2)

/-- The buffer after the loop over its lines; `p == buf` is that there was none. -/
def carry (r : List (Option (List UInt8)) × List UInt8) : List UInt8 := if r.1 = [] then [] else r.2

/-- The loop of `grep`, with `held` in the buffer and the answers of `read`. -/
def grepLoop (pattern : List UInt8) : List UInt8 → List (List UInt8) → List (Option (List UInt8))
  | _, [] => []
  | held, c :: cs =>
    if c = [] then []
    else
      (scan pattern (held ++ c).length (held ++ c)).1 ++
        grepLoop pattern (carry (scan pattern (held ++ c).length (held ++ c))) cs

/-- `grep(pattern, fd)`: what is written for each line it sees. -/
def grep (pattern : List UInt8) (answers : List (List UInt8)) : List (Option (List UInt8)) :=
  grepLoop pattern [] answers

/-- The answers of `read` are not empty and no longer than what was asked for. -/
def Answers : List UInt8 → List (List UInt8) → Prop
  | _, [] => True
  | held, c :: cs => c ≠ [] ∧ c.length ≤ BUFSIZE - held.length - 1 ∧
      Answers (carry (scan [] (held ++ c).length (held ++ c))) cs

instance : (held : List UInt8) → (cs : List (List UInt8)) → Decidable (Answers held cs)
  | _, [] => inferInstanceAs (Decidable True)
  | held, c :: cs =>
    have : Decidable (Answers (carry (scan [] (held ++ c).length (held ++ c))) cs) :=
      instDecidableAnswers _ cs
    inferInstanceAs (Decidable (_ ∧ _ ∧ _))

/-! ## The lines and what is left of them -/

/-- For each line of a text that arrives as `cs`: the line, and what is left of it.  `full` has
arrived of the first line and `kept` is left of it. -/
def remains (full kept : List UInt8) : List (List UInt8) → List (List UInt8 × List UInt8)
  | [] => []
  | c :: cs =>
    match (Lines.cut NL c).1 with
    | [] => remains (full ++ c) [] cs
    | l :: ls => (full ++ l, kept ++ l) :: ls.map (fun k => (k, k)) ++
        remains (Lines.cut NL c).2 (Lines.cut NL c).2 cs

/-! ## What `grep` does -/

variable {pattern p l full kept : List UInt8} {cs ls : List (List UInt8)}

theorem strchr_eq (h : 0 ∉ p) : strchr p =
    match (Lines.cut NL p).1 with
    | [] => none
    | l :: _ => some (l, p.drop (l.length + 1)) := by
  induction p with
  | nil => rfl
  | cons x p ih =>
    rw [mem_cons, not_or] at h
    rw [strchr, if_neg (Ne.symm h.1), Lines.cut]
    by_cases hx : x = NL
    · rw [if_pos hx, if_pos hx]
      rfl
    · rw [if_neg hx, if_neg hx, ih h.2]
      cases (Lines.cut NL p).1 with
      | nil | cons => rfl

/-- **The loop over the buffer** sees every line in it. -/
theorem scan_eq (pattern : List UInt8) {n : Nat} (hn : p.length ≤ n) (h : 0 ∉ p) :
    scan pattern n p = ((Lines.cut NL p).1.map (report pattern), (Lines.cut NL p).2) := by
  induction n generalizing p with
  | zero =>
    rw [length_eq_zero_iff.mp (Nat.le_zero.mp hn)]
    rfl
  | succ n ih =>
    rw [scan, strchr_eq h]
    cases hls : (Lines.cut NL p).1 with
    | nil =>
      rw [(Lines.cut_nil hls).1]
      rfl
    | cons l ls =>
      -- the buffer is the line, its newline and the rest
      have hmem : NL ∈ p := by
        by_contra hno
        rw [Lines.cut_of_notMem hno] at hls
        cases hls
      obtain ⟨a, b, rfl, ha⟩ := eq_append_cons_of_mem hmem
      rw [Lines.cut_line ha] at hls ⊢
      obtain ⟨rfl, rfl⟩ := List.cons.inj hls
      have hdrop : (a ++ NL :: b).drop (a.length + 1) = b := by
        rw [← drop_drop, drop_left, drop_one, tail_cons]
      have hb : b.length ≤ n := by
        rw [length_append, length_cons] at hn
        omega
      have h0 : 0 ∉ b := fun hm => h (mem_append_right a (mem_cons_of_mem NL hm))
      show (report pattern a :: (scan pattern n ((a ++ NL :: b).drop (a.length + 1))).1,
        (scan pattern n ((a ++ NL :: b).drop (a.length + 1))).2) = _
      rw [hdrop, ih hb h0]
      rfl

/-- **What `grep` does**: what is left of each line is looked at as if it were the line. -/
theorem grepLoop_remains (pattern full : List UInt8) (hkept : NL ∉ kept) (h0 : 0 ∉ kept)
    (hcs : ∀ c ∈ cs, c ≠ [] ∧ 0 ∉ c) :
    grepLoop pattern kept cs = (remains full kept cs).map fun r => report pattern r.2 := by
  induction cs generalizing full kept with
  | nil => rfl
  | cons c cs ih =>
    obtain ⟨hne, hc0⟩ := hcs c mem_cons_self
    have hcs' : ∀ c ∈ cs, c ≠ [] ∧ 0 ∉ c := fun d hd => hcs d (mem_cons_of_mem c hd)
    have hb0 : 0 ∉ kept ++ c := not_mem_append h0 hc0
    rw [grepLoop, if_neg hne, scan_eq pattern (Nat.le_refl _) hb0, remains,
      Lines.cut_notMem_append hkept]
    cases hls : (Lines.cut NL c).1 with
    | nil => exact ih _ not_mem_nil not_mem_nil hcs'
    | cons l ls =>
      have hrest : 0 ∉ (Lines.cut NL c).2 := by
        intro hm
        rw [← Lines.join_cut NL c] at hc0
        exact hc0 (mem_append_right _ hm)
      have hloop := ih (Lines.cut NL c).2 (Lines.notMem_cut NL c).2 hrest hcs'
      simp only [map_cons, map_append, map_map, carry, reduceCtorEq, if_false, hloop, cons_append]
      rfl

theorem map_fst_remains (hfull : NL ∉ full) :
    (remains full kept cs).map Prod.fst = (Lines.cut NL (full ++ cs.flatten)).1 := by
  induction cs generalizing full kept with
  | nil =>
    rw [flatten_nil, append_nil, Lines.cut_of_notMem hfull]
    rfl
  | cons c cs ih =>
    rw [remains, flatten_cons, ← append_assoc, Lines.cut_append, Lines.cut_notMem_append hfull]
    cases hls : (Lines.cut NL c).1 with
    | nil =>
      obtain ⟨hrest, hno⟩ := Lines.cut_nil hls
      simp only [hrest, nil_append]
      exact ih (not_mem_append hfull hno)
    | cons l ls =>
      simp only [map_cons, map_append, map_map, cons_append]
      rw [ih (Lines.notMem_cut NL c).2]
      congr 2
      exact map_id ls

/-! ## When it is right -/

theorem report_eq_iff {k : List UInt8} : report pattern k = report pattern l ↔
    (k ≠ l → match_ pattern l = false ∧ match_ pattern k = false) := by
  rw [report, report]
  cases hk : match_ pattern k with
  | true =>
    cases hl : match_ pattern l with
    | true =>
      constructor
      · intro h hne
        exact absurd (append_cancel_right (Option.some.inj h)) hne
      · intro h
        by_contra hne
        cases (h fun he => hne (by rw [he])).1
    | false =>
      refine ⟨nofun, fun h => absurd hk ?_⟩
      have hne : k ≠ l := by
        rintro rfl
        rw [hl] at hk
        cases hk
      cases (h hne).2
  | false =>
    cases hl : match_ pattern l with
    | true =>
      refine ⟨nofun, fun h => absurd hl ?_⟩
      have hne : k ≠ l := by
        rintro rfl
        rw [hl] at hk
        cases hk
      cases (h hne).1
    | false => exact ⟨fun _ _ => ⟨rfl, rfl⟩, fun _ => rfl⟩

theorem Answers.ne_nil {held : List UInt8} (h : Answers held cs) : ∀ c ∈ cs, c ≠ [] := by
  induction cs generalizing held with
  | nil => exact nofun
  | cons c cs ih =>
    intro d hd
    rcases mem_cons.mp hd with rfl | hd
    · exact h.1
    · exact ih h.2.2 d hd

/-- Where every read brings a newline nothing is lost. -/
theorem remains_whole (h : ∀ c ∈ cs, NL ∈ c) : ∀ r ∈ remains kept kept cs, r.2 = r.1 := by
  induction cs generalizing kept with
  | nil => exact nofun
  | cons c cs ih =>
    intro r hr
    rw [remains] at hr
    cases hls : (Lines.cut NL c).1 with
    | nil => exact absurd (h c mem_cons_self) (Lines.cut_nil hls).2
    | cons l ls =>
      rw [hls] at hr
      rcases mem_append.mp hr with hr | hr
      · rcases mem_cons.mp hr with rfl | hr
        · rfl
        · obtain ⟨k, -, rfl⟩ := mem_map.mp hr
          rfl
      · exact ih (fun d hd => h d (mem_cons_of_mem c hd)) r hr

/-- A line that has lost its head ends, and then it is there without its head. -/
theorem remains_cut (hlost : kept.length < full.length) (hfull : NL ∉ full)
    (hend : (Lines.cut NL (full ++ cs.flatten)).2 = []) : ∃ r ∈ remains full kept cs, r.2 ≠ r.1 := by
  induction cs generalizing full kept with
  | nil =>
    rw [flatten_nil, append_nil, Lines.cut_of_notMem hfull] at hend
    rw [show full = [] from hend] at hlost
    exact absurd hlost (Nat.not_lt_zero _)
  | cons c cs ih =>
    rw [flatten_cons, ← append_assoc] at hend
    rw [remains]
    cases hls : (Lines.cut NL c).1 with
    | nil =>
      have hno := (Lines.cut_nil hls).2
      refine ih ?_ (not_mem_append hfull hno) hend
      rw [length_append, length_nil]
      omega
    | cons l ls =>
      refine ⟨(full ++ l, kept ++ l), mem_append_left _ mem_cons_self, fun he => ?_⟩
      have hlen := congrArg List.length he
      rw [length_append, length_append] at hlen
      omega

/-- A read without a newline loses something. -/
theorem remains_lost (hcs : ∀ c ∈ cs, c ≠ []) (hfull : NL ∉ full) (hle : kept.length ≤ full.length)
    (hend : (Lines.cut NL (full ++ cs.flatten)).2 = []) {c : List UInt8} (hc : c ∈ cs) (hno : NL ∉ c) :
    ∃ r ∈ remains full kept cs, r.2 ≠ r.1 := by
  induction cs generalizing full kept with
  | nil => cases hc
  | cons d cs ih =>
    have hcs' : ∀ c ∈ cs, c ≠ [] := fun e he => hcs e (mem_cons_of_mem d he)
    rw [flatten_cons, ← append_assoc] at hend
    rw [remains]
    cases hls : (Lines.cut NL d).1 with
    | nil =>
      have hd := (Lines.cut_nil hls).2
      refine remains_cut ?_ (not_mem_append hfull hd) hend
      have hpos := length_pos_of_ne_nil (hcs d mem_cons_self)
      rw [length_append, length_nil]
      omega
    | cons l ls =>
      have hc' : c ∈ cs := by
        rcases mem_cons.mp hc with rfl | hc
        · rw [Lines.cut_of_notMem hno] at hls
          cases hls
        · exact hc
      -- the lines of this read are complete, and the text goes on from its rest
      have hend' : (Lines.cut NL ((Lines.cut NL d).2 ++ cs.flatten)).2 = [] := by
        rw [Lines.cut_append, Lines.cut_notMem_append hfull, hls] at hend
        exact hend
      obtain ⟨r, hr, hne⟩ := ih hcs' (Lines.notMem_cut NL d).2 (Nat.le_refl _) hend' hc'
      exact ⟨r, mem_append_right _ hr, hne⟩

/-- **The output of `grep` and the way its input arrives.**  For a text of lines, each ended by a
newline, and answers of `read` that make it up: `grep` does for each line in turn what it should
do, write the line if it matches and nothing if not, exactly if of each line that has lost its
head neither the line nor what is left matches; and it does so for every pattern exactly if every
answer has a newline in it. -/
theorem grep_lines_iff (hls : ∀ l ∈ ls, NL ∉ l ∧ 0 ∉ l) (hcs : Answers [] cs)
    (htext : cs.flatten = Lines.join NL ls) :
    (∀ pattern, grep pattern cs = ls.map (report pattern) ↔ ∀ r ∈ remains [] [] cs, r.2 ≠ r.1 →
      match_ pattern r.1 = false ∧ match_ pattern r.2 = false) ∧
    ((∀ pattern, grep pattern cs = ls.map (report pattern)) ↔ ∀ c ∈ cs, NL ∈ c) := by
  have hcut := Lines.cut_join fun l hl => (hls l hl).1
  have h0 : ∀ c ∈ cs, c ≠ [] ∧ 0 ∉ c := by
    intro c hc
    refine ⟨hcs.ne_nil c hc, fun hm => ?_⟩
    have hin : (0 : UInt8) ∈ Lines.join NL ls := htext ▸ mem_flatten_of_mem hc hm
    obtain ⟨b, hb, hm⟩ := mem_flatten.mp hin
    obtain ⟨l, hl, rfl⟩ := mem_map.mp hb
    rcases mem_append.mp hm with hm | hm
    · exact (hls l hl).2 hm
    · exact absurd (mem_singleton.mp hm) (by decide)
  have hlines : (remains [] [] cs).map Prod.fst = ls := by
    rw [map_fst_remains not_mem_nil, nil_append, htext, hcut]
  have hiff : ∀ pattern, grep pattern cs = ls.map (report pattern) ↔ ∀ r ∈ remains [] [] cs,
      r.2 ≠ r.1 → match_ pattern r.1 = false ∧ match_ pattern r.2 = false := by
    intro pattern
    rw [grep, grepLoop_remains pattern [] not_mem_nil not_mem_nil h0, ← hlines,
      map_map, map_inj_left]
    exact forall₂_congr fun r _ => report_eq_iff
  refine ⟨hiff, fun h c hc => ?_, fun h pattern => (hiff pattern).mpr fun r hr hne => ?_⟩
  · -- with the empty pattern every line matches
    by_contra hno
    have hend : (Lines.cut NL ([] ++ cs.flatten)).2 = [] := by rw [nil_append, htext, hcut]
    obtain ⟨r, hr, hne⟩ := remains_lost hcs.ne_nil not_mem_nil (Nat.le_refl [].length) hend hc hno
    have hmatch : match_ [] r.1 = true := by
      rw [match_language]
      exact ⟨[], [], r.1, rfl, rfl, fun _ => rfl, nofun⟩
    rw [((hiff []).mp (h []) r hr hne).1] at hmatch
    cases hmatch
  · exact absurd (remains_whole h r hr) hne

/-- `ab` and `c`, in two reads that each bring a newline. -/
theorem grep_lines_iff_two : Answers [] [[97, 98, 10, 99], [10]] ∧
    grep [98] [[97, 98, 10, 99], [10]] = [some [97, 98, 10], none] := by
  have htext : [[97, 98, 10, 99], [10]].flatten = Lines.join NL [[97, 98], [99]] := by decide
  obtain ⟨-, hall⟩ := grep_lines_iff (by decide) (by decide) htext
  exact ⟨by decide, hall.mpr (by decide) [98]⟩

/-- **A line that arrives in two pieces is lost.**  The text is the one line `abc`, of which the first
read brings `ab`: for the pattern `a` nothing is written, and for `^c` a line that is not there. -/
theorem grep_loses_head : Answers [] [[97, 98], [99, 10]] ∧
    [[97, 98], [99, 10]].flatten = Lines.join NL [[97, 98, 99]] ∧
    match_ [97] [97, 98, 99] = true ∧ grep [97] [[97, 98], [99, 10]] = [none] ∧
    match_ [CARET, 99] [97, 98, 99] = false ∧
    grep [CARET, 99] [[97, 98], [99, 10]] = [some [99, 10]] := by decide

end Xv6.Grep
