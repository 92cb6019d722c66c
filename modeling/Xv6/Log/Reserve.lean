/-
# `Xv6.Log.Reserve` — the space `begin_op` reserves and the space `log_write` checks

`begin_op` admits an operation when `lh.n + (outstanding+1)*MAXOPBLOCKS` is at
most `LOGSIZE`: every open operation has `MAXOPBLOCKS` entries to itself.

`log_write` asks for more.  It panics as soon as `lh.n >= log.size - 1`, before
it looks for absorption, and `mkfs` lays out `nlog = LOGSIZE` blocks of which
one is the header, so three operations that use their whole quota panic at the
thirtieth block (`reservation_insufficient`).  Which calls panic is a matter of
how many distinct blocks the operations since the last commit have written when
the call is made, and of nothing else (`no_tooBig_iff`).
-/
import Xv6.Log.Group
import Mathlib.Data.List.Dedup
import Mathlib.Data.List.Infix
import Mathlib.Tactic.IntervalCases

namespace Xv6.Group

open List

variable {P : Type} [DecidableEq P] {size b : Nat} {es : List (Event P)} {s s' : State P}
  {e : Event P}

/-! ## Quotas and calls, read off the events -/

/-- The blocks `p` has called log_write on since it last began an operation. -/
def opCalls (p : P) (es : List (Event P)) : List Nat :=
  es.foldl (fun acc e =>
    match e with
    | .beginOp q => if q = p then [] else acc
    | .logWrite q b => if q = p then b :: acc else acc
    | _ => acc) []

/-- Every operation calls log_write on at most `MAXOPBLOCKS` distinct blocks. -/
def WithinQuota (es : List (Event P)) : Prop :=
  ∀ p, ∀ pre ∈ es.inits, (opCalls p pre).dedup.length ≤ MAXOPBLOCKS

/-- The blocks log_written since the last commit finished. -/
def sinceCommit (es : List (Event P)) : List Nat :=
  es.foldl (fun acc e =>
    match e with
    | .record _ b => b :: acc
    | .finish _ => []
    | _ => acc) []

omit [DecidableEq P] in
theorem sinceCommit_snoc (es : List (Event P)) (e : Event P) :
    sinceCommit (es ++ [e]) =
      match e with
      | .record _ b => b :: sinceCommit es
      | .finish _ => []
      | _ => sinceCommit es := by
  simp only [sinceCommit, foldl_append, foldl_cons, foldl_nil]

/-! ## The header counts the distinct blocks -/

/-- The blocks since the last commit are those of the current epoch. -/
theorem mem_sinceCommit (h : Runs size es s) (b : Nat) :
    b ∈ sinceCommit es ↔ (hist es).Wrote (hist es).commits.length b := by
  suffices hI : Inv (hist es) s ∧
      ∀ b, b ∈ sinceCommit es ↔ (hist es).Wrote (hist es).commits.length b from hI.2 b
  refine Trace.Run.invariant (I := fun es s => Inv (hist es) s ∧
      ∀ b, b ∈ sinceCommit es ↔ (hist es).Wrote (hist es).commits.length b)
    ⟨inv_init, fun b => by simp [sinceCommit, hist, Hist.Wrote]⟩ (fun es s e s' hI hs => ?_) h
  obtain ⟨hi, hb⟩ := hI
  have hi' := hi.step hs
  rw [hist_snoc]
  refine ⟨hi', fun b => ?_⟩
  rw [sinceCommit_snoc]
  cases (acts_of_step hs).2 with
  | beginOp pc quiet room => rw [wrote_begin]; exact hb b
  | endPanic | endLast | endOpen => rw [wrote_end]; exact hb b
  | @record p c pc =>
    obtain ⟨o, ho, ha⟩ := hi.exists_active (p := p) (by simp [pc])
    rw [wrote_record, mem_cons, hb b, or_comm]
    exact or_congr Iff.rfl ⟨fun hbc => ⟨hbc, o, ho, ha, hi.epoch_of_active ho ha⟩, And.left⟩
  | finish pc =>
    refine ⟨fun hf => absurd hf not_mem_nil, ?_⟩
    rintro ⟨o, ho, he, -⟩
    have := hi.epoch o ho
    simp only [Hist.next, length_append, length_cons, length_nil] at he
    omega
  | _ => exact hb b

/-- In an operation, `lh.n` is the number of distinct blocks since the commit. -/
theorem length_block (h : Runs size es s) {p : P} (hp : (s.pc p).inOp = true) :
    s.block.length = (sinceCommit es).dedup.length := by
  have hi := h.inv
  obtain ⟨-, -, -, hblk⟩ := hi.phase_of_inOp hp
  refine List.Perm.length_eq ((perm_ext_iff_of_nodup hi.nodup (nodup_dedup _)).mpr ?_)
  intro b
  rw [hblk b, mem_dedup, mem_sinceCommit h]

/-! ## When log_write panics -/

/-- A call panics on its size check exactly when the header is one short of the
log, or of `LOGSIZE`. -/
theorem logWrite_tooBig {p : P} (hs : step size s (.logWrite p b) = some s') :
    (s.pc p).inOp = true ∧ (s'.panicked = some .tooBig ↔
      (LOGSIZE ≤ s.block.length ∨ (size : Int) - 1 ≤ s.block.length)) := by
  obtain ⟨hnp, hs⟩ := acts_of_step hs
  cases hs with
  | tooBig pc full => exact ⟨by simp [pc], fun _ => full, fun _ => rfl⟩
  | outside pc room => exact ⟨by simp [pc], nofun, fun hf => absurd hf room⟩
  | logWrite pc room =>
    refine ⟨by simp [pc], fun hf => ?_, fun hf => absurd hf room⟩
    rw [State.goto, hnp] at hf
    cases hf

/-- Only a log_write call can panic on the size check. -/
theorem tooBig_of_step (hs : step size s e = some s') (hpan : s'.panicked = some .tooBig) :
    ∃ p b, e = .logWrite p b := by
  obtain ⟨hnp, hs⟩ := acts_of_step hs
  cases hs with
  | tooBig | outside | logWrite => exact ⟨_, _, rfl⟩
  | endPanic pc busy => cases hpan
  | _ => cases hnp.symm.trans hpan

/-- A panicked machine takes no further step. -/
theorem eq_of_panicked {t : State P} (h : Trace.Run (step size) s es t)
    (hpan : s.panicked.isSome = true) : t = s := by
  induction h with
  | nil => rfl
  | snoc e _ hs ih =>
    subst ih
    rw [(acts_of_step hs).1] at hpan
    exact absurd hpan (by simp)

/-- **Exactly when the reservation suffices**, on the log `mkfs` lays out: a run
has no "too big a transaction" panic if and only if each of its log_write calls
is made while the operations since the last commit have written fewer than
`LOGSIZE - 1` distinct blocks. -/
theorem no_tooBig_iff (es : List (Event P)) (s : State P) (hrun : Runs LOGSIZE es s) :
    s.panicked ≠ some .tooBig ↔
      ∀ pre p b post, es = pre ++ .logWrite p b :: post →
        (sinceCommit pre).dedup.length < LOGSIZE - 1 := by
  have hL : (LOGSIZE : Int) - 1 = ((LOGSIZE - 1 : Nat) : Int) := by decide
  constructor
  · intro hno pre p b post hes
    obtain ⟨t, t', hpre, hstep, hpost⟩ := hrun.split hes
    obtain ⟨hin, hiff⟩ := logWrite_tooBig hstep
    by_contra hge
    have hpan : t'.panicked = some .tooBig := by
      refine hiff.mpr (.inr ?_)
      rw [hL, length_block hpre hin]
      omega
    rw [eq_of_panicked hpost (by simp [hpan])] at hno
    exact hno hpan
  · intro hroom hpan
    cases hrun with
    | nil => simp [State.init] at hpan
    | @snoc es t _ e hr hs =>
      obtain ⟨p, b, rfl⟩ := tooBig_of_step hs hpan
      obtain ⟨hin, hiff⟩ := logWrite_tooBig hs
      have hlt := hroom es p b [] rfl
      rw [← length_block hr hin] at hlt
      rcases hiff.mp hpan with hbig | hbig
      · omega
      · rw [hL] at hbig; omega

/-- One operation that writes one block: the condition holds, and nobody panics. -/
theorem no_tooBig_iff_one_block :
    ∃ s : State (Fin 1), Runs LOGSIZE [.beginOp 0, .logWrite 0 5, .record 0 5] s ∧
      s.panicked ≠ some .tooBig := by
  refine (Trace.exists_run (by decide)).imp fun s hrun =>
    ⟨hrun, (no_tooBig_iff _ s hrun).mpr fun pre p b post h => ?_⟩
  -- the call is the second event of the run
  have hlen := congrArg List.length h
  simp only [length_cons, length_nil, length_append] at hlen
  have hpre : pre = [Event.beginOp 0, .logWrite 0 5, .record 0 5].take pre.length := by
    rw [h]; simp
  have hle : pre.length ≤ 2 := by omega
  rw [hpre]
  interval_cases pre.length <;> decide

/-- The run that breaks the reservation: three operations by three processes,
ten blocks each, no two the same. -/
def fullQuotaRun : List (Event (Fin 3)) :=
  [.beginOp 0, .beginOp 1, .beginOp 2] ++
    (List.range 29).flatMap (fun b =>
      let p : Fin 3 := Fin.ofNat 3 (b / MAXOPBLOCKS)
      [.logWrite p b, .record p b]) ++
    [.logWrite 2 29]

/-- Within quota on the log `mkfs` lays out, and yet "too big a transaction". -/
theorem reservation_insufficient :
    WithinQuota fullQuotaRun ∧
      ∃ s, Runs LOGSIZE fullQuotaRun s ∧ s.panicked = some .tooBig :=
  ⟨by unfold WithinQuota; decide +kernel, Trace.exists_of_exec (by decide +kernel)⟩

end Xv6.Group
