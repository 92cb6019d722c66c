/-
# `Xv6.Log.Group` — begin_op, log_write, end_op and commit, interleaved

"A log transaction contains the updates of multiple FS system calls.  The
logging system only commits when there are no FS system calls active."  This
module models the part of `log.c` that makes the sentence true: any number of
processes open and close operations, write blocks between the two, and the one
whose `end_op` finds no operation left commits with `log.lock` *released*.

One event is one section under `log.lock`, or one piece of code outside it:

    beginOp p        begin_op's test succeeds (a sleeping process has no event)
    logWrite p b     log_write's two panics, read without the lock
    record p b       log_write's section under the lock, with absorption
    endOp p          end_op's first section
    commit p         commit() looks at lh.n
    copyToLog p b    one turn of the loop of write_log, for home block b
    writeHead p      the loop is over: the header goes to disk
    install p b      one turn of the loop of install_trans, for home block b
    erase p          the loop is over: lh.n = 0, the header goes to disk
    finish p         end_op's last section: committing = 0

`log_write` reads `lh.n` and `outstanding` before it takes the lock, so its
check and its update are two events and others may move between them.

What a run has done so far is a function of its events (`hist`): the operations
with the blocks they wrote and the number of commits before them, and for each
finished commit the blocks it installed.  The code never reads it.
-/
import Xv6.Disk
import Xv6.Lib.Trace

namespace Xv6.Group

open List
open Function (update update_of_ne update_self)

/-! ## The log in memory -/

inductive Pc where
  /-- outside any operation, or asleep in `begin_op` -/
  | idle
  /-- between `begin_op` and `end_op` -/
  | op
  /-- in `log_write`, past the checks, waiting for `log.lock` -/
  | checked (b : Nat)
  /-- in `end_op`, about to call `commit` -/
  | commit
  | writeLog (tail : Nat)
  | installTrans (tail : Nat)
  /-- back in `end_op`, about to clear `log.committing` -/
  | finish
deriving DecidableEq

/-- Between `begin_op` and `end_op`. -/
def Pc.inOp : Pc → Bool
  | .op | .checked _ => true
  | .idle | .commit | .writeLog _ | .installTrans _ | .finish => false

/-- Inside `commit`, or back from it. -/
def Pc.inCommit : Pc → Bool
  | .commit | .writeLog _ | .installTrans _ | .finish => true
  | .idle | .op | .checked _ => false

@[simp] theorem Pc.inOp_const :
    Pc.op.inOp = true ∧ Pc.idle.inOp = false ∧ Pc.commit.inOp = false ∧ Pc.finish.inOp = false :=
  ⟨rfl, rfl, rfl, rfl⟩

@[simp] theorem Pc.inOp_arg (i : Nat) : (Pc.checked i).inOp = true ∧
    (Pc.writeLog i).inOp = false ∧ (Pc.installTrans i).inOp = false := ⟨rfl, rfl, rfl⟩

@[simp] theorem Pc.inCommit_const : Pc.op.inCommit = false ∧ Pc.idle.inCommit = false ∧
    Pc.commit.inCommit = true ∧ Pc.finish.inCommit = true := ⟨rfl, rfl, rfl, rfl⟩

@[simp] theorem Pc.inCommit_arg (i : Nat) : (Pc.checked i).inCommit = false ∧
    (Pc.writeLog i).inCommit = true ∧ (Pc.installTrans i).inCommit = true := ⟨rfl, rfl, rfl⟩

inductive Panic where
  /-- "too big a transaction" -/
  | tooBig
  /-- "log_write outside of trans" -/
  | outsideTrans
  /-- "log.committing" -/
  | committing
deriving DecidableEq

/-- `struct log`, with the program counters.  `block` is `lh.block[0 .. lh.n)`. -/
structure State (P : Type) where
  block : List Nat
  outstanding : Int
  committing : Bool
  pc : P → Pc
  panicked : Option Panic

/-- What `initlog` leaves: an empty log and no operation. -/
def State.init (P : Type) : State P := ⟨[], 0, false, fun _ => .idle, none⟩

inductive Event (P : Type) where
  | beginOp (p : P)
  | logWrite (p : P) (b : Nat)
  | record (p : P) (b : Nat)
  | endOp (p : P)
  | commit (p : P)
  | copyToLog (p : P) (b : Nat)
  | writeHead (p : P)
  | install (p : P) (b : Nat)
  | erase (p : P)
  | finish (p : P)
deriving DecidableEq

/-- The search and store of `log_write`: `i` is the first entry equal to `b`, or
`n`; `block[i] = b`, and `n` grows if `i` was `n`. -/
def absorb (block : List Nat) (b : Nat) : List Nat :=
  let i := block.findIdx (fun c => c == b)
  if i = block.length then block ++ [b] else block.set i b

variable {size : Nat}

section Step
variable {P : Type} [DecidableEq P]

def State.goto (s : State P) (p : P) (c : Pc) : State P :=
  { s with pc := update s.pc p c }

/-- One event, with `log.size = size`. -/
def act (size : Nat) (s : State P) : Event P → Option (State P)
  | .beginOp p =>
    if s.pc p = .idle ∧ s.committing = false ∧
        s.block.length + (s.outstanding + 1) * MAXOPBLOCKS ≤ LOGSIZE then
      some { s.goto p .op with outstanding := s.outstanding + 1 }
    else none
  | .logWrite p b =>
    if s.pc p = .op then
      some (if s.block.length ≥ LOGSIZE ∨ (s.block.length : Int) ≥ (size : Int) - 1 then
          { s with panicked := some .tooBig }
        else if s.outstanding < 1 then { s with panicked := some .outsideTrans }
        else s.goto p (.checked b))
    else none
  | .record p b =>
    if s.pc p = .checked b then
      some { s.goto p .op with block := absorb s.block b }
    else none
  | .endOp p =>
    if s.pc p = .op then
      some (if s.committing then
          { s with outstanding := s.outstanding - 1, panicked := some .committing }
        else if s.outstanding - 1 = 0 then
          { s.goto p .commit with outstanding := s.outstanding - 1, committing := true }
        else { s.goto p .idle with outstanding := s.outstanding - 1 })
    else none
  | .commit p =>
    if s.pc p = .commit then
      some (s.goto p (if 0 < s.block.length then .writeLog 0 else .finish))
    else none
  | .copyToLog p b =>
    match s.pc p with
    | .writeLog tail =>
      if s.block[tail]? = some b then some (s.goto p (.writeLog (tail + 1))) else none
    | _ => none
  | .writeHead p =>
    match s.pc p with
    | .writeLog tail =>
      if s.block.length ≤ tail then some (s.goto p (.installTrans 0)) else none
    | _ => none
  | .install p b =>
    match s.pc p with
    | .installTrans tail =>
      if s.block[tail]? = some b then some (s.goto p (.installTrans (tail + 1))) else none
    | _ => none
  | .erase p =>
    match s.pc p with
    | .installTrans tail =>
      if s.block.length ≤ tail then some { s.goto p .finish with block := [] } else none
    | _ => none
  | .finish p =>
    if s.pc p = .finish then some { s.goto p .idle with committing := false } else none

def step (size : Nat) (s : State P) (e : Event P) : Option (State P) :=
  if s.panicked.isSome then none else act size s e

/-- What an event finds and leaves, one constructor for each branch of `act`. -/
inductive Acts (size : Nat) (s : State P) : Event P → State P → Prop
  | beginOp {p : P} (pc : s.pc p = .idle) (quiet : s.committing = false)
      (room : s.block.length + (s.outstanding + 1) * MAXOPBLOCKS ≤ LOGSIZE) :
      Acts size s (.beginOp p) { s.goto p .op with outstanding := s.outstanding + 1 }
  | tooBig {p : P} {b : Nat} (pc : s.pc p = .op)
      (full : LOGSIZE ≤ s.block.length ∨ (size : Int) - 1 ≤ s.block.length) :
      Acts size s (.logWrite p b) { s with panicked := some .tooBig }
  | outside {p : P} {b : Nat} (pc : s.pc p = .op)
      (room : ¬ (LOGSIZE ≤ s.block.length ∨ (size : Int) - 1 ≤ s.block.length)) :
      Acts size s (.logWrite p b) { s with panicked := some .outsideTrans }
  | logWrite {p : P} {b : Nat} (pc : s.pc p = .op)
      (room : ¬ (LOGSIZE ≤ s.block.length ∨ (size : Int) - 1 ≤ s.block.length)) :
      Acts size s (.logWrite p b) (s.goto p (.checked b))
  | record {p : P} {b : Nat} (pc : s.pc p = .checked b) :
      Acts size s (.record p b) { s.goto p .op with block := absorb s.block b }
  | endPanic {p : P} (pc : s.pc p = .op) (busy : s.committing = true) :
      Acts size s (.endOp p)
        { s with outstanding := s.outstanding - 1, panicked := some .committing }
  | endLast {p : P} (pc : s.pc p = .op) (last : s.outstanding - 1 = 0) :
      Acts size s (.endOp p)
        { s.goto p .commit with outstanding := s.outstanding - 1, committing := true }
  | endOpen {p : P} (pc : s.pc p = .op) :
      Acts size s (.endOp p) { s.goto p .idle with outstanding := s.outstanding - 1 }
  | commit {p : P} (pc : s.pc p = .commit) (logged : s.block ≠ []) :
      Acts size s (.commit p) (s.goto p (.writeLog 0))
  | commitNone {p : P} (pc : s.pc p = .commit) (empty : s.block = []) :
      Acts size s (.commit p) (s.goto p .finish)
  | copyToLog {p : P} {b tail : Nat} (pc : s.pc p = .writeLog tail)
      (entry : s.block[tail]? = some b) :
      Acts size s (.copyToLog p b) (s.goto p (.writeLog (tail + 1)))
  | writeHead {p : P} {tail : Nat} (pc : s.pc p = .writeLog tail)
      (past : s.block.length ≤ tail) : Acts size s (.writeHead p) (s.goto p (.installTrans 0))
  | install {p : P} {b tail : Nat} (pc : s.pc p = .installTrans tail)
      (entry : s.block[tail]? = some b) :
      Acts size s (.install p b) (s.goto p (.installTrans (tail + 1)))
  | erase {p : P} {tail : Nat} (pc : s.pc p = .installTrans tail)
      (past : s.block.length ≤ tail) :
      Acts size s (.erase p) { s.goto p .finish with block := [] }
  | finish {p : P} (pc : s.pc p = .finish) :
      Acts size s (.finish p) { s.goto p .idle with committing := false }

/-- **Every step is one of these.** -/
theorem acts_of_step {s s' : State P} {e : Event P} (h : step size s e = some s') :
    s.panicked = none ∧ Acts size s e s' := by
  simp only [step] at h
  split at h
  · cases h
  rename_i hp
  refine ⟨by simpa using hp, ?_⟩
  cases e with
  | beginOp p =>
    obtain ⟨⟨hpc, hq, hroom⟩, h⟩ := Option.ite_none_right_eq_some.mp h
    cases h; exact .beginOp hpc hq hroom
  | logWrite p b =>
    obtain ⟨hpc, h⟩ := Option.ite_none_right_eq_some.mp h
    cases h
    split
    · exact .tooBig hpc ‹_›
    · split
      · exact .outside hpc ‹_›
      · exact .logWrite hpc ‹_›
  | record p b =>
    obtain ⟨hpc, h⟩ := Option.ite_none_right_eq_some.mp h
    cases h; exact .record hpc
  | endOp p =>
    obtain ⟨hpc, h⟩ := Option.ite_none_right_eq_some.mp h
    cases h
    split
    · exact .endPanic hpc ‹_›
    · split
      · exact .endLast hpc ‹_›
      · exact .endOpen hpc
  | commit p =>
    obtain ⟨hpc, h⟩ := Option.ite_none_right_eq_some.mp h
    cases h
    split
    · exact .commit hpc (ne_nil_of_length_pos ‹_›)
    · exact .commitNone hpc (eq_nil_of_length_eq_zero (by omega))
  | finish p =>
    obtain ⟨hpc, h⟩ := Option.ite_none_right_eq_some.mp h
    cases h; exact .finish hpc
  | copyToLog p b | writeHead p | install p b | erase p =>
    simp only [act] at h
    split at h
    · obtain ⟨hg, h⟩ := Option.ite_none_right_eq_some.mp h
      cases h
      first
        | exact .copyToLog ‹_› hg
        | exact .writeHead ‹_› hg
        | exact .install ‹_› hg
        | exact .erase ‹_› hg
    · cases h

/-- Runs from the state `initlog` leaves. -/
abbrev Runs (size : Nat) : List (Event P) → State P → Prop :=
  Trace.Run (step size) (State.init P)

end Step

/-! ## What a run has done -/

/-- One operation: who ran it, how many commits had finished when it began, the
blocks it log_wrote, and whether it has ended. -/
structure Op (P : Type) where
  proc : P
  epoch : Nat
  blocks : List Nat
  ended : Bool

/-- All operations so far, the blocks each finished commit installed, and those
the running commit has installed. -/
structure Hist (P : Type) where
  ops : List (Op P)
  commits : List (List Nat)
  current : List Nat

section History
variable {P : Type} [DecidableEq P]

/-- `o` is the operation `p` is in. -/
def Op.activeFor (p : P) (o : Op P) : Bool := decide (o.proc = p) && !o.ended

def Op.write (p : P) (b : Nat) (o : Op P) : Op P :=
  if o.activeFor p then { o with blocks := b :: o.blocks } else o

def Op.close (p : P) (o : Op P) : Op P :=
  if o.activeFor p then { o with ended := true } else o

def Hist.next (h : Hist P) : Event P → Hist P
  | .beginOp p => { h with ops := ⟨p, h.commits.length, [], false⟩ :: h.ops }
  | .record p b => { h with ops := h.ops.map (Op.write p b) }
  | .endOp p => { h with ops := h.ops.map (Op.close p) }
  | .install _ b => { h with current := h.current ++ [b] }
  | .finish _ => { h with commits := h.commits ++ [h.current], current := [] }
  | _ => h

def hist (es : List (Event P)) : Hist P := es.foldl Hist.next ⟨[], [], []⟩

theorem hist_snoc (es : List (Event P)) (e : Event P) : hist (es ++ [e]) = (hist es).next e := by
  simp [hist, foldl_append]

/-- Operations begun and not ended. -/
def Hist.open_ (h : Hist P) : List (Op P) := h.ops.filter (fun o => !o.ended)

/-- `b` was log_written by an operation that began after `k` commits. -/
def Hist.Wrote (h : Hist P) (k b : Nat) : Prop := ∃ o ∈ h.ops, o.epoch = k ∧ b ∈ o.blocks

end History

/-! ## Counting operations -/

section Count
variable {P : Type} [DecidableEq P]

@[simp] theorem Op.write_proc (p : P) (b : Nat) (o : Op P) : (o.write p b).proc = o.proc := by
  simp only [Op.write]; split <;> rfl

@[simp] theorem Op.write_ended (p : P) (b : Nat) (o : Op P) : (o.write p b).ended = o.ended := by
  simp only [Op.write]; split <;> rfl

@[simp] theorem Op.write_epoch (p : P) (b : Nat) (o : Op P) : (o.write p b).epoch = o.epoch := by
  simp only [Op.write]; split <;> rfl

@[simp] theorem Op.close_proc (p : P) (o : Op P) : (o.close p).proc = o.proc := by
  simp only [Op.close]; split <;> rfl

@[simp] theorem Op.close_epoch (p : P) (o : Op P) : (o.close p).epoch = o.epoch := by
  simp only [Op.close]; split <;> rfl

@[simp] theorem Op.close_blocks (p : P) (o : Op P) : (o.close p).blocks = o.blocks := by
  simp only [Op.close]; split <;> rfl

theorem Op.close_ended (p : P) (o : Op P) :
    (o.close p).ended = (o.ended || decide (o.proc = p)) := by
  simp only [Op.close, Op.activeFor]
  rcases Bool.eq_false_or_eq_true o.ended with h | h <;> by_cases hp : o.proc = p <;> simp [h, hp]

def opCount (ops : List (Op P)) (p : P) : Nat := ops.countP (Op.activeFor p)

def openCount (ops : List (Op P)) : Nat := ops.countP (fun o => !o.ended)

omit [DecidableEq P] in
theorem Hist.length_open (h : Hist P) : h.open_.length = openCount h.ops := by
  rw [Hist.open_, openCount, countP_eq_length_filter]

section

variable (ops : List (Op P))
include ops

theorem opCount_write (p q : P) (b : Nat) : opCount (ops.map (Op.write p b)) q = opCount ops q := by
  simp only [opCount, countP_map]
  congr 1
  funext o
  simp [Op.activeFor]

theorem openCount_write (p : P) (b : Nat) : openCount (ops.map (Op.write p b)) = openCount ops := by
  simp only [openCount, countP_map]
  congr 1
  funext o
  simp

/-- Closing `p`'s operations leaves it in none and everyone else where they were. -/
theorem opCount_close (p q : P) :
    opCount (ops.map (Op.close p)) q = if q = p then 0 else opCount ops q := by
  induction ops with
  | nil => simp [opCount]
  | cons o ops ih =>
    simp only [opCount, map_cons, countP_cons, Op.activeFor, Op.close_proc, Op.close_ended] at ih ⊢
    rw [ih]
    by_cases hq : q = p
    · subst hq
      by_cases ho : o.proc = q <;> simp [ho]
    · by_cases ho : o.proc = q
      · have : o.proc ≠ p := fun h => hq (ho.symm.trans h)
        simp [hq, ho]
      · simp [hq, ho]

theorem openCount_close (p : P) :
    openCount (ops.map (Op.close p)) + opCount ops p = openCount ops := by
  induction ops with
  | nil => simp [openCount, opCount]
  | cons o ops ih =>
    simp only [openCount, opCount, map_cons, countP_cons, Op.activeFor, Op.close_ended] at ih ⊢
    rcases Bool.eq_false_or_eq_true o.ended with he | he <;> by_cases hp : o.proc = p <;>
      simp [he, hp, -countP_map] <;> omega

theorem opCount_le_openCount (p : P) : opCount ops p ≤ openCount ops := by
  have := openCount_close ops p
  omega

end

omit [DecidableEq P] in
theorem openCount_pos_of_mem {ops : List (Op P)} {o : Op P} (ho : o ∈ ops)
    (he : o.ended = false) : 0 < openCount ops :=
  countP_pos_iff.mpr ⟨o, ho, by simp [he]⟩

/-! ### What an event does to `Wrote` -/

theorem wrote_begin (h : Hist P) (p : P) (k b : Nat) :
    (h.next (.beginOp p)).Wrote k b ↔ h.Wrote k b := by
  simp [Hist.Wrote, Hist.next]

theorem wrote_end (h : Hist P) (p : P) (k b : Nat) :
    (h.next (.endOp p)).Wrote k b ↔ h.Wrote k b := by
  simp [Hist.Wrote, Hist.next]

/-- A log_write adds its block to the blocks of the writer's operation. -/
theorem wrote_record (h : Hist P) (p : P) (c k b : Nat) :
    (h.next (.record p c)).Wrote k b ↔
      h.Wrote k b ∨ (b = c ∧ ∃ o ∈ h.ops, o.activeFor p = true ∧ o.epoch = k) := by
  simp only [Hist.Wrote, Hist.next, mem_map, exists_exists_and_eq_and, Op.write_epoch]
  constructor
  · rintro ⟨o, ho, he, hb⟩
    by_cases ha : o.activeFor p = true
    · simp only [Op.write, ha, if_true, mem_cons] at hb
      rcases hb with rfl | hb
      · exact .inr ⟨rfl, o, ho, ha, he⟩
      · exact .inl ⟨o, ho, he, hb⟩
    · simp only [Op.write, ha, if_false, Bool.false_eq_true] at hb
      exact .inl ⟨o, ho, he, hb⟩
  · rintro (⟨o, ho, he, hb⟩ | ⟨rfl, o, ho, ha, he⟩)
    · refine ⟨o, ho, he, ?_⟩
      simp only [Op.write]
      split
      · exact mem_cons_of_mem _ hb
      · exact hb
    · exact ⟨o, ho, he, by simp [Op.write, ha]⟩

end Count

/-! ## Absorption -/

theorem absorb_eq (block : List Nat) (b : Nat) :
    absorb block b = if b ∈ block then block else block ++ [b] := by
  simp only [absorb]
  by_cases hb : b ∈ block
  · have hlt : block.findIdx (fun c => c == b) < block.length :=
      findIdx_lt_length_of_exists ⟨b, hb, by simp⟩
    have hget : block[block.findIdx (fun c => c == b)] = b := by
      simpa using findIdx_getElem (w := hlt)
    rw [if_neg (by omega), if_pos hb]
    have := set_getElem_self hlt
    rwa [hget] at this
  · have : block.findIdx (fun c => c == b) = block.length :=
      findIdx_eq_length.mpr (fun x hx => by
        simp only [beq_eq_false_iff_ne, ne_eq]
        rintro rfl
        exact hb hx)
    rw [if_pos this, if_neg hb]

variable {block : List Nat}

theorem mem_absorb {b c : Nat} : c ∈ absorb block b ↔ c ∈ block ∨ c = b := by
  rw [absorb_eq]
  by_cases hb : b ∈ block
  · rw [if_pos hb]
    exact ⟨.inl, fun h => h.elim id (fun h => h ▸ hb)⟩
  · rw [if_neg hb, mem_append, mem_singleton]

theorem nodup_absorb (h : block.Nodup) (b : Nat) : (absorb block b).Nodup := by
  rw [absorb_eq]
  by_cases hb : b ∈ block
  · rwa [if_pos hb]
  · rw [if_neg hb]
    exact h.append (nodup_singleton b) (by simpa using hb)

/-! ## The invariant -/

section Invariant
variable {P : Type} [DecidableEq P] {c : Pc}

/-- What the header and the installed blocks are while a commit is at `c` (and,
at `.idle`, while none runs).  Up to its erasure the header lists the blocks
written since the last commit; an installing commit has installed a prefix of
it; a commit past the erasure has installed all of it. -/
def CommitOk (h : Hist P) (block : List Nat) : Pc → Prop
  | .installTrans tail =>
    h.current = block.take tail ∧ ∀ b, b ∈ block ↔ h.Wrote h.commits.length b
  | .finish => block = [] ∧ ∀ b, b ∈ h.current ↔ h.Wrote h.commits.length b
  | _ => h.current = [] ∧ ∀ b, b ∈ block ↔ h.Wrote h.commits.length b

theorem State.goto_inOp {s : State P} {p : P} (hc : c.inOp = (s.pc p).inOp) (q : P) :
    (update s.pc p c q).inOp = (s.pc q).inOp := by
  rcases eq_or_ne q p with rfl | hq
  · rw [update_self, hc]
  · rw [update_of_ne hq]

theorem State.goto_inCommit {s : State P} {p : P} (hc : c.inCommit = false) {q : P}
    (hq : q ≠ p → (s.pc q).inCommit = false) : (update s.pc p c q).inCommit = false := by
  rcases eq_or_ne q p with rfl | hne
  · rw [update_self, hc]
  · rw [update_of_ne hne, hq hne]

/-- What holds between the history of a run and the log it has reached. -/
structure Inv (h : Hist P) (s : State P) : Prop where
  /-- each process is in one operation or in none -/
  inOp : ∀ p, opCount h.ops p = if (s.pc p).inOp then 1 else 0
  outstanding : s.outstanding = openCount h.ops
  nodup : s.block.Nodup
  epoch : ∀ o ∈ h.ops, o.epoch ≤ h.commits.length
  openEpoch : ∀ o ∈ h.ops, o.ended = false → o.epoch = h.commits.length
  past : ∀ k (hk : k < h.commits.length), ∀ b, b ∈ h.commits[k] ↔ h.Wrote k b
  /-- no commit runs, or one process runs it and no operation is open -/
  phase :
    (s.committing = false ∧ (∀ p, (s.pc p).inCommit = false) ∧ CommitOk h s.block .idle) ∨
    ∃ p, s.committing = true ∧ (s.pc p).inCommit = true ∧
      (∀ q, q ≠ p → (s.pc q).inCommit = false) ∧ openCount h.ops = 0 ∧ CommitOk h s.block (s.pc p)
  noPanic : s.panicked ≠ some .committing

theorem inv_init : Inv (hist ([] : List (Event P))) (State.init P) := by
  refine ⟨?_, rfl, nodup_nil, ?_, ?_, ?_, .inl ⟨rfl, ?_, ?_⟩, ?_⟩ <;>
    simp [State.init, hist, opCount, Pc.inOp, Pc.inCommit, Hist.Wrote, CommitOk]

namespace Inv
variable {h : Hist P} {s : State P} {p : P}

section

variable (hi : Inv h s)
include hi

/-- No commit runs while somebody is in an operation. -/
theorem phase_of_inOp (hp : (s.pc p).inOp = true) :
    s.committing = false ∧ (∀ p, (s.pc p).inCommit = false) ∧ CommitOk h s.block .idle := by
  rcases hi.phase with hn | ⟨q, -, -, -, hz, -⟩
  · exact hn
  · have h₁ := hi.inOp p
    have h₂ := opCount_le_openCount h.ops p
    rw [hp, if_pos rfl] at h₁
    omega

/-- A process inside `commit` is the only one, and no operation is open. -/
theorem phase_of_inCommit (hp : (s.pc p).inCommit = true) :
    s.committing = true ∧ (∀ q, q ≠ p → (s.pc q).inCommit = false) ∧ openCount h.ops = 0 ∧
      CommitOk h s.block (s.pc p) := by
  rcases hi.phase with ⟨-, hn, -⟩ | ⟨r, hc, -, hothers, hz, hok⟩
  · rw [hn p] at hp; exact absurd hp (by simp)
  · have hpr : p = r := by
      by_contra hne
      rw [hothers p hne] at hp
      exact absurd hp (by simp)
    subst hpr
    exact ⟨hc, hothers, hz, hok⟩

theorem commitOk (hp : s.pc p = c) (hc : c.inCommit = true) : CommitOk h s.block c := by
  subst hp
  exact (hi.phase_of_inCommit hc).2.2.2

/-- A process in its operation has an open one of the current epoch. -/
theorem exists_active (hp : (s.pc p).inOp = true) : ∃ o ∈ h.ops, o.activeFor p = true := by
  have h₁ : 0 < opCount h.ops p := by rw [hi.inOp p, if_pos hp]; omega
  exact countP_pos_iff.mp h₁

/-- Only operations of the current epoch can still write. -/
theorem epoch_of_active {o : Op P} (ho : o ∈ h.ops)
    (ha : o.activeFor p = true) : o.epoch = h.commits.length := by
  simp only [Op.activeFor, Bool.and_eq_true, Bool.not_eq_true'] at ha
  exact hi.openEpoch o ho ha.2

/-! ### One lemma for each event -/

theorem beginOp (hp : s.pc p = .idle) (hc : s.committing = false) :
    Inv (h.next (.beginOp p)) { s.goto p .op with outstanding := s.outstanding + 1 } := by
  have hn : (∀ p, (s.pc p).inCommit = false) ∧ CommitOk h s.block .idle := by
    rcases hi.phase with hn | ⟨q, hc', -⟩
    · exact hn.2
    · rw [hc] at hc'; exact absurd hc' (by simp)
  refine ⟨fun q => ?_, ?_, hi.nodup, fun o ho => ?_, fun o ho he => ?_, fun k hk b => ?_,
    .inl ⟨hc, fun q => ?_, hn.2.1, fun b => ?_⟩, hi.noPanic⟩
  · have := hi.inOp q
    by_cases hq : q = p
    · subst hq
      rw [hp, Pc.inOp, if_neg (by simp)] at this
      simp only [Hist.next, State.goto, update_self, Pc.inOp, if_true]
      rw [opCount, countP_cons_of_pos (by simp [Op.activeFor])]
      rw [opCount] at this
      omega
    · simp only [Hist.next, State.goto, update_of_ne hq]
      rw [← this, opCount, opCount, countP_cons_of_neg (by simp [Op.activeFor, Ne.symm hq])]
  · simp [Hist.next, openCount, hi.outstanding]
  · rcases mem_cons.mp ho with rfl | ho
    · exact le_rfl
    · exact hi.epoch o ho
  · rcases mem_cons.mp ho with rfl | ho
    · rfl
    · exact hi.openEpoch o ho he
  · rw [wrote_begin]; exact hi.past k hk b
  · exact State.goto_inCommit rfl fun _ => hn.1 q
  · rw [wrote_begin]; exact hn.2.2 b

theorem logWrite (hp : s.pc p = .op) (b : Nat) :
    Inv (h.next (.logWrite p b)) (s.goto p (.checked b)) := by
  obtain ⟨hc, hn, hok⟩ := hi.phase_of_inOp (by rw [hp]; rfl)
  refine ⟨fun q => ?_, hi.outstanding, hi.nodup, hi.epoch, hi.openEpoch, hi.past,
    .inl ⟨hc, fun q => ?_, hok⟩, hi.noPanic⟩
  · show opCount h.ops q = if (update s.pc p _ q).inOp then 1 else 0
    rw [State.goto_inOp (by rw [hp]; rfl)]
    exact hi.inOp q
  · exact State.goto_inCommit rfl fun _ => hn q

/-- `log_write` under the lock: the header and the operation gain the block. -/
theorem record {c : Nat} (hp : s.pc p = .checked c) :
    Inv (h.next (.record p c)) { s.goto p .op with block := absorb s.block c } := by
  have hin : (s.pc p).inOp = true := by rw [hp]; rfl
  obtain ⟨hc, hn, hcur, hblk⟩ := hi.phase_of_inOp hin
  refine ⟨fun q => ?_, ?_, nodup_absorb hi.nodup c, fun o ho => ?_, fun o ho he => ?_,
    fun k hk b => ?_, .inl ⟨hc, fun q => ?_, hcur, fun b => ?_⟩, hi.noPanic⟩
  · show opCount (h.ops.map _) q = if (update s.pc p .op q).inOp then 1 else 0
    rw [opCount_write, State.goto_inOp (by rw [hp]; rfl)]
    exact hi.inOp q
  · simp only [Hist.next]
    rw [openCount_write]
    exact hi.outstanding
  · obtain ⟨o, ho', rfl⟩ := mem_map.mp ho
    rw [Op.write_epoch]; exact hi.epoch o ho'
  · obtain ⟨o, ho', rfl⟩ := mem_map.mp ho
    rw [Op.write_ended] at he
    rw [Op.write_epoch]; exact hi.openEpoch o ho' he
  · rw [wrote_record]
    refine (hi.past k hk b).trans ⟨.inl, fun hw => hw.elim id ?_⟩
    rintro ⟨-, o, ho, ha, hk'⟩
    rw [hi.epoch_of_active ho ha] at hk'
    have : k < h.commits.length := hk
    omega
  · exact State.goto_inCommit rfl fun _ => hn q
  · obtain ⟨o, ho, ha⟩ := hi.exists_active hin
    rw [mem_absorb, hblk b, wrote_record]
    constructor
    · rintro (hw | rfl)
      · exact .inl hw
      · exact .inr ⟨rfl, o, ho, ha, hi.epoch_of_active ho ha⟩
    · rintro (hw | ⟨rfl, -⟩)
      · exact .inl hw
      · exact .inr rfl

/-- What `end_op` does to the history, whichever branch it takes. -/
theorem endOp_hist (hp : s.pc p = .op) (hc : c.inOp = false) :
    (∀ q, opCount (h.next (.endOp p)).ops q = if (update s.pc p c q).inOp then 1 else 0) ∧
    s.outstanding - 1 = openCount (h.next (.endOp p)).ops ∧
    (∀ o ∈ (h.next (.endOp p)).ops, o.epoch ≤ h.commits.length) ∧
    (∀ o ∈ (h.next (.endOp p)).ops, o.ended = false → o.epoch = h.commits.length) := by
  have hone : opCount h.ops p = 1 := by rw [hi.inOp p, hp]; rfl
  refine ⟨fun q => ?_, ?_, fun o ho => ?_, fun o ho he => ?_⟩
  · simp only [Hist.next]
    rw [opCount_close]
    by_cases hq : q = p
    · subst hq; simp [hc]
    · rw [if_neg hq, update_of_ne hq]; exact hi.inOp q
  · have := openCount_close h.ops p
    rw [hi.outstanding]
    simp only [Hist.next]
    omega
  · obtain ⟨o, ho', rfl⟩ := mem_map.mp ho
    rw [Op.close_epoch]; exact hi.epoch o ho'
  · obtain ⟨o, ho', rfl⟩ := mem_map.mp ho
    rw [Op.close_ended, Bool.or_eq_false_iff] at he
    rw [Op.close_epoch]; exact hi.openEpoch o ho' he.1

theorem endOp_open (hp : s.pc p = .op) :
    Inv (h.next (.endOp p)) { s.goto p .idle with outstanding := s.outstanding - 1 } := by
  obtain ⟨hc, hn, hcur, hblk⟩ := hi.phase_of_inOp (by rw [hp]; rfl)
  obtain ⟨h₁, h₂, h₃, h₄⟩ := hi.endOp_hist hp (c := .idle) rfl
  refine ⟨h₁, h₂, hi.nodup, h₃, h₄, fun k hk b => ?_, .inl ⟨hc, fun q => ?_, hcur, fun b => ?_⟩,
    hi.noPanic⟩
  · rw [wrote_end]; exact hi.past k hk b
  · exact State.goto_inCommit rfl fun _ => hn q
  · rw [wrote_end]; exact hblk b

/-- The last `end_op`: `p` turns to committing. -/
theorem endOp_last (hp : s.pc p = .op) (hlast : s.outstanding - 1 = 0) :
    Inv (h.next (.endOp p))
      { s.goto p .commit with outstanding := s.outstanding - 1, committing := true } := by
  obtain ⟨-, hn, hcur, hblk⟩ := hi.phase_of_inOp (by rw [hp]; rfl)
  obtain ⟨h₁, h₂, h₃, h₄⟩ := hi.endOp_hist hp (c := .commit) rfl
  refine ⟨h₁, h₂, hi.nodup, h₃, h₄, fun k hk b => ?_,
    .inr ⟨p, rfl, by simp [State.goto], fun q hq => ?_, ?_, ?_⟩, hi.noPanic⟩
  · rw [wrote_end]; exact hi.past k hk b
  · simpa [State.goto, update_of_ne hq] using hn q
  · omega
  · simp only [State.goto, update_self, CommitOk]
    exact ⟨hcur, fun b => by rw [wrote_end]; exact hblk b⟩

/-- A step of the committing process that changes no operation. -/
theorem advance (hp : (s.pc p).inCommit = true) {h' : Hist P}
    (hc : c.inCommit = true) (hops : h'.ops = h.ops) (hcom : h'.commits = h.commits)
    (hnd : block.Nodup) (hok : CommitOk h' block c) :
    Inv h' { s.goto p c with block := block } := by
  obtain ⟨hcm, hothers, hz, -⟩ := hi.phase_of_inCommit hp
  have hno : ∀ c : Pc, c.inCommit = true → c.inOp = false := by
    intro c hc; cases c <;> simp_all [Pc.inCommit, Pc.inOp]
  have hw : ∀ k b, h'.Wrote k b ↔ h.Wrote k b := by
    intro k b; simp only [Hist.Wrote, hops]
  refine ⟨fun q => ?_, ?_, hnd, ?_, ?_, fun k hk b => ?_, .inr ⟨p, hcm, ?_, fun q hq => ?_, ?_, ?_⟩,
    hi.noPanic⟩
  · show opCount h'.ops q = if (update s.pc p c q).inOp then 1 else 0
    rw [hops, hi.inOp q, State.goto_inOp (by rw [hno _ hc, hno _ hp])]
  · rw [hops]; exact hi.outstanding
  · rw [hops, hcom]; exact hi.epoch
  · rw [hops, hcom]; exact hi.openEpoch
  · rw [hw]
    have := hi.past k (by rw [← hcom]; exact hk) b
    simpa [hcom] using this
  · simpa [State.goto] using hc
  · simpa [State.goto, update_of_ne hq] using hothers q hq
  · rw [hops]; exact hz
  · simpa [State.goto] using hok

/-- The commit is over: its installed blocks are recorded, a new epoch begins. -/
theorem finish (hp : s.pc p = .finish) :
    Inv (h.next (.finish p)) { s.goto p .idle with committing := false } := by
  obtain ⟨-, hothers, hz, hok⟩ := hi.phase_of_inCommit (by rw [hp]; rfl)
  rw [hp] at hok
  obtain ⟨hblk, hcur⟩ := hok
  have hlen : (h.next (.finish p)).commits.length = h.commits.length + 1 := by simp [Hist.next]
  have hnone : ∀ b, ¬ h.Wrote (h.commits.length + 1) b := by
    rintro b ⟨o, ho, he, -⟩
    have := hi.epoch o ho
    omega
  refine ⟨fun q => ?_, hi.outstanding, hi.nodup, fun o ho => ?_, fun o ho he => ?_,
    fun k hk b => ?_, .inl ⟨rfl, fun q => ?_, rfl, fun b => ?_⟩, hi.noPanic⟩
  · show opCount h.ops q = if (update s.pc p _ q).inOp then 1 else 0
    rw [State.goto_inOp (by rw [hp]; rfl)]
    exact hi.inOp q
  · have := hi.epoch o ho
    omega
  · have : 0 < openCount h.ops := openCount_pos_of_mem ho he
    omega
  · by_cases hk' : k < h.commits.length
    · have := hi.past k hk' b
      simpa [Hist.next, Hist.Wrote, getElem_append_left hk'] using this
    · have hk'' : k = h.commits.length := by omega
      subst hk''
      simpa [Hist.next, Hist.Wrote] using hcur b
  · exact State.goto_inCommit rfl fun hq => hothers q hq
  · rw [hlen]
    simp only [State.goto, hblk, not_mem_nil, false_iff]
    exact hnone b

/-- **Every event keeps the invariant.** -/
theorem step {e : Event P} {s' : State P} (hs : step size s e = some s') : Inv (h.next e) s' := by
  cases (acts_of_step hs).2 with
  | beginOp pc quiet room => exact hi.beginOp pc quiet
  | tooBig | outside => exact { hi with noPanic := by simp }
  | logWrite pc room => exact hi.logWrite pc _
  | record pc => exact hi.record pc
  | endPanic pc busy =>
    rw [(hi.phase_of_inOp (by rw [pc]; rfl)).1] at busy
    cases busy
  | endLast pc last => exact hi.endOp_last pc last
  | endOpen pc => exact hi.endOp_open pc
  | commit pc logged =>
    have hok := hi.commitOk pc rfl
    exact hi.advance (by simp [pc]) (by simp) rfl rfl hi.nodup hok
  | commitNone pc empty =>
    obtain ⟨hcur, hblk⟩ := hi.commitOk pc rfl
    refine hi.advance (by simp [pc]) (by simp) rfl rfl hi.nodup ⟨empty, fun b => ?_⟩
    have := hblk b
    rw [empty] at this
    simpa [Hist.next, hcur] using this
  | copyToLog pc entry =>
    have hok := hi.commitOk pc rfl
    exact hi.advance (by simp [pc]) (by simp) rfl rfl hi.nodup hok
  | writeHead pc past =>
    have hok := hi.commitOk pc rfl
    exact hi.advance (by simp [pc]) (by simp) rfl rfl hi.nodup
      ⟨by simpa [Hist.next] using hok.1, hok.2⟩
  | install pc entry =>
    have hok := hi.commitOk pc rfl
    refine hi.advance (by simp [pc]) (by simp) rfl rfl hi.nodup ⟨?_, hok.2⟩
    simp only [Hist.next]
    rw [hok.1, take_add_one, entry]
    rfl
  | erase pc past =>
    have hok := hi.commitOk pc rfl
    refine hi.advance (by simp [pc]) (by simp) rfl rfl nodup_nil ⟨rfl, fun b => ?_⟩
    have hcur : h.current = s.block := by rw [hok.1, take_of_length_le past]
    have := hok.2 b
    rwa [← hcur] at this
  | finish pc => exact hi.finish pc

end

end Inv

theorem Runs.inv {es : List (Event P)} {s : State P} (h : Runs size es s) : Inv (hist es) s :=
  Trace.Run.invariant (I := fun es s => Inv (hist es) s) inv_init
    (fun es s e s' hi hs => by rw [hist_snoc]; exact hi.step hs) h

/-- **Group-commit isolation.**  Along every run, by any processes in any order:
`outstanding` counts the operations begun and not ended; a running commit has
none; nobody log_writes while one runs; the header's entries are distinct; what
a commit installed is exactly what the operations begun since the commit before
it log_wrote, and all of these have ended; and `end_op` never panics. -/
theorem group_commit_isolation (size : Nat) (es : List (Event P)) (s : State P)
    (hrun : Runs size es s) :
    s.outstanding = (hist es).open_.length ∧
    (s.committing = true → s.outstanding = 0) ∧
    (∀ p b s', step size s (.logWrite p b) = some s' ∨ step size s (.record p b) = some s' →
      s.committing = false ∧ ∀ q, (s.pc q).inCommit = false) ∧
    s.block.Nodup ∧
    (∀ k (hk : k < (hist es).commits.length),
      (∀ b, b ∈ (hist es).commits[k] ↔ ∃ o ∈ (hist es).ops, o.epoch = k ∧ b ∈ o.blocks) ∧
      ∀ o ∈ (hist es).ops, o.epoch = k → o.ended = true) ∧
    s.panicked ≠ some .committing := by
  have hi := hrun.inv
  refine ⟨?_, fun hc => ?_, fun p b s' hs => ?_, hi.nodup, fun k hk => ⟨hi.past k hk, ?_⟩,
    hi.noPanic⟩
  · rw [hi.outstanding, Hist.length_open]
  · rcases hi.phase with ⟨hc', -⟩ | ⟨p, -, -, -, hz, -⟩
    · rw [hc] at hc'; exact absurd hc' (by simp)
    · rw [hi.outstanding, hz]; rfl
  · have hin : (s.pc p).inOp = true := by
      rcases hs with hs | hs <;> cases (acts_of_step hs).2 <;> simp [*]
    exact ⟨(hi.phase_of_inOp hin).1, (hi.phase_of_inOp hin).2.1⟩
  · intro o ho hk'
    cases he : o.ended with
    | true => rfl
    | false => have := hi.openEpoch o ho he; omega

/-- Two overlapping operations that share block 5, committed by the second. -/
theorem group_commit_isolation_two_ops :
    ∃ s : State (Fin 2),
      Runs LOGSIZE [.beginOp 0, .beginOp 1, .logWrite 0 5, .logWrite 1 5, .record 0 5, .record 1 5,
        .logWrite 1 6, .record 1 6, .endOp 0, .endOp 1, .commit 1, .copyToLog 1 5, .copyToLog 1 6,
        .writeHead 1, .install 1 5, .install 1 6, .erase 1, .finish 1] s ∧
      s.panicked ≠ some .committing :=
  (Trace.exists_run (by decide)).imp fun s hrun =>
    ⟨hrun, (group_commit_isolation LOGSIZE _ s hrun).2.2.2.2.2⟩

end Invariant

end Xv6.Group
