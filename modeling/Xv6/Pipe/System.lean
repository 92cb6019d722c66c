/-
# `Xv6.Pipe.System` — readers and writers of one pipe

Any number of processes call `pipewrite`, `piperead` and `pipeclose` on a pipe, and
any process may be killed at any time.  One event is one section under `p->lock`:
from `acquire`, or from where `sleep` has taken the lock again, to `release` or to
the `sleep` that gives the lock up; `sleep` and `wakeup` exclude each other by
`ptable.lock`.  So the states between events are those in which the lock is free.

    write p src    pipewrite of src, up to its first sleep or its return
    read p n       piperead of n bytes, up to its first sleep or its return
    resume p       a process that was woken goes on with its call
    close w        pipeclose
    kill p         kill

The run ends when both ends are closed and the page is freed.
-/
import Xv6.Lib.Trace
import Xv6.Pipe.Buffer

namespace Xv6.Pipes

open List
open Function (update update_of_ne update_self)

/-- The two channels a process sleeps on: `&p->nread` and `&p->nwrite`. -/
inductive Chan
  | nread
  | nwrite
  deriving DecidableEq

/-- The call a process is in the middle of. -/
inductive Task
  | idle
  /-- `pipewrite` of `n` bytes, with `rest` still to store -/
  | write (n : Nat) (rest : List UInt8)
  /-- `piperead` of `n` bytes, with none read yet -/
  | read (n : Nat)
  deriving DecidableEq

/-- The pipe and its users.  `stored` and `delivered` are the bytes all calls have
stored and delivered so far, in order; the code keeps no such history. -/
structure Sys (P : Type) where
  pipe : Pipe
  freed : Bool
  task : P → Task
  /-- The channel of a process in state `SLEEPING`. -/
  asleep : P → Option Chan
  killed : P → Bool
  stored : List UInt8
  delivered : List UInt8

/-- After `pipealloc`, on a page that held `data`. -/
def Sys.init (P : Type) (data : Fin PIPESIZE → UInt8) : Sys P where
  pipe := .init data
  freed := false
  task _ := .idle
  asleep _ := none
  killed _ := false
  stored := []
  delivered := []

inductive Event (P : Type)
  | write (p : P) (src : List UInt8)
  | read (p : P) (n : Nat)
  | resume (p : P)
  | close (writable : Bool)
  | kill (p : P)
  deriving DecidableEq

namespace Sys

variable {P : Type}

def wakeup (s : Sys P) (c : Chan) : Sys P :=
  { s with asleep := fun q => if s.asleep q = some c then none else s.asleep q }

variable [DecidableEq P]

/-- The call of `p` goes on later, or is over. -/
def goto (s : Sys P) (p : P) (t : Task) : Sys P := { s with task := update s.task p t }

def sleep (s : Sys P) (p : P) (c : Chan) : Sys P :=
  { s with asleep := update s.asleep p (some c) }

/-- A section of `pipewrite`, with `src` to store: the state, and what the call
returns if it returns. -/
def writeSection (s : Sys P) (p : P) (n : Nat) (src : List UInt8) : Sys P × Option Int :=
  let r := store src s.pipe
  let s₁ := { s with pipe := r.2, stored := s.stored ++ src.take (src.length - r.1.length) }
  if r.1 = [] then ((s₁.wakeup .nread).goto p .idle, some n)
  else if s.pipe.readopen = false ∨ s.killed p = true then (s₁.goto p .idle, some (-1))
  else (((s₁.wakeup .nread).sleep p .nwrite).goto p (.write n r.1), none)

def readSection (s : Sys P) (p : P) (n : Nat) : Sys P × Option Int :=
  if s.pipe.empty = true ∧ s.pipe.writeopen = true then
    if s.killed p = true then (s.goto p .idle, some (-1))
    else ((s.sleep p .nread).goto p (.read n), none)
  else
    let r := take n s.pipe
    let s₁ := { s with pipe := r.2, delivered := s.delivered ++ r.1 }
    ((s₁.wakeup .nwrite).goto p .idle, some r.1.length)

def close (s : Sys P) (writable : Bool) : Sys P :=
  let s₁ :=
    if writable then { s with pipe := { s.pipe with writeopen := false } }.wakeup .nread
    else { s with pipe := { s.pipe with readopen := false } }.wakeup .nwrite
  { s₁ with freed := !s₁.pipe.readopen && !s₁.pipe.writeopen }

def kill (s : Sys P) (p : P) : Sys P :=
  { s with killed := update s.killed p true, asleep := update s.asleep p none }

/-- One event: the new state, and what a call returns. -/
def outcome (s : Sys P) : Event P → Option (Sys P × Option Int)
  | .write p src =>
    if s.freed = false ∧ s.task p = .idle then some (s.writeSection p src.length src) else none
  | .read p n =>
    if s.freed = false ∧ s.task p = .idle then some (s.readSection p n) else none
  | .resume p =>
    if s.freed = false ∧ s.asleep p = none then
      match s.task p with
      | .idle => none
      | .write n rest => some (s.writeSection p n rest)
      | .read n => some (s.readSection p n)
    else none
  | .close w => if s.freed = false then some (s.close w, none) else none
  | .kill p => some (s.kill p, none)

def step (s : Sys P) (e : Event P) : Option (Sys P) := (s.outcome e).map Prod.fst

end Sys

variable {P : Type} [DecidableEq P] {s' : Sys P} {e : Event P} {r : Option Int}

/-- Runs on a pipe from `pipealloc`. -/
abbrev Runs (data : Fin PIPESIZE → UInt8) : List (Event P) → Sys P → Prop :=
  Trace.Run Sys.step (Sys.init P data)

/-- `e` is a section of `piperead` of `n` bytes by `p`. -/
def Event.Reads (s : Sys P) (e : Event P) (p : P) (n : Nat) : Prop :=
  e = .read p n ∨ e = .resume p ∧ s.task p = .read n

/-- `e` is a section of `pipewrite` by `p`, with `src` to store. -/
def Event.Writes (s : Sys P) (e : Event P) (p : P) (src : List UInt8) : Prop :=
  e = .write p src ∨ e = .resume p ∧ ∃ n, s.task p = .write n src

/-- What an event can be: a section of `pipewrite`, one of `piperead`, or one of
the two others. -/
theorem outcome_cases {s : Sys P} (h : s.outcome e = some (s', r)) :
    (∃ p n src, e.Writes s p src ∧ s.writeSection p n src = (s', r)) ∨
    (∃ p n, e.Reads s p n ∧ s.readSection p n = (s', r)) ∨
    (∃ w, e = .close w ∧ s' = s.close w ∧ r = none) ∨
    (∃ p, e = .kill p ∧ s' = s.kill p ∧ r = none) := by
  cases e with
  | write p src =>
    simp only [Sys.outcome] at h
    split at h
    · exact .inl ⟨p, _, src, .inl rfl, Option.some.inj h⟩
    · cases h
  | read p n =>
    simp only [Sys.outcome] at h
    split at h
    · exact .inr (.inl ⟨p, n, .inl rfl, Option.some.inj h⟩)
    · cases h
  | resume p =>
    simp only [Sys.outcome] at h
    split at h
    · cases ht : s.task p with
      | idle => rw [ht] at h; cases h
      | write n rest =>
        rw [ht] at h
        exact .inl ⟨p, n, rest, .inr ⟨rfl, n, ht⟩, Option.some.inj h⟩
      | read n =>
        rw [ht] at h
        exact .inr (.inl ⟨p, n, .inr ⟨rfl, ht⟩, Option.some.inj h⟩)
    · cases h
  | close w =>
    simp only [Sys.outcome] at h
    split at h
    · cases h
      exact .inr (.inr (.inl ⟨w, rfl, rfl, rfl⟩))
    · cases h
  | kill p =>
    cases h
    exact .inr (.inr (.inr ⟨p, rfl, rfl, rfl⟩))

/-! ## Bytes -/

/-- What is stored is what has been delivered and then what is pending. -/
def Lossless (s : Sys P) : Prop := ∃ q, s.pipe.Holds q ∧ s.stored = s.delivered ++ q

namespace Lossless

variable {s : Sys P} {p : P} {n : Nat}

theorem writeSection (h : Lossless s) (src : List UInt8) : Lossless (s.writeSection p n src).1 := by
  obtain ⟨q, hq, hst⟩ := h
  obtain ⟨put, hsrc, hput, -⟩ := store_spec src hq
  have hput' : src.take (src.length - (store src s.pipe).1.length) = put := by
    have hlen := congrArg List.length hsrc
    rw [length_append] at hlen
    rw [show src.length - (store src s.pipe).1.length = put.length by omega]
    conv_lhs => rw [hsrc]
    exact take_left
  have key : s.stored ++ src.take (src.length - (store src s.pipe).1.length) =
      s.delivered ++ (q ++ put) := by
    rw [hput', hst, append_assoc]
  simp only [Sys.writeSection]
  split
  · exact ⟨q ++ put, hput, key⟩
  · split <;> exact ⟨q ++ put, hput, key⟩

theorem readSection (h : Lossless s) : Lossless (s.readSection p n).1 := by
  obtain ⟨q, hq, hst⟩ := h
  simp only [Sys.readSection]
  split
  · split <;> exact ⟨q, hq, hst⟩
  · obtain ⟨h₁, h₂⟩ := take_spec hq
    refine ⟨q.drop n, h₂, ?_⟩
    show s.stored = s.delivered ++ (take n s.pipe).1 ++ q.drop n
    rw [h₁, hst, append_assoc, take_append_drop]

theorem step (h : Lossless s) (ho : s.outcome e = some (s', r)) : Lossless s' := by
  rcases outcome_cases ho with ⟨p, n, src, -, he⟩ | ⟨p, n, -, he⟩ | ⟨w, -, rfl, -⟩ | ⟨p, -, rfl, -⟩
  · have := h.writeSection (p := p) (n := n) src
    rwa [he] at this
  · have := h.readSection (p := p) (n := n)
    rwa [he] at this
  · cases w <;> exact h
  · exact h

theorem run {data : Fin PIPESIZE → UInt8} {es : List (Event P)} (h : Runs data es s) :
    Lossless s := by
  refine h.invariant (I := fun _ s => Lossless s) ⟨[], .init data, rfl⟩ ?_
  intro _ s₁ e s₂ h₁ hst
  obtain ⟨⟨s', r⟩, ho, rfl⟩ := Option.map_eq_some_iff.mp hst
  exact h₁.step ho

end Lossless

/-- `piperead` returns 0 at the end of the file only. -/
theorem readSection_eq_zero {s : Sys P} {p : P} {n : Nat} (h : Lossless s) (hn : 0 < n)
    (hr : s.readSection p n = (s', some 0)) :
    s'.pipe.writeopen = false ∧ s'.delivered = s'.stored := by
  obtain ⟨q, hq, hst⟩ := h
  simp only [Sys.readSection] at hr
  split at hr
  · split at hr <;> cases hr
  · next hc =>
      obtain ⟨h₁, -⟩ := take_spec (n := n) hq
      obtain ⟨rfl, h₀⟩ := Prod.mk.inj hr
      have hlen : (take n s.pipe).1.length = 0 := by exact_mod_cast Option.some.inj h₀
      -- nothing was taken although something was asked for: the pipe was empty
      have hnil : q = [] := by
        rw [h₁, length_take] at hlen
        exact length_eq_zero_iff.mp (by omega)
      subst hnil
      have hw : s.pipe.writeopen = false := by
        rw [Bool.eq_false_iff]
        exact fun hw => hc ⟨hq.empty_iff.mpr rfl, hw⟩
      constructor
      · exact (take_open n s.pipe).2.trans hw
      · show s.delivered ++ (take n s.pipe).1 = s.stored
        rw [h₁, hst, take_nil]

/-- **Pipes are lossless queues**: whatever the processes do, and also when the
counters wrap, the pipe holds `nwrite - nread` bytes and no more than `PIPESIZE`,
the delivered bytes are the first ones stored, with exactly the others pending,
and `piperead` of some bytes returns 0 only at the end of the file. -/
theorem pipe_lossless_fifo (data : Fin PIPESIZE → UInt8) (es : List (Event P)) (s : Sys P)
    (h : Runs data es s) :
    (s.pipe.nwrite - s.pipe.nread).toNat ≤ PIPESIZE ∧
    (∃ pending, s.stored = s.delivered ++ pending ∧
      pending.length = (s.pipe.nwrite - s.pipe.nread).toNat) ∧
    ∀ e p n s', e.Reads s p n → 0 < n → s.outcome e = some (s', some 0) →
      s'.pipe.writeopen = false ∧ s'.delivered = s'.stored := by
  have hl := Lossless.run h
  obtain ⟨q, hq, hst⟩ := hl
  refine ⟨hq.length_eq ▸ hq.length, ⟨q, hst, hq.length_eq.symm⟩, ?_⟩
  intro e p n s' he hn ho
  have hsec : s.outcome e = some (s.readSection p n) := by
    rcases he with rfl | ⟨rfl, ht⟩
    · simp only [Sys.outcome] at ho ⊢
      split at ho
      · next hc => rw [if_pos hc]
      · cases ho
    · simp only [Sys.outcome, ht] at ho ⊢
      split at ho
      · next hc => rw [if_pos hc]
      · cases ho
  exact readSection_eq_zero ⟨q, hq, hst⟩ hn (Option.some.inj (hsec.symm.trans ho))

/-- A reader that sleeps, a writer that wakes it, and two of its three bytes. -/
def readTwo : List (Event Bool) := [.read true 2, .write false [7, 8, 9], .resume true]

theorem pipe_lossless_fifo_two_of_three :
    ∃ s : Sys Bool, Runs (fun _ => 0) readTwo s ∧ s.stored = [7, 8, 9] ∧ s.delivered = [7, 8] ∧
      (s.pipe.nwrite - s.pipe.nread).toNat ≤ PIPESIZE :=
  Trace.exists_of_exec_imp (Q := fun s => s.stored = [7, 8, 9] ∧ s.delivered = [7, 8]) (by decide)
    fun _ hr h => ⟨h.1, h.2, (pipe_lossless_fifo _ _ _ hr).1⟩

/-! ## Wakeups -/

/-- Nobody sleeps for what is there: a reader asleep finds the pipe empty and the
write end open, a writer asleep finds it full and the read end open. -/
structure Awake (s : Sys P) : Prop where
  reader : ∀ p, s.asleep p = some .nread → s.pipe.empty = true ∧ s.pipe.writeopen = true
  writer : ∀ p, s.asleep p = some .nwrite → s.pipe.full = true ∧ s.pipe.readopen = true

theorem store_of_full {p : Pipe} (h : p.full = true) (src : List UInt8) : store src p = (src, p) := by
  cases src with
  | nil => rfl
  | cons b bs => rw [store, if_pos h]

/-- The bytes that fit. -/
def Pipe.room (p : Pipe) : Nat := PIPESIZE - (p.nwrite - p.nread).toNat

theorem store_of_room {p : Pipe} {q src : List UInt8} (h : p.Holds q) (hs : src.length ≤ p.room) :
    (store src p).1 = [] := by
  obtain ⟨put, hsrc, hput, hfull⟩ := store_spec src h
  by_contra hne
  have h₁ := hput.full_iff.mp (hfull hne)
  have h₂ := congrArg List.length hsrc
  have h₃ := length_pos_of_ne_nil hne
  rw [length_append] at h₁ h₂
  rw [Pipe.room, h.length_eq] at hs
  omega

/-- While a reader sleeps, a writer that will not wait, because it has been killed or
because nobody reads, has no more bytes left than the pipe has room for. -/
def Careful (s : Sys P) (e : Event P) : Prop :=
  ∀ p src q, e.Writes s p src → s.asleep q = some .nread →
    s.killed p = true ∨ s.pipe.readopen = false → src.length ≤ s.pipe.room

namespace Awake

variable {s : Sys P}

omit [DecidableEq P] in
theorem asleep_wakeup {c : Chan} {q : P} {d : Chan} :
    (s.wakeup c).asleep q = some d ↔ s.asleep q = some d ∧ d ≠ c := by
  simp only [Sys.wakeup]
  split
  · next h =>
      rw [h]
      simp only [reduceCtorEq, Option.some.injEq, ne_eq, false_iff, not_and, not_not]
      exact fun h => h.symm
  · next h =>
      constructor
      · intro hd
        exact ⟨hd, fun hdc => h (hdc ▸ hd)⟩
      · exact fun hd => hd.1

theorem writeSection {p : P} {n : Nat} {src : List UInt8} (h : Awake s) (hl : Lossless s)
    (he : e.Writes s p src) (hc : Careful s e) : Awake (s.writeSection p n src).1 := by
  obtain ⟨q, hq, -⟩ := hl
  have hopen := store_open src s.pipe
  -- a writer asleep stays so, since the pipe is full and nothing is stored
  have hw : ∀ u, s.asleep u = some .nwrite →
      (store src s.pipe).2.full = true ∧ (store src s.pipe).2.readopen = true := by
    intro u hu
    rw [store_of_full (h.writer u hu).1]
    exact h.writer u hu
  simp only [Sys.writeSection]
  split
  · refine ⟨fun u hu => absurd rfl (asleep_wakeup.mp hu).2, fun u hu => ?_⟩
    exact hw u (asleep_wakeup.mp hu).1
  · next hrest =>
      split
      · next hgive =>
          refine ⟨fun u hu => absurd ?_ hrest, hw⟩
          exact store_of_room hq (hc p src u he hu hgive.symm)
      · next hwait =>
          obtain ⟨-, -, -, hfull⟩ := store_spec src hq
          rw [not_or, Bool.not_eq_false] at hwait
          have hp : (store src s.pipe).2.full = true ∧ (store src s.pipe).2.readopen = true :=
            ⟨hfull hrest, hopen.1.trans hwait.1⟩
          refine ⟨fun u hu => ?_, fun u hu => ?_⟩
          · by_cases hup : u = p
            · subst hup
              simp only [Sys.goto, Sys.sleep, update_self] at hu
              cases hu
            · simp only [Sys.goto, Sys.sleep, update_of_ne hup] at hu
              exact absurd rfl (asleep_wakeup.mp hu).2
          · exact hp

theorem readSection {p : P} {n : Nat} (h : Awake s) : Awake (s.readSection p n).1 := by
  simp only [Sys.readSection]
  split
  · next hc =>
      split
      · exact ⟨h.reader, h.writer⟩
      · refine ⟨fun u hu => hc, fun u hu => ?_⟩
        by_cases hup : u = p
        · subst hup
          simp only [Sys.goto, Sys.sleep, update_self] at hu
          cases hu
        · simp only [Sys.goto, Sys.sleep, update_of_ne hup] at hu
          exact h.writer u hu
  · next hc =>
      -- nobody slept for bytes, since there was something to find
      refine ⟨fun u hu => absurd (h.reader u (asleep_wakeup.mp hu).1) hc, fun u hu => ?_⟩
      exact absurd rfl (asleep_wakeup.mp hu).2

omit [DecidableEq P] in
theorem close (h : Awake s) (w : Bool) : Awake (s.close w) := by
  cases w with
  | true =>
    refine ⟨fun u hu => absurd rfl (asleep_wakeup.mp hu).2, fun u hu => ?_⟩
    exact h.writer u (asleep_wakeup.mp hu).1
  | false =>
    refine ⟨fun u hu => ?_, fun u hu => absurd rfl (asleep_wakeup.mp hu).2⟩
    exact h.reader u (asleep_wakeup.mp hu).1

theorem kill (h : Awake s) (p : P) : Awake (s.kill p) := by
  have key : ∀ u c, (s.kill p).asleep u = some c → s.asleep u = some c := by
    intro u c hu
    by_cases hup : u = p
    · subst hup
      simp only [Sys.kill, update_self] at hu
      cases hu
    · simpa only [Sys.kill, update_of_ne hup] using hu
  exact ⟨fun u hu => h.reader u (key u _ hu), fun u hu => h.writer u (key u _ hu)⟩

theorem step (h : Awake s) (hl : Lossless s) (hc : Careful s e) (ho : s.outcome e = some (s', r)) :
    Awake s' := by
  rcases outcome_cases ho with ⟨p, n, src, hw, he⟩ | ⟨p, n, -, he⟩ | ⟨w, -, rfl, -⟩ | ⟨p, -, rfl, -⟩
  · have := h.writeSection (n := n) hl hw hc
    rwa [he] at this
  · have := h.readSection (p := p) (n := n)
    rwa [he] at this
  · exact h.close w
  · exact h.kill p

end Awake

/-- **No lost wakeup**: in every run all of whose events are careful, nobody sleeps
on `&p->nread` while there is something to read or the write end is closed, nor on
`&p->nwrite` while there is room or the read end is closed. -/
theorem no_lost_wakeup (data : Fin PIPESIZE → UInt8) (es : List (Event P)) (s : Sys P)
    (h : Runs data es s)
    (hc : ∀ pre e post t, es = pre ++ e :: post → Runs data pre t → Careful t e) :
    (∀ p, s.asleep p = some .nread → s.pipe.empty = true ∧ s.pipe.writeopen = true) ∧
    (∀ p, s.asleep p = some .nwrite → s.pipe.full = true ∧ s.pipe.readopen = true) := by
  suffices hA : Awake s from ⟨hA.reader, hA.writer⟩
  refine h.guarded (I := Awake) (G := Careful) ?_ ?_ hc
  · exact ⟨fun _ hp => (nomatch hp), fun _ hp => (nomatch hp)⟩
  · intro es s e s' hr hs hce hst
    obtain ⟨⟨s₁, r⟩, ho, rfl⟩ := Option.map_eq_some_iff.mp hst
    exact hs.step (Lossless.run hr) hce ho

/-- A reader that has gone to sleep. -/
theorem no_lost_wakeup_one_reader :
    ∃ s : Sys Bool, Runs (fun _ => 0) [.read true 2] s ∧ s.asleep true = some .nread ∧
      s.pipe.empty = true ∧ s.pipe.writeopen = true := by
  refine Trace.exists_of_exec_imp (Q := fun s => s.asleep true = some .nread) (by decide)
    fun s hr ha => ⟨ha, (no_lost_wakeup _ _ _ hr ?_).1 true ha⟩
  intro pre e post t hsplit _ p src _ hw
  -- the only event is no section of `pipewrite`
  have hmem : e ∈ [Event.read true 2] := hsplit ▸ mem_append_right _ mem_cons_self
  obtain rfl := mem_singleton.mp hmem
  rcases hw with hw | ⟨hw, -⟩ <;> cases hw

/-- A reader sleeps, and a writer that has been killed stores more than fits. -/
def lostWakeup : List (Event Bool) :=
  [.read true 1, .kill false, .write false (List.replicate 513 7)]

/-- The writer fills the pipe and returns -1 without a wakeup: the reader sleeps on
`&p->nread` with 512 bytes to read. -/
theorem reader_left_asleep : ∃ s : Sys Bool, Runs (fun _ => 0) lostWakeup s ∧
    s.asleep true = some .nread ∧ (s.pipe.nwrite - s.pipe.nread).toNat = 512 :=
  Trace.exists_of_exec (by decide +kernel)

end Xv6.Pipes
