/-
# `Xv6.Proc.Table` — the process table and the CPUs

`proc.c`: `fork`, `exit`, `wait`, `kill`, `sleep`, `wakeup`, `yield`, `reschedule`
and the scheduler they call, on any number of CPUs.  A section under `ptable.lock`
that calls `sched` does not end there: `sched` switches to another kernel thread,
and that thread goes on, with the lock still held, from where it once called
`sched` itself.  So a section is cut in two.  The first event takes the lock and
ends in `sched`; `goOn` is what the thread now running on the CPU does, until it
releases the lock or (in the loop of `wait`) calls `sched` again:

    forkret, reschedule, yield     release
    sleep                          clear chan, release
    wait                           clear chan, look for zombies again
    exit                           panic: a zombie runs
    the idle loop                  release

`swtch` always goes to the context of `c->proc`, or to the idle loop of `c` if
that is null, so `cpu c` also says which thread runs on `c`.

The rest of `fork` runs without the lock: the new process is an `EMBRYO` that only
the forking process knows (`task`).  Memory, files and directories are not modelled
here, so whether `kalloc` and `copyuvm` succeed is up to the event.

`History` is no part of the machine: it numbers the processes ever made, and records
who forked whom, who has exited and what `wait` has returned.
-/
import Mathlib.Data.List.FinRange
import Xv6.Lib.Trace

namespace Xv6.Procs

open Option
open Function (update)

inductive ProcState
  | unused
  | embryo
  | sleeping
  | runnable
  | running
  | zombie
  deriving DecidableEq

/-- A wait channel: the address of an entry of `ptable`, or another one. -/
inductive Chan (n : Nat)
  | proc (p : Fin n)
  | other (a : Nat)
  deriving DecidableEq

structure Proc (n : Nat) where
  state : ProcState
  pid : BitVec 32
  parent : Option (Fin n)
  chan : Option (Chan n)
  killed : Bool
  deriving DecidableEq

/-- Where a thread goes on when it is switched to: the caller of `sched`. -/
inductive Resume
  | forkret
  | reschedule
  | yield
  | sleep
  | wait
  | exit
  deriving DecidableEq

/-- The part of `fork` a process is in: `allocproc` has found `np`, or `np` has its
memory and its parent. -/
inductive Task (n : Nat)
  | none
  | forking (np : Fin n)
  | copied (np : Fin n)
  deriving DecidableEq

inductive Panic
  | schedRunning
  | notRunning
  | initExiting
  | zombieExit
  deriving DecidableEq

/-- A process that was made: its `pid`, and the number of the one that forked it. -/
structure Birth where
  pid : BitVec 32
  father : Nat
  deriving DecidableEq

/-- A pid that `wait` has returned: the numbers of the caller and of the child. -/
structure Reaped where
  caller : Nat
  child : Nat
  pid : BitVec 32
  deriving DecidableEq

structure History (n : Nat) where
  births : List Birth
  /-- the number of the process in a slot -/
  life : Fin n → Nat
  exits : List Nat
  waits : List Reaped
  /-- `kill` was called with the pid of the process in this slot, or a trap killed it -/
  called : Fin n → Bool

/-- `ptable`, with the CPUs.  `lock` is the CPU that holds `ptable.lock`. -/
structure Kernel (C : Type) (n : Nat) where
  proc : Fin n → Proc n
  nextpid : BitVec 32
  rrindex : Nat
  cpu : C → Option (Fin n)
  lock : Option C
  context : Fin n → Resume
  task : Fin n → Task n
  hist : History n

variable {C : Type} {n : Nat}

namespace Kernel

def modify (s : Kernel C n) (p : Fin n) (f : Proc n → Proc n) : Kernel C n :=
  { s with proc := update s.proc p (f (s.proc p)) }

def setState (s : Kernel C n) (p : Fin n) (st : ProcState) : Kernel C n :=
  s.modify p fun pr => { pr with state := st }

def setTask (s : Kernel C n) (p : Fin n) (t : Task n) : Kernel C n :=
  { s with task := update s.task p t }

def acquire (s : Kernel C n) (c : C) : Kernel C n := { s with lock := some c }

def release (s : Kernel C n) : Kernel C n := { s with lock := none }

/-- Where `p` goes on if the call of `sched` that follows switches away from it. -/
def park (s : Kernel C n) (p : Fin n) (r : Resume) : Kernel C n :=
  { s with context := update s.context p r }

end Kernel

/-! ## The scheduler -/

/-- `wakeup1`, for one process. -/
def Proc.wakeup1 (chan : Option (Chan n)) (p : Proc n) : Proc n :=
  if p.state = .sleeping ∧ p.chan = chan then { p with state := .runnable } else p

def Kernel.wakeup1 (s : Kernel C n) (chan : Option (Chan n)) : Kernel C n :=
  { s with proc := fun p => (s.proc p).wakeup1 chan }

section Sched

variable [NeZero n] [DecidableEq C]

def Kernel.roundrobin (s : Kernel C n) : Option (Fin n) :=
  ((List.range n).map fun i => Fin.ofNat n (i + s.rrindex + 1)).find? fun p =>
    (s.proc p).state = .runnable

def Kernel.sched (s : Kernel C n) (c : C) : Except Panic (Kernel C n) :=
  if (s.cpu c).any fun p => (s.proc p).state = .running then .error .schedRunning
  else
    match s.roundrobin with
    | some p => .ok { s.setState p .running with
        rrindex := p, cpu := update s.cpu c (some p) }
    | none => .ok { s with cpu := update s.cpu c none }

/-- The process on `c` stops running, in state `st`, and `sched` is called. -/
def Kernel.switch (s : Kernel C n) (c : C) (p : Fin n) (st : ProcState) (r : Resume) :
    Except Panic (Kernel C n) :=
  ((s.setState p st).park p r).sched c

def Kernel.reschedule (s : Kernel C n) (c : C) : Except Panic (Kernel C n) :=
  match s.cpu c with
  | some p =>
    if (s.proc p).state = .running then (s.acquire c).switch c p .runnable .reschedule
    else .error .notRunning
  | none => (s.acquire c).sched c

def Kernel.yield (s : Kernel C n) (c : C) (p : Fin n) : Except Panic (Kernel C n) :=
  (s.acquire c).switch c p .runnable .yield

/-- `sleep` with a lock other than `ptable.lock`. -/
def Kernel.sleep (s : Kernel C n) (c : C) (p : Fin n) (a : Nat) : Except Panic (Kernel C n) :=
  ((s.acquire c).modify p fun pr => { pr with chan := some (.other a) }).switch c p .sleeping .sleep

/-! ## `kill` -/

/-- The first process in the table with that pid. -/
def Kernel.killTarget (s : Kernel C n) (pid : BitVec 32) : Option (Fin n) :=
  (List.finRange n).find? fun p => (s.proc p).pid = pid

/-- The result, 0 or -1, and the table. -/
def Kernel.kill (s : Kernel C n) (pid : BitVec 32) : Int × Kernel C n :=
  let s := { s with hist := { s.hist with
    called := fun q => s.hist.called q || (s.proc q).pid = pid } }
  match s.killTarget pid with
  | some p => (0, s.modify p fun pr =>
    { pr with killed := true, state := if pr.state = .sleeping then .runnable else pr.state })
  | none => (-1, s)

/-! ## `fork`, `exit` and `wait` -/

/-- `allocproc`, under the lock. -/
def Kernel.allocproc (s : Kernel C n) (p : Fin n) : Kernel C n :=
  match (List.finRange n).find? fun q => (s.proc q).state = .unused with
  | none => s
  | some np =>
    { (s.modify np fun pr => { pr with state := .embryo, pid := s.nextpid }).setTask p
        (.forking np) with
      nextpid := s.nextpid + 1
      hist := { s.hist with
        births := s.hist.births ++ [⟨s.nextpid, s.hist.life p⟩]
        life := update s.hist.life np s.hist.births.length
        called := update s.hist.called np false } }

/-- One turn of the loop of `exit` over the children. -/
def Kernel.abandon (initproc p : Fin n) (s : Kernel C n) (q : Fin n) : Kernel C n :=
  if (s.proc q).parent = some p then
    let s := s.modify q fun pr => { pr with parent := some initproc }
    if (s.proc q).state = .zombie then s.wakeup1 (some (.proc initproc)) else s
  else s

def Kernel.exit (initproc : Fin n) (s : Kernel C n) (c : C) (p : Fin n) :
    Except Panic (Kernel C n) :=
  if p = initproc then .error .initExiting
  else
    let s := (s.acquire c).wakeup1 ((s.proc p).parent.map .proc)
    let s := (List.finRange n).foldl (Kernel.abandon initproc p) s
    let s := { s with hist := { s.hist with exits := s.hist.life p :: s.hist.exits } }
    s.switch c p .zombie .exit

/-- `wait` has found a zombie. -/
def Kernel.reap (s : Kernel C n) (p q : Fin n) : Kernel C n :=
  { s.modify q fun pr => { pr with pid := 0, parent := none, killed := false, state := .unused } with
    hist := { s.hist with
      waits := ⟨s.hist.life p, s.hist.life q, (s.proc q).pid⟩ :: s.hist.waits } }

/-- One turn of the loop of `wait`, with the lock. -/
def Kernel.waitTurn (s : Kernel C n) (c : C) (p : Fin n) : Except Panic (Kernel C n) :=
  match (List.finRange n).find? fun q =>
      (s.proc q).parent = some p ∧ (s.proc q).state = .zombie with
  | some q => .ok (s.reap p q).release
  | none =>
    if (∀ q, (s.proc q).parent ≠ some p) ∨ (s.proc p).killed then .ok s.release
    else
      (s.modify p fun pr => { pr with chan := some (.proc p) }).switch c p .sleeping .wait

/-- What follows the call of `sched` in the thread that now runs on `c`. -/
def Kernel.goOn (s : Kernel C n) (c : C) : Except Panic (Kernel C n) :=
  match s.cpu c with
  | none => .ok s.release
  | some p =>
    match s.context p with
    | .forkret | .reschedule | .yield => .ok s.release
    | .sleep => .ok (s.modify p fun pr => { pr with chan := none }).release
    | .wait => (s.modify p fun pr => { pr with chan := none }).waitTurn c p
    | .exit => .error .zombieExit

/-! ## Events -/

inductive Event (C : Type)
  | reschedule (c : C)
  | yield (c : C)
  | sleep (c : C) (a : Nat)
  | wakeup (a : Nat)
  | kill (c : C) (pid : BitVec 32)
  /-- `fork` calls `allocproc` -/
  | allocproc (c : C)
  /-- `kalloc` or `copyuvm` fails, and so does `fork` -/
  | forkFail (c : C)
  /-- the new process has its memory, its context and its parent -/
  | forkCopy (c : C)
  /-- the new process may run -/
  | forkDone (c : C)
  | exit (c : C)
  | wait (c : C)
  /-- `trap` kills the process that runs on `c` -/
  | trapKill (c : C)
  /-- after `sched` -/
  | goOn (c : C)

/-- The process that runs on `c` and holds no lock, if it is in the part `t` of `fork`. -/
def Kernel.running (s : Kernel C n) (c : C) (t : Fin n → Prop) [DecidablePred t] :
    Option (Fin n) :=
  if s.lock = some c then none else (s.cpu c).filter fun p => t p

/-- The process that calls a function of its own choice on `c`. -/
def Kernel.caller (s : Kernel C n) (c : C) : Option (Fin n) :=
  s.running c fun p => s.task p = .none

/-- One event of the machine; `none` says that it is not possible now. -/
def Kernel.act (initproc : Fin n) (s : Kernel C n) : Event C → Option (Except Panic (Kernel C n))
  | .reschedule c => if s.lock = none then some (s.reschedule c) else none
  | .yield c => if s.lock = none then (s.caller c).map (s.yield c) else none
  | .sleep c a => if s.lock = none then (s.caller c).map fun p => s.sleep c p a else none
  | .wakeup a => if s.lock = none then some (.ok (s.wakeup1 (some (.other a)))) else none
  | .kill c pid =>
    if s.lock = none then (s.caller c).map fun _ => .ok (s.kill pid).2 else none
  | .allocproc c => if s.lock = none then (s.caller c).map fun p => .ok (s.allocproc p) else none
  | .forkFail c =>
    (s.running c fun _ => True).bind fun p =>
      match s.task p with
      | .forking np => some (.ok ((s.setState np .unused).setTask p .none))
      | _ => none
  | .forkCopy c =>
    (s.running c fun _ => True).bind fun p =>
      match s.task p with
      | .forking np => some (.ok (((s.modify np fun pr => { pr with parent := some p }).park np
          .forkret).setTask p (.copied np)))
      | _ => none
  | .forkDone c =>
    if s.lock = none then
      (s.running c fun _ => True).bind fun p =>
        match s.task p with
        | .copied np => some (.ok ((s.setState np .runnable).setTask p .none))
        | _ => none
    else none
  | .exit c => if s.lock = none then (s.caller c).map (s.exit initproc c) else none
  | .wait c => if s.lock = none then (s.caller c).map ((s.acquire c).waitTurn c) else none
  | .trapKill c =>
    (s.caller c).map fun p => .ok { s.modify p fun pr => { pr with killed := true } with
      hist := { s.hist with called := update s.hist.called p true } }
  | .goOn c => if s.lock = some c then some (s.goOn c) else none

def step (initproc : Fin n) (s : Kernel C n) (e : Event C) : Option (Kernel C n) :=
  match s.act initproc e with
  | some (.ok s') => some s'
  | _ => none

/-- After `userinit`: `initproc` can run and every CPU is idle. -/
def Kernel.init (initproc : Fin n) : Kernel C n where
  proc p := if p = initproc then ⟨.runnable, 1, none, none, false⟩ else ⟨.unused, 0, none, none, false⟩
  nextpid := 2
  rrindex := 0
  cpu _ := none
  lock := none
  context _ := .forkret
  task _ := .none
  hist := ⟨[⟨1, 0⟩], fun _ => 0, [], [], fun _ => false⟩

abbrev Runs (initproc : Fin n) : List (Event C) → Kernel C n → Prop :=
  Trace.Run (step initproc) (Kernel.init initproc)

/-! ## What a step can do -/

/-- The moves of the machine, one constructor per branch of `act`. -/
inductive Moves (initproc : Fin n) (s : Kernel C n) : Event C → Except Panic (Kernel C n) → Prop
  | reschedule {c : C} (free : s.lock = none) : Moves initproc s (.reschedule c) (s.reschedule c)
  | yield {c : C} {p : Fin n} (free : s.lock = none) (on : s.cpu c = some p)
      (task : s.task p = .none) : Moves initproc s (.yield c) (s.yield c p)
  | sleep {c : C} {p : Fin n} {a : Nat} (free : s.lock = none) (on : s.cpu c = some p)
      (task : s.task p = .none) : Moves initproc s (.sleep c a) (s.sleep c p a)
  | wakeup {a : Nat} (free : s.lock = none) :
      Moves initproc s (.wakeup a) (.ok (s.wakeup1 (some (.other a))))
  | kill {c : C} {p : Fin n} {pid : BitVec 32} (free : s.lock = none) (on : s.cpu c = some p)
      (task : s.task p = .none) : Moves initproc s (.kill c pid) (.ok (s.kill pid).2)
  | allocproc {c : C} {p : Fin n} (free : s.lock = none) (on : s.cpu c = some p)
      (task : s.task p = .none) : Moves initproc s (.allocproc c) (.ok (s.allocproc p))
  | forkFail {c : C} {p np : Fin n} (on : s.cpu c = some p) (task : s.task p = .forking np) :
      Moves initproc s (.forkFail c) (.ok ((s.setState np .unused).setTask p .none))
  | forkCopy {c : C} {p np : Fin n} (on : s.cpu c = some p) (task : s.task p = .forking np) :
      Moves initproc s (.forkCopy c)
        (.ok (((s.modify np fun pr => { pr with parent := some p }).park np .forkret).setTask p
          (.copied np)))
  | forkDone {c : C} {p np : Fin n} (free : s.lock = none) (on : s.cpu c = some p)
      (task : s.task p = .copied np) :
      Moves initproc s (.forkDone c) (.ok ((s.setState np .runnable).setTask p .none))
  | exit {c : C} {p : Fin n} (free : s.lock = none) (on : s.cpu c = some p)
      (task : s.task p = .none) : Moves initproc s (.exit c) (s.exit initproc c p)
  | wait {c : C} {p : Fin n} (free : s.lock = none) (on : s.cpu c = some p)
      (task : s.task p = .none) : Moves initproc s (.wait c) ((s.acquire c).waitTurn c p)
  | trapKill {c : C} {p : Fin n} (on : s.cpu c = some p) (task : s.task p = .none) :
      Moves initproc s (.trapKill c)
        (.ok { s.modify p fun pr => { pr with killed := true } with
          hist := { s.hist with called := update s.hist.called p true } })
  | goOn {c : C} (held : s.lock = some c) : Moves initproc s (.goOn c) (s.goOn c)

omit [NeZero n] in
theorem Kernel.running_eq_some {s : Kernel C n} {c : C} {t : Fin n → Prop} [DecidablePred t]
    {p : Fin n} (h : s.running c t = some p) : s.cpu c = some p ∧ t p := by
  rw [Kernel.running] at h
  split at h
  · cases h
  · obtain ⟨hp, ht⟩ := filter_eq_some_iff.mp h
    exact ⟨hp, of_decide_eq_true ht⟩

/-- **Every event is one of the moves.** -/
theorem moves_of_act {initproc : Fin n} {s : Kernel C n} {e : Event C}
    {r : Except Panic (Kernel C n)} (h : s.act initproc e = some r) : Moves initproc s e r := by
  have hcall : ∀ {c : C} {f : Fin n → Except Panic (Kernel C n)},
      (if s.lock = none then (s.caller c).map f else none) = some r →
      ∃ p, s.lock = none ∧ s.cpu c = some p ∧ s.task p = .none ∧ f p = r := by
    intro c f h
    split at h
    · rename_i hl
      obtain ⟨p, hp, hr⟩ := map_eq_some_iff.mp h
      obtain ⟨hon, ht⟩ := Kernel.running_eq_some hp
      exact ⟨p, hl, hon, ht, hr⟩
    · cases h
  cases e with
  | reschedule c =>
    simp only [Kernel.act] at h
    split at h
    · cases h; exact .reschedule ‹_›
    · cases h
  | yield c =>
    obtain ⟨p, hl, hon, ht, rfl⟩ := hcall h
    exact .yield hl hon ht
  | sleep c a =>
    obtain ⟨p, hl, hon, ht, rfl⟩ := hcall h
    exact .sleep hl hon ht
  | wakeup a =>
    simp only [Kernel.act] at h
    split at h
    · cases h; exact .wakeup ‹_›
    · cases h
  | kill c pid =>
    obtain ⟨p, hl, hon, ht, rfl⟩ := hcall h
    exact .kill hl hon ht
  | allocproc c =>
    obtain ⟨p, hl, hon, ht, rfl⟩ := hcall h
    exact .allocproc hl hon ht
  | forkFail c =>
    obtain ⟨p, hp, h⟩ := bind_eq_some_iff.mp h
    have hon := (Kernel.running_eq_some hp).1
    split at h
    · rename_i np ht
      cases h; exact .forkFail hon ht
    · cases h
  | forkCopy c =>
    obtain ⟨p, hp, h⟩ := bind_eq_some_iff.mp h
    have hon := (Kernel.running_eq_some hp).1
    split at h
    · rename_i np ht
      cases h; exact .forkCopy hon ht
    · cases h
  | forkDone c =>
    simp only [Kernel.act] at h
    split at h
    · obtain ⟨p, hp, h⟩ := bind_eq_some_iff.mp h
      have hon := (Kernel.running_eq_some hp).1
      split at h
      · rename_i np ht
        cases h; exact .forkDone ‹_› hon ht
      · cases h
    · cases h
  | exit c =>
    obtain ⟨p, hl, hon, ht, rfl⟩ := hcall h
    exact .exit hl hon ht
  | wait c =>
    obtain ⟨p, hl, hon, ht, rfl⟩ := hcall h
    exact .wait hl hon ht
  | trapKill c =>
    obtain ⟨p, hp, rfl⟩ := map_eq_some_iff.mp h
    obtain ⟨hon, ht⟩ := Kernel.running_eq_some hp
    exact .trapKill hon ht
  | goOn c =>
    simp only [Kernel.act] at h
    split at h
    · cases h; exact .goOn ‹_›
    · cases h

theorem moves_of_step {initproc : Fin n} {s s' : Kernel C n} {e : Event C}
    (h : step initproc s e = some s') : Moves initproc s e (.ok s') := by
  rw [step] at h
  split at h
  · rename_i hact
    cases h
    exact moves_of_act hact
  · cases h

end Sched

end Xv6.Procs
