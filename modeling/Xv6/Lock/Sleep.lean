/-
# `Xv6.Lock.Sleep` — a sleep-lock and its waiters

`acquiresleep` and `releasesleep` on one lock, line by line, by any number of
processes.  Two spin locks are in play: that of the sleep-lock, `lk`, and
`ptable.lock`.  A process that finds the lock taken takes `ptable.lock` before it
gives up `lk`; a process that gives the lock back holds both while it looks for
sleepers.  So nobody is overlooked who has found the lock taken and does not sleep yet.

    enter        acquire(&lk->lk)                begin        acquire(&lk->lk)
    test         while (lk->locked)              clear        lk->locked = 0; lk->pid = 0
    take         lk->locked = 1; lk->pid = ...   wakeLock     wakeup: acquire(&ptable.lock)
    leave        release(&lk->lk)                scan i       wakeup1: ptable.proc[i]
    lockTable    sleep: acquire(&ptable.lock)    wakeUnlock   release(&ptable.lock)
    unlock       release(lk)                     leave        release(&lk->lk)
    setChan      p->chan = chan
    setState     p->state = SLEEPING             table k      elsewhere with ptable.lock
    sched        sched()                         away k       elsewhere in sched
    asleep       in sched
    woken        p->chan = 0
    unlockTable  release(&ptable.lock)
    relock       acquire(lk)

`sched` hands `ptable.lock` to the thread it switches to, a process or an idle loop.
A process that holds no spin lock may be interrupted, and may use `ptable.lock` for
other things: to give up its CPU, to sleep on another channel, to wake or kill
processes.  The idle loops of all CPUs count as one.
-/
import Xv6.Proc.Table

namespace Xv6.Sleeplock

open Option
open Function (update comp_update forall_update_iff update_eq_self update_of_ne update_self)
open Procs (ProcState)
open Trace

/-- Where a process holds no spin lock, so that it may be interrupted. -/
inductive Open
  | out
  | enter
  | relock
  | begin
  deriving DecidableEq

inductive Pc
  | out
  | enter | test | take | leave
  | lockTable | unlock | setChan | setState | sched | asleep | woken | unlockTable | relock
  | begin | clear | wakeLock | scan (i : Nat) | wakeUnlock
  | table (k : Open) | away (k : Open)
  deriving DecidableEq

inductive Spin
  | lk
  | ptable
  deriving DecidableEq

def Spin.other : Spin → Spin
  | lk => ptable
  | ptable => lk

def Open.pc : Open → Pc
  | out => .out
  | enter => .enter
  | relock => .relock
  | begin => .begin

namespace Pc

def has : Spin → Pc → Bool
  | .lk, test | .lk, take | .lk, leave | .lk, lockTable | .lk, unlock | .lk, clear | .lk, wakeLock
  | .lk, scan _ | .lk, wakeUnlock => true
  | .ptable, unlock | .ptable, setChan | .ptable, setState | .ptable, sched | .ptable, woken
  | .ptable, unlockTable | .ptable, scan _ | .ptable, wakeUnlock | .ptable, table _ => true
  | _, _ => false

/-- It may call `sched`. -/
def calls : Pc → Bool
  | sched | table _ => true
  | _ => false

/-- It holds `ptable.lock` for something else. -/
def elsewhere : Pc → Bool
  | table _ => true
  | _ => false

/-- It may have another state than `RUNNING`. -/
def rests : Pc → Bool
  | sched | asleep | table _ | away _ => true
  | _ => false

/-- It may be interrupted. -/
def open? : Pc → Option Open
  | out => some .out
  | enter => some .enter
  | relock => some .relock
  | begin => some .begin
  | _ => none

/-- Another thread runs on its CPU. -/
def park : Pc → Pc
  | sched => asleep
  | table k => away k
  | c => c

/-- It runs again, and returns from `sched`. -/
def resume : Pc → Pc
  | asleep => woken
  | away k => table k
  | c => c

/-- It has called `releasesleep`, and the lock is not free yet. -/
def releasing : Pc → Bool
  | begin | clear | table .begin | away .begin => true
  | _ => false

/-- It has found the lock taken, and does not sleep yet. -/
def dozing : Pc → Bool
  | lockTable | unlock | setChan | setState => true
  | _ => false

/-- It will come to the entry `q` of the table in `wakeup1`. -/
def wakes (q : Nat) : Pc → Bool
  | wakeLock => true
  | scan i => i ≤ q
  | _ => false

end Pc

/-- A wait channel: the sleep-lock, or another one. -/
inductive Chan
  | lock
  | other
  deriving DecidableEq

/-- Who holds a spin lock. -/
inductive Holder (n : Nat)
  | free
  | idle
  | proc (p : Fin n)
  deriving DecidableEq

/-- A process.  `held` is no part of the machine: it is set when the process takes the
sleep-lock and unset when it gives it back. -/
structure Proc where
  pc : Pc
  state : ProcState
  chan : Option Chan
  held : Bool

structure Sys (n : Nat) where
  lock : Spin → Holder n
  locked : Bool
  pid : Option (Fin n)
  proc : Fin n → Proc

inductive Event (n : Nat)
  /-- calls of `acquiresleep` and `releasesleep` -/
  | acquiresleep (p : Fin n)
  | releasesleep (p : Fin n)
  /-- the next line of `p` -/
  | line (p : Fin n)
  /-- `sched` of a process or of an idle loop, which switches to `next` -/
  | sched (t : Holder n) (next : Option (Fin n))
  /-- `ptable.lock` is taken for something else -/
  | lockTable (p : Fin n)
  | wake (p q : Fin n)
  | ready (p : Fin n)
  | doze (p : Fin n)
  | lockIdle
  | unlockIdle

variable {n : Nat}

namespace Sys

def set (s : Sys n) (p : Fin n) (x : Proc) : Sys n := { s with proc := update s.proc p x }

def goto (s : Sys n) (p : Fin n) (c : Pc) : Sys n := s.set p { s.proc p with pc := c }

/-- `acquire` of `p`, which goes on at `c`; it spins while the lock is held. -/
def acquire (s : Sys n) (l : Spin) (p : Fin n) (c : Pc) : Option (Sys n) :=
  if s.lock l = .free then some { s.goto p c with lock := update s.lock l (.proc p) } else none

/-- `release`; it panics if the lock is not held. -/
def release (s : Sys n) (l : Spin) (p : Fin n) (c : Pc) : Option (Sys n) :=
  if s.lock l = .proc p then some { s.goto p c with lock := update s.lock l .free } else none

/-- An entry of the table, in the loop of `wakeup1`. -/
def wakeup1 (s : Sys n) (q : Fin n) : Sys n :=
  if (s.proc q).state = .sleeping ∧ (s.proc q).chan = some .lock then
    s.set q { s.proc q with state := .runnable }
  else s

/-- The next line of `p`. -/
def line (s : Sys n) (p : Fin n) : Option (Sys n) :=
  match (s.proc p).pc with
  | .enter => s.acquire .lk p .test
  | .test => some (s.goto p (if s.locked then .lockTable else .take))
  | .take => some { s.set p { s.proc p with pc := .leave, held := true } with locked := true, pid := some p }
  | .leave => s.release .lk p .out
  | .lockTable => s.acquire .ptable p .unlock
  | .unlock => s.release .lk p .setChan
  | .setChan => some (s.set p { s.proc p with pc := .setState, chan := some .lock })
  | .setState => some (s.set p { s.proc p with pc := .sched, state := .sleeping })
  | .woken => some (s.set p { s.proc p with pc := .unlockTable, chan := none })
  | .unlockTable => s.release .ptable p .relock
  | .relock => s.acquire .lk p .test
  | .begin => s.acquire .lk p .clear
  | .clear =>
    some { s.set p { s.proc p with pc := .wakeLock, held := false } with locked := false, pid := none }
  | .wakeLock => s.acquire .ptable p (.scan 0)
  | .scan i => some (if h : i < n then (s.wakeup1 ⟨i, h⟩).goto p (.scan (i + 1)) else s.goto p .wakeUnlock)
  | .wakeUnlock => s.release .ptable p .leave
  | .table k => if (s.proc p).state = .running then s.release .ptable p k.pc else none
  | .out | .sched | .asleep | .away _ => none

/-- The thread that calls `sched` lets go of its CPU, with `ptable.lock` held. -/
def park (s : Sys n) : Holder n → Sys n
  | .proc p => { s.goto p (s.proc p).pc.park with lock := update s.lock .ptable .free }
  | _ => { s with lock := update s.lock .ptable .free }

/-- The thread that was chosen has the CPU, and `ptable.lock`. -/
def resume (s : Sys n) : Option (Fin n) → Sys n
  | some q => { s.set q { s.proc q with pc := (s.proc q).pc.resume, state := .running } with
      lock := update s.lock .ptable (.proc q) }
  | none => { s with lock := update s.lock .ptable .idle }

/-- `sched` may be called by this thread. -/
def mayCall (s : Sys n) : Holder n → Bool
  | .proc p => (s.proc p).pc.calls && decide ((s.proc p).state ≠ .running)
  | .idle => true
  | .free => false

/-- `roundrobin` may choose this process, or none. -/
def mayChoose (s : Sys n) : Option (Fin n) → Bool
  | some q => (s.proc q).state = .runnable
  | none => ∀ q, (s.proc q).state ≠ .runnable

end Sys

def step (s : Sys n) : Event n → Option (Sys n)
  | .acquiresleep p => if (s.proc p).pc = .out then some (s.goto p .enter) else none
  | .releasesleep p =>
    if (s.proc p).pc = .out ∧ (s.proc p).held = true then some (s.goto p .begin) else none
  | .line p => s.line p
  | .sched t next =>
    if s.lock .ptable = t ∧ s.mayCall t = true ∧ s.mayChoose next = true then
      some ((s.park t).resume next)
    else none
  | .lockTable p => (s.proc p).pc.open?.bind fun k => s.acquire .ptable p (.table k)
  | .wake p q =>
    if (s.proc p).pc.elsewhere = true ∧ (s.proc q).state = .sleeping then
      some (s.set q { s.proc q with state := .runnable })
    else none
  | .ready p =>
    if (s.proc p).pc.elsewhere then some (s.set p { s.proc p with state := .runnable }) else none
  | .doze p =>
    if (s.proc p).pc.elsewhere then
      some (s.set p { s.proc p with state := .sleeping, chan := some .other })
    else none
  | .lockIdle => if s.lock .ptable = .free then some { s with lock := update s.lock .ptable .idle } else none
  | .unlockIdle => if s.lock .ptable = .idle then some { s with lock := update s.lock .ptable .free } else none

/-! ## The spin locks -/

/-- The process that holds a lock is the one that is where it is held. -/
def Owns (o : Holder n) (f : Fin n → Bool) : Prop := ∀ p, o = .proc p ↔ f p = true

namespace Owns

variable {o : Holder n} {f : Fin n → Bool} {p q : Fin n}

theorem take (h : Owns .free f) (p : Fin n) : Owns (.proc p) (update f p true) := by
  intro q
  rcases eq_or_ne q p with rfl | hq
  · rw [update_self]
    exact ⟨fun _ => rfl, fun _ => rfl⟩
  · rw [update_of_ne hq, ← h q]
    exact ⟨fun e => absurd (Holder.proc.inj e).symm hq, nofun⟩

theorem drop (h : Owns (.proc p) f) : Owns .free (update f p false) := by
  intro q
  rcases eq_or_ne q p with rfl | hq
  · rw [update_self]
    exact ⟨nofun, nofun⟩
  · rw [update_of_ne hq, ← h q]
    exact ⟨nofun, fun e => absurd (Holder.proc.inj e).symm hq⟩

theorem keep (h : Owns o f) {b : Bool} (hb : b = f p) : Owns o (update f p b) := by
  rw [hb, update_eq_self]
  exact h

theorem unique (h : Owns o f) (hp : f p = true) (hq : f q = true) : p = q :=
  Holder.proc.inj (((h p).mpr hp).symm.trans ((h q).mpr hq))

end Owns

variable {s s' s₀ : Sys n} {p q : Fin n} {x : Proc} {c c₀ : Pc} {l : Spin}

/-- The process has found the lock taken: it sleeps, or is about to. -/
def Proc.Bound (x : Proc) : Prop := x.pc.dozing = true ∨ x.state = .sleeping ∧ x.chan = some .lock

/-- What holds of each process. -/
structure Fine (locked : Bool) (pid : Option (Fin n)) (p : Fin n) (x : Proc) : Prop where
  rests : x.state ≠ .running → x.pc.rests = true
  take : x.pc = .take → locked = false
  releasing : x.pc.releasing = true → x.held = true
  held : x.held = true → locked = true ∧ pid = some p

/-- What holds always.  A process is bound to sleep only as long as the lock is taken, or some
process comes to it in `wakeup1`. -/
structure Good (s : Sys n) : Prop where
  lock : ∀ l, Owns (s.lock l) fun p => (s.proc p).pc.has l
  fine : ∀ p, Fine s.locked s.pid p (s.proc p)
  bound : ∀ q, (s.proc q).Bound → s.locked = true ∨ ∃ r, (s.proc r).pc.wakes q = true

namespace Good

/-- A process that is not in `sched` or about to call it is `RUNNING`. -/
theorem running (h : Good s) (hp : (s.proc p).pc = c₀) (hc : c₀.rests = false) :
    (s.proc p).state = .running := by
  by_contra hs
  rw [← hp, (h.fine p).rests hs] at hc
  cases hc

/-- Two processes do not have the same spin lock. -/
theorem alone (h : Good s) (hp : (s.proc p).pc.has l = true) (hq : (s.proc q).pc.has l = true) :
    p = q :=
  (h.lock l).unique hp hq

/-- The process `p` changes. -/
theorem locks {o : Spin → Holder n}
    (ho : ∀ l, Owns (o l) (update (fun q => (s.proc q).pc.has l) p (x.pc.has l))) (l : Spin) :
    Owns (o l) fun q => (update s.proc p x q).pc.has l := by
  have hpc : (fun q => (update s.proc p x q).pc.has l) =
      update (fun q => (s.proc q).pc.has l) p (x.pc.has l) :=
    comp_update (fun x : Proc => x.pc.has l) s.proc p x
  rw [hpc]
  exact ho l

/-- **A step of `p` that leaves the sleep-lock as it is.** -/
theorem move (h : Good s) (hp : (s.proc p).pc = c₀) {o : Spin → Holder n}
    (ho : ∀ l, Owns (o l) (update (fun q => (s.proc q).pc.has l) p (x.pc.has l))) (hx : Fine s.locked s.pid p x)
    (hbound : x.Bound → (s.proc p).Bound)
    (hwakes : ∀ q, (update s.proc p x q).Bound → c₀.wakes q = true → x.pc.wakes q = true) :
    Good { s.set p x with lock := o } := by
  subst hp
  refine ⟨locks ho, (forall_update_iff s.proc (Fine s.locked s.pid)).mpr
    ⟨hx, fun q _ => h.fine q⟩, fun q hq => ?_⟩
  have hold : (s.proc q).Bound := by
    rcases eq_or_ne q p with rfl | hne
    · exact hbound (update_self q x s.proc ▸ hq)
    · exact update_of_ne hne x s.proc ▸ hq
  refine (h.bound q hold).imp_right fun ⟨r, hr⟩ => ⟨r, ?_⟩
  show (update s.proc p x r).pc.wakes q = true
  rcases eq_or_ne r p with rfl | hne
  · rw [update_self]
    exact hwakes q hq hr
  · rwa [update_of_ne hne]

/-- `p` keeps the spin locks it has. -/
theorem keep (h : Good s) (hp : (s.proc p).pc = c₀) (hc : ∀ l, c.has l = c₀.has l) (l : Spin) :
    Owns (s.lock l) (update (fun q => (s.proc q).pc.has l) p (c.has l)) :=
  (h.lock l).keep (by rw [hc, hp])

/-- The lock `l` has another holder. -/
theorem handle (h : Good s) (hp : (s.proc p).pc = c₀) {y : Holder n}
    (hy : Owns y (update (fun q => (s.proc q).pc.has l) p (c.has l)))
    (hother : c.has l.other = c₀.has l.other) (l' : Spin) :
    Owns (update s.lock l y l') (update (fun q => (s.proc q).pc.has l') p (c.has l')) := by
  rcases eq_or_ne l' l with rfl | hl
  · rwa [update_self]
  · have hl' : l' = l.other := by
      cases l <;> cases l' <;> first | rfl | exact absurd rfl hl
    rw [update_of_ne hl, hl']
    exact (h.lock l.other).keep (hother.trans (by rw [hp]))

end Good

/-- From `c` to `c'` nothing happens to the sleep-lock. -/
structure Passes (s : Sys n) (x : Proc) (c c' : Pc) : Prop where
  take : c' = .take → s.locked = false
  releasing : c'.releasing = true → x.held = true
  dozing : c'.dozing = true → c.dozing = true
  wakes : ∀ q : Fin n, c.wakes q = true → c'.wakes q = true

namespace Good

section

variable (h : Good s)
include h

theorem pass (hp : (s.proc p).pc = c₀) (hrun : (s.proc p).state = .running)
    (hc : Passes s (s.proc p) c₀ c) {o : Spin → Holder n}
    (ho : ∀ l, Owns (o l) (update (fun q => (s.proc q).pc.has l) p (c.has l))) :
    Good { s.goto p c with lock := o } :=
  h.move hp ho ⟨fun hs => absurd hrun hs, hc.take, hc.releasing, (h.fine p).held⟩
    (fun hb => hb.imp_left fun hd => hp ▸ hc.dozing hd) fun q _ => hc.wakes q

theorem acquire (hp : (s.proc p).pc = c₀) (hs : s.acquire l p c = some s')
    (hrun : (s.proc p).state = .running) (hc : Passes s (s.proc p) c₀ c) (hhas : c.has l = true)
    (hother : c.has l.other = c₀.has l.other) : Good s' := by
  obtain ⟨hfree, ⟨⟩⟩ := ite_none_right_eq_some.mp hs
  refine h.pass hp hrun hc (h.handle hp ?_ hother)
  rw [hhas]
  exact (hfree ▸ h.lock l).take p

theorem release (hp : (s.proc p).pc = c₀) (hs : s.release l p c = some s')
    (hrun : (s.proc p).state = .running) (hc : Passes s (s.proc p) c₀ c) (hhas : c.has l = false)
    (hother : c.has l.other = c₀.has l.other) : Good s' := by
  obtain ⟨hheld, ⟨⟩⟩ := ite_none_right_eq_some.mp hs
  refine h.pass hp hrun hc (h.handle hp ?_ hother)
  rw [hhas]
  exact (hheld ▸ h.lock l).drop

/-! ## The lines -/

/-- `while (lk->locked)`. -/
theorem tested (hp : (s.proc p).pc = .test) :
    Good (s.goto p (if s.locked then .lockTable else .take)) := by
  have hrun := h.running hp rfl
  cases hl : s.locked with
  | true =>
    have hx : Fine s.locked s.pid p { s.proc p with pc := .lockTable } :=
      ⟨fun hs => absurd hrun hs, nofun, nofun, (h.fine p).held⟩
    exact ⟨locks (h.keep hp fun l => by cases l <;> rfl),
      (forall_update_iff s.proc (Fine s.locked s.pid)).mpr ⟨hx, fun q _ => h.fine q⟩,
      fun _ _ => .inl hl⟩
  | false =>
    exact h.pass (c := .take) hp hrun ⟨fun _ => hl, nofun, nofun, nofun⟩
      (h.keep hp fun l => by cases l <;> rfl)

theorem taken (hp : (s.proc p).pc = .take) :
    Good { s.set p { s.proc p with pc := .leave, held := true } with locked := true, pid := some p } := by
  have hheld : ∀ q, (s.proc q).held ≠ true := by
    intro q hq
    have hl := ((h.fine q).held hq).1
    rw [(h.fine p).take hp] at hl
    cases hl
  refine ⟨locks (h.keep hp fun l => by cases l <;> rfl), ?_, fun _ _ => .inl rfl⟩
  refine (forall_update_iff s.proc (Fine _ _)).mpr
    ⟨⟨fun hs => absurd (h.running hp rfl) hs, nofun, fun _ => rfl, fun _ => ⟨rfl, rfl⟩⟩, fun q hne => ?_⟩
  refine ⟨(h.fine q).rests, fun hq => absurd ?_ hne, (h.fine q).releasing, fun hq => absurd hq (hheld q)⟩
  exact h.alone (l := .lk) (by rw [hq]; rfl) (by rw [hp]; rfl)

/-- The lock is given back, and the process will wake everybody who waits. -/
theorem cleared (hp : (s.proc p).pc = .clear) :
    Good { s.set p { s.proc p with pc := .wakeLock, held := false } with
      locked := false, pid := none } := by
  have hpid := ((h.fine p).held ((h.fine p).releasing (by rw [hp]; rfl))).2
  refine ⟨locks (h.keep hp fun l => by cases l <;> rfl), ?_, fun q _ => .inr ⟨p, ?_⟩⟩
  · refine (forall_update_iff s.proc (Fine _ _)).mpr
      ⟨⟨fun hs => absurd (h.running hp rfl) hs, nofun, nofun, nofun⟩, fun q hne => ?_⟩
    refine ⟨(h.fine q).rests, fun _ => rfl, (h.fine q).releasing, fun hq => absurd ?_ hne⟩
    exact Option.some.inj (((h.fine q).held hq).2.symm.trans hpid)
  · show (update s.proc p _ p).pc.wakes q = true
    rw [update_self]
    rfl

theorem wake (hq : (s.proc q).state = .sleeping) :
    Good (s.set q { s.proc q with state := .runnable }) :=
  h.move rfl (h.keep rfl fun _ => rfl)
    ⟨fun _ => (h.fine q).rests (by rw [hq]; nofun), (h.fine q).take, (h.fine q).releasing, (h.fine q).held⟩
    (fun hb => .inl (hb.resolve_right nofun)) fun _ _ => id

end

end Good

theorem pc_wakeup1 (s : Sys n) (p q : Fin n) : ((s.wakeup1 q).proc p).pc = (s.proc p).pc := by
  unfold Sys.wakeup1
  split
  · show (update s.proc q _ p).pc = _
    rcases eq_or_ne p q with rfl | hne
    · rw [update_self]
    · rw [update_of_ne hne]
  · rfl

theorem awake_wakeup1 (s : Sys n) (q : Fin n) :
    ¬ (((s.wakeup1 q).proc q).state = .sleeping ∧ ((s.wakeup1 q).proc q).chan = some .lock) := by
  unfold Sys.wakeup1
  split
  · show ¬ ((update s.proc q _ q).state = .sleeping ∧ _)
    rw [update_self]
    nofun
  · assumption

theorem state_park (s : Sys n) (t : Holder n) (q : Fin n) :
    ((s.park t).proc q).state = (s.proc q).state := by
  cases t with
  | proc p =>
    show (update s.proc p _ q).state = _
    rcases eq_or_ne q p with rfl | hne
    · rw [update_self]
    · rw [update_of_ne hne]
  | _ => rfl

theorem has_of_dozing (h : c.dozing = true) : ∃ l, c.has l = true := by
  cases c <;> first | exact ⟨.lk, rfl⟩ | exact ⟨.ptable, rfl⟩ | cases h

theorem has_of_wakes {i : Nat} (h : c.wakes i = true) : c.has .lk = true := by
  cases c <;> first | rfl | cases h

theorem rests_of_elsewhere (h : c.elsewhere = true) : c.rests = true := by
  cases c <;> first | rfl | cases h

namespace Good

/-- The loop of `wakeup1` goes on to the next entry: nobody else has a spin lock, so nobody it has
passed by is about to sleep. -/
theorem scanned (h : Good s) {i : Nat} (hp : (s.proc p).pc = .scan i) (hi : i < n) :
    Good ((s.wakeup1 ⟨i, hi⟩).goto p (.scan (i + 1))) := by
  have hgood : Good (s.wakeup1 ⟨i, hi⟩) := by
    unfold Sys.wakeup1
    split
    · exact h.wake (And.left ‹_›)
    · exact h
  have hp' := (pc_wakeup1 s p ⟨i, hi⟩).trans hp
  have hf := hgood.fine p
  refine hgood.move hp' (hgood.keep hp' fun l => by cases l <;> rfl)
    ⟨fun hs => absurd (hgood.running hp' rfl) hs, nofun, nofun, hf.held⟩
    (fun hb => .inr (hb.resolve_left nofun)) fun q hq hw => ?_
  refine decide_eq_true (Nat.lt_of_le_of_ne (of_decide_eq_true hw) fun he => ?_)
  obtain rfl : q = ⟨i, hi⟩ := Fin.ext he.symm
  rcases eq_or_ne ⟨i, hi⟩ p with rfl | hne
  · rw [update_self] at hq
    exact awake_wakeup1 s _ (hq.resolve_left nofun)
  · rw [update_of_ne hne] at hq
    rcases hq with hd | hs
    · obtain ⟨l, hl⟩ := has_of_dozing hd
      exact hne (hgood.alone hl (by rw [hp']; cases l <;> rfl))
    · exact awake_wakeup1 s _ hs

theorem line (h : Good s) (hs : s.line p = some s') : Good s' := by
  revert hs
  unfold Sys.line
  cases hp : (s.proc p).pc with
  | enter | relock =>
    exact fun hs => h.acquire hp hs (h.running hp rfl) ⟨nofun, nofun, nofun, nofun⟩ rfl rfl
  | test =>
    rintro ⟨⟩
    exact h.tested hp
  | take =>
    rintro ⟨⟩
    exact h.taken hp
  | leave | unlockTable | wakeUnlock =>
    exact fun hs => h.release hp hs (h.running hp rfl) ⟨nofun, nofun, nofun, nofun⟩ rfl rfl
  | lockTable =>
    exact fun hs => h.acquire hp hs (h.running hp rfl) ⟨nofun, nofun, fun _ => rfl, nofun⟩ rfl rfl
  | unlock =>
    exact fun hs => h.release hp hs (h.running hp rfl) ⟨nofun, nofun, fun _ => rfl, nofun⟩ rfl rfl
  | setChan =>
    rintro ⟨⟩
    exact h.move hp (h.keep hp fun l => by cases l <;> rfl)
      ⟨fun hs => absurd (h.running hp rfl) hs, nofun, nofun, (h.fine p).held⟩
      (fun _ => .inl (hp ▸ rfl)) fun _ _ => nofun
  | setState =>
    rintro ⟨⟩
    exact h.move hp (h.keep hp fun l => by cases l <;> rfl) ⟨fun _ => rfl, nofun, nofun, (h.fine p).held⟩
      (fun _ => .inl (hp ▸ rfl)) fun _ _ => nofun
  | woken =>
    rintro ⟨⟩
    exact h.move hp (h.keep hp fun l => by cases l <;> rfl)
      ⟨fun hs => absurd (h.running hp rfl) hs, nofun, nofun, (h.fine p).held⟩ nofun fun _ _ => nofun
  | begin =>
    have hheld := (h.fine p).releasing (by rw [hp]; rfl)
    exact fun hs => h.acquire hp hs (h.running hp rfl) ⟨nofun, fun _ => hheld, nofun, nofun⟩ rfl rfl
  | clear =>
    rintro ⟨⟩
    exact h.cleared hp
  | wakeLock =>
    exact fun hs => h.acquire hp hs (h.running hp rfl)
      ⟨nofun, nofun, nofun, fun q _ => decide_eq_true q.val.zero_le⟩ rfl rfl
  | scan i =>
    rintro ⟨⟩
    split
    · exact h.scanned hp ‹_›
    · refine h.pass (c := .wakeUnlock) hp (h.running hp rfl) ⟨nofun, nofun, nofun, fun q hq => ?_⟩
        (h.keep hp fun l => by cases l <;> rfl)
      exact absurd (Nat.lt_of_le_of_lt (of_decide_eq_true hq) q.isLt) ‹_›
  | table k =>
    intro hs
    obtain ⟨hrun, hs⟩ := ite_none_right_eq_some.mp hs
    have hrel := (h.fine p).releasing
    rw [hp] at hrel
    cases k <;> exact h.release hp hs hrun ⟨nofun, hrel, nofun, nofun⟩ rfl rfl
  | out | sched | asleep | away k => nofun

/-! ## The table -/

/-- `ptable.lock` passes between the idle loops and nobody. -/
theorem idle (h : Good s) (hfrom : ∀ p, s.lock .ptable ≠ .proc p) {y : Holder n}
    (hto : ∀ p, y ≠ .proc p) : Good { s with lock := update s.lock .ptable y } := by
  refine ⟨fun l => ?_, h.fine, h.bound⟩
  cases l with
  | lk => exact h.lock .lk
  | ptable =>
    exact fun p => ⟨fun e => absurd e (hto p), fun hp => absurd ((h.lock .ptable p).mpr hp) (hfrom p)⟩

theorem park (h : Good s) {t : Holder n} (ht : s.lock .ptable = t) (hcall : s.mayCall t = true) :
    Good (s.park t) := by
  cases t with
  | free => cases hcall
  | idle => exact h.idle (fun p => by rw [ht]; nofun) nofun
  | proc p =>
    have hy : Owns .free (update (fun q => (s.proc q).pc.has .ptable) p false) :=
      (ht ▸ h.lock .ptable).drop
    obtain ⟨hc, -⟩ := Bool.and_eq_true_iff.mp hcall
    have hf := h.fine p
    show Good { s.goto p (s.proc p).pc.park with lock := update s.lock .ptable .free }
    cases hp : (s.proc p).pc with
    | sched =>
      exact h.move hp (h.handle hp hy rfl) ⟨fun _ => rfl, nofun, nofun, hf.held⟩
        (fun hb => .inr (hb.resolve_left nofun)) fun _ _ => nofun
    | table k =>
      have hrel := hf.releasing
      rw [hp] at hrel
      exact h.move hp (h.handle hp hy rfl)
        ⟨fun _ => rfl, nofun, by cases k <;> exact hrel, hf.held⟩
        (fun hb => .inr (hb.resolve_left nofun)) fun _ _ => nofun
    | _ =>
      rw [hp] at hc
      cases hc

theorem resume (h : Good s) (hfree : s.lock .ptable = .free) {next : Option (Fin n)}
    (hnext : s.mayChoose next = true) : Good (s.resume next) := by
  cases next with
  | none => exact h.idle (fun p => by rw [hfree]; nofun) nofun
  | some q =>
    have hq : (s.proc q).state = .runnable := of_decide_eq_true hnext
    have hf := h.fine q
    have hrests := hf.rests (by rw [hq]; nofun)
    have hno : (s.proc q).pc.has .ptable = true → Holder.free = .proc q :=
      hfree ▸ (h.lock .ptable q).mpr
    have hy : Owns (.proc q) (update (fun p => (s.proc p).pc.has .ptable) q true) :=
      (hfree ▸ h.lock .ptable).take q
    show Good { s.set q { s.proc q with pc := (s.proc q).pc.resume, state := .running } with
      lock := update s.lock .ptable (.proc q) }
    cases hp : (s.proc q).pc with
    | asleep =>
      exact h.move hp (h.handle hp hy rfl) ⟨nofun, nofun, nofun, hf.held⟩ nofun fun _ _ => nofun
    | away k =>
      have hrel := hf.releasing
      rw [hp] at hrel
      exact h.move hp (h.handle hp hy rfl)
        ⟨fun _ => rfl, nofun, by cases k <;> exact hrel, hf.held⟩ nofun fun _ _ => nofun
    | sched | table k =>
      rw [hp] at hno
      cases hno rfl
    | _ =>
      rw [hp] at hrests
      cases hrests

/-- **Every step keeps what holds.** -/
theorem step {e : Event n} (h : Good s) (hs : step s e = some s') : Good s' := by
  cases e with
  | acquiresleep p =>
    obtain ⟨hp, ⟨⟩⟩ := ite_none_right_eq_some.mp hs
    exact h.pass (c := .enter) hp (h.running hp rfl) ⟨nofun, nofun, nofun, nofun⟩
      (h.keep hp fun l => by cases l <;> rfl)
  | releasesleep p =>
    obtain ⟨⟨hp, hheld⟩, ⟨⟩⟩ := ite_none_right_eq_some.mp hs
    exact h.pass (c := .begin) hp (h.running hp rfl) ⟨nofun, fun _ => hheld, nofun, nofun⟩
      (h.keep hp fun l => by cases l <;> rfl)
  | line p => exact h.line hs
  | sched t next =>
    obtain ⟨⟨ht, hcall, hnext⟩, ⟨⟩⟩ := ite_none_right_eq_some.mp hs
    refine (h.park ht hcall).resume (by cases t <;> rfl) ?_
    unfold Sys.mayChoose
    simp only [state_park]
    exact hnext
  | lockTable p =>
    obtain ⟨k, hk, hs⟩ := bind_eq_some_iff.mp hs
    have hrel := (h.fine p).releasing
    cases hp : (s.proc p).pc with
    | out | enter | relock | begin =>
      rw [hp] at hk hrel
      cases hk
      exact h.acquire hp hs (h.running hp rfl) ⟨nofun, hrel, nofun, nofun⟩ rfl rfl
    | _ =>
      rw [hp] at hk
      cases hk
  | wake p q =>
    obtain ⟨⟨-, hq⟩, ⟨⟩⟩ := ite_none_right_eq_some.mp hs
    exact h.wake hq
  | ready p =>
    obtain ⟨hp, ⟨⟩⟩ := ite_none_right_eq_some.mp hs
    have hf := h.fine p
    exact h.move rfl (h.keep rfl fun _ => rfl)
      ⟨fun _ => rests_of_elsewhere hp, hf.take, hf.releasing, hf.held⟩
      (fun hb => .inl (hb.resolve_right nofun)) fun _ _ => id
  | doze p =>
    obtain ⟨hp, ⟨⟩⟩ := ite_none_right_eq_some.mp hs
    have hf := h.fine p
    exact h.move rfl (h.keep rfl fun _ => rfl)
      ⟨fun _ => rests_of_elsewhere hp, hf.take, hf.releasing, hf.held⟩
      (fun hb => .inl (hb.resolve_right nofun)) fun _ _ => id
  | lockIdle =>
    obtain ⟨hfree, ⟨⟩⟩ := ite_none_right_eq_some.mp hs
    exact h.idle (fun p => by rw [hfree]; nofun) nofun
  | unlockIdle =>
    obtain ⟨hidle, ⟨⟩⟩ := ite_none_right_eq_some.mp hs
    exact h.idle (fun p => by rw [hidle]; nofun) nofun

end Good

/-- The lock is free, and nobody is in its code: a process runs, or is in `sched`. -/
structure Start (s : Sys n) : Prop where
  lock : ∀ l, s.lock l = .free
  locked : s.locked = false
  proc : ∀ p, (s.proc p).pc = .out ∧ (s.proc p).state = .running ∨ (s.proc p).pc = .away .out
  free : ∀ p, (s.proc p).held = false ∧ (s.proc p).chan ≠ some .lock

theorem Start.good (h : Start s) : Good s := by
  have hpc : ∀ {P : Pc → Prop} (p : Fin n), P .out → P (.away .out) → P (s.proc p).pc := by
    intro P p ho ha
    rcases h.proc p with ⟨e, -⟩ | e <;> rwa [e]
  refine ⟨fun l p => ?_, fun p => ⟨fun hs => ?_, ?_, ?_, fun hh => ?_⟩, fun q hq => ?_⟩
  · rw [h.lock]
    exact ⟨nofun, hpc (P := fun c => c.has l = true → _) p (by cases l <;> nofun) (by cases l <;> nofun)⟩
  · rcases h.proc p with ⟨-, hr⟩ | e
    · exact absurd hr hs
    · rw [e]
      rfl
  · exact hpc (P := fun c => c = .take → _) p nofun nofun
  · exact hpc (P := fun c => c.releasing = true → _) p nofun nofun
  · rw [(h.free p).1] at hh
    cases hh
  · rcases hq with hd | hs
    · exact absurd hd (hpc (P := fun c => ¬ c.dozing = true) q nofun nofun)
    · exact absurd hs.2 (h.free q).2

/-- **Sleep-locks exclude and wake.**  At most one process has the lock; and if it is free, and
neither spin lock is held, then nobody sleeps on it. -/
theorem sleeplock_excludes {es : List (Event n)} (hstart : Start s₀) (hrun : Run step s₀ es s) :
    (∀ p q, (s.proc p).held = true → (s.proc q).held = true → p = q) ∧
    ((∀ l, s.lock l = .free) → s.locked = false →
      ∀ q, ¬ ((s.proc q).state = .sleeping ∧ (s.proc q).chan = some .lock)) := by
  have h : Good s := hrun.invariant (I := fun _ => Good) hstart.good fun _ _ _ _ h hs => h.step hs
  refine ⟨fun p q hp hq => ?_, fun hfree hlocked q hq => ?_⟩
  · exact Option.some.inj (((h.fine p).held hp).2.symm.trans ((h.fine q).held hq).2)
  · rcases h.bound q (.inr hq) with hl | ⟨r, hr⟩
    · rw [hlocked] at hl
      cases hl
    · have hheld := (h.lock .lk r).mpr (has_of_wakes hr)
      rw [hfree] at hheld
      cases hheld

/-- Two processes that run, outside the lock's code. -/
def twoProcs : Sys 2 where
  lock _ := .free
  locked := false
  pid := none
  proc _ := ⟨.out, .running, none, false⟩

theorem start_twoProcs : Start twoProcs :=
  ⟨fun _ => rfl, rfl, fun _ => .inl ⟨rfl, rfl⟩, fun _ => ⟨rfl, nofun⟩⟩

/-- Process 0 takes the lock, process 1 waits for it, and process 0 gives it back. -/
def handOver : List (Event 2) :=
  .acquiresleep 0 :: List.replicate 4 (.line 0) ++
    .acquiresleep 1 :: List.replicate 6 (.line 1) ++ [.sched (.proc 1) none, .unlockIdle] ++
    .releasesleep 0 :: List.replicate 8 (.line 0)

theorem sleeplock_excludes_handOver : ∃ s, Run step twoProcs handOver s ∧ s.locked = false ∧
    (∀ p q, (s.proc p).held = true → (s.proc q).held = true → p = q) ∧
    ¬ ((s.proc 1).state = .sleeping ∧ (s.proc 1).chan = some .lock) := by
  have hexec : ∃ s, Run step twoProcs handOver s ∧
      s.lock .lk = .free ∧ s.lock .ptable = .free ∧ s.locked = false := exists_of_exec (by decide)
  obtain ⟨s, hrun, hlk, hpt, hlocked⟩ := hexec
  obtain ⟨hone, hnobody⟩ := sleeplock_excludes start_twoProcs hrun
  have hfree : ∀ l, s.lock l = .free := by
    intro l
    cases l with
    | lk => exact hlk
    | ptable => exact hpt
  exact ⟨s, hrun, hlocked, hone, hnobody hfree hlocked 1⟩

end Xv6.Sleeplock
