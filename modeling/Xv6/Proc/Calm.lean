/-
# `Xv6.Proc.Calm` — what the sections of `proc.c` leave alone

Most events only put processes to sleep, wake them or let them run; `Calm` lists
what such an event keeps.  Each function that calls `sched` is described once, by
the change it makes itself and a calm rest.
-/
import Xv6.Proc.Table

namespace Xv6.Procs

open List
open Function (update update_idem update_of_ne update_self)

variable {C : Type} {n : Nat} {chan : Option (Chan n)}

/-- A process that has been made and has not exited. -/
def ProcState.Alive (st : ProcState) : Prop := st = .sleeping ∨ st = .runnable ∨ st = .running

instance (st : ProcState) : Decidable st.Alive := inferInstanceAs (Decidable (_ ∨ _ ∨ _))

namespace ProcState.Alive

variable {st : ProcState}

theorem ne {st' : ProcState} (h : st.Alive) (h' : ¬ st'.Alive) : st ≠ st' := fun he => h' (he ▸ h)

theorem ne_unused (h : st.Alive) : st ≠ .unused := h.ne (by decide)

theorem ne_zombie (h : st.Alive) : st ≠ .zombie := h.ne (by decide)

theorem ne_embryo (h : st.Alive) : st ≠ .embryo := h.ne (by decide)

end ProcState.Alive

theorem ProcState.made {st : ProcState} (h : st.Alive ∨ st = .zombie) :
    st ≠ .unused ∧ st ≠ .embryo := by
  rcases h with h | rfl
  · exact ⟨h.ne_unused, h.ne_embryo⟩
  · exact ⟨nofun, nofun⟩

variable {f : Proc n → Proc n}

namespace Kernel

variable {s : Kernel C n} {p q : Fin n}

theorem modify_self : (s.modify p f).proc p = f (s.proc p) :=
  update_self ..

theorem modify_of_ne (h : q ≠ p) : (s.modify p f).proc q = s.proc q :=
  update_of_ne h ..

theorem modify_field {β : Type} (v : Proc n → β) (hf : v (f (s.proc p)) = v (s.proc p))
    (q : Fin n) : v ((s.modify p f).proc q) = v (s.proc q) := by
  by_cases hq : q = p
  · subst hq
    rw [modify_self, hf]
  · rw [modify_of_ne hq]

theorem modify_running (hf : (f (s.proc p)).state = .running ↔ (s.proc p).state = .running)
    (q : Fin n) : ((s.modify p f).proc q).state = .running ↔ (s.proc q).state = .running := by
  by_cases hq : q = p
  · subst hq
    rw [modify_self]
    exact hf
  · rw [modify_of_ne hq]

theorem setState_self {st : ProcState} : ((s.setState p st).proc p).state = st := by
  rw [setState, modify_self]

theorem setState_of_ne {st : ProcState} (h : q ≠ p) : (s.setState p st).proc q = s.proc q :=
  modify_of_ne h

theorem setState_running {st : ProcState} (hst : st ≠ .running) (hp : (s.proc p).state ≠ .running)
    (q : Fin n) : ((s.setState p st).proc q).state = .running ↔ (s.proc q).state = .running :=
  modify_running (iff_of_false hst hp) q

theorem setTask_self {t : Task n} : (s.setTask p t).task p = t := update_self ..

/-- The task of `p` is done, and the others are as before. -/
theorem task_of_setTask {t : Task n} (ht : (s.setTask p .none).task q = t) (htm : t ≠ .none) :
    q ≠ p ∧ s.task q = t := by
  rcases eq_or_ne q p with rfl | hq
  · exact absurd (ht.symm.trans (update_self ..)) htm
  · exact ⟨hq, (update_of_ne hq ..).symm.trans ht⟩

theorem wakeup1_running :
    ((s.wakeup1 chan).proc p).state = .running ↔ (s.proc p).state = .running := by
  simp only [wakeup1, Proc.wakeup1]
  split
  · rename_i h
    simp [h.1]
  · exact Iff.rfl

end Kernel

/-! ## What changes among the processes that are alive -/

/-- Each state is kept, or the process was and is alive. -/
def Stays (s s' : Kernel C n) : Prop :=
  ∀ p, (s'.proc p).state = (s.proc p).state ∨
    (s.proc p).state.Alive ∧ (s'.proc p).state.Alive

namespace Stays

variable {s s' s'' : Kernel C n} {p : Fin n}

theorem refl (s : Kernel C n) : Stays s s := fun _ => .inl rfl

section

variable (h : Stays s s')
include h

theorem trans (h' : Stays s' s'') : Stays s s'' := by
  intro p
  rcases h p with h | ⟨h₁, h₂⟩ <;> rcases h' p with h' | ⟨h₁', h₂'⟩
  · exact .inl (h'.trans h)
  · exact .inr ⟨h ▸ h₁', h₂'⟩
  · exact .inr ⟨h₁, h' ▸ h₂⟩
  · exact .inr ⟨h₁, h₂'⟩

theorem alive (hp : (s'.proc p).state.Alive) : (s.proc p).state.Alive := by
  rcases h p with h | ⟨h, -⟩
  · exact h ▸ hp
  · exact h

theorem symm : Stays s' s := fun p => (h p).imp Eq.symm And.symm

/-- A state in which no process is alive comes and goes with the process. -/
theorem state {st : ProcState} (hst : ¬ st.Alive) (hp : (s'.proc p).state = st) :
    (s.proc p).state = st := by
  rcases h p with heq | ⟨-, halive⟩
  · exact heq.symm.trans hp
  · exact absurd hp (halive.ne hst)

theorem zombie (hp : (s'.proc p).state = .zombie) : (s.proc p).state = .zombie :=
  h.state (by decide) hp

theorem unused (hp : (s'.proc p).state = .unused) : (s.proc p).state = .unused :=
  h.state (by decide) hp

end

theorem modify (hf : (f (s.proc p)).state = (s.proc p).state ∨
      (s.proc p).state.Alive ∧ (f (s.proc p)).state.Alive) : Stays s (s.modify p f) := by
  intro q
  by_cases hq : q = p
  · subst hq
    rw [Kernel.modify_self]
    exact hf
  · rw [Kernel.modify_of_ne hq]
    exact .inl rfl

theorem wakeup1 : Stays s (s.wakeup1 chan) := by
  intro p
  simp only [Kernel.wakeup1, Proc.wakeup1]
  split
  · rename_i h
    exact .inr ⟨.inl h.1, .inr (.inl rfl)⟩
  · exact .inl rfl

end Stays

/-! ## What most events leave alone -/

/-- `p` is asleep in `wait`. -/
def Kernel.Waits (s : Kernel C n) (p : Fin n) : Prop :=
  (s.proc p).state = .sleeping ∧ (s.proc p).chan = some (.proc p)

/-- Processes are put to sleep, wake up, and run, but none comes or goes, nor goes to
sleep in `wait`. -/
structure Calm (s s' : Kernel C n) : Prop where
  stays : Stays s s'
  waits : ∀ p, s'.Waits p → s.Waits p
  pid : ∀ p, (s'.proc p).pid = (s.proc p).pid
  parent : ∀ p, (s'.proc p).parent = (s.proc p).parent
  killed : ∀ p, (s'.proc p).killed = (s.proc p).killed
  task : s'.task = s.task
  hist : s'.hist = s.hist
  nextpid : s'.nextpid = s.nextpid

namespace Calm

variable {s s' s'' : Kernel C n} {p : Fin n}

theorem trans (h : Calm s s') (h' : Calm s' s'') : Calm s s'' where
  stays := h.stays.trans h'.stays
  waits p hp := h.waits p (h'.waits p hp)
  pid p := (h'.pid p).trans (h.pid p)
  parent p := (h'.parent p).trans (h.parent p)
  killed p := (h'.killed p).trans (h.killed p)
  task := h'.task.trans h.task
  hist := h'.hist.trans h.hist
  nextpid := h'.nextpid.trans h.nextpid

/-- The lock, the contexts and the CPUs are of no concern. -/
theorem of_eq (hproc : s'.proc = s.proc) (htask : s'.task = s.task) (hhist : s'.hist = s.hist)
    (hpid : s'.nextpid = s.nextpid) : Calm s s' where
  stays p := .inl (by rw [hproc])
  waits p hp := by rwa [Kernel.Waits, hproc] at hp
  pid p := by rw [hproc]
  parent p := by rw [hproc]
  killed p := by rw [hproc]
  task := htask
  hist := hhist
  nextpid := hpid

theorem acquire (c : C) : Calm s (s.acquire c) := of_eq rfl rfl rfl rfl

theorem release : Calm s s.release := of_eq rfl rfl rfl rfl

theorem park (p : Fin n) (r : Resume) : Calm s (s.park p r) := of_eq rfl rfl rfl rfl

theorem modify (hst : (f (s.proc p)).state = (s.proc p).state ∨
      (s.proc p).state.Alive ∧ (f (s.proc p)).state.Alive)
    (hw : (f (s.proc p)).state = .sleeping → (f (s.proc p)).chan = some (.proc p) → s.Waits p)
    (hpid : (f (s.proc p)).pid = (s.proc p).pid)
    (hparent : (f (s.proc p)).parent = (s.proc p).parent)
    (hkilled : (f (s.proc p)).killed = (s.proc p).killed) : Calm s (s.modify p f) where
  stays := .modify hst
  waits q hq := by
    by_cases hqp : q = p
    · subst hqp
      rw [Kernel.Waits, Kernel.modify_self] at hq
      exact hw hq.1 hq.2
    · rwa [Kernel.Waits, Kernel.modify_of_ne hqp] at hq
  pid := Kernel.modify_field Proc.pid hpid
  parent := Kernel.modify_field Proc.parent hparent
  killed := Kernel.modify_field Proc.killed hkilled
  task := rfl
  hist := rfl
  nextpid := rfl

theorem setState {st : ProcState} (hp : (s.proc p).state.Alive)
    (hst : st = .runnable ∨ st = .running) : Calm s (s.setState p st) :=
  modify (.inr ⟨hp, .inr hst⟩) (fun h _ => by rcases hst with rfl | rfl <;> cases h) rfl rfl rfl

theorem wakeup1 : Calm s (s.wakeup1 chan) := by
  have hfield : ∀ {β : Type} (v : Proc n → β), (∀ pr : Proc n, v { pr with state := .runnable } = v pr) →
      ∀ p, v ((s.wakeup1 chan).proc p) = v (s.proc p) := by
    intro β v hv p
    simp only [Kernel.wakeup1, Proc.wakeup1]
    split
    · exact hv _
    · rfl
  refine ⟨.wakeup1, fun p hp => ?_, hfield Proc.pid fun _ => rfl, hfield Proc.parent fun _ => rfl,
    hfield Proc.killed fun _ => rfl, rfl, rfl, rfl⟩
  obtain ⟨hs, hc⟩ := hp
  rw [hfield Proc.chan fun _ => rfl] at hc
  refine ⟨?_, hc⟩
  simp only [Kernel.wakeup1, Proc.wakeup1] at hs
  split at hs
  · cases hs
  · exact hs

end Calm

/-! ## `kill` -/

/-- What `kill` does to its target. -/
def Proc.kill (pr : Proc n) : Proc n :=
  { pr with killed := true, state := if pr.state = .sleeping then .runnable else pr.state }

theorem Proc.kill_running (pr : Proc n) : pr.kill.state = .running ↔ pr.state = .running := by
  rw [Proc.kill]
  split
  · rename_i h
    rw [h]
    exact ⟨nofun, nofun⟩
  · exact Iff.rfl

namespace Kernel

/-- **What `kill` does**: the first process with that pid, if there is one. -/
theorem kill_cases (s : Kernel C n) (pid : BitVec 32) :
    ((s.killTarget pid = none ∧ (s.kill pid).1 = -1 ∧ (s.kill pid).2.proc = s.proc) ∨
      ∃ p, s.killTarget pid = some p ∧ (s.kill pid).1 = 0 ∧
        (s.kill pid).2.proc = (s.modify p Proc.kill).proc) ∧
    (s.kill pid).2.cpu = s.cpu ∧ (s.kill pid).2.task = s.task ∧
    (s.kill pid).2.hist =
      { s.hist with called := fun q => s.hist.called q || (s.proc q).pid = pid } := by
  have htarget : Kernel.killTarget { s with hist := { s.hist with
      called := fun q => s.hist.called q || (s.proc q).pid = pid } } pid = s.killTarget pid := rfl
  simp only [kill, htarget]
  cases s.killTarget pid with
  | none => exact ⟨.inl ⟨rfl, rfl, rfl⟩, rfl, rfl, rfl⟩
  | some p => exact ⟨.inr ⟨p, rfl, rfl, rfl⟩, rfl, rfl, rfl⟩

theorem killTarget_pid {s : Kernel C n} {pid : BitVec 32} {p : Fin n}
    (h : s.killTarget pid = some p) : (s.proc p).pid = pid := by
  simpa using List.find?_some h

theorem kill_stays (s : Kernel C n) (pid : BitVec 32) : Stays s (s.kill pid).2 := by
  rcases (s.kill_cases pid).1 with ⟨-, -, hproc⟩ | ⟨p, -, -, hproc⟩
  · intro q
    rw [hproc]
    exact .inl rfl
  · have hstays : Stays s (s.modify p Proc.kill) := by
      refine .modify ?_
      simp only [Proc.kill]
      split
      · rename_i hs
        exact .inr ⟨.inl hs, .inr (.inl rfl)⟩
      · exact .inl rfl
    intro q
    rw [hproc]
    exact hstays q

end Kernel

/-- What `wait` leaves of a zombie. -/
def Proc.reaped (pr : Proc n) : Proc n :=
  { pr with pid := 0, parent := none, killed := false, state := .unused }

/-! ## `sched` -/

section Sched

variable [NeZero n] [DecidableEq C]

/-- What `sched` leaves: the CPU `c` has chosen a process, or is idle. -/
inductive Picked (s : Kernel C n) (c : C) : Kernel C n → Prop
  | run {p : Fin n} (runnable : (s.proc p).state = .runnable) :
      Picked s c { s.setState p .running with
        rrindex := p, cpu := update s.cpu c (some p) }
  | idle : Picked s c { s with cpu := update s.cpu c none }

namespace Kernel

variable {s s' : Kernel C n} {c : C}

omit [DecidableEq C] in
theorem roundrobin_runnable {p : Fin n} (h : s.roundrobin = some p) :
    (s.proc p).state = .runnable := of_decide_eq_true (List.find?_some h :)

/-- **`sched`** panics exactly if the process of the CPU is running. -/
theorem sched_spec (s : Kernel C n) (c : C) :
    (∃ p, s.cpu c = some p ∧ (s.proc p).state = .running ∧ s.sched c = .error .schedRunning) ∨
    (∀ p, s.cpu c = some p → (s.proc p).state ≠ .running) ∧
      ∃ s', s.sched c = .ok s' ∧ Picked s c s' := by
  have hany : ((s.cpu c).any fun p => (s.proc p).state = .running) = true ↔
      ∃ p, s.cpu c = some p ∧ (s.proc p).state = .running := by
    cases s.cpu c <;> simp
  rw [sched]
  split
  · rename_i h
    obtain ⟨p, hp, hr⟩ := hany.mp h
    exact .inl ⟨p, hp, hr, rfl⟩
  · rename_i h
    refine .inr ⟨fun p hp hr => h (hany.mpr ⟨p, hp, hr⟩), ?_⟩
    cases hrr : s.roundrobin with
    | some p => exact ⟨_, rfl, .run (roundrobin_runnable hrr)⟩
    | none => exact ⟨_, rfl, .idle⟩

theorem picked_of_sched (h : s.sched c = .ok s') : Picked s c s' := by
  rcases sched_spec s c with ⟨p, -, -, he⟩ | ⟨-, s₁, he, hp⟩
  · rw [he] at h; cases h
  · rw [he] at h; cases h; exact hp

end Kernel

omit [NeZero n] in
theorem Picked.calm {s s' : Kernel C n} {c : C} (h : Picked s c s') : Calm s s' := by
  cases h with
  | @run p runnable =>
    have hcalm : Calm s (s.setState p .running) := .setState (.inr (.inl runnable)) (.inr rfl)
    exact hcalm.trans (.of_eq rfl rfl rfl rfl)
  | idle => exact .of_eq rfl rfl rfl rfl

/-! ### What the functions that call `sched` leave -/

namespace Kernel

variable {s s' : Kernel C n} {c : C} {p : Fin n}

theorem switch_calm {st : ProcState} {r : Resume} (h : s.switch c p st r = .ok s') :
    Calm (s.setState p st) s' :=
  (Calm.park p r).trans (picked_of_sched h).calm

theorem reschedule_calm (h : s.reschedule c = .ok s') : Calm s s' := by
  rw [reschedule] at h
  split at h
  · split at h
    · rename_i p _ hrun
      have hcalm : Calm (s.acquire c) ((s.acquire c).setState p .runnable) :=
        .setState (.inr (.inr hrun)) (.inl rfl)
      exact ((Calm.acquire c).trans hcalm).trans (switch_calm h)
    · cases h
  · exact (Calm.acquire c).trans (picked_of_sched h).calm

theorem yield_calm (hp : (s.proc p).state.Alive) (h : s.yield c p = .ok s') : Calm s s' := by
  have hcalm : Calm (s.acquire c) ((s.acquire c).setState p .runnable) := .setState hp (.inl rfl)
  exact ((Calm.acquire c).trans hcalm).trans (switch_calm h)

theorem sleep_calm {a : Nat} (hp : (s.proc p).state.Alive) (h : s.sleep c p a = .ok s') :
    Calm s s' := by
  refine Calm.trans ?_ (switch_calm h)
  have heq : ((s.acquire c).modify p fun pr => { pr with chan := some (.other a) }).setState p
      .sleeping = (s.acquire c).modify p fun pr =>
        { pr with chan := some (.other a), state := .sleeping } := by
    simp only [setState, modify, update_self, update_idem]
  rw [heq]
  have hcalm : Calm (s.acquire c) ((s.acquire c).modify p fun pr =>
      { pr with chan := some (.other a), state := .sleeping }) :=
    .modify (.inr ⟨hp, .inl rfl⟩) (fun _ hc => (nomatch hc)) rfl rfl rfl
  exact (Calm.acquire c).trans hcalm

omit [NeZero n] [DecidableEq C] in
theorem reap_proc (s : Kernel C n) (p q : Fin n) :
    (s.reap p q).proc = (s.modify q Proc.reaped).proc := rfl

/-- `wait` finds a zombie, or returns, or goes to sleep because it has found none. -/
theorem waitTurn_ok (h : s.waitTurn c p = .ok s') :
    (∃ q, (s.proc q).parent = some p ∧ (s.proc q).state = .zombie ∧ s' = (s.reap p q).release) ∨
    s' = s.release ∨
    (∀ q, (s.proc q).parent = some p → (s.proc q).state ≠ .zombie) ∧
      Calm (s.modify p fun pr => { pr with chan := some (.proc p), state := .sleeping }) s' := by
  rw [waitTurn] at h
  split at h
  · rename_i q hq
    have hq := List.find?_some hq
    simp only [decide_eq_true_eq] at hq
    cases h
    exact .inl ⟨q, hq.1, hq.2, rfl⟩
  · rename_i hnone
    split at h
    · cases h
      exact .inr (.inl rfl)
    · refine .inr (.inr ⟨fun q hpar hz => ?_, ?_⟩)
      · have := List.find?_eq_none.mp hnone q (mem_finRange q)
        simp only [decide_eq_true_eq, not_and] at this
        exact this hpar hz
      · have heq : (s.modify p fun pr => { pr with chan := some (.proc p) }).setState p .sleeping =
            s.modify p fun pr => { pr with chan := some (.proc p), state := .sleeping } := by
          simp only [setState, modify, update_self, update_idem]
        rw [← heq]
        exact switch_calm h

/-- A thread goes on: nothing else happens, or it looks for zombies. -/
theorem goOn_ok (h : s.goOn c = .ok s') :
    Calm s s' ∨ ∃ p, s.cpu c = some p ∧
      (s.modify p fun pr => { pr with chan := none }).waitTurn c p = .ok s' := by
  have hclear : ∀ p, Calm s (s.modify p fun pr => { pr with chan := none }) :=
    fun p => .modify (.inl rfl) (fun _ hc => (nomatch hc)) rfl rfl rfl
  rw [goOn] at h
  split at h
  · cases h
    exact .inl .release
  · rename_i p hon
    split at h
    · cases h; exact .inl .release
    · cases h; exact .inl .release
    · cases h; exact .inl .release
    · cases h; exact .inl ((hclear p).trans .release)
    · exact .inr ⟨p, hon, h⟩
    · cases h

/-- `exit` up to the change of its own state: the parent is woken and the children go
to `initproc`. -/
def disown (initproc : Fin n) (s : Kernel C n) (p : Fin n) : Kernel C n :=
  (List.finRange n).foldl (abandon initproc p) (s.wakeup1 ((s.proc p).parent.map .proc))

/-- The process is a zombie, and has exited. -/
def bury (s : Kernel C n) (p : Fin n) : Kernel C n :=
  { s with hist := { s.hist with exits := s.hist.life p :: s.hist.exits } }.setState p .zombie

omit [NeZero n] [DecidableEq C] in
theorem bury_proc (s : Kernel C n) (p : Fin n) : (s.bury p).proc = (s.setState p .zombie).proc := rfl

theorem exit_ok {initproc : Fin n} (h : s.exit initproc c p = .ok s') :
    p ≠ initproc ∧ Calm (((s.acquire c).disown initproc p).bury p) s' := by
  rw [exit] at h
  split at h
  · cases h
  · exact ⟨‹_›, switch_calm h⟩

end Kernel

/-! ### The children of a process that exits -/

/-- The children of `p` among `l` go to `initproc`, which is woken if one is a zombie. -/
structure Disowned (initproc p : Fin n) (l : List (Fin n)) (s s' : Kernel C n) : Prop where
  stays : Stays s s'
  running : ∀ q, (s'.proc q).state = .running ↔ (s.proc q).state = .running
  waits : ∀ q, s'.Waits q → s.Waits q
  pid : ∀ q, (s'.proc q).pid = (s.proc q).pid
  killed : ∀ q, (s'.proc q).killed = (s.proc q).killed
  parent : ∀ q, (s'.proc q).parent =
    if q ∈ l ∧ (s.proc q).parent = some p then some initproc else (s.proc q).parent
  woken : ∀ q ∈ l, (s.proc q).parent = some p → (s.proc q).state = .zombie → ¬ s'.Waits initproc
  cpu : s'.cpu = s.cpu
  task : s'.task = s.task
  hist : s'.hist = s.hist
  nextpid : s'.nextpid = s.nextpid

namespace Disowned

variable {initproc p q : Fin n} {l : List (Fin n)} {s s' s'' : Kernel C n}

omit [NeZero n] [DecidableEq C] in
theorem not_waits_wakeup1 (s : Kernel C n) (r : Fin n) :
    ¬ (s.wakeup1 (some (.proc r))).Waits r := by
  rintro ⟨hs, hc⟩
  simp only [Kernel.wakeup1, Proc.wakeup1] at hs hc
  split at hs
  · cases hs
  · rename_i hno
    rw [if_neg hno] at hc
    exact hno ⟨hs, hc⟩

omit [NeZero n] [DecidableEq C] in
theorem turn (s : Kernel C n) (q : Fin n) :
    Disowned initproc p [q] s (Kernel.abandon initproc p s q) := by
  simp only [Kernel.abandon]
  split
  · rename_i hpar
    have hother : ∀ {β : Type} (v : Proc n → β),
        (∀ pr : Proc n, v { pr with parent := some initproc } = v pr) → ∀ k,
        v ((s.modify q fun pr => { pr with parent := some initproc }).proc k) = v (s.proc k) :=
      fun v hv k => Kernel.modify_field v (hv _) k
    have hparent : ∀ k, ((s.modify q fun pr => { pr with parent := some initproc }).proc k).parent =
        if k ∈ [q] ∧ (s.proc k).parent = some p then some initproc else (s.proc k).parent := by
      intro k
      by_cases hk : k = q
      · subst hk
        rw [Kernel.modify_self, if_pos ⟨mem_singleton.mpr rfl, hpar⟩]
      · rw [Kernel.modify_of_ne hk, if_neg fun h => hk (mem_singleton.mp h.1)]
    have hstays : Stays s (s.modify q fun pr => { pr with parent := some initproc }) :=
      .modify (.inl rfl)
    have hwaits : ∀ k, (s.modify q fun pr => { pr with parent := some initproc }).Waits k →
        s.Waits k := by
      intro k hk
      rwa [Kernel.Waits, hother Proc.state fun _ => rfl, hother Proc.chan fun _ => rfl] at hk
    split
    · set s₁ := s.modify q fun pr => { pr with parent := some initproc } with hs₁
      have hcalm : Calm s₁ (s₁.wakeup1 (some (.proc initproc))) := .wakeup1
      refine ⟨hstays.trans hcalm.stays, fun k => ?_, fun k hk => hwaits k (hcalm.waits k hk),
        fun k => ?_, fun k => ?_, fun k => (hcalm.parent k).trans (hparent k), ?_, rfl, rfl, rfl, rfl⟩
      · rw [Kernel.wakeup1_running, hother Proc.state fun _ => rfl]
      · exact (hcalm.pid k).trans (hother Proc.pid (fun _ => rfl) k)
      · exact (hcalm.killed k).trans (hother Proc.killed (fun _ => rfl) k)
      · exact fun _ _ _ _ => not_waits_wakeup1 s₁ initproc
    · rename_i hz
      rw [hother Proc.state fun _ => rfl] at hz
      refine ⟨hstays, fun k => ?_, hwaits, hother Proc.pid fun _ => rfl,
        hother Proc.killed fun _ => rfl, hparent, fun k hk _ hkz => ?_, rfl, rfl, rfl, rfl⟩
      · rw [hother Proc.state fun _ => rfl]
      · exact absurd (mem_singleton.mp hk ▸ hkz) hz
  · rename_i hpar
    refine ⟨.refl s, fun _ => Iff.rfl, fun _ => id, fun _ => rfl, fun _ => rfl, fun k => ?_,
      fun k hk hkp => ?_, rfl, rfl, rfl, rfl⟩
    · rw [if_neg]
      exact fun h => hpar (mem_singleton.mp h.1 ▸ h.2)
    · exact absurd (mem_singleton.mp hk ▸ hkp) hpar

omit [NeZero n] [DecidableEq C] in
/-- The loop, one child after the other. -/
theorem cons (h : Disowned initproc p [q] s s')
    (h' : Disowned initproc p l s' s'') : Disowned initproc p (q :: l) s s'' where
  stays := h.stays.trans h'.stays
  running k := (h'.running k).trans (h.running k)
  waits k hk := h.waits k (h'.waits k hk)
  pid k := (h'.pid k).trans (h.pid k)
  killed k := (h'.killed k).trans (h.killed k)
  parent k := by
    have hk := h.parent k
    rw [h'.parent k]
    by_cases hkq : k = q
    · subst hkq
      by_cases hpar : (s.proc k).parent = some p
      · rw [if_pos ⟨mem_singleton.mpr rfl, hpar⟩] at hk
        rw [hk, ite_self, if_pos ⟨mem_cons_self, hpar⟩]
      · rw [if_neg fun hc => hpar hc.2] at hk
        rw [hk, if_neg fun hc => hpar hc.2, if_neg fun hc => hpar hc.2]
    · rw [if_neg fun hc => hkq (mem_singleton.mp hc.1)] at hk
      rw [hk]
      simp only [mem_cons, hkq, false_or]
  woken k hk hpar hz := by
    rcases mem_cons.mp hk with rfl | hkl
    · exact fun hw => h.woken k (mem_singleton.mpr rfl) hpar hz (h'.waits _ hw)
    · by_cases hkq : k = q
      · subst hkq
        exact fun hw => h.woken k (mem_singleton.mpr rfl) hpar hz (h'.waits _ hw)
      · refine h'.woken k hkl ?_ (h.stays.symm.zombie hz)
        rw [h.parent, if_neg fun hc => hkq (mem_singleton.mp hc.1)]
        exact hpar
  cpu := h'.cpu.trans h.cpu
  task := h'.task.trans h.task
  hist := h'.hist.trans h.hist
  nextpid := h'.nextpid.trans h.nextpid

omit [NeZero n] [DecidableEq C] in
theorem loop : ∀ (l : List (Fin n)) (s : Kernel C n),
    Disowned initproc p l s (l.foldl (Kernel.abandon initproc p) s)
  | [], s => ⟨.refl s, fun _ => Iff.rfl, fun _ => id, fun _ => rfl, fun _ => rfl,
      fun _ => (if_neg fun hc => List.not_mem_nil hc.1).symm, nofun, rfl, rfl, rfl, rfl⟩
  | q :: l, s => (turn s q).cons (loop l _)

omit [NeZero n] [DecidableEq C] in
/-- **What `exit` does before it becomes a zombie.** -/
theorem disown (initproc p : Fin n) (s : Kernel C n) :
    Disowned initproc p (List.finRange n) s (s.disown initproc p) ∧
      ∀ r, (s.proc p).parent = some r → ¬ (s.disown initproc p).Waits r := by
  have hcalm : Calm s (s.wakeup1 ((s.proc p).parent.map .proc)) := .wakeup1
  have h : Disowned initproc p _ _ _ := loop (List.finRange n) (s.wakeup1 ((s.proc p).parent.map .proc))
  refine ⟨⟨hcalm.stays.trans h.stays, fun q => (h.running q).trans Kernel.wakeup1_running,
    fun q hq => hcalm.waits q (h.waits q hq), fun q => (h.pid q).trans (hcalm.pid q),
    fun q => (h.killed q).trans (hcalm.killed q), fun q => ?_, fun q hq hpar hz => ?_, h.cpu, h.task,
    h.hist, h.nextpid⟩, fun r hr hw => ?_⟩
  · rw [← hcalm.parent q]
    exact h.parent q
  · exact h.woken q hq ((hcalm.parent q).trans hpar) (hcalm.stays.symm.zombie hz)
  · have hw' := h.waits r hw
    rw [hr] at hw'
    exact not_waits_wakeup1 s r hw'

end Disowned

end Sched

end Xv6.Procs
