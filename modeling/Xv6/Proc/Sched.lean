/-
# `Xv6.Proc.Sched` — one CPU per process

A process is `RUNNING` exactly when it is the process of one CPU.  Between the store
that changes the state of the current process and the end of `sched` that is not so
for the CPU that holds the lock; `Placed s x` is the invariant with that exception.
-/
import Xv6.Proc.Calm

namespace Xv6.Procs

open Function (update update_apply update_of_ne update_self)

variable {C : Type} {n : Nat}

/-! ## Forks in progress -/

/-- The embryo a process is making. -/
def Task.child : Task n → Option (Fin n)
  | .none => .none
  | .forking np | .copied np => some np

theorem Task.ne_of_child {t : Task n} {np : Fin n} (h : t.child = some np) : t ≠ .none := by
  rintro rfl
  cases h

structure Forks (s : Kernel C n) : Prop where
  embryo : ∀ p np, (s.task p).child = some np → (s.proc np).state = .embryo
  inj : ∀ p q np, (s.task p).child = some np → (s.task q).child = some np → p = q
  busy : ∀ p, s.task p ≠ .none → (s.proc p).state.Alive

namespace Forks

variable {s s' : Kernel C n} {c : C} {p q np : Fin n}

theorem init (initproc : Fin n) : Forks (Kernel.init initproc : Kernel C n) :=
  ⟨nofun, nofun, fun _ h => absurd rfl h⟩

theorem stays (h : Forks s) (hs : Stays s s') (ht : s'.task = s.task) : Forks s' where
  embryo p np hp := hs.symm.state (by decide) (h.embryo p np (ht ▸ hp))
  inj p q np hp hq := h.inj p q np (ht ▸ hp) (ht ▸ hq)
  busy p hp := hs.symm.alive (h.busy p (ht ▸ hp))

/-- A process that is being made makes none itself. -/
theorem child_ne (h : Forks s) (hp : (s.task p).child = some np) (hq : s.task q ≠ .none) :
    q ≠ np := by
  rintro rfl
  exact (h.busy q hq).ne_embryo (h.embryo p q hp)

/-- A process that is in no fork comes or goes. -/
theorem setState (h : Forks s) {st : ProcState} (hp : (s.proc p).state ≠ .embryo)
    (ht : s.task p = .none) : Forks (s.setState p st) where
  embryo q np hq := by
    have he := h.embryo q np hq
    have hne : np ≠ p := by
      rintro rfl
      exact hp he
    rw [Kernel.setState_of_ne hne, he]
  inj := h.inj
  busy q hq := by
    have hne : q ≠ p := by
      rintro rfl
      exact hq ht
    rw [Kernel.setState_of_ne hne]
    exact h.busy q hq

end Forks

/-! ### The events of `fork` -/

/-- **What `allocproc` does**, under the lock. -/
theorem Kernel.allocproc_cases (s : Kernel C n) (p : Fin n) :
    s.allocproc p = s ∨ ∃ np, (s.proc np).state = .unused ∧
      (s.allocproc p).proc = (s.modify np fun pr =>
        { pr with state := .embryo, pid := s.nextpid }).proc ∧
      (s.allocproc p).task = update s.task p (.forking np) ∧
      (s.allocproc p).cpu = s.cpu ∧
      (s.allocproc p).hist = { s.hist with
        births := s.hist.births ++ [⟨s.nextpid, s.hist.life p⟩]
        life := update s.hist.life np s.hist.births.length
        called := update s.hist.called np false } := by
  rw [allocproc]
  split
  · exact .inl rfl
  · rename_i np hnp
    refine .inr ⟨np, ?_, rfl, rfl, rfl, rfl⟩
    have := List.find?_some hnp
    simpa using this

namespace Forks

variable {s s' : Kernel C n} {c : C} {p q np : Fin n}

theorem start (h : Forks s) (hp : (s.proc p).state.Alive) (hnp : (s.proc np).state = .unused)
    (hstate : ∀ q, (s'.proc q).state = if q = np then .embryo else (s.proc q).state)
    (htask : s'.task = update s.task p (.forking np)) : Forks s' where
  embryo q m hq := by
    rw [htask, update_apply] at hq
    rw [hstate]
    split_ifs at hq
    · cases hq
      rw [if_pos rfl]
    · rw [h.embryo q m hq, ite_self]
  inj q r m hq hr := by
    have hm : ∀ k, (s.task k).child = some m → np ≠ m := by
      rintro k hk rfl
      exact absurd ((h.embryo k np hk).symm.trans hnp) nofun
    rw [htask, update_apply] at hq hr
    split_ifs at hq hr with hqp hrp hrp
    · rw [hqp, hrp]
    · exact absurd (Option.some.inj hq) (hm r hr)
    · exact absurd (Option.some.inj hr) (hm q hq)
    · exact h.inj q r m hq hr
  busy q hq := by
    have halive : (s.proc q).state.Alive := by
      rw [htask, update_apply] at hq
      split_ifs at hq with hqp
      · rw [hqp]
        exact hp
      · exact h.busy q hq
    rw [hstate, if_neg]
    · exact halive
    · rintro rfl
      exact halive.ne_unused hnp

theorem finish (h : Forks s) (hp : (s.task p).child = some np) (st : ProcState) :
    Forks ((s.setState np st).setTask p .none) := by
  have htask : ∀ {q m}, (((s.setState np st).setTask p .none).task q).child = some m →
      q ≠ p ∧ (s.task q).child = some m := by
    intro q m hq
    obtain ⟨hqp, heq⟩ := Kernel.task_of_setTask rfl (Task.ne_of_child hq)
    exact ⟨hqp, (congrArg Task.child heq).trans hq⟩
  refine ⟨fun q m hq => ?_, fun q r m hq hr => h.inj q r m (htask hq).2 (htask hr).2,
    fun q hq => ?_⟩
  · obtain ⟨hqp, hq'⟩ := htask hq
    refine (congrArg Proc.state (Kernel.setState_of_ne ?_)).trans (h.embryo q m hq')
    rintro rfl
    exact hqp (h.inj q p m hq' hp)
  · have hq' : s.task q ≠ .none :=
      (Kernel.task_of_setTask rfl hq).2.trans_ne hq
    show ((s.setState np st).proc q).state.Alive
    rw [Kernel.setState_of_ne (h.child_ne hp hq')]
    exact h.busy q hq'

theorem copy (h : Forks s) (hp : s.task p = .forking np)
    (hstate : ∀ q, (s'.proc q).state = (s.proc q).state)
    (htask : s'.task = update s.task p (.copied np)) : Forks s' := by
  have hchild : ∀ q, (s'.task q).child = (s.task q).child := by
    intro q
    rw [htask, update_apply]
    split_ifs with hqp
    · rw [hqp, hp]
      rfl
    · rfl
  refine ⟨fun q m hq => ?_, fun q r m hq hr => ?_, fun q hq => ?_⟩
  · rw [hstate]
    exact h.embryo q m (hchild q ▸ hq)
  · exact h.inj q r m (hchild q ▸ hq) (hchild r ▸ hr)
  · rw [hstate]
    refine h.busy q fun hnone => hq ?_
    rw [htask, update_of_ne, hnone]
    rintro rfl
    exact absurd (hp.symm.trans hnone) nofun

end Forks

/-! ## Which process is on which CPU -/

variable [NeZero n] [DecidableEq C]

/-- Which process is on which CPU; the process of the CPU `x` may have stopped
running. -/
structure Placed (s : Kernel C n) (x : Option C) : Prop where
  on : ∀ c p, s.cpu c = some p → some c ≠ x → (s.proc p).state = .running
  inj : ∀ c c' p, s.cpu c = some p → s.cpu c' = some p → c = c'
  has : ∀ p, (s.proc p).state = .running → ∃ c, s.cpu c = some p

/-- What an event leads to: no panic of the scheduler, or a state that is in order and
on whose CPUs no process has appeared that was not alive. -/
def Fine (s : Kernel C n) : Except Panic (Kernel C n) → Prop
  | .ok s' => Placed s' none ∧
      ∀ c p, s'.cpu c = some p → s.cpu c ≠ some p → (s.proc p).state.Alive
  | .error e => e ≠ .schedRunning ∧ e ≠ .notRunning

omit [NeZero n] [DecidableEq C] in
theorem Fine.mono {s s₁ : Kernel C n} {r : Except Panic (Kernel C n)} (h : Fine s₁ r)
    (hstays : Stays s s₁) (hcpu : s₁.cpu = s.cpu) : Fine s r := by
  cases r with
  | error e => exact h
  | ok s' => exact ⟨h.1, fun c p hc hne => hstays.alive (h.2 c p hc (hcpu ▸ hne))⟩

namespace Placed

variable {s s' : Kernel C n} {c : C} {p : Fin n} {x : Option C}

omit [NeZero n] [DecidableEq C] in
theorem congr (h : Placed s x) (hcpu : s'.cpu = s.cpu)
    (hrun : ∀ p, (s'.proc p).state = .running ↔ (s.proc p).state = .running) : Placed s' x where
  on c p hc hx := (hrun p).mpr (h.on c p (hcpu ▸ hc) hx)
  inj c c' p hc hc' := h.inj c c' p (hcpu ▸ hc) (hcpu ▸ hc')
  has p hp := hcpu ▸ h.has p ((hrun p).mp hp)

omit [NeZero n] [DecidableEq C] in
theorem modify (h : Placed s x) {f : Proc n → Proc n}
    (hf : (f (s.proc p)).state = .running ↔ (s.proc p).state = .running) :
    Placed (s.modify p f) x :=
  h.congr rfl (Kernel.modify_running hf)

omit [NeZero n] [DecidableEq C] in
theorem stop (h : Placed s none) (hon : s.cpu c = some p) {st : ProcState} {r : Resume}
    (hst : st ≠ .running) : Placed ((s.setState p st).park p r) (some c) where
  on c' q hc' hx := by
    have hq : q ≠ p := by
      rintro rfl
      exact hx (congrArg some (h.inj c' c q hc' hon))
    show ((s.setState p st).proc q).state = .running
    rw [Kernel.setState_of_ne hq]
    exact h.on c' q hc' nofun
  inj := h.inj
  has q hq := by
    have hq' : ((s.setState p st).proc q).state = .running := hq
    have hne : q ≠ p := by
      rintro rfl
      rw [Kernel.setState_self] at hq'
      exact hst hq'
    rw [Kernel.setState_of_ne hne] at hq'
    exact h.has q hq'

omit [NeZero n] in
/-- What `sched` chooses is on no other CPU, because it is not running. -/
theorem picked (h : Placed s (some c)) (hoff : ∀ p, s.cpu c = some p → (s.proc p).state ≠ .running)
    (hp : Picked s c s') :
    Placed s' none ∧ ∀ c' q, s'.cpu c' = some q → s.cpu c' ≠ some q → (s.proc q).state.Alive := by
  -- the CPUs whose process runs are the others
  have hother : ∀ q, (s.proc q).state = .running → ∃ c', c' ≠ c ∧ s.cpu c' = some q := by
    intro q hq
    obtain ⟨c', hc'⟩ := h.has q hq
    refine ⟨c', ?_, hc'⟩
    rintro rfl
    exact hoff q hc' hq
  cases hp with
  | @run p runnable =>
    have hnot : ∀ c', c' ≠ c → s.cpu c' ≠ some p := by
      intro c' hc' hcp
      have := h.on c' p hcp fun he => hc' (Option.some.inj he)
      rw [runnable] at this
      cases this
    have hcpu : ∀ {c' q}, update s.cpu c (some p) c' = some q →
        c' = c ∧ q = p ∨ c' ≠ c ∧ s.cpu c' = some q := by
      intro c' q hc'
      rw [update_apply] at hc'
      split_ifs at hc' with hcc
      · exact .inl ⟨hcc, (Option.some.inj hc').symm⟩
      · exact .inr ⟨hcc, hc'⟩
    refine ⟨⟨fun c' q hc' _ => ?_, fun c₁ c₂ q h₁ h₂ => ?_, fun q hq => ?_⟩, fun c' q hc' hne => ?_⟩
    · show ((s.setState p .running).proc q).state = .running
      by_cases hqp : q = p
      · subst hqp
        exact Kernel.setState_self
      · rw [Kernel.setState_of_ne hqp]
        obtain ⟨hcc, hc'⟩ := (hcpu hc').resolve_left fun he => hqp he.2
        exact h.on c' q hc' fun he => hcc (Option.some.inj he)
    · rcases hcpu h₁ with ⟨e₁, rfl⟩ | ⟨e₁, h₁⟩ <;> rcases hcpu h₂ with ⟨e₂, he⟩ | ⟨e₂, h₂⟩
      · rw [e₁, e₂]
      · exact absurd h₂ (hnot c₂ e₂)
      · exact absurd (he ▸ h₁) (hnot c₁ e₁)
      · exact h.inj c₁ c₂ q h₁ h₂
    · show ∃ c', update s.cpu c (some p) c' = some q
      by_cases hqp : q = p
      · exact ⟨c, by rw [update_self, hqp]⟩
      · have hq' : ((s.setState p .running).proc q).state = .running := hq
        rw [Kernel.setState_of_ne hqp] at hq'
        obtain ⟨c', hc', hcq⟩ := hother q hq'
        exact ⟨c', by rw [update_of_ne hc', hcq]⟩
    · rcases hcpu hc' with ⟨-, rfl⟩ | ⟨-, hc'⟩
      · exact .inr (.inl runnable)
      · exact absurd hc' hne
  | idle =>
    have hcpu : ∀ c' q, update s.cpu c none c' = some q → c' ≠ c ∧ s.cpu c' = some q := by
      intro c' q hc'
      rw [update_apply] at hc'
      split_ifs at hc' with hcc
      exact ⟨hcc, hc'⟩
    refine ⟨⟨fun c' q hc' _ => ?_, fun c₁ c₂ q h₁ h₂ => ?_, fun q hq => ?_⟩, fun c' q hc' hne => ?_⟩
    · obtain ⟨hcc, hc'⟩ := hcpu c' q hc'
      exact h.on c' q hc' fun he => hcc (Option.some.inj he)
    · exact h.inj c₁ c₂ q (hcpu c₁ q h₁).2 (hcpu c₂ q h₂).2
    · obtain ⟨c', hc', hcq⟩ := hother q hq
      exact ⟨c', (update_of_ne hc' ..).trans hcq⟩
    · exact absurd (hcpu c' q hc').2 hne

/-! ### The functions that call `sched` -/

section

variable (h : Placed s none)
include h

theorem switch (hon : s.cpu c = some p) (st : ProcState) (r : Resume)
    (hst : st ≠ .running) : Fine s (s.switch c p st r) := by
  have hrun : (s.proc p).state = .running := h.on c p hon nofun
  have hself : (((s.setState p st).park p r).proc p).state = st := Kernel.setState_self
  rcases Kernel.sched_spec ((s.setState p st).park p r) c with ⟨q, hq, hr, -⟩ | ⟨hoff, s', he, hp⟩
  · have hq' : s.cpu c = some q := hq
    cases hon.symm.trans hq'
    rw [hself] at hr
    exact absurd hr hst
  · rw [Kernel.switch, he]
    obtain ⟨hplaced, halive⟩ := (h.stop hon hst).picked hoff hp
    refine ⟨hplaced, fun c' q hc' hne => ?_⟩
    have hq : ((s.setState p st).proc q).state.Alive := halive c' q hc' hne
    by_cases hqp : q = p
    · rw [hqp, hrun]
      exact .inr (.inr rfl)
    · rwa [Kernel.setState_of_ne hqp] at hq

theorem sched_idle (hidle : s.cpu c = none) : Fine s (s.sched c) := by
  have hoff : ∀ p, s.cpu c = some p → (s.proc p).state ≠ .running := by
    intro p hp
    rw [hidle] at hp
    cases hp
  rcases Kernel.sched_spec s c with ⟨p, hp, -⟩ | ⟨-, s', he, hp⟩
  · rw [hidle] at hp
    cases hp
  · rw [he]
    exact picked ⟨fun c p hc _ => h.on c p hc nofun, h.inj, h.has⟩ hoff hp

theorem reschedule : Fine s (s.reschedule c) := by
  rw [Kernel.reschedule]
  cases hon : s.cpu c with
  | none => exact sched_idle (h.congr rfl fun _ => Iff.rfl) hon
  | some p =>
    have hrun : (s.proc p).state = .running := h.on c p hon (by simp)
    simp only [if_pos hrun]
    exact switch (s := s.acquire c) (h.congr rfl fun _ => Iff.rfl) hon .runnable _ (by simp)

theorem sleep (hon : s.cpu c = some p) (a : Nat) : Fine s (s.sleep c p a) := by
  have hmod : Placed ((s.acquire c).modify p fun pr => { pr with chan := some (.other a) }) none :=
    modify (s := s.acquire c) (h.congr rfl fun _ => Iff.rfl) Iff.rfl
  have hstays : Stays s ((s.acquire c).modify p fun pr => { pr with chan := some (.other a) }) :=
    Stays.modify (.inl rfl)
  exact (hmod.switch hon .sleeping .sleep nofun).mono hstays rfl

theorem exit (hon : s.cpu c = some p) (initproc : Fin n) : Fine s (s.exit initproc c p) := by
  rw [Kernel.exit]
  split
  · exact ⟨by simp, by simp⟩
  · have hd := (Disowned.disown initproc p (s.acquire c)).1
    have hplaced : Placed ((s.acquire c).disown initproc p) none := h.congr hd.cpu hd.running
    have hexits : Placed { (s.acquire c).disown initproc p with
        hist := { ((s.acquire c).disown initproc p).hist with
          exits := ((s.acquire c).disown initproc p).hist.life p ::
            ((s.acquire c).disown initproc p).hist.exits } } none :=
      hplaced.congr rfl fun _ => Iff.rfl
    have hon₁ : ((s.acquire c).disown initproc p).cpu c = some p := hd.cpu ▸ hon
    exact (hexits.switch hon₁ .zombie .exit (by simp)).mono hd.stays hd.cpu

theorem waitTurn (hon : s.cpu c = some p) : Fine s (s.waitTurn c p) := by
  rw [Kernel.waitTurn]
  split
  · rename_i q hq
    have hz : (s.proc q).state = .zombie := by
      have := List.find?_some hq
      simp only [decide_eq_true_eq] at this
      exact this.2
    refine ⟨?_, fun c' p' hc' hne => absurd hc' hne⟩
    have hmod : Placed (s.modify q fun pr =>
        { pr with pid := 0, parent := none, killed := false, state := .unused }) none :=
      h.modify (by rw [hz]; exact ⟨by simp, by simp⟩)
    exact hmod.congr rfl fun _ => Iff.rfl
  · split
    · exact ⟨h.congr rfl fun _ => Iff.rfl, fun c' p' hc' hne => absurd hc' hne⟩
    · have hmod : Placed (s.modify p fun pr => { pr with chan := some (.proc p) }) none :=
        h.modify Iff.rfl
      exact (hmod.switch hon .sleeping .wait (by simp)).mono (Stays.modify (.inl rfl)) rfl

theorem goOn : Fine s (s.goOn c) := by
  have hrelease : Fine s (.ok s.release) :=
    ⟨h.congr rfl fun _ => Iff.rfl, fun _ _ hc hne => absurd hc hne⟩
  rw [Kernel.goOn]
  cases hon : s.cpu c with
  | none => exact hrelease
  | some p =>
    have hmod : Placed (s.modify p fun pr => { pr with chan := none }) none := h.modify Iff.rfl
    simp only
    split
    · exact hrelease
    · exact hrelease
    · exact hrelease
    · exact ⟨hmod.congr rfl fun _ => Iff.rfl, fun _ _ hc hne => absurd hc hne⟩
    · exact (hmod.waitTurn hon).mono (Stays.modify (.inl rfl)) rfl
    · exact ⟨by simp, by simp⟩

end

omit [NeZero n] [DecidableEq C] in
/-- An event that changes no CPU and lets no process run or stop. -/
theorem fine (h : Placed s none) (hcpu : s'.cpu = s.cpu)
    (hrun : ∀ p, (s'.proc p).state = .running ↔ (s.proc p).state = .running) : Fine s (.ok s') :=
  ⟨h.congr hcpu hrun, fun _ _ hc hne => absurd (hcpu ▸ hc) hne⟩

omit [NeZero n] [DecidableEq C] in
theorem init (initproc : Fin n) : Placed (Kernel.init initproc : Kernel C n) none where
  on := nofun
  inj := nofun
  has p hp := by
    simp only [Kernel.init] at hp
    split at hp <;> cases hp

end Placed

/-! ## Runs -/

section Run

variable {s s' : Kernel C n} {e : Event C} {initproc : Fin n} {es : List (Event C)}

omit [NeZero n] [DecidableEq C] in
/-- A process on a CPU is alive. -/
theorem Placed.alive (h : Placed s none) {c : C} {p : Fin n} (hon : s.cpu c = some p) :
    (s.proc p).state.Alive := .inr (.inr (h.on c p hon nofun))

/-- **Every event leaves the CPUs in order.** -/
theorem Placed.moves (h : Placed s none) (hf : Forks s) {r : Except Panic (Kernel C n)}
    (hm : Moves initproc s e r) : Fine s r := by
  have hembryo : ∀ {p np}, (s.task p).child = some np → (s.proc np).state ≠ .running := by
    intro p np hp hr
    rw [hf.embryo p np hp] at hr
    cases hr
  cases hm with
  | reschedule free => exact h.reschedule
  | yield free on task =>
    exact Placed.switch (s := s.acquire _) (h.congr rfl fun _ => Iff.rfl) on .runnable _ nofun
  | sleep free on task => exact h.sleep on _
  | wakeup free => exact h.fine rfl fun _ => Kernel.wakeup1_running
  | @kill c p pid free on task =>
    obtain ⟨hproc, hcpu, -⟩ := s.kill_cases pid
    refine h.fine hcpu fun q => ?_
    rcases hproc with ⟨-, -, hproc⟩ | ⟨k, -, -, hproc⟩
    · rw [hproc]
    · rw [hproc]
      exact Kernel.modify_running (Proc.kill_running _) q
  | @allocproc c p free on task =>
    rcases s.allocproc_cases p with heq | ⟨np, hnp, hproc, -, hcpu, -⟩
    · rw [heq]
      exact h.fine rfl fun _ => Iff.rfl
    · refine h.fine hcpu fun q => ?_
      rw [hproc]
      exact Kernel.modify_running (by rw [hnp]; exact ⟨nofun, nofun⟩) q
  | @forkFail c p np on task =>
    have hrun : ∀ q, ((s.setState np .unused).proc q).state = .running ↔
        (s.proc q).state = .running :=
      Kernel.setState_running nofun (hembryo (by rw [task]; rfl))
    exact h.fine rfl hrun
  | @forkCopy c p np on task =>
    have hrun : ∀ q, ((s.modify np fun pr => { pr with parent := some p }).proc q).state =
        .running ↔ (s.proc q).state = .running := Kernel.modify_running Iff.rfl
    exact h.fine rfl hrun
  | @forkDone c p np free on task =>
    have hrun : ∀ q, ((s.setState np .runnable).proc q).state = .running ↔
        (s.proc q).state = .running :=
      Kernel.setState_running nofun (hembryo (by rw [task]; rfl))
    exact h.fine rfl hrun
  | exit free on task => exact h.exit on initproc
  | wait free on task =>
    exact Placed.waitTurn (h.congr rfl fun _ => Iff.rfl) on
  | @trapKill c p on task =>
    have hrun : ∀ q, ((s.modify p fun pr => { pr with killed := true }).proc q).state =
        .running ↔ (s.proc q).state = .running := Kernel.modify_running Iff.rfl
    exact h.fine rfl hrun
  | goOn held => exact h.goOn

omit [NeZero n] [DecidableEq C] in
theorem Forks.reap (hf : Forks s) {p q : Fin n} (hz : (s.proc q).state = .zombie) :
    Forks (s.reap p q) := by
  have htask : s.task q = .none := by
    by_contra hne
    exact (hf.busy q hne).ne_zombie hz
  have hset : Forks (s.setState q .unused) := hf.setState (by rw [hz]; exact nofun) htask
  refine hset.stays (fun k => .inl ?_) rfl
  rw [Kernel.reap_proc]
  by_cases hk : k = q
  · rw [hk, Kernel.modify_self, Kernel.setState_self]
    rfl
  · rw [Kernel.modify_of_ne hk, Kernel.setState_of_ne hk]

theorem Forks.waitTurn (hf : Forks s) {c : C} {p : Fin n} (hp : (s.proc p).state.Alive)
    (h : s.waitTurn c p = .ok s') : Forks s' := by
  rcases Kernel.waitTurn_ok h with ⟨q, -, hz, rfl⟩ | rfl | ⟨-, hcalm⟩
  · have hreap : Forks (s.reap p q) := hf.reap hz
    exact hreap.stays Calm.release.stays rfl
  · exact hf.stays Calm.release.stays rfl
  · have hsleep : Stays s (s.modify p fun pr =>
        { pr with chan := some (.proc p), state := .sleeping }) := .modify (.inr ⟨hp, .inl rfl⟩)
    exact hf.stays (hsleep.trans hcalm.stays) hcalm.task

/-- **Every event leaves the forks in order.** -/
theorem Forks.moves (hf : Forks s) (h : Placed s none) (hm : Moves initproc s e (.ok s')) :
    Forks s' := by
  have hcalm : Calm s s' → Forks s' := fun hc => hf.stays hc.stays hc.task
  generalize hr : Except.ok s' = r at hm
  cases hm with
  | reschedule free => exact hcalm (Kernel.reschedule_calm hr.symm)
  | yield free on task => exact hcalm (Kernel.yield_calm (h.alive on) hr.symm)
  | sleep free on task => exact hcalm (Kernel.sleep_calm (h.alive on) hr.symm)
  | wakeup free => cases hr; exact hcalm .wakeup1
  | @kill c p pid free on task => cases hr; exact hf.stays (s.kill_stays pid) (s.kill_cases pid).2.2.1
  | @allocproc c p free on task =>
    cases hr
    rcases s.allocproc_cases p with heq | ⟨np, hnp, hproc, htask, -⟩
    · rw [heq]
      exact hf
    · refine hf.start (h.alive on) hnp (fun q => ?_) htask
      rw [hproc]
      by_cases hq : q = np
      · rw [hq, Kernel.modify_self, if_pos rfl]
      · rw [Kernel.modify_of_ne hq, if_neg hq]
  | @forkFail c p np on task => cases hr; exact hf.finish (by rw [task]; rfl) .unused
  | @forkCopy c p np on task =>
    cases hr
    have hstate : ∀ q, ((s.modify np fun pr => { pr with parent := some p }).proc q).state =
        (s.proc q).state := Kernel.modify_field Proc.state rfl
    exact hf.copy task hstate rfl
  | @forkDone c p np free on task => cases hr; exact hf.finish (by rw [task]; rfl) .runnable
  | @exit c p free on task =>
    obtain ⟨-, hc⟩ := Kernel.exit_ok hr.symm
    have hd := (Disowned.disown initproc p (s.acquire c)).1
    have hf₁ : Forks ((s.acquire c).disown initproc p) := hf.stays hd.stays hd.task
    have hrun : (((s.acquire c).disown initproc p).proc p).state = .running :=
      (hd.running p).mpr (h.on c p on nofun)
    have hf₂ : Forks (((s.acquire c).disown initproc p).setState p .zombie) :=
      hf₁.setState (by rw [hrun]; exact nofun) (hd.task ▸ task)
    have hf₃ : Forks (((s.acquire c).disown initproc p).bury p) :=
      hf₂.stays (fun _ => .inl rfl) rfl
    exact hf₃.stays hc.stays hc.task
  | @wait c p free on task =>
    exact Forks.waitTurn (s := s.acquire c) (hf.stays (Stays.refl s) rfl) (h.alive on) hr.symm
  | @trapKill c p on task =>
    cases hr
    have hstays : Stays s (s.modify p fun pr => { pr with killed := true }) := .modify (.inl rfl)
    exact hf.stays hstays rfl
  | @goOn c held =>
    rcases Kernel.goOn_ok hr.symm with hc | ⟨p, on, hw⟩
    · exact hcalm hc
    · have hstays : Stays s (s.modify p fun pr => { pr with chan := none }) := .modify (.inl rfl)
      refine Forks.waitTurn (hf.stays hstays rfl) ?_ hw
      rw [Kernel.modify_self]
      exact h.alive on

/-- Whatever has happened, the CPUs and the forks are in order. -/
theorem placed_of_run (h : Runs initproc es s) : Placed s none ∧ Forks s := by
  refine Trace.Run.invariant (I := fun _ s => Placed s none ∧ Forks s) ⟨.init _, .init _⟩ ?_ h
  rintro _ s e s' ⟨hp, hf⟩ hs
  have hm := moves_of_step hs
  exact ⟨(hp.moves hf hm).1, hf.moves hp hm⟩

/-- **One CPU per process.**  After any run a process is `RUNNING` exactly when it is
the process of exactly one CPU, and the process of a CPU is `RUNNING`; the next event
makes neither `sched` nor `reschedule` panic, and puts no zombie or unused process on
a CPU. -/
theorem one_cpu_per_process (h : Runs initproc es s) :
    (∀ p, (s.proc p).state = .running ↔ ∃! c, s.cpu c = some p) ∧
    (∀ c p, s.cpu c = some p → (s.proc p).state = .running) ∧
    (∀ e, s.act initproc e ≠ some (.error .schedRunning) ∧
      s.act initproc e ≠ some (.error .notRunning)) ∧
    (∀ e s', step initproc s e = some s' → ∀ c p, s'.cpu c = some p → s.cpu c ≠ some p →
      (s.proc p).state ≠ .zombie ∧ (s.proc p).state ≠ .unused) := by
  obtain ⟨hp, hf⟩ := placed_of_run h
  refine ⟨fun p => ⟨fun hr => ?_, ?_⟩, fun c p hc => hp.on c p hc nofun, fun e => ⟨fun he => ?_,
    fun he => ?_⟩, fun e s' hs c p hc hne => ?_⟩
  · obtain ⟨c, hc⟩ := hp.has p hr
    exact ⟨c, hc, fun c' hc' => hp.inj c' c p hc' hc⟩
  · rintro ⟨c, hc, -⟩
    exact hp.on c p hc nofun
  · exact (hp.moves hf (moves_of_act he)).1 rfl
  · exact (hp.moves hf (moves_of_act he)).2 rfl
  · have halive := (hp.moves hf (moves_of_step hs)).2 c p hc hne
    exact ⟨halive.ne_zombie, halive.ne_unused⟩

/-- Two CPUs: `init` forks on the first, the child runs on the second and exits. -/
def childOnOther : List (Event Bool) :=
  [.reschedule false, .goOn false, .allocproc false, .forkCopy false, .forkDone false,
    .reschedule true, .goOn true, .exit true]

theorem one_cpu_per_process_two : ∃ s : Kernel Bool 3, Runs 0 childOnOther s ∧
    (s.proc 1).state = .zombie ∧ s.cpu true = none ∧
    ((s.proc 0).state = .running ↔ ∃! c, s.cpu c = some 0) :=
  Trace.exists_of_exec_imp (Q := fun s => (s.proc 1).state = .zombie ∧ s.cpu true = none)
    (by decide +kernel) fun _ hrun hv => ⟨hv.1, hv.2, (one_cpu_per_process hrun).1 0⟩

end Run

end Xv6.Procs
