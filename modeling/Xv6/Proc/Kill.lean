/-
# `Xv6.Proc.Kill` — whom `kill` hits

`kill` looks for its pid in the whole table, so it also finds slots that are not in
use: those `wait` has cleared have pid 0, and those of a `fork` that failed keep the
pid of the process that was not made.  Such a slot is marked as killed, nobody
resets the mark, and the next process made there is born killed.  Where this does not
happen `killed` means that the process itself was killed.
-/
import Xv6.Proc.Lives

namespace Xv6.Procs

variable {C : Type} {n : Nat}

/-- `kill` is not called with a pid that a slot not in use has, and `fork` does not fail
after `kill` has hit the process it is making. -/
def Aimed (s : Kernel C n) : Event C → Prop
  | .kill _ pid => ∀ q, (s.proc q).state = .unused → (s.proc q).pid ≠ pid
  | .forkFail c => ∀ p np, s.cpu c = some p → s.task p = .forking np → (s.proc np).killed = false
  | _ => True

instance (s : Kernel C n) : (e : Event C) → Decidable (Aimed s e)
  | .kill _ pid => inferInstanceAs (Decidable (∀ q, (s.proc q).state = .unused → (s.proc q).pid ≠ pid))
  | .forkFail c => inferInstanceAs (Decidable (∀ p np, s.cpu c = some p → s.task p = .forking np →
      (s.proc np).killed = false))
  | .reschedule _ | .yield _ | .sleep _ _ | .wakeup _ | .allocproc _ | .forkCopy _ | .forkDone _
  | .exit _ | .wait _ | .trapKill _ | .goOn _ => inferInstanceAs (Decidable True)

/-- A mark means that the process is there and was killed. -/
def Marked (s : Kernel C n) : Prop :=
  ∀ p, (s.proc p).killed = true → (s.proc p).state ≠ .unused ∧ s.hist.called p = true

namespace Marked

variable {s s' : Kernel C n} {p q np : Fin n}

theorem calm (h : Marked s) (hc : Calm s s') : Marked s' := by
  intro p hp
  rw [hc.killed] at hp
  obtain ⟨hu, hcalled⟩ := h p hp
  rw [hc.hist]
  exact ⟨fun hu' => hu (hc.stays.unused hu'), hcalled⟩

theorem kill (h : Marked s) {pid : BitVec 32}
    (haim : ∀ q, (s.proc q).state = .unused → (s.proc q).pid ≠ pid) : Marked (s.kill pid).2 := by
  obtain ⟨hproc, -, -, hhist⟩ := s.kill_cases pid
  intro k hk
  rw [hhist]
  have hunused : (s.proc k).state ≠ .unused → ((s.kill pid).2.proc k).state ≠ .unused :=
    fun hu hu' => hu ((s.kill_stays pid).unused hu')
  have hold : (s.proc k).killed = true → ((s.kill pid).2.proc k).state ≠ .unused ∧
      (s.hist.called k || (s.proc k).pid = pid) = true := by
    intro hk
    obtain ⟨hu, hcalled⟩ := h k hk
    exact ⟨hunused hu, by rw [hcalled, Bool.true_or]⟩
  rcases hproc with ⟨-, -, hproc⟩ | ⟨p, htarget, -, hproc⟩
  · rw [hproc] at hk
    exact hold hk
  · by_cases hkp : k = p
    · subst hkp
      have hpid := Kernel.killTarget_pid htarget
      refine ⟨hunused fun hu => haim k hu hpid, ?_⟩
      simp [hpid]
    · rw [hproc, Kernel.modify_of_ne hkp] at hk
      exact hold hk

theorem allocproc (h : Marked s) : Marked (s.allocproc p) := by
  rcases s.allocproc_cases p with heq | ⟨np, hnp, hproc, -, -, hhist⟩
  · rw [heq]
    exact h
  · intro k hk
    rw [hproc] at hk ⊢
    rw [hhist]
    rw [Kernel.modify_field Proc.killed rfl] at hk
    obtain ⟨hu, hcalled⟩ := h k hk
    have hkn : k ≠ np := by
      rintro rfl
      exact hu hnp
    rw [Kernel.modify_of_ne hkn]
    exact ⟨hu, (Function.update_of_ne hkn ..).trans hcalled⟩

theorem change (h : Marked s) {f : Proc n → Proc n} (hproc : s'.proc = (s.modify q f).proc)
    (hcalled : s'.hist.called = s.hist.called)
    (hf : (f (s.proc q)).killed = true → (s.proc q).killed = true ∧ (f (s.proc q)).state ≠ .unused) :
    Marked s' := by
  intro k hk
  rw [hproc] at hk ⊢
  rw [hcalled]
  by_cases hkq : k = q
  · subst hkq
    rw [Kernel.modify_self] at hk ⊢
    obtain ⟨hk', hu⟩ := hf hk
    exact ⟨hu, (h k hk').2⟩
  · rw [Kernel.modify_of_ne hkq] at hk ⊢
    exact h k hk

end Marked

section Run

variable [NeZero n] [DecidableEq C] {s s' : Kernel C n} {e : Event C} {initproc : Fin n}
  {es : List (Event C)}

theorem Marked.waitTurn (h : Marked s) {c : C} {p : Fin n}
    (hw : s.waitTurn c p = .ok s') : Marked s' := by
  rcases Kernel.waitTurn_ok hw with ⟨q, -, -, rfl⟩ | rfl | ⟨-, hcalm⟩
  · have hreap : Marked (s.reap p q) := h.change (s.reap_proc p q) rfl nofun
    exact hreap.calm .release
  · exact h.calm .release
  · have hsleep : Marked (s.modify p fun pr =>
        { pr with chan := some (.proc p), state := .sleeping }) :=
      h.change rfl rfl fun hk => ⟨hk, nofun⟩
    exact hsleep.calm hcalm

/-- **Every aimed event keeps the marks.** -/
theorem Marked.moves (h : Marked s) (hk : Kin initproc s) (ha : Aimed s e)
    (hm : Moves initproc s e (.ok s')) : Marked s' := by
  have hp := hk.placed
  generalize hr : Except.ok s' = r at hm
  cases hm with
  | reschedule free => exact h.calm (Kernel.reschedule_calm hr.symm)
  | yield free on task => exact h.calm (Kernel.yield_calm (hp.alive on) hr.symm)
  | sleep free on task => exact h.calm (Kernel.sleep_calm (hp.alive on) hr.symm)
  | wakeup free => cases hr; exact h.calm .wakeup1
  | kill free on task => cases hr; exact h.kill ha
  | allocproc free on task => cases hr; exact h.allocproc
  | @forkFail c p np on task =>
    cases hr
    have hno : (s.proc np).killed = false := ha p np on task
    refine h.change (f := fun pr => { pr with state := .unused }) rfl rfl fun hk => ?_
    exact absurd (hno.symm.trans hk) nofun
  | @forkCopy c p np on task =>
    cases hr
    exact h.change (f := fun pr => { pr with parent := some p }) rfl rfl
      fun hk => ⟨hk, (h np hk).1⟩
  | @forkDone c p np free on task =>
    cases hr
    exact h.change (f := fun pr => { pr with state := .runnable }) rfl rfl
      fun hk => ⟨hk, nofun⟩
  | @exit c p free on task =>
    obtain ⟨-, hc⟩ := Kernel.exit_ok hr.symm
    have hd := (Disowned.disown initproc p (s.acquire c)).1
    have hdis : Marked ((s.acquire c).disown initproc p) := by
      intro k hk
      rw [hd.killed] at hk
      obtain ⟨hu, hcalled⟩ := h k hk
      rw [hd.hist]
      exact ⟨fun hu' => hu (hd.stays.unused hu'), hcalled⟩
    have hbury : Marked (((s.acquire c).disown initproc p).bury p) :=
      hdis.change (f := fun pr => { pr with state := .zombie }) rfl rfl
        fun hk => ⟨hk, nofun⟩
    exact hbury.calm hc
  | @wait c p free on task =>
    exact Marked.waitTurn (h.calm (.acquire c)) hr.symm
  | @trapKill c p on task =>
    cases hr
    intro k hk
    have hk' : ((s.modify p fun pr => { pr with killed := true }).proc k).killed = true := hk
    show ((s.modify p fun pr => { pr with killed := true }).proc k).state ≠ .unused ∧
      Function.update s.hist.called p true k = true
    by_cases hkp : k = p
    · rw [hkp, Kernel.modify_self, Function.update_self]
      exact ⟨(hp.alive on).ne_unused, rfl⟩
    · rw [Kernel.modify_of_ne hkp] at hk' ⊢
      rw [Function.update_of_ne hkp]
      exact h k hk'
  | @goOn c held =>
    rcases Kernel.goOn_ok hr.symm with hc | ⟨p, on, hw⟩
    · exact h.calm hc
    · have hclear : Calm s (s.modify p fun pr => { pr with chan := none }) :=
        .modify (.inl rfl) (fun _ hc => (nomatch hc)) rfl rfl rfl
      exact Marked.waitTurn (h.calm hclear) hw

/-- **Kill hits only its target**, in every run whose events are all aimed: a process
is marked as killed only if `kill` was called with its pid since it was made, or a trap
killed it; `kill` returns 0 only if there is a process with that pid; and a process that
is being made is not marked. -/
theorem kill_hits_target (h : Runs initproc es s)
    (ha : ∀ pre e post t, es = pre ++ e :: post → Runs initproc pre t → Aimed t e) :
    (∀ p, (s.proc p).state ≠ .unused → (s.proc p).killed = true → s.hist.called p = true) ∧
    (∀ c pid, Aimed s (.kill c pid) → (s.kill pid).1 = 0 →
      ∃ p, (s.proc p).state ≠ .unused ∧ (s.proc p).pid = pid) ∧
    (∀ p np, (s.proc np).state = .unused → ((s.allocproc p).proc np).state = .embryo →
      ((s.allocproc p).proc np).killed = false) := by
  have hm : Marked s := by
    refine h.guarded (I := Marked) (G := Aimed) (fun p hp => ?_) ?_ ha
    · simp only [Kernel.init] at hp
      split at hp <;> cases hp
    · intro es s e s' hr hs hae hst
      exact hs.moves (kin_of_run hr) hae (moves_of_step hst)
  refine ⟨fun p _ hp => (hm p hp).2, fun c pid haim hkill => ?_, fun p np hu _ => ?_⟩
  · rcases (s.kill_cases pid).1 with ⟨-, hres, -⟩ | ⟨p, htarget, -, -⟩
    · rw [hres] at hkill
      cases hkill
    · have hpid := Kernel.killTarget_pid htarget
      exact ⟨p, fun hu => haim p hu hpid, hpid⟩
  · have hno : (s.proc np).killed = false := by
      by_contra hk
      exact (hm np (Bool.not_eq_false _ ▸ hk)).1 hu
    rcases s.allocproc_cases p with heq | ⟨k, -, hproc, -⟩
    · rw [heq]
      exact hno
    · rw [hproc, Kernel.modify_field Proc.killed rfl]
      exact hno

/-- `init` forks a child and kills it. -/
def killChild : List (Event Unit) :=
  [.reschedule (), .goOn (), .allocproc (), .forkCopy (), .forkDone (), .kill () 2]

theorem kill_hits_target_child : ∃ s : Kernel Unit 3, Runs 0 killChild s ∧
    (s.proc 1).killed = true ∧ s.hist.called 1 = true := by
  refine Trace.exists_of_exec_imp
    (Q := fun s => (s.proc 1).killed = true ∧ (s.proc 1).state = .runnable) (by decide +kernel) ?_
  rintro s hrun ⟨hkilled, hstate⟩
  obtain ⟨hcalled, -⟩ := kill_hits_target hrun (Trace.guard_of_checks (by decide +kernel))
  exact ⟨hkilled, hcalled 1 (by rw [hstate]; exact nofun) hkilled⟩

end Run

/-- `init` calls `kill(0)` and forks. -/
def killZero : List (Event Unit) := [.reschedule (), .goOn ()]

/-- **`kill(0)` returns 0 although no process has pid 0, and the next child is born
killed**, without `kill` having been called with its pid. -/
theorem kill_hits_unused :
    ∃ s t : Kernel Unit 3, Runs 0 killZero s ∧ (s.kill 0).1 = 0 ∧
      (∀ p, (s.proc p).state ≠ .unused → (s.proc p).pid ≠ 0) ∧
      Runs 0 (killZero ++ [.kill () 0, .allocproc (), .forkCopy (), .forkDone ()]) t ∧
      (t.proc 1).state = .runnable ∧ (t.proc 1).killed = true ∧ t.hist.called 1 = false := by
  obtain ⟨s, hs, hkill, hpid⟩ : ∃ s : Kernel Unit 3, Runs 0 killZero s ∧ (s.kill 0).1 = 0 ∧
      ∀ p, (s.proc p).state ≠ .unused → (s.proc p).pid ≠ 0 :=
    Trace.exists_of_exec (by decide +kernel)
  exact ⟨s, (Trace.exists_of_exec (by decide +kernel)).imp fun t ht => ⟨hs, hkill, hpid, ht⟩⟩

end Xv6.Procs
