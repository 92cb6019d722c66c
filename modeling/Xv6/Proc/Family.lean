/-
# `Xv6.Proc.Family` — exit and wait never lose a child

`Family` says who is whose parent: every process that has been made has a parent that
has not exited, and nobody sleeps in `wait` who has a zombie to reap.  `Lives` ties
this to the history: the number of a process stands for one life of a slot, so that a
pid `wait` returns can be traced to the `fork` that made it and the `exit` that ended
it, although slots are used again and pids wrap around.
-/
import Xv6.Proc.Sched

namespace Xv6.Procs

variable {C : Type} {n : Nat}

/-- No process comes or goes, and the history does not change but for `called`. -/
structure Mild (s s' : Kernel C n) : Prop where
  stays : Stays s s'
  pid : ∀ p, (s'.proc p).pid = (s.proc p).pid
  parent : ∀ p, (s'.proc p).parent = (s.proc p).parent
  task : s'.task = s.task
  births : s'.hist.births = s.hist.births
  life : s'.hist.life = s.hist.life
  exits : s'.hist.exits = s.hist.exits
  reaped : s'.hist.waits = s.hist.waits

theorem Calm.mild {s s' : Kernel C n} (h : Calm s s') : Mild s s' :=
  ⟨h.stays, h.pid, h.parent, h.task, by rw [h.hist], by rw [h.hist], by rw [h.hist], by rw [h.hist]⟩

theorem Mild.modify {s : Kernel C n} {p : Fin n} {f : Proc n → Proc n}
    (hst : (f (s.proc p)).state = (s.proc p).state ∨
      (s.proc p).state.Alive ∧ (f (s.proc p)).state.Alive)
    (hpid : (f (s.proc p)).pid = (s.proc p).pid)
    (hparent : (f (s.proc p)).parent = (s.proc p).parent) : Mild s (s.modify p f) :=
  ⟨.modify hst, Kernel.modify_field Proc.pid hpid, Kernel.modify_field Proc.parent hparent, rfl, rfl,
    rfl, rfl, rfl⟩

/-! ## Parents -/

structure Family (initproc : Fin n) (s : Kernel C n) : Prop where
  root : (s.proc initproc).state.Alive
  orphan : (s.proc initproc).parent = none
  parent : ∀ q, q ≠ initproc → ((s.proc q).state.Alive ∨ (s.proc q).state = .zombie) →
    ∃ r, (s.proc q).parent = some r
  kin : ∀ q r, (s.proc q).parent = some r → (s.proc r).state.Alive
  noself : ∀ q, (s.proc q).parent ≠ some q
  blank : ∀ q, (s.proc q).state = .unused → (s.proc q).parent = none
  forking : ∀ p np, s.task p = .forking np → (s.proc np).parent = none
  copied : ∀ p np, s.task p = .copied np → (s.proc np).parent = some p
  asleep : ∀ p q, s.Waits p → (s.proc q).parent = some p → (s.proc q).state ≠ .zombie

namespace Family

variable {initproc p q np : Fin n} {s s' : Kernel C n}

theorem init (initproc : Fin n) : Family initproc (Kernel.init initproc : Kernel C n) := by
  have hnone : ∀ q, ((Kernel.init initproc : Kernel C n).proc q).parent = none := by
    intro q
    simp only [Kernel.init]
    split <;> rfl
  have hstate : ∀ q, q ≠ initproc → ((Kernel.init initproc : Kernel C n).proc q).state = .unused := by
    intro q hq
    simp only [Kernel.init, if_neg hq]
  refine ⟨?_, hnone _, fun q hq hst => ?_, fun q r hpar => ?_, fun q => ?_, fun q _ => hnone q,
    (by intros; contradiction), (by intros; contradiction), fun p q _ hpar => ?_⟩
  · simp only [Kernel.init, if_true]
    exact .inr (.inl rfl)
  · rw [hstate q hq] at hst
    exact absurd rfl (ProcState.made hst).1
  · rw [hnone] at hpar
    cases hpar
  · rw [hnone]
    simp
  · rw [hnone] at hpar
    cases hpar

section

variable (h : Family initproc s)
include h

theorem ne_root (hq : ¬ (s.proc q).state.Alive) : q ≠ initproc := by
  rintro rfl
  exact hq h.root

theorem mild (hm : Mild s s')
    (hw : ∀ p q, s'.Waits p → (s.proc q).parent = some p → (s.proc q).state ≠ .zombie) :
    Family initproc s' where
  root := hm.stays.symm.alive h.root
  orphan := (hm.parent _).trans h.orphan
  parent q hq hst := by
    have hst' : (s.proc q).state.Alive ∨ (s.proc q).state = .zombie :=
      hst.imp hm.stays.alive hm.stays.zombie
    obtain ⟨r, hr⟩ := h.parent q hq hst'
    exact ⟨r, (hm.parent q).trans hr⟩
  kin q r hr := hm.stays.symm.alive (h.kin q r ((hm.parent q).symm.trans hr))
  noself q := by
    rw [hm.parent]
    exact h.noself q
  blank q hq := (hm.parent q).trans (h.blank q (hm.stays.unused hq))
  forking p np hp := (hm.parent np).trans (h.forking p np (hm.task ▸ hp))
  copied p np hp := (hm.parent np).trans (h.copied p np (hm.task ▸ hp))
  asleep p q hp hpar hz := hw p q hp ((hm.parent q).symm.trans hpar) (hm.stays.zombie hz)

theorem calm (hc : Calm s s') : Family initproc s' :=
  h.mild hc.mild fun p q hp => h.asleep p q (hc.waits p hp)

/-- `p` goes to sleep in `wait` after it has found no zombie. -/
theorem waits (hp : (s.proc p).state.Alive)
    (hno : ∀ q, (s.proc q).parent = some p → (s.proc q).state ≠ .zombie) :
    Family initproc (s.modify p fun pr => { pr with chan := some (.proc p), state := .sleeping }) := by
  refine h.mild (.modify (.inr ⟨hp, .inl rfl⟩) rfl rfl) fun r q hr hq => ?_
  by_cases hrp : r = p
  · exact hno q (hrp ▸ hq)
  · rw [Kernel.Waits, Kernel.modify_of_ne hrp] at hr
    exact h.asleep r q hr hq

/-- What a task says of the process that is being made, if neither has changed. -/
theorem keeps (htask : s'.task p = s.task p)
    (hpar : (s.task p).child = some np → (s'.proc np).parent = (s.proc np).parent) :
    (s'.task p = .forking np → (s'.proc np).parent = none) ∧
      (s'.task p = .copied np → (s'.proc np).parent = some p) := by
  rw [htask]
  refine ⟨fun ht => ?_, fun ht => ?_⟩
  · exact (hpar (by rw [ht]; rfl)).trans (h.forking p np ht)
  · exact (hpar (by rw [ht]; rfl)).trans (h.copied p np ht)

/-- **One process changes** (not `initproc`), and does not go to sleep. -/
theorem change {f : Proc n → Proc n} (hproc : s'.proc = (s.modify q f).proc) (hroot : q ≠ initproc)
    (hparent : (f (s.proc q)).state.Alive ∨ (f (s.proc q)).state = .zombie →
      ∃ r, (f (s.proc q)).parent = some r)
    (hkin : ∀ r, (f (s.proc q)).parent = some r → r ≠ q ∧ (s.proc r).state.Alive)
    (hkids : (s.proc q).state.Alive → ∀ k, (s.proc k).parent ≠ some q)
    (hblank : (f (s.proc q)).state = .unused → (f (s.proc q)).parent = none)
    (htask : ∀ p np, (s'.task p = .forking np → (s'.proc np).parent = none) ∧
      (s'.task p = .copied np → (s'.proc np).parent = some p))
    (hzombie : (f (s.proc q)).state = .zombie → ∀ r, (f (s.proc q)).parent = some r → ¬ s.Waits r)
    (hawake : (f (s.proc q)).state ≠ .sleeping) : Family initproc s' := by
  have hq : s'.proc q = f (s.proc q) := by rw [hproc, Kernel.modify_self]
  have hne : ∀ k, k ≠ q → s'.proc k = s.proc k := fun k hk => by rw [hproc, Kernel.modify_of_ne hk]
  refine ⟨?_, ?_, fun k hk hst => ?_, fun k r hr => ?_, fun k => ?_, fun k hk => ?_,
    fun p np => (htask p np).1, fun p np => (htask p np).2, fun r k hr hk hz => ?_⟩
  · rw [hne _ hroot.symm]
    exact h.root
  · rw [hne _ hroot.symm]
    exact h.orphan
  · by_cases hkq : k = q
    · subst hkq
      rw [hq] at hst ⊢
      exact hparent hst
    · rw [hne k hkq] at hst ⊢
      exact h.parent k hk hst
  · by_cases hkq : k = q
    · subst hkq
      rw [hq] at hr
      obtain ⟨hrk, halive⟩ := hkin r hr
      rwa [hne r hrk]
    · rw [hne k hkq] at hr
      have halive := h.kin k r hr
      have hrq : r ≠ q := by
        rintro rfl
        exact hkids halive k hr
      rwa [hne r hrq]
  · by_cases hkq : k = q
    · rw [hkq, hq]
      exact fun hself => (hkin q hself).1 rfl
    · rw [hne k hkq]
      exact h.noself k
  · by_cases hkq : k = q
    · rw [hkq, hq] at hk ⊢
      exact hblank hk
    · rw [hne k hkq] at hk ⊢
      exact h.blank k hk
  · have hrq : r ≠ q := by
      rintro rfl
      rw [Kernel.Waits, hq] at hr
      exact hawake hr.1
    have hr' : s.Waits r := by rwa [Kernel.Waits, hne r hrq] at hr
    by_cases hkq : k = q
    · rw [hkq, hq] at hk hz
      exact hzombie hz r hk hr'
    · rw [hne k hkq] at hk hz
      exact h.asleep r k hr' hk hz

theorem reap (hf : Forks s) (hz : (s.proc q).state = .zombie) : Family initproc (s.reap p q) := by
  refine h.change (s.reap_proc p q) (h.ne_root (by rw [hz]; decide))
    (fun hst => absurd rfl (ProcState.made hst).1) nofun (fun ha => absurd hz ha.ne_zombie)
    (fun _ => rfl) (fun r np => h.keeps rfl fun hr => ?_) nofun nofun
  rw [Kernel.reap_proc, Kernel.modify_of_ne]
  rintro rfl
  exact absurd ((hf.embryo r np hr).symm.trans hz) nofun

/-! ### The events of `fork` -/

theorem allocproc : Family initproc (s.allocproc p) := by
  rcases s.allocproc_cases p with heq | ⟨np, hnp, hproc, htask, -, -⟩
  · rw [heq]
    exact h
  · have hpar : ∀ k, ((s.allocproc p).proc k).parent = (s.proc k).parent := by
      intro k
      rw [hproc]
      exact Kernel.modify_field Proc.parent rfl k
    refine h.change hproc (h.ne_root (by rw [hnp]; decide))
      (fun hst => absurd rfl (ProcState.made hst).2) (fun r hr => ?_)
      (fun ha => absurd hnp ha.ne_unused) nofun (fun r m => ?_) nofun nofun
    · exact absurd (hr.symm.trans (h.blank np hnp)) nofun
    · by_cases hrp : r = p
      · rw [hrp, htask, Function.update_self, hpar]
        exact ⟨fun he => Task.forking.inj he ▸ h.blank np hnp, nofun⟩
      · exact h.keeps (by rw [htask, Function.update_of_ne hrp]) fun _ => hpar m

/-- `fork` is over, and the process it was making is in the state `st`. -/
theorem forkOver (hembryo : (s.proc np).state = .embryo) {st : ProcState}
    (hst : st ≠ .sleeping ∧ st ≠ .zombie)
    (hparent : st.Alive → ∃ r, (s.proc np).parent = some r)
    (hkin : ∀ r, (s.proc np).parent = some r → r ≠ np ∧ (s.proc r).state.Alive)
    (hblank : st = .unused → (s.proc np).parent = none) :
    Family initproc ((s.setState np st).setTask p .none) := by
  have hpar : ∀ k, ((s.setState np st).proc k).parent = (s.proc k).parent :=
    Kernel.modify_field Proc.parent rfl
  refine h.change (f := fun pr => { pr with state := st }) rfl
    (h.ne_root (by rw [hembryo]; decide)) (fun hst' => ?_) hkin
    (fun ha => absurd hembryo ha.ne_embryo) hblank (fun r m => ?_) (fun hz => absurd hz hst.2) hst.1
  · exact hparent (hst'.resolve_right hst.2)
  · by_cases hrp : r = p
    · rw [hrp, Kernel.setTask_self]
      exact ⟨nofun, nofun⟩
    · exact h.keeps (Function.update_of_ne hrp ..) fun _ => hpar m

theorem forkFail (hf : Forks s) (ht : s.task p = .forking np) :
    Family initproc ((s.setState np .unused).setTask p .none) := by
  have hnone := h.forking p np ht
  refine h.forkOver (hf.embryo p np (by rw [ht]; rfl)) ⟨nofun, nofun⟩ (fun ha => ?_) (fun r hr => ?_)
    fun _ => hnone
  · exact absurd rfl ha.ne_unused
  · exact absurd (hr.symm.trans hnone) nofun

theorem forkCopy (hf : Forks s) (ht : s.task p = .forking np) :
    Family initproc (((s.modify np fun pr => { pr with parent := some p }).park np
      .forkret).setTask p (.copied np)) := by
  have hchild : (s.task p).child = some np := by rw [ht]; rfl
  have hembryo := hf.embryo p np hchild
  have hbusy := hf.busy p (Task.ne_of_child hchild)
  have hpn : p ≠ np := hf.child_ne hchild (Task.ne_of_child hchild)
  set f : Proc n → Proc n := fun pr => { pr with parent := some p } with hset
  have hproc : (((s.modify np f).park np .forkret).setTask p (.copied np)).proc =
      (s.modify np f).proc := rfl
  refine h.change hproc (h.ne_root (by rw [hembryo]; decide))
    (fun hst => absurd hembryo (ProcState.made hst).2)
    (fun r hr => Option.some.inj hr ▸ ⟨hpn, hbusy⟩) (fun ha => absurd hembryo ha.ne_embryo)
    (fun hu => absurd (hembryo.symm.trans hu) nofun) (fun r m => ?_)
    (fun hz => absurd (hembryo.symm.trans hz) nofun) fun hs => absurd (hembryo.symm.trans hs) nofun
  by_cases hrp : r = p
  · rw [hproc, hrp, Kernel.setTask_self]
    refine ⟨nofun, fun he => ?_⟩
    rw [← Task.copied.inj he, Kernel.modify_self]
  · refine h.keeps (Function.update_of_ne hrp ..) fun hr => ?_
    rw [hproc, Kernel.modify_of_ne]
    rintro rfl
    exact hrp (hf.inj r p m hr hchild)

theorem forkDone (hf : Forks s) (hp : (s.proc p).state.Alive) (ht : s.task p = .copied np) :
    Family initproc ((s.setState np .runnable).setTask p .none) := by
  have hchild : (s.task p).child = some np := by rw [ht]; rfl
  have hpar := h.copied p np ht
  refine h.forkOver (hf.embryo p np hchild) ⟨nofun, nofun⟩ (fun _ => ⟨p, hpar⟩) (fun r hr => ?_) nofun
  cases hpar.symm.trans hr
  exact ⟨hf.child_ne hchild (Task.ne_of_child hchild), hp⟩

/-! ### `exit` -/

/-- The children of `p` go to `initproc`. -/
theorem disowned (hp : p ≠ initproc) (ht : s.task p = .none)
    (hd : Disowned initproc p (List.finRange n) s s') : Family initproc s' := by
  have hpar : ∀ q, (s'.proc q).parent =
      if (s.proc q).parent = some p then some initproc else (s.proc q).parent := by
    intro q
    rw [hd.parent]
    simp only [List.mem_finRange, true_and]
  have hkeep : ∀ q, (s.proc q).parent ≠ some p → (s'.proc q).parent = (s.proc q).parent :=
    fun q hq => by rw [hpar, if_neg hq]
  refine ⟨hd.stays.symm.alive h.root, ?_, fun q hq hst => ?_, fun q r hr => ?_, fun q => ?_,
    fun q hq => ?_, fun r np hr => ?_, fun r np hr => ?_, fun r q hr hq hz => ?_⟩
  · rw [hkeep _ (by rw [h.orphan]; exact nofun)]
    exact h.orphan
  · obtain ⟨r, hr⟩ := h.parent q hq (hst.imp hd.stays.alive hd.stays.zombie)
    by_cases hrp : (s.proc q).parent = some p
    · exact ⟨initproc, by rw [hpar, if_pos hrp]⟩
    · exact ⟨r, (hkeep q hrp).trans hr⟩
  · refine hd.stays.symm.alive ?_
    by_cases hrp : (s.proc q).parent = some p
    · rw [hpar, if_pos hrp] at hr
      cases hr
      exact h.root
    · exact h.kin q r ((hkeep q hrp).symm.trans hr)
  · by_cases hrp : (s.proc q).parent = some p
    · rw [hpar, if_pos hrp]
      rintro ⟨⟩
      rw [h.orphan] at hrp
      cases hrp
    · rw [hkeep q hrp]
      exact h.noself q
  · have hnone := h.blank q (hd.stays.unused hq)
    rw [hkeep q (by rw [hnone]; exact nofun)]
    exact hnone
  · have hnone := h.forking r np (hd.task ▸ hr)
    rw [hkeep np (by rw [hnone]; exact nofun)]
    exact hnone
  · rw [hd.task] at hr
    have hsome := h.copied r np hr
    have hrp : r ≠ p := by
      rintro rfl
      rw [ht] at hr
      cases hr
    rw [hkeep np (by rw [hsome]; exact fun he => hrp (Option.some.inj he))]
    exact hsome
  · have hz' := hd.stays.zombie hz
    by_cases hrp : (s.proc q).parent = some p
    · rw [hpar, if_pos hrp] at hq
      cases hq
      exact hd.woken q (List.mem_finRange q) hrp hz' hr
    · rw [hkeep q hrp] at hq
      exact h.asleep r q (hd.waits r hr) hq hz'

theorem bury (hp : p ≠ initproc) (halive : (s.proc p).state.Alive)
    (hkids : ∀ q, (s.proc q).parent ≠ some p)
    (hawake : ∀ r, (s.proc p).parent = some r → ¬ s.Waits r) : Family initproc (s.bury p) := by
  have hpar : ∀ k, ((s.bury p).proc k).parent = (s.proc k).parent := by
    intro k
    rw [Kernel.bury_proc]
    exact Kernel.modify_field Proc.parent rfl k
  refine h.change (f := fun pr => { pr with state := .zombie }) rfl hp
    (fun _ => h.parent p hp (.inl halive)) (fun r hr => ⟨?_, h.kin p r hr⟩) (fun _ => hkids) nofun
    (fun r np => h.keeps rfl fun _ => hpar np) (fun _ => hawake) nofun
  rintro rfl
  exact h.noself r hr

end

end Family

end Xv6.Procs
