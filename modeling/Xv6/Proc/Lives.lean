/-
# `Xv6.Proc.Lives` — every pid `wait` returns is that of an exited child

The processes ever made are numbered, and the number in a slot is that of the process
in it.  `Lives` says what the history records of the processes there are and of those
`wait` has returned; with `Family` it is kept by every event.
-/
import Xv6.Proc.Family

namespace Xv6.Procs

open List

variable {C : Type} {n : Nat}

structure Lives (initproc : Fin n) (s : Kernel C n) : Prop where
  born : ∀ p, (s.proc p).state ≠ .unused →
    ∃ b, s.hist.births[s.hist.life p]? = some b ∧ b.pid = (s.proc p).pid
  inj : ∀ p q, (s.proc p).state ≠ .unused → (s.proc q).state ≠ .unused →
    s.hist.life p = s.hist.life q → p = q
  father : ∀ q r, (s.proc q).state ≠ .unused → (s.proc q).parent = some r →
    ∃ b, s.hist.births[s.hist.life q]? = some b ∧
      (b.father = s.hist.life r ∨ r = initproc ∧ b.father ∈ s.hist.exits)
  forking : ∀ p np, s.task p = .forking np →
    ∃ b, s.hist.births[s.hist.life np]? = some b ∧ b.father = s.hist.life p
  exited : ∀ p, (s.proc p).state = .zombie → s.hist.life p ∈ s.hist.exits
  first : s.hist.life initproc = 0
  waited : ∀ w ∈ s.hist.waits, w.child ∈ s.hist.exits ∧
    ∃ b, s.hist.births[w.child]? = some b ∧ b.pid = w.pid ∧
      (b.father = w.caller ∨ w.caller = 0 ∧ b.father ∈ s.hist.exits)
  fresh : ∀ p, (s.proc p).state ≠ .unused → ∀ w ∈ s.hist.waits, w.child ≠ s.hist.life p
  once : (s.hist.waits.map Reaped.child).Nodup

namespace Lives

variable {initproc p q np : Fin n} {s s' : Kernel C n}

theorem init (initproc : Fin n) : Lives initproc (Kernel.init initproc : Kernel C n) := by
  have hstate : ∀ q, ((Kernel.init initproc : Kernel C n).proc q).state ≠ .unused → q = initproc := by
    intro q hq
    by_contra hne
    exact hq (by simp only [Kernel.init, if_neg hne])
  refine ⟨fun p hp => ?_, fun p q hp hq _ => ?_, fun q r hq hr => ?_, (by intros; contradiction), fun p hp => ?_, rfl,
    (by intros; contradiction), (by intros; contradiction), nodup_nil⟩
  · exact ⟨⟨1, 0⟩, rfl, by rw [hstate p hp]; simp only [Kernel.init, if_true]⟩
  · rw [hstate p hp, hstate q hq]
  · simp only [Kernel.init] at hr
    split at hr <;> cases hr
  · simp only [Kernel.init] at hp
    split at hp <;> cases hp

section

variable (h : Lives initproc s)
include h

theorem mild (hm : Mild s s') : Lives initproc s' := by
  have hst : ∀ p, (s'.proc p).state ≠ .unused → (s.proc p).state ≠ .unused :=
    fun p hp hu => hp (hm.stays.symm.unused hu)
  obtain ⟨hstays, hpid, hparent, htask, hbirths, hlife, hexits, hreaped⟩ := hm
  constructor
  · intro p hp
    rw [hbirths, hlife, hpid]
    exact h.born p (hst p hp)
  · intro p q hp hq
    rw [hlife]
    exact h.inj p q (hst p hp) (hst q hq)
  · intro q r hq hr
    rw [hbirths, hlife, hexits]
    exact h.father q r (hst q hq) ((hparent q).symm.trans hr)
  · intro p np hp
    rw [hbirths, hlife]
    exact h.forking p np (htask ▸ hp)
  · intro p hp
    rw [hlife, hexits]
    exact h.exited p (hstays.zombie hp)
  · rw [hlife]
    exact h.first
  · rw [hreaped, hexits, hbirths]
    exact h.waited
  · intro p hp
    rw [hreaped, hlife]
    exact h.fresh p (hst p hp)
  · rw [hreaped]
    exact h.once

/-- The numbers in use are those of births. -/
theorem life_lt (hp : (s.proc p).state ≠ .unused) : s.hist.life p < s.hist.births.length := by
  obtain ⟨b, hb, -⟩ := h.born p hp
  exact (List.getElem?_eq_some_iff.mp hb).1

/-- **A new process gets a new number.** -/
theorem allocproc (hfam : Family initproc s) (hf : Forks s)
    (hp : (s.proc p).state.Alive) : Lives initproc (s.allocproc p) := by
  rcases s.allocproc_cases p with heq | ⟨np, hnp, hproc, htask, -, hhist⟩
  · rw [heq]
    exact h
  have hne : ∀ k, k ≠ np → (s.allocproc p).proc k = s.proc k := fun k hk => by
    rw [hproc, Kernel.modify_of_ne hk]
  have hself : (s.allocproc p).proc np =
      { s.proc np with state := .embryo, pid := s.nextpid } := by
    rw [hproc, Kernel.modify_self]
  have hlife : ∀ k, k ≠ np → (s.allocproc p).hist.life k = s.hist.life k := fun k hk => by
    rw [hhist]
    exact Function.update_of_ne hk ..
  have hlife' : (s.allocproc p).hist.life np = s.hist.births.length := by
    rw [hhist]
    exact Function.update_self ..
  have hbirths : ∀ {k : Nat} {b : Birth}, s.hist.births[k]? = some b →
      (s.allocproc p).hist.births[k]? = some b := by
    intro k b hb
    rw [hhist]
    exact (List.getElem?_append_left (List.getElem?_eq_some_iff.mp hb).1).trans hb
  have hbirth : (s.allocproc p).hist.births[s.hist.births.length]? =
      some ⟨s.nextpid, s.hist.life p⟩ := by
    rw [hhist]
    exact List.getElem?_concat_length
  have hexits : (s.allocproc p).hist.exits = s.hist.exits := by rw [hhist]
  have hwaits : (s.allocproc p).hist.waits = s.hist.waits := by rw [hhist]
  have hpn : p ≠ np := by
    rintro rfl
    exact hp.ne_unused hnp
  constructor
  · intro k hk
    by_cases hkn : k = np
    · rw [hkn, hlife', hself]
      exact ⟨_, hbirth, rfl⟩
    · rw [hne k hkn] at hk ⊢
      obtain ⟨b, hb, hpid⟩ := h.born k hk
      exact ⟨b, hlife k hkn ▸ hbirths hb, hpid⟩
  · intro k m hk hm hkm
    by_cases hkn : k = np <;> by_cases hmn : m = np
    · rw [hkn, hmn]
    · rw [hne m hmn] at hm
      rw [hkn, hlife', hlife m hmn] at hkm
      exact absurd (h.life_lt hm) (hkm ▸ lt_irrefl _)
    · rw [hne k hkn] at hk
      rw [hmn, hlife', hlife k hkn] at hkm
      exact absurd (h.life_lt hk) (hkm ▸ lt_irrefl _)
    · rw [hne k hkn] at hk
      rw [hne m hmn] at hm
      rw [hlife k hkn, hlife m hmn] at hkm
      exact h.inj k m hk hm hkm
  · intro k r hk hr
    have hkn : k ≠ np := by
      rintro rfl
      rw [hself] at hr
      exact absurd (hr.symm.trans (hfam.blank k hnp)) nofun
    rw [hne k hkn] at hk hr
    have hrn : r ≠ np := by
      rintro rfl
      exact (hfam.kin k r hr).ne_unused hnp
    obtain ⟨b, hb, hfather⟩ := h.father k r hk hr
    rw [hlife k hkn, hlife r hrn, hexits]
    exact ⟨b, hbirths hb, hfather⟩
  · intro k m hk
    rw [htask] at hk
    by_cases hkp : k = p
    · rw [hkp, Function.update_self] at hk
      cases hk
      rw [hlife', hkp, hlife p hpn]
      exact ⟨_, hbirth, rfl⟩
    · rw [Function.update_of_ne hkp] at hk
      have hchild : (s.task k).child = some m := by rw [hk]; rfl
      have hmn : m ≠ np := by
        rintro rfl
        rw [hf.embryo k m hchild] at hnp
        cases hnp
      have hkn : k ≠ np := by
        rintro rfl
        exact (hf.busy k (by rw [hk]; exact nofun)).ne_unused hnp
      obtain ⟨b, hb, hfather⟩ := h.forking k m hk
      rw [hlife m hmn, hlife k hkn]
      exact ⟨b, hbirths hb, hfather⟩
  · intro k hk
    have hkn : k ≠ np := by
      rintro rfl
      rw [hself] at hk
      cases hk
    rw [hne k hkn] at hk
    rw [hlife k hkn, hexits]
    exact h.exited k hk
  · have hin : initproc ≠ np := by
      rintro rfl
      exact hfam.root.ne_unused hnp
    rw [hlife _ hin]
    exact h.first
  · intro w hw
    rw [hwaits] at hw
    obtain ⟨hex, b, hb, hpid, hfather⟩ := h.waited w hw
    rw [hexits]
    exact ⟨hex, b, hbirths hb, hpid, hfather⟩
  · intro k hk w hw
    rw [hwaits] at hw
    by_cases hkn : k = np
    · rw [hkn, hlife']
      obtain ⟨-, b, hb, -⟩ := h.waited w hw
      exact (List.getElem?_eq_some_iff.mp hb).1.ne
    · rw [hne k hkn] at hk
      rw [hlife k hkn]
      exact h.fresh k hk w hw
  · rw [hwaits]
    exact h.once

/-- One slot changes without coming to life, and the history does not. -/
theorem change {f : Proc n → Proc n} (hproc : s'.proc = (s.modify q f).proc)
    (hhist : s'.hist = s.hist)
    (hst : (f (s.proc q)).state ≠ .unused →
      (s.proc q).state ≠ .unused ∧ (f (s.proc q)).pid = (s.proc q).pid)
    (hz : (f (s.proc q)).state ≠ .zombie)
    (hparent : ∀ r, (f (s.proc q)).parent = some r → (s.proc q).parent = some r ∨
      ∃ b, s.hist.births[s.hist.life q]? = some b ∧ b.father = s.hist.life r)
    (htask : ∀ p np, s'.task p = .forking np → s.task p = .forking np) : Lives initproc s' := by
  have hq : s'.proc q = f (s.proc q) := by rw [hproc, Kernel.modify_self]
  have hne : ∀ k, k ≠ q → s'.proc k = s.proc k := fun k hk => by rw [hproc, Kernel.modify_of_ne hk]
  have hused : ∀ k, (s'.proc k).state ≠ .unused → (s.proc k).state ≠ .unused := by
    intro k hk
    by_cases hkq : k = q
    · rw [hkq, hq] at hk
      rw [hkq]
      exact (hst hk).1
    · rwa [hne k hkq] at hk
  constructor
  · intro k hk
    rw [hhist]
    obtain ⟨b, hb, hpid⟩ := h.born k (hused k hk)
    refine ⟨b, hb, ?_⟩
    by_cases hkq : k = q
    · rw [hkq, hq] at hk ⊢
      rw [hkq] at hpid
      exact hpid.trans (hst hk).2.symm
    · rw [hne k hkq]
      exact hpid
  · intro k m hk hm
    rw [hhist]
    exact h.inj k m (hused k hk) (hused m hm)
  · intro k r hk hr
    rw [hhist]
    by_cases hkq : k = q
    · rw [hkq] at hk ⊢
      rw [hkq, hq] at hr
      rcases hparent r hr with hr' | ⟨b, hb, hfather⟩
      · exact h.father q r (hused q hk) hr'
      · exact ⟨b, hb, .inl hfather⟩
    · rw [hne k hkq] at hr
      exact h.father k r (hused k hk) hr
  · intro k m hk
    rw [hhist]
    exact h.forking k m (htask k m hk)
  · intro k hk
    have hkq : k ≠ q := by
      rintro rfl
      rw [hq] at hk
      exact hz hk
    rw [hne k hkq] at hk
    rw [hhist]
    exact h.exited k hk
  · rw [hhist]
    exact h.first
  · rw [hhist]
    exact h.waited
  · intro k hk
    rw [hhist]
    exact h.fresh k (hused k hk)
  · rw [hhist]
    exact h.once

theorem forkFail : Lives initproc ((s.setState np .unused).setTask p .none) := by
  refine h.change (f := fun pr => { pr with state := .unused }) rfl rfl
    (fun hu => absurd rfl hu) nofun (fun r hr => .inl hr) fun k m hk => ?_
  exact (Kernel.task_of_setTask hk nofun).2

theorem forkCopy (ht : s.task p = .forking np) (hf : Forks s) :
    Lives initproc (((s.modify np fun pr => { pr with parent := some p }).park np
      .forkret).setTask p (.copied np)) := by
  have hembryo := hf.embryo p np (by rw [ht]; rfl)
  refine h.change (f := fun pr => { pr with parent := some p }) rfl rfl
    (fun _ => ⟨by rw [hembryo]; exact nofun, rfl⟩) (fun hz => ?_) (fun r hr => ?_) fun k m hk => ?_
  · exact absurd (hembryo.symm.trans hz) nofun
  · cases hr
    exact .inr (h.forking p np ht)
  · have hkp : k ≠ p := by
      rintro rfl
      exact absurd (Kernel.setTask_self.symm.trans hk) nofun
    exact (Function.update_of_ne hkp ..).symm.trans hk

theorem forkDone (ht : s.task p = .copied np) (hf : Forks s) :
    Lives initproc ((s.setState np .runnable).setTask p .none) := by
  have hembryo := hf.embryo p np (by rw [ht]; rfl)
  refine h.change (f := fun pr => { pr with state := .runnable }) rfl rfl
    (fun _ => ⟨by rw [hembryo]; exact nofun, rfl⟩) nofun (fun r hr => .inl hr) fun k m hk => ?_
  exact (Kernel.task_of_setTask hk nofun).2

/-- **`wait` returns the pid of an exited child**, for the first time. -/
theorem reap (hz : (s.proc q).state = .zombie)
    (hpar : (s.proc q).parent = some p) : Lives initproc (s.reap p q) := by
  have hused : (s.proc q).state ≠ .unused := by rw [hz]; exact nofun
  -- the slot is unused; the number goes to the list of those returned
  have hslot : Lives initproc { s.modify q Proc.reaped with hist := s.hist } :=
    h.change rfl rfl (fun hu => absurd rfl hu) nofun nofun fun _ _ => id
  refine ⟨hslot.born, hslot.inj, hslot.father, hslot.forking, hslot.exited, h.first, fun w hw => ?_,
    fun k hk w hw => ?_, ?_⟩
  · rcases mem_cons.mp hw with rfl | hw
    · obtain ⟨b, hb, hpid⟩ := h.born q hused
      obtain ⟨b', hb', hfather⟩ := h.father q p hused hpar
      cases hb.symm.trans hb'
      refine ⟨h.exited q hz, b, hb, hpid, hfather.imp_right fun ⟨hp, hex⟩ => ⟨?_, hex⟩⟩
      rw [hp]
      exact h.first
    · exact h.waited w hw
  · rcases mem_cons.mp hw with rfl | hw
    · intro heq
      have hkq : k ≠ q := by
        rintro rfl
        rw [Kernel.reap_proc, Kernel.modify_self] at hk
        exact hk rfl
      rw [Kernel.reap_proc, Kernel.modify_of_ne hkq] at hk
      exact hkq (h.inj k q hk hused heq.symm)
    · exact hslot.fresh k hk w hw
  · refine nodup_cons.mpr ⟨fun hmem => ?_, h.once⟩
    obtain ⟨w, hw, heq⟩ := mem_map.mp hmem
    exact h.fresh q hused w hw heq

/-- `exit`: the children that go to `initproc` have a father that has exited. -/
theorem exit (hp : p ≠ initproc) (halive : (s.proc p).state.Alive)
    (hd : Disowned initproc p (List.finRange n) s s') : Lives initproc (s'.bury p) := by
  have hpar : ∀ q, (s'.proc q).parent =
      if (s.proc q).parent = some p then some initproc else (s.proc q).parent := by
    intro q
    rw [hd.parent]
    simp only [mem_finRange, true_and]
  have hkeep : ∀ {β : Type} (v : Proc n → β), (∀ pr : Proc n, v { pr with state := .zombie } = v pr) →
      ∀ q, v ((s'.bury p).proc q) = v (s'.proc q) := by
    intro β v hv q
    rw [Kernel.bury_proc]
    exact Kernel.modify_field v (hv _) q
  have hne : ∀ q, q ≠ p → (s'.bury p).proc q = s'.proc q := fun q hq => by
    rw [Kernel.bury_proc, Kernel.setState_of_ne hq]
  have hused : ∀ q, ((s'.bury p).proc q).state ≠ .unused → (s.proc q).state ≠ .unused := by
    intro q hq
    by_cases hqp : q = p
    · rw [hqp]
      exact halive.ne_unused
    · rw [hne q hqp] at hq
      exact fun hu => hq (hd.stays.symm.unused hu)
  have hexits : (s'.bury p).hist.exits = s.hist.life p :: s.hist.exits := by
    show s'.hist.life p :: s'.hist.exits = _
    rw [hd.hist]
  have hhist : (s'.bury p).hist.births = s.hist.births ∧ (s'.bury p).hist.life = s.hist.life ∧
      (s'.bury p).hist.waits = s.hist.waits := by
    refine ⟨?_, ?_, ?_⟩
    · show s'.hist.births = _
      rw [hd.hist]
    · show s'.hist.life = _
      rw [hd.hist]
    · show s'.hist.waits = _
      rw [hd.hist]
  obtain ⟨hbirths, hlife, hwaits⟩ := hhist
  constructor
  · intro q hq
    rw [hbirths, hlife, hkeep Proc.pid fun _ => rfl, hd.pid]
    exact h.born q (hused q hq)
  · intro q r hq hr
    rw [hlife]
    exact h.inj q r (hused q hq) (hused r hr)
  · intro q r hq hr
    rw [hkeep Proc.parent fun _ => rfl, hpar] at hr
    rw [hbirths, hlife, hexits]
    split at hr
    · rename_i hqp
      cases hr
      obtain ⟨b, hb, hfather⟩ := h.father q p (hused q hq) hqp
      have heq : b.father = s.hist.life p := hfather.resolve_right fun hc => hp hc.1
      exact ⟨b, hb, .inr ⟨rfl, heq ▸ mem_cons_self⟩⟩
    · obtain ⟨b, hb, hfather⟩ := h.father q r (hused q hq) hr
      exact ⟨b, hb, hfather.imp_right fun hc => ⟨hc.1, mem_cons_of_mem _ hc.2⟩⟩
  · intro q np hq
    rw [hbirths, hlife]
    exact h.forking q np (hd.task ▸ hq)
  · intro q hq
    rw [hlife, hexits]
    by_cases hqp : q = p
    · rw [hqp]
      exact mem_cons_self
    · rw [hne q hqp] at hq
      exact mem_cons_of_mem _ (h.exited q (hd.stays.zombie hq))
  · rw [hlife]
    exact h.first
  · intro w hw
    rw [hwaits] at hw
    obtain ⟨hex, b, hb, hpid, hfather⟩ := h.waited w hw
    rw [hexits, hbirths]
    exact ⟨mem_cons_of_mem _ hex, b, hb, hpid,
      hfather.imp_right fun hc => ⟨hc.1, mem_cons_of_mem _ hc.2⟩⟩
  · intro q hq w hw
    rw [hwaits] at hw
    rw [hlife]
    exact h.fresh q (hused q hq) w hw
  · rw [hwaits]
    exact h.once

end

end Lives

/-! ## Runs -/

/-- Everything that is kept about parents, children and their history. -/
structure Kin (initproc : Fin n) (s : Kernel C n) : Prop where
  placed : Placed s none
  forks : Forks s
  family : Family initproc s
  lives : Lives initproc s

theorem Kernel.kill_mild (s : Kernel C n) (pid : BitVec 32) :
    Mild s (s.kill pid).2 ∧ ∀ p, (s.kill pid).2.Waits p → s.Waits p := by
  obtain ⟨hproc, -, htask, hhist⟩ := s.kill_cases pid
  have hfield : ∀ {β : Type} (v : Proc n → β), (∀ pr : Proc n, v pr.kill = v pr) →
      ∀ p, v ((s.kill pid).2.proc p) = v (s.proc p) := by
    intro β v hv p
    rcases hproc with ⟨-, -, hproc⟩ | ⟨k, -, -, hproc⟩
    · rw [hproc]
    · rw [hproc]
      exact Kernel.modify_field v (hv _) p
  refine ⟨⟨s.kill_stays pid, hfield Proc.pid fun _ => rfl, hfield Proc.parent fun _ => rfl, htask,
    by rw [hhist], by rw [hhist], by rw [hhist], by rw [hhist]⟩, fun p hp => ?_⟩
  refine ⟨?_, (hfield Proc.chan (fun _ => rfl) p).symm.trans hp.2⟩
  have hs := hp.1
  rcases hproc with ⟨-, -, hproc⟩ | ⟨k, -, -, hproc⟩
  · rwa [hproc] at hs
  · rw [hproc] at hs
    by_cases hpk : p = k
    · rw [hpk, Kernel.modify_self, Proc.kill] at hs
      split at hs
      · cases hs
      · rename_i hno
        exact absurd hs hno
    · rwa [Kernel.modify_of_ne hpk] at hs

section Run

variable [NeZero n] [DecidableEq C] {s s' : Kernel C n} {e : Event C} {initproc : Fin n}
  {es : List (Event C)}

theorem family_waitTurn {c : C} {p : Fin n} (hfam : Family initproc s) (hl : Lives initproc s)
    (hf : Forks s) (hp : (s.proc p).state.Alive) (h : s.waitTurn c p = .ok s') :
    Family initproc s' ∧ Lives initproc s' := by
  rcases Kernel.waitTurn_ok h with ⟨q, hpar, hz, rfl⟩ | rfl | ⟨hno, hcalm⟩
  · have hfam' : Family initproc (s.reap p q) := hfam.reap hf hz
    exact ⟨hfam'.calm .release, (hl.reap hz hpar).mild Calm.release.mild⟩
  · exact ⟨hfam.calm .release, hl.mild Calm.release.mild⟩
  · refine ⟨(hfam.waits hp hno).calm hcalm, (hl.mild ?_).mild hcalm.mild⟩
    exact .modify (.inr ⟨hp, .inl rfl⟩) rfl rfl

/-- **Every event keeps the family.** -/
theorem Kin.moves (h : Kin initproc s) (hm : Moves initproc s e (.ok s')) : Kin initproc s' := by
  obtain ⟨hp, hf, hfam, hl⟩ := h
  suffices hboth : Family initproc s' ∧ Lives initproc s' from
    ⟨(hp.moves hf hm).1, hf.moves hp hm, hboth.1, hboth.2⟩
  have hcalm : Calm s s' → Family initproc s' ∧ Lives initproc s' :=
    fun hc => ⟨hfam.calm hc, hl.mild hc.mild⟩
  generalize hr : Except.ok s' = r at hm
  cases hm with
  | reschedule free => exact hcalm (Kernel.reschedule_calm hr.symm)
  | yield free on task => exact hcalm (Kernel.yield_calm (hp.alive on) hr.symm)
  | sleep free on task => exact hcalm (Kernel.sleep_calm (hp.alive on) hr.symm)
  | wakeup free => cases hr; exact hcalm .wakeup1
  | @kill c p pid free on task =>
    cases hr
    obtain ⟨hmild, hwaits⟩ := s.kill_mild pid
    exact ⟨hfam.mild hmild fun p q hp => hfam.asleep p q (hwaits p hp), hl.mild hmild⟩
  | @allocproc c p free on task =>
    cases hr
    exact ⟨hfam.allocproc, hl.allocproc hfam hf (hp.alive on)⟩
  | @forkFail c p np on task => cases hr; exact ⟨hfam.forkFail hf task, hl.forkFail⟩
  | @forkCopy c p np on task => cases hr; exact ⟨hfam.forkCopy hf task, hl.forkCopy task hf⟩
  | @forkDone c p np free on task =>
    cases hr
    exact ⟨hfam.forkDone hf (hp.alive on) task, hl.forkDone task hf⟩
  | @exit c p free on task =>
    obtain ⟨hpi, hc⟩ := Kernel.exit_ok hr.symm
    have hlock : Calm s (s.acquire c) := .acquire c
    obtain ⟨hd, hawake⟩ := Disowned.disown initproc p (s.acquire c)
    have hfam₁ := (hfam.calm hlock).disowned hpi task hd
    have halive : (((s.acquire c).disown initproc p).proc p).state.Alive :=
      hd.stays.symm.alive (hp.alive on)
    have hkids : ∀ q, (((s.acquire c).disown initproc p).proc q).parent ≠ some p := by
      intro q hq
      rw [hd.parent] at hq
      split at hq
      · cases hq
        exact hpi rfl
      · rename_i hno
        exact hno ⟨mem_finRange q, hq⟩
    have hup : ∀ r, (((s.acquire c).disown initproc p).proc p).parent = some r →
        ¬ ((s.acquire c).disown initproc p).Waits r := by
      intro r hr
      rw [hd.parent, if_neg fun hc => hfam.noself p hc.2] at hr
      exact hawake r hr
    have hfam₂ := hfam₁.bury hpi halive hkids hup
    have hl₂ := (hl.mild hlock.mild).exit hpi (hp.alive on) hd
    exact ⟨hfam₂.calm hc, hl₂.mild hc.mild⟩
  | @wait c p free on task =>
    have hlock : Calm s (s.acquire c) := .acquire c
    exact family_waitTurn (hfam.calm hlock) (hl.mild hlock.mild) (hf.stays hlock.stays rfl)
      (hp.alive on) hr.symm
  | @trapKill c p on task =>
    cases hr
    have hmod : Mild s (s.modify p fun pr => { pr with killed := true }) :=
      .modify (.inl rfl) rfl rfl
    have hmild : Mild s { s.modify p fun pr => { pr with killed := true } with
        hist := { s.hist with called := Function.update s.hist.called p true } } :=
      ⟨hmod.stays, hmod.pid, hmod.parent, rfl, rfl, rfl, rfl, rfl⟩
    refine ⟨hfam.mild hmild fun q r hq => hfam.asleep q r ?_, hl.mild hmild⟩
    have hq' : (s.modify p fun pr => { pr with killed := true }).Waits q := hq
    rwa [Kernel.Waits, Kernel.modify_field Proc.state rfl, Kernel.modify_field Proc.chan rfl] at hq'
  | @goOn c held =>
    rcases Kernel.goOn_ok hr.symm with hc | ⟨p, on, hw⟩
    · exact hcalm hc
    · have hclear : Calm s (s.modify p fun pr => { pr with chan := none }) :=
        .modify (.inl rfl) (fun _ hc => by cases hc) rfl rfl rfl
      refine family_waitTurn (hfam.calm hclear) (hl.mild hclear.mild)
        (hf.stays hclear.stays rfl) ?_ hw
      rw [Kernel.modify_self]
      exact hp.alive on

theorem kin_of_run (h : Runs initproc es s) : Kin initproc s :=
  Trace.Run.invariant (I := fun _ s => Kin initproc s) ⟨.init _, .init _, .init _, .init _⟩
    (fun _ _ _ _ h hs => h.moves (moves_of_step hs)) h

/-- **Exit and wait never lose a child.**  After any run every process but `initproc`
that is runnable, running, asleep or a zombie has a parent that is neither unused nor
a zombie, and no process is asleep in `wait` that has a zombie child.  A pid that
`wait` has returned is that of a process that exited, the caller forked it or is
`initproc` and whoever forked it exited; and no process was returned twice. -/
theorem wait_loses_no_child (h : Runs initproc es s) :
    (∀ q, q ≠ initproc → (s.proc q).state ≠ .unused → (s.proc q).state ≠ .embryo →
      ∃ r, (s.proc q).parent = some r ∧ (s.proc r).state ≠ .unused ∧
        (s.proc r).state ≠ .zombie) ∧
    (∀ p q, (s.proc p).state = .sleeping → (s.proc p).chan = some (.proc p) →
      (s.proc q).parent = some p → (s.proc q).state ≠ .zombie) ∧
    (∀ w ∈ s.hist.waits, w.child ∈ s.hist.exits ∧
      ∃ b, s.hist.births[w.child]? = some b ∧ b.pid = w.pid ∧
        (b.father = w.caller ∨
          w.caller = s.hist.life initproc ∧ b.father ∈ s.hist.exits)) ∧
    (s.hist.waits.map Reaped.child).Nodup := by
  obtain ⟨-, -, hfam, hl⟩ := kin_of_run h
  refine ⟨fun q hq hu he => ?_, fun p q hs hc hpar => hfam.asleep p q ⟨hs, hc⟩ hpar, ?_, hl.once⟩
  · have hst : (s.proc q).state.Alive ∨ (s.proc q).state = .zombie := by
      cases hst : (s.proc q).state with
      | unused => exact absurd hst hu
      | embryo => exact absurd hst he
      | sleeping => exact .inl (.inl rfl)
      | runnable => exact .inl (.inr (.inl rfl))
      | running => exact .inl (.inr (.inr rfl))
      | zombie => exact .inr rfl
    obtain ⟨r, hr⟩ := hfam.parent q hq hst
    have halive := hfam.kin q r hr
    exact ⟨r, hr, halive.ne_unused, halive.ne_zombie⟩
  · rw [hl.first]
    exact hl.waited

/-- A grandchild outlives its father, `init` sleeps in `wait`, and reaps both. -/
def orphan : List (Event Bool) :=
  [.reschedule false, .goOn false, .allocproc false, .forkCopy false, .forkDone false, .wait false,
    .goOn false, .allocproc false, .forkCopy false, .forkDone false, .exit false, .goOn false,
    .exit false, .goOn false, .wait false, .wait false]

theorem wait_loses_no_child_orphan : ∃ s : Kernel Bool 3, Runs 0 orphan s ∧
    s.hist.waits.map Reaped.child = [2, 1] ∧ (s.hist.waits.map Reaped.child).Nodup :=
  Trace.exists_of_exec_imp (Q := fun s => s.hist.waits.map Reaped.child = [2, 1])
    (by decide +kernel) fun _ hrun hv => ⟨hv, (wait_loses_no_child hrun).2.2.2⟩

end Run

end Xv6.Procs
