/-
# `Xv6.Vm.Life` — what a process leaves behind

The machine of `Xv6.Vm.Process` keeps an invariant: every process that is not `UNUSED` has
an address space and a kernel stack of its own, and no page is mapped at its size or above.
From there on a child is followed from `fork` to `wait`.  All its pages were free before
the `fork` (`Only`), `sbrk` and `exec` keep that so, and `wait` gives them back, except one:
the page of the table for `mmap` is on no free list any more.

The calls of the child return: `sbrk`, `exec`, `exit` and `wait` do not stop the machine.
-/
import Xv6.Vm.Process

namespace Xv6.Vm

open Wp List Option
open Function (update update_of_ne update_self)

/-- The calls of the child: `sbrk` and `exec`.  User code may write its memory in between, and
the kernel its stacks. -/
def Call.Of (c : Slot) : Call → Prop
  | .sbrk p _ => p = c
  | .exec p _ _ => p = c
  | .kernel (.user _ _ _) => True
  | .kernel (.hold _ _) => True
  | _ => False

/-- A call and not a write. -/
def Call.Plain : Call → Prop
  | .kernel _ => False
  | _ => True

/-! ## The pages of a child -/

section

variable {L : Link} {own₀ own own' : Word → Owner} {k₀ k k' : Kmem} {np : Proc}

/-- **The pages of the child were free before it was born.** -/
structure Child (own₀ own : Word → Owner) (np : Proc) : Prop where
  only : Only own₀ own np
  dirFree : own₀ np.pgdir = .free
  stackFree : own₀ np.kstack = .free
  mmtFree : own₀ np.mmt = .free
  mmt : own np.mmt = .raw
  apart : np.mmt ≠ np.kstack

theorem Born.child (h : Born L own₀ k₀ np own k) (ho : Only own₀ own np) : Child own₀ own np :=
  ⟨ho, h.dirFree, h.stackFree, h.mmtFree, h.mmt, h.apart⟩

namespace Child

section

variable (h : Child own₀ own np)
include h

/-- What belongs to the child was free. -/
theorem was_free (h₀ : Owns L own₀ k₀) {q : Word}
    (hq : Mine np.pgdir q (own q)) : own₀ q = .free := by
  rcases h.only q with he | ⟨hf, -⟩
  · rw [he] at hq
    exact h₀.free_of_mine h.dirFree hq
  · exact hf

theorem free_before {q : Word} (hq : own q = .free) : own₀ q = .free := by
  rcases h.only q with he | ⟨hf, -⟩
  · exact he.symm.trans hq
  · exact hf

theorem grow (h₀ : Owns L own₀ k₀) (hd : own np.pgdir = .dir)
    (hloc : Local np.pgdir own k own' k') (sz : Word) : Child own₀ own' { np with sz := sz } := by
  refine ⟨fun q => ?_, h.dirFree, h.stackFree, h.mmtFree, ?_, h.apart⟩
  · rcases hloc.hands q with he | ⟨hm, hm'⟩
    · rw [he]
      exact h.only q
    · exact .inr ⟨h.was_free h₀ hm, .inr hm'⟩
  · exact hloc.keep_raw h.mmt (ne_of_owner h.mmt hd nofun)

theorem switch (h₀ : Owns L own₀ k₀) (ho : Owns L own k) {d sz : Word}
    {own₁ : Word → Owner} {k₁ : Kmem} (hsw : Switched L np.pgdir d sz own k own' k' own₁ k₁) :
    Child own₀ own' { np with pgdir := d, sz := sz } := by
  have hgone : ∀ {q}, Mine np.pgdir q (own' q) → own' q = .free := fun hq =>
    hsw.owns.free_of_mine hsw.gone hq
  have hnew : ∀ {q}, Mine d q (own q) → own₀ q = .free := fun hq =>
    h.free_before (ho.free_of_mine hsw.fresh hq)
  refine ⟨fun q => ?_, h.free_before hsw.fresh, h.stackFree, h.mmtFree, ?_, h.apart⟩
  · rcases hsw.freed.hands q with he | ⟨hm, hm'⟩
    · rcases hsw.built.hands q with he' | ⟨hm, hm'⟩
      · rcases h.only q with hq | ⟨hf, hr | hm⟩
        · exact .inl ((he.trans he').trans hq)
        · exact .inr ⟨hf, .inl ⟨hr.1, (he.trans he').trans hr.2⟩⟩
        · rw [← he', ← he] at hm
          rw [hgone hm]
          exact .inl hf.symm
      · rw [← he] at hm'
        exact .inr ⟨hnew hm, .inr hm'⟩
    · rw [hgone hm']
      refine .inl (Eq.symm ?_)
      rcases hsw.built.hands q with he' | ⟨hm₁, -⟩
      · rw [he'] at hm
        exact h.was_free h₀ hm
      · exact hnew hm₁
  · have hd : np.mmt ≠ d := ne_of_owner h.mmt hsw.fresh nofun
    have hmmt₁ := hsw.built.keep_raw h.mmt hd
    exact hsw.freed.keep_raw hmmt₁ (ne_of_owner hmmt₁ hsw.draft.curDir nofun)

/-- **`wait` for the child**: all its pages are free again but the one of the table for
`mmap`. -/
theorem reap (h₀ : Owns L own₀ k₀) (hd : own np.pgdir = .dir)
    (ho : Owns L own' k') (hgone : own' np.pgdir = .free)
    (hloc : Local np.pgdir (update own np.kstack .free) k own' k') :
    own' np.mmt = .raw ∧ ∀ q, q ≠ np.mmt → (own' q = .free ↔ own₀ q = .free) := by
  refine ⟨?_, fun q hq => ?_⟩
  · have hmmt : update own np.kstack .free np.mmt = .raw := by
      rw [update_of_ne h.apart, h.mmt]
    have hne : np.mmt ≠ np.pgdir := ne_of_owner h.mmt hd nofun
    exact hloc.keep_raw hmmt hne
  · rcases eq_or_ne q np.kstack with rfl | hqs
    · refine ⟨fun _ => h.stackFree, fun _ => ?_⟩
      rcases hloc.hands np.kstack with he | ⟨-, hm⟩
      · exact he.trans (update_self ..)
      · exact ho.free_of_mine hgone hm
    have hhands := hloc.hands q
    rw [update_of_ne hqs] at hhands
    rcases hhands with he | ⟨hm, hm'⟩
    · rcases h.only q with hs | ⟨hf, ⟨hc, -⟩ | hm⟩
      · rw [he, hs]
      · exact absurd (hc.resolve_left hqs) hq
      · rw [← he] at hm
        exact ⟨fun _ => hf, fun _ => ho.free_of_mine hgone hm⟩
    · exact ⟨fun _ => h.was_free h₀ hm, fun _ => ho.free_of_mine hgone hm'⟩

end

end Child

end

namespace Host

theorem used {p : Proc} {st : ProcState} (h : p.state = st) (hst : st ≠ .unused) : p.state ≠ .unused := by
  rwa [h]

/-! ## The invariant -/

/-- A process with its address space and its kernel stack. -/
structure Fits (s : Host) (p : Proc) : Prop where
  space : p.pgdir ∈ s.sys.spaces
  stack : p.kstack ∈ s.sys.raw
  spaceTaken : p.pgdir ∈ s.taken
  stackTaken : p.kstack ∈ s.taken
  size : p.sz.toNat ≤ 2 ^ 31
  high : ∀ x : Vpn, x.User → p.sz.toNat ≤ x.num * 4096 → ¬ Present (view s.sys.kmem.mem p.pgdir x)

structure Inv (L : Link) (own : Word → Owner) (s : Host) : Prop where
  sys : Vm.Inv L own s.sys
  fits : ∀ p, (s.proc p).state ≠ .unused → s.Fits (s.proc p)
  apart : ∀ p q, (s.proc p).state ≠ .unused → (s.proc q).state ≠ .unused → p ≠ q →
    (s.proc p).pgdir ≠ (s.proc q).pgdir ∧ (s.proc p).kstack ≠ (s.proc q).kstack
  init : ∀ p, s.initproc = some p → (s.proc p).state = .live

section

variable {L : Link} {own own' : Word → Owner} {k' : Kmem} {s s' : Host} {p c : Slot} {np : Proc}

theorem Fits.congr {pr pr' : Proc} (h : s.Fits pr) (hsys : s'.sys = s.sys)
    (htaken : s'.taken = s.taken) (hd : pr'.pgdir = pr.pgdir) (hk : pr'.kstack = pr.kstack)
    (hsz : pr'.sz = pr.sz) : s'.Fits pr' := by
  refine ⟨?_, ?_, ?_, ?_, ?_, ?_⟩ <;> simp only [hsys, htaken, hd, hk, hsz]
  exacts [h.space, h.stack, h.spaceTaken, h.stackTaken, h.size, h.high]

/-- A process is left alone by a call on something else. -/
theorem Fits.keep {pr : Proc} {v : Option Word} (h : s.Fits pr) (hk : Keeps v s.sys s'.sys)
    (hspace : v ≠ some pr.pgdir) (hstack : v ≠ some pr.kstack) (htaken : pr.pgdir ∈ s'.taken)
    (htaken' : pr.kstack ∈ s'.taken) : s'.Fits pr := by
  refine ⟨hk.spaces _ h.space hspace, hk.raw _ h.stack hstack, htaken, htaken', h.size, ?_⟩
  rw [hk.view _ h.space hspace]
  exact h.high

/-- A call on the process of one entry. -/
theorem Inv.entry (h : Inv L own s) (hsys : Vm.Inv L own' s'.sys)
    (hsame : ∀ q, q ≠ c → s'.proc q = s.proc q)
    (hrest : ∀ q, q ≠ c → (s.proc q).state ≠ .unused → s'.Fits (s.proc q))
    (hnew : (s'.proc c).state ≠ .unused → s'.Fits (s'.proc c) ∧
      ∀ q, q ≠ c → (s.proc q).state ≠ .unused →
        (s.proc q).pgdir ≠ (s'.proc c).pgdir ∧ (s.proc q).kstack ≠ (s'.proc c).kstack)
    (hinit : s'.initproc = s.initproc)
    (hlive : (s.proc c).state = .live → (s'.proc c).state = .live) : Inv L own' s' := by
  refine ⟨hsys, fun q hq => ?_, fun q r hq hr hne => ?_, fun q hq => ?_⟩
  · rcases eq_or_ne q c with rfl | hqc
    · exact (hnew hq).1
    · rw [hsame q hqc] at hq ⊢
      exact hrest q hqc hq
  · rcases eq_or_ne q c with rfl | hqc
    · rw [hsame r hne.symm] at hr ⊢
      have hap := (hnew hq).2 r hne.symm hr
      exact ⟨hap.1.symm, hap.2.symm⟩
    · rw [hsame q hqc] at hq ⊢
      rcases eq_or_ne r c with rfl | hrc
      · exact (hnew hr).2 q hqc hq
      · rw [hsame r hrc] at hr ⊢
        exact h.apart q r hq hr hne
  · have hq' := h.init q (hinit ▸ hq)
    rcases eq_or_ne q c with rfl | hqc
    · exact hlive hq'
    · rw [hsame q hqc]
      exact hq'

/-- What a call that returned is known to do. -/
theorem of_call {α : Type} {x : M α} {f : α → Kmem → Host} {Q : α → Kmem → Prop} {E : Stop → Prop}
    (h : s.call x f = some s') (hx : Meets x s.sys.kmem Q E) : ∃ a k, Q a k ∧ s' = f a k := by
  unfold call at h
  cases hr : x s.sys.kmem with
  | ok r =>
    rw [hr] at h
    exact ⟨r.1, r.2, Wp.ok hx hr, (Option.some.inj h).symm⟩
  | error e =>
    rw [hr] at h
    cases h

/-- A call that is known to return. -/
theorem call_of_meets {α : Type} {x : M α} {f : α → Kmem → Host} {Q : α → Kmem → Prop}
    (h : Meets x s.sys.kmem Q fun _ => False) : ∃ a k, Q a k ∧ s.call x f = some (f a k) := by
  obtain ⟨a, k, hx, hQ⟩ := Wp.returns h
  exact ⟨a, k, hQ, by rw [call, hx]⟩

theorem call_returns {α : Type} {x : M α} {f : α → Kmem → Host} {Q : α → Kmem → Prop}
    (h : Meets x s.sys.kmem Q fun _ => False) : ∃ s', s.call x f = some s' := by
  obtain ⟨a, k, -, hc⟩ := call_of_meets h
  exact ⟨_, hc⟩

/-- Entries that are found are as they were looked for. -/
theorem free_unused (h : s.free = some c) : (s.proc c).state = .unused :=
  of_decide_eq_true (List.find?_some h :)

theorem zombie_child (h : s.zombie p = some c) :
    (s.proc c).parent = some p ∧ (s.proc c).state = .zombie :=
  of_decide_eq_true (List.find?_some h :)

theorem exit_proc_of_ne {q : Slot} (hq : q ≠ p) : ((s.exit p).proc q).state = (s.proc q).state := by
  show (if q = p then _ else if (s.proc q).parent = some p then _ else _ : Proc).state = _
  rw [if_neg hq]
  split <;> rfl

/-- `exit` leaves the pages of every process to it. -/
theorem exit_pages (s : Host) (p q : Slot) : ((s.exit p).proc q).pgdir = (s.proc q).pgdir ∧
    ((s.exit p).proc q).kstack = (s.proc q).kstack ∧ ((s.exit p).proc q).sz = (s.proc q).sz ∧
    ((s.exit p).proc q).mmt = (s.proc q).mmt := by
  unfold Host.exit
  dsimp only
  split_ifs <;> exact ⟨rfl, rfl, rfl, rfl⟩

/-! ## The calls -/

namespace Inv

variable (h : Inv L own s)

include h

theorem dir (hp : (s.proc p).state ≠ .unused) : own (s.proc p).pgdir = .dir :=
  (h.sys.dirs _).mp (h.fits p hp).space

theorem raw (hp : (s.proc p).state ≠ .unused) : own (s.proc p).kstack = .raw :=
  h.sys.raws _ (h.fits p hp).stack

/-- Calls of the rest of the kernel: they are not on what a process has. -/
theorem kernel {e : Event} (hs : step L s (.kernel e) = some s') :
    ∃ sys, Vm.step L s.sys e = some sys ∧ e.Below ∧ s' = { s with sys := sys } ∧
      ∀ {own'}, Vm.Inv L own' sys → Keeps e.on s.sys sys → Inv L own' s' := by
  obtain ⟨⟨hb, hon⟩, hs⟩ := ite_none_right_eq_some.mp hs
  obtain ⟨sys, hsys, rfl⟩ := map_eq_some_iff.mp hs
  have hne : ∀ v ∈ s.taken, e.on ≠ some v := by
    intro v hv he
    rw [he] at hon
    exact of_decide_eq_true hon hv
  refine ⟨sys, hsys, hb, rfl, fun hinv hkeep => ⟨hinv, fun q hq => ?_, h.apart, h.init⟩⟩
  have hfit := h.fits q hq
  exact hfit.keep hkeep (hne _ hfit.spaceTaken) (hne _ hfit.stackTaken) hfit.spaceTaken hfit.stackTaken

theorem attach (hb : Born L own s.sys.kmem np own' k') : Inv L own' (s.attach k' c np) := by
  have hsys : Vm.Inv L own' (s.attach k' c np).sys ∧ Keeps none s.sys (s.attach k' c np).sys := by
    refine h.sys.fresh hb.owns hb.fresh (fun d => ?_) (fun v hv => ?_)
      (fun v hv => mem_cons_of_mem _ (mem_cons_of_mem _ hv)) fun d hd => ?_
    · rw [mem_cons, h.sys.dirs, hb.dirs]
      exact or_comm
    · rcases mem_cons.mp hv with rfl | hv
      · exact .inr hb.mmt
      · rcases mem_cons.mp hv with rfl | hv
        · exact .inr hb.stack
        · exact .inl hv
    · rcases mem_cons.mp hd with rfl | hd
      · exact .inr hb.kern
      · exact .inl hd
  have hself : (s.attach k' c np).proc c = np := update_self ..
  refine h.entry hsys.1 (fun q hq => update_of_ne hq ..) (fun q _ hq => ?_) (fun _ => ?_) rfl
    fun _ => by rw [hself, hb.state]
  · have hfit := h.fits q hq
    exact hfit.keep hsys.2 nofun nofun
      (mem_cons_of_mem _ (mem_cons_of_mem _ (mem_cons_of_mem _ hfit.spaceTaken)))
      (mem_cons_of_mem _ (mem_cons_of_mem _ (mem_cons_of_mem _ hfit.stackTaken)))
  · rw [hself]
    refine ⟨⟨mem_cons_self, mem_cons_of_mem _ mem_cons_self, mem_cons_self,
      mem_cons_of_mem _ (mem_cons_of_mem _ mem_cons_self), hb.size, hb.high⟩,
      fun q _ hq => ⟨fun he => ?_, fun he => ?_⟩⟩
    · have hdir := h.dir hq
      rw [he, hb.dirFree] at hdir
      cases hdir
    · have hraw := h.raw hq
      rw [he, hb.stackFree] at hraw
      cases hraw

theorem attach_init (hb : Born L own s.sys.kmem np own' k') :
    Inv L own' ((s.attach k' c np).setInit c) := by
  have hinv := h.attach (c := c) hb
  refine ⟨hinv.sys, fun q hq => ?_, hinv.apart, fun q hq => ?_⟩
  · exact (hinv.fits q hq).congr rfl rfl rfl rfl rfl
  · cases hq
    exact (congrArg Proc.state (update_self c np s.proc)).trans hb.state

theorem sbrk {n : Word} (hs : step L s (.sbrk p n) = some s') : ∃ own' sz, Inv L own' s' ∧
    s'.proc = update s.proc p { s.proc p with sz := sz } ∧ s'.initproc = s.initproc ∧
    Local (s.proc p).pgdir own s.sys.kmem own' s'.sys.kmem := by
  obtain ⟨hlive, hs⟩ := ite_none_right_eq_some.mp hs
  have hp := used hlive nofun
  have hfit := h.fits p hp
  obtain ⟨⟨pr, _⟩, k', ⟨own', sz, rfl, ho, hd, hloc, hkern, hsz, hhigh⟩, rfl⟩ := of_call hs
    (growproc_meets h.sys.owns (h.dir hp) (h.sys.kern _ hfit.space) hfit.size hfit.high n)
  have hkeep := h.sys.keeps_change hfit.space hloc
  have hself : (s.put k' p { s.proc p with sz := sz }).proc p = { s.proc p with sz := sz } :=
    update_self ..
  refine ⟨own', sz, h.entry (h.sys.change hfit.space ho hd hloc hkern)
    (fun q hq => update_of_ne hq ..) (fun q hqp hq => ?_) (fun _ => ?_) rfl
    (fun hl => by rw [hself]; exact hl), rfl, rfl, hloc⟩
  · have hap := h.apart p q hp hq hqp.symm
    have hraw := h.raw hq
    have hfit' := h.fits q hq
    refine hfit'.keep hkeep (fun he => hap.1 (Option.some.inj he)) (fun he => ?_) hfit'.spaceTaken
      hfit'.stackTaken
    rw [← Option.some.inj he, h.dir hp] at hraw
    cases hraw
  · rw [hself]
    exact ⟨⟨hfit.space, hfit.stack, hfit.spaceTaken, hfit.stackTaken, hsz, hhigh⟩,
      fun q hqp hq => h.apart q p hq hp hqp⟩

/-- **`exec`**: the process is as it was, or it has a new address space. -/
theorem exec {file : Option Image} {argv : Argv} (hargs : ∀ a ∈ argv.args, a.Short)
    (hs : step L s (.exec p file argv) = some s') : ∃ own', Inv L own' s' ∧
    s'.initproc = s.initproc ∧
    (s'.proc = s.proc ∧ own' = own ∨
      ∃ d sz own₁ k₁, s'.proc = update s.proc p { s.proc p with pgdir := d, sz := sz } ∧
        Switched L (s.proc p).pgdir d sz own s.sys.kmem own' s'.sys.kmem own₁ k₁) := by
  obtain ⟨hlive, hs⟩ := ite_none_right_eq_some.mp hs
  have hp := used hlive (by simp)
  have hfit := h.fits p hp
  obtain ⟨r, k', ⟨rfl, ho, hmem⟩ | ⟨d, sz, own', own₁, k₁, rfl, hsw⟩, rfl⟩ := of_call hs
    (exec_meets h.sys.owns (h.dir hp) (h.sys.kern _ hfit.space) file hargs)
  · obtain ⟨hsys, hkeep⟩ := h.sys.fresh ho ⟨fun _ _ => rfl, hmem⟩ h.sys.dirs (fun _ => .inl)
      (fun _ => id) fun _ => .inl
    refine ⟨own, ⟨hsys, fun q hq => ?_, h.apart, h.init⟩, rfl, .inl ⟨rfl, rfl⟩⟩
    have hfit' := h.fits q hq
    exact hfit'.keep hkeep (by simp) (by simp) hfit'.spaceTaken hfit'.stackTaken
  · have hne : (s.proc p).pgdir ≠ d := hsw.draft.ne
    have hd0 : d ≠ 0 := h.sys.owns.ne_zero hsw.fresh (by simp)
    -- first both address spaces are there, then the old one goes
    obtain ⟨hsys₁, hkeep₁⟩ := h.sys.addSpace hsw.fresh hsw.draft.owns hsw.draft.dir hsw.built
      hsw.draft.kern
    rw [Sys.addSpace, if_neg hd0] at hsys₁ hkeep₁
    have hold : (s.proc p).pgdir ∈ d :: s.sys.spaces := mem_cons_of_mem _ hfit.space
    have hsys := hsys₁.dropSpace hold hsw.owns hsw.gone hsw.freed
    have hkeep := hsys₁.keeps_dropSpace hold hsw.freed
    have hself : (s.replace k' p d sz).proc p = { s.proc p with pgdir := d, sz := sz } :=
      update_self ..
    refine ⟨own', h.entry hsys (fun q hq => update_of_ne hq ..) (fun q hqp hq => ?_)
      (fun _ => ?_) rfl (fun hl => by rw [hself]; exact hl), rfl, .inr ⟨d, sz, own₁, k₁, rfl, hsw⟩⟩
    · have hfit' := h.fits q hq
      have hap := (h.apart q p hq hp hqp).1
      have hap' : (s.proc q).kstack ≠ (s.proc p).pgdir := ne_of_owner (h.raw hq) (h.dir hp) (by simp)
      refine Fits.keep (s := ⟨⟨k₁, d :: s.sys.spaces, s.sys.raw, s.sys.stage⟩, s.taken, s.proc, s.initproc⟩)
        (hfit'.keep hkeep₁ (by simp) (by simp) hfit'.spaceTaken hfit'.stackTaken) hkeep
        (fun he => hap (Option.some.inj he).symm) (fun he => hap' (Option.some.inj he).symm) ?_ ?_
      · exact mem_cons_of_mem _ (mem_filter.mpr ⟨hfit'.spaceTaken, decide_eq_true hap⟩)
      · exact mem_cons_of_mem _ (mem_filter.mpr ⟨hfit'.stackTaken, decide_eq_true hap'⟩)
    · have hraw := h.raw hp
      have hap' : (s.proc p).kstack ≠ (s.proc p).pgdir := ne_of_owner (h.raw hp) (h.dir hp) (by simp)
      have hview := hkeep.view d mem_cons_self fun he => hne (Option.some.inj he)
      rw [hself]
      refine ⟨⟨mem_filter.mpr ⟨mem_cons_self, decide_eq_true hne.symm⟩, hfit.stack,
        mem_cons_self, mem_cons_of_mem _ (mem_filter.mpr ⟨hfit.stackTaken,
          decide_eq_true hap'⟩), hsw.size, ?_⟩, fun q hqp hq => ⟨fun he => ?_, ?_⟩⟩
      · show ∀ x : Vpn, x.User → sz.toNat ≤ x.num * 4096 → ¬ Present (view k'.mem d x)
        rw [show view k'.mem d = view k₁.mem d from hview]
        exact hsw.draft.high
      · have hdir := h.dir hq
        rw [show (s.proc q).pgdir = d from he, hsw.fresh] at hdir
        cases hdir
      · exact (h.apart q p hq hp hqp).2

/-- **`fork`**: nothing but pages is lost, or there is a child. -/
theorem fork (hs : step L s (.fork p) = some s') :
    (∃ own', Inv L own' s') ∧ s'.initproc = s.initproc ∧
    ((∀ q, (s'.proc q).state = .unused ↔ (s.proc q).state = .unused) ∨
      ∃ own' c np k', s.free = some c ∧ s' = s.attach k' c np ∧ Inv L own' s' ∧
        Born L own s.sys.kmem np own' k' ∧ Only own own' np ∧ np.parent = some p) := by
  obtain ⟨hlive, hs⟩ := ite_none_right_eq_some.mp hs
  have hp := used hlive nofun
  have hfit := h.fits p hp
  cases hc : s.free with
  | none =>
    rw [hc] at hs
    cases hs
    exact ⟨⟨own, h⟩, rfl, .inl fun _ => Iff.rfl⟩
  | some c =>
    rw [hc] at hs
    obtain ⟨np, k', ⟨hst, -, own', ho, hf, hdirs⟩ | ⟨own', hb, honly, hpar⟩, rfl⟩ :=
      of_call hs (fork_meets h.sys.owns (h.dir hp) hfit.size)
    · rw [if_neg (by rw [hst]; nofun)]
      have hself : (s.put k' c np).proc c = np := update_self ..
      obtain ⟨hsys, hkeep⟩ := h.sys.fresh ho hf (fun d => (h.sys.dirs d).trans (hdirs d).symm)
        (fun _ => .inl) (fun _ => id) fun _ => .inl
      refine ⟨⟨own', h.entry hsys (fun q hq => update_of_ne hq ..)
        (fun q _ hq => ?_) (fun hne => ?_) rfl fun hl => ?_⟩, rfl, .inl fun q => ?_⟩
      · have hfit' := h.fits q hq
        exact hfit'.keep hkeep nofun nofun hfit'.spaceTaken hfit'.stackTaken
      · rw [hself] at hne
        exact absurd hst hne
      · rw [free_unused hc] at hl
        cases hl
      · rcases eq_or_ne q c with rfl | hqc
        · rw [hself]
          exact ⟨fun _ => free_unused hc, fun _ => hst⟩
        · rw [show (s.put k' c np).proc q = s.proc q from update_of_ne hqc ..]
    · rw [if_pos hb.state]
      have hinv := h.attach (c := c) hb
      exact ⟨⟨own', hinv⟩, rfl, .inr ⟨own', c, np, k', rfl, rfl, hinv, hb, honly, hpar⟩⟩

theorem userinit {size : Word} {init : Page} (hs : step L s (.userinit size init) = some s') :
    ∃ own', Inv L own' s' := by
  unfold step at hs
  cases hi : s.initproc with
  | some q =>
    rw [hi] at hs
    cases hs
  | none =>
    cases hc : s.free with
    | none =>
      rw [hi, hc] at hs
      cases hs
    | some c =>
      rw [hi, hc] at hs
      obtain ⟨np, k', ⟨own', hb, -⟩, rfl⟩ := of_call hs (userinit_meets h.sys.owns _ size init)
      exact ⟨own', h.attach_init hb⟩

/-- **`exit`** changes no page. -/
theorem exit (hs : step L s (.exit p) = some s') :
    Inv L own s' ∧ (s.proc p).state = .live ∧ s' = s.exit p := by
  obtain ⟨⟨hlive, hinit⟩, hs⟩ := ite_none_right_eq_some.mp hs
  cases hs
  have hp := used hlive nofun
  have hstate : ∀ q, ((s.exit p).proc q).state ≠ .unused → (s.proc q).state ≠ .unused := by
    intro q hq
    rcases eq_or_ne q p with rfl | hqp
    · exact hp
    · rw [exit_proc_of_ne hqp] at hq
      exact hq
  refine ⟨⟨h.sys, fun q hq => ?_, fun q r hq hr hne => ?_, fun q hq => ?_⟩, hlive, rfl⟩
  · obtain ⟨hpgdir, hkstack, hsz, -⟩ := exit_pages s p q
    exact (h.fits q (hstate q hq)).congr rfl rfl hpgdir hkstack hsz
  · obtain ⟨hpgdir, hkstack, -⟩ := exit_pages s p q
    obtain ⟨hpgdir', hkstack', -⟩ := exit_pages s p r
    rw [hpgdir, hpgdir', hkstack, hkstack']
    exact h.apart q r (hstate q hq) (hstate r hr) hne
  · have hqp : q ≠ p := by
      rintro rfl
      exact hinit hq
    rw [exit_proc_of_ne hqp]
    exact h.init q hq

/-- **`wait`**: nothing has happened, or a zombie and its pages are gone. -/
theorem wait (hs : step L s (.wait p) = some s') : s.zombie p = none ∧ s' = s ∨
    ∃ c own' k', s.zombie p = some c ∧ Inv L own' s' ∧ own' (s.proc c).pgdir = .free ∧
      Local (s.proc c).pgdir (update own (s.proc c).kstack .free)
        (s.sys.kmem.freed (s.proc c).kstack) own' k' ∧
      s' = s.detach k' c { s.proc c with kstack := 0, parent := none, state := .unused } := by
  obtain ⟨-, hs⟩ := ite_none_right_eq_some.mp hs
  cases hz : s.zombie p with
  | none =>
    rw [hz] at hs
    cases hs
    exact .inl ⟨rfl, rfl⟩
  | some c =>
    rw [hz] at hs
    have hc := used (zombie_child hz).2 nofun
    have hfit := h.fits c hc
    obtain ⟨np, k', ⟨rfl, own', ho, hd, hloc⟩, rfl⟩ :=
      of_call hs (reap_meets h.sys.owns (h.dir hc) (h.raw hc))
    -- first the kernel stack goes, then the address space
    obtain ⟨hsys₁, hkeep₁⟩ := h.sys.kfree (h.raw hc)
    have hsys := hsys₁.dropSpace hfit.space ho hd hloc
    have hkeep := hsys₁.keeps_dropSpace hfit.space hloc
    refine .inr ⟨c, own', k', rfl, h.entry hsys (fun q hq => update_of_ne hq ..)
      (fun q hqc hq => ?_) (fun hne => ?_) rfl fun hl => ?_, hd, hloc, rfl⟩
    · have hfit' := h.fits q hq
      have hap := h.apart q c hq hc hqc
      have hap₁ : (s.proc q).pgdir ≠ (s.proc c).kstack := ne_of_owner (h.dir hq) (h.raw hc) nofun
      have hap₂ : (s.proc q).kstack ≠ (s.proc c).pgdir := ne_of_owner (h.raw hq) (h.dir hc) nofun
      refine Fits.keep (s := ⟨{ s.sys with
          kmem := s.sys.kmem.freed (s.proc c).kstack
          raw := s.sys.raw.filter (· ≠ (s.proc c).kstack) }, s.taken, s.proc, s.initproc⟩)
        (hfit'.keep hkeep₁ (fun he => hap₁ (Option.some.inj he).symm)
          (fun he => hap.2 (Option.some.inj he).symm) hfit'.spaceTaken hfit'.stackTaken) hkeep
        (fun he => hap.1 (Option.some.inj he).symm) (fun he => hap₂ (Option.some.inj he).symm) ?_ ?_
      · exact mem_filter.mpr ⟨hfit'.spaceTaken, decide_eq_true ⟨hap.1, hap₁⟩⟩
      · exact mem_filter.mpr ⟨hfit'.stackTaken, decide_eq_true ⟨hap₂, hap.2⟩⟩
    · exact absurd (show ((s.detach k' c _).proc c).state = .unused by
        rw [show (s.detach k' c _).proc c = _ from update_self ..]) hne
    · rw [(zombie_child hz).2] at hl
      cases hl

end Inv

end

/-! ## Runs -/

section

variable {L : Link} {own own' : Word → Owner} {s s' : Host} {p c : Slot}

/-- **A call keeps the invariant.** -/
theorem Inv.step (h : Inv L own s) {e : Call} (he : e.Short) (hs : Host.step L s e = some s') :
    ∃ own', Inv L own' s' := by
  cases e with
  | kernel e =>
    obtain ⟨sys, hsys, hb, -, hinv⟩ := h.kernel hs
    obtain ⟨own', h', hkeep⟩ := h.sys.step hb hsys
    exact ⟨own', hinv h' hkeep⟩
  | userinit size init => exact h.userinit hs
  | fork p => exact (h.fork hs).1
  | sbrk p n =>
    obtain ⟨own', _, h', -⟩ := h.sbrk hs
    exact ⟨own', h'⟩
  | exec p file argv =>
    obtain ⟨own', h', -⟩ := h.exec he hs
    exact ⟨own', h'⟩
  | exit p => exact ⟨own, (h.exit hs).1⟩
  | wait p =>
    rcases h.wait hs with ⟨-, rfl⟩ | ⟨c, own', k', -, h', -⟩
    · exact ⟨own, h⟩
    · exact ⟨own', h'⟩

theorem inv_init (m : Word → Page) : Inv L (fun _ => .other) (init m) :=
  ⟨Vm.inv_init m, fun _ hp => absurd rfl hp, fun _ _ hp => absurd rfl hp, nofun⟩

theorem inv_of_run {m : Word → Page} {es : List Call} (h : Runs L m es s)
    (hes : ∀ e ∈ es, e.Short) : ∃ own, Inv L own s := by
  refine h.invariant (I := fun es s => (∀ e ∈ es, e.Short) → ∃ own, Inv L own s)
    (fun _ => ⟨_, inv_init m⟩) (fun es s e s' ih hs hes => ?_) hes
  obtain ⟨own, h⟩ := ih fun f hf => hes f (mem_append_left _ hf)
  exact h.step (hes e (mem_append_right _ mem_cons_self)) hs

/-- **The calls of a process return**, as long as it has not exited. -/
theorem Inv.returns (h : Inv L own s) (hp : (s.proc p).state = .live) :
    (∀ n, ∃ s', Host.step L s (.sbrk p n) = some s') ∧
    (∀ file argv, (∀ a ∈ argv.args, a.Short) → ∃ s', Host.step L s (.exec p file argv) = some s') ∧
    (s.initproc ≠ some p → ∃ s', Host.step L s (.exit p) = some s') ∧
    ∃ s', Host.step L s (.wait p) = some s' := by
  have hne := used hp (by simp)
  have hfit := h.fits p hne
  have hkern := h.sys.kern _ hfit.space
  refine ⟨fun n => ?_, fun file argv hargs => ?_, fun hi => ⟨_, if_pos ⟨hp, hi⟩⟩, ?_⟩
  · exact (call_returns (growproc_meets h.sys.owns (h.dir hne) hkern hfit.size hfit.high n)).imp
      fun _ hc => (if_pos hp).trans hc
  · exact (call_returns (exec_meets h.sys.owns (h.dir hne) hkern file hargs)).imp
      fun _ hc => (if_pos hp).trans hc
  · cases hz : s.zombie p with
    | none =>
      refine ⟨s, (if_pos hp).trans ?_⟩
      rw [hz]
    | some c =>
      have hc := used (zombie_child hz).2 (by simp)
      obtain ⟨s', hcall⟩ := call_returns
        (reap_meets h.sys.owns (h.dir hc) (h.raw hc))
      refine ⟨s', (if_pos hp).trans ?_⟩
      rw [hz]
      exact hcall

end

/-! ## A life -/

/-- The page is on the free list. -/
def Free (s : Host) (q : Word) : Prop :=
  ∃ l, Linked s.sys.kmem.mem s.sys.kmem.freelist l ∧ q ∈ l

/-- **A life**: `p` forks `c`, the child makes calls of its own and exits, and `p` waits for
it. -/
structure LifeOf (L : Link) (p c : Slot) (calls : List Call) (s s₁ s₂ s₃ t : Host) : Prop where
  unused : (s.proc c).state = .unused
  fork : step L s (.fork p) = some s₁
  born : (s₁.proc c).state = .live
  run : Trace.Run (step L) s₁ calls s₂
  calls : ∀ e ∈ calls, e.Of c ∧ e.Short
  exit : step L s₂ (.exit c) = some s₃
  wait : step L s₃ (.wait p) = some t
  reaped : (t.proc c).state = .unused

section

variable {L : Link} {own₀ own own' : Word → Owner} {k₀ : Kmem} {s s' s₁ s₂ s₃ t : Host} {p c : Slot}

theorem Inv.free_iff (h : Inv L own s) {q : Word} : s.Free q ↔ own q = .free := by
  obtain ⟨l, hl, -, hmem⟩ := h.sys.owns.list
  constructor
  · rintro ⟨l', hl', hq⟩
    rw [hl'.unique hl] at hq
    exact (hmem q).mp hq
  · exact fun hq => ⟨l, hl, (hmem q).mpr hq⟩

/-- The child is alive; the other processes are as they were when it was born. -/
structure Living (L : Link) (own₀ : Word → Owner) (c : Slot) (s₁ : Host) (own : Word → Owner)
    (s : Host) : Prop where
  inv : Inv L own s
  child : Child own₀ own (s.proc c)
  live : (s.proc c).state = .live
  mmt : (s.proc c).mmt = (s₁.proc c).mmt
  parent : (s.proc c).parent = (s₁.proc c).parent
  rest : ∀ q, q ≠ c → s.proc q = s₁.proc q
  initproc : s.initproc = s₁.initproc

namespace Living

section

variable (h : Living L own₀ c s₁ own s)
include h

theorem write {e : Event} (hs : step L s (.kernel e) = some s')
    (hw : ∀ sys, Vm.step L s.sys e = some sys → Vm.Inv L own sys ∧ Keeps e.on s.sys sys) :
    Living L own₀ c s₁ own s' := by
  obtain ⟨sys, hsys, -, rfl, hinv⟩ := h.inv.kernel hs
  obtain ⟨h', hkeep⟩ := hw sys hsys
  exact ⟨hinv h' hkeep, h.child, h.live, h.mmt, h.parent, h.rest, h.initproc⟩

theorem update {np : Proc} (hinv : Inv L own' s')
    (hproc : s'.proc = update s.proc c np) (hinit : s'.initproc = s.initproc)
    (hchild : Child own₀ own' np) (hnp : np.state = (s.proc c).state ∧ np.mmt = (s.proc c).mmt ∧
      np.parent = (s.proc c).parent) : Living L own₀ c s₁ own' s' := by
  have hself : s'.proc c = np := by rw [hproc, update_self]
  refine ⟨hinv, ?_, ?_, ?_, ?_, fun q hq => ?_, hinit.trans h.initproc⟩
  · rw [hself]
    exact hchild
  · rw [hself, hnp.1, h.live]
  · rw [hself, hnp.2.1, h.mmt]
  · rw [hself, hnp.2.2, h.parent]
  · rw [hproc, update_of_ne hq, h.rest q hq]

/-- **A call of the child.** -/
theorem step (h₀ : Owns L own₀ k₀) {e : Call} (he : e.Of c)
    (hshort : e.Short) (hs : Host.step L s e = some s') : ∃ own', Living L own₀ c s₁ own' s' := by
  have hne := used h.live nofun
  cases e with
  | kernel e =>
    cases e with
    | user d x pg => exact ⟨own, h.write hs fun sys hsys => h.inv.sys.user hsys⟩
    | hold v pg => exact ⟨own, h.write hs fun sys hsys => h.inv.sys.hold hsys⟩
    | _ => exact he.elim
  | sbrk p n =>
    cases he
    obtain ⟨own', sz, hinv, hproc, hinit, hloc⟩ := h.inv.sbrk hs
    exact ⟨own', h.update hinv hproc hinit (h.child.grow h₀ (h.inv.dir hne) hloc sz)
      ⟨rfl, rfl, rfl⟩⟩
  | exec p file argv =>
    cases he
    obtain ⟨own', hinv, hinit, ⟨hproc, rfl⟩ | ⟨d, sz, own₁, k₁, hproc, hsw⟩⟩ :=
      h.inv.exec hshort hs
    · refine ⟨own', hinv, ?_, ?_, ?_, ?_, fun q hq => ?_, hinit.trans h.initproc⟩
      · rw [hproc]
        exact h.child
      · rw [hproc, h.live]
      · rw [hproc, h.mmt]
      · rw [hproc, h.parent]
      · rw [hproc, h.rest q hq]
    · exact ⟨own', h.update hinv hproc hinit (h.child.switch h₀ h.inv.sys.owns hsw) ⟨rfl, rfl, rfl⟩⟩
  | userinit | fork | exit | wait => exact he.elim

/-- Calls of the child, one after the other. -/
theorem run (h₀ : Owns L own₀ k₀) {es : List Call}
    (hr : Trace.Run (Host.step L) s es t) (hes : ∀ e ∈ es, e.Of c ∧ e.Short) :
    ∃ own', Living L own₀ c s₁ own' t := by
  induction hr with
  | nil => exact ⟨own, h⟩
  | snoc e _ hs ih =>
    obtain ⟨own', h'⟩ := ih fun f hf => hes f (mem_append_left _ hf)
    obtain ⟨hof, hshort⟩ := hes e (mem_append_right _ mem_cons_self)
    exact h'.step h₀ hof hshort hs

end

end Living

/-- A new entry that is `live` after `fork` is the child. -/
theorem Inv.forked (h : Inv L own s) (hc : (s.proc c).state = .unused)
    (hs : Host.step L s (.fork p) = some s₁) (hc₁ : (s₁.proc c).state = .live) :
    ∃ own', Living L own c s₁ own' s₁ ∧ (s₁.proc c).parent = some p ∧
      ∀ q, q ≠ c → s₁.proc q = s.proc q := by
  obtain ⟨-, -, hsame | ⟨own', c', np, k', -, rfl, hinv, hb, honly, hpar⟩⟩ := h.fork hs
  · rw [(hsame c).mpr hc] at hc₁
    cases hc₁
  have hcc : c' = c := by
    by_contra hne
    rw [show (s.attach k' c' np).proc c = s.proc c from update_of_ne (Ne.symm hne) .., hc] at hc₁
    cases hc₁
  subst hcc
  have hself : (s.attach k' c' np).proc c' = np := update_self ..
  refine ⟨own', ⟨hinv, ?_, hc₁, rfl, rfl, fun _ _ => rfl, rfl⟩, ?_, fun q hq =>
    update_of_ne hq ..⟩
  · rw [hself]
    exact hb.child honly
  · rw [hself, hpar]

/-- **What a life leaves behind**: one page, that of the table for `mmap`. -/
theorem LifeOf.free {calls : List Call} (h : Inv L own s) (hl : LifeOf L p c calls s s₁ s₂ s₃ t) :
    s.Free (s₁.proc c).mmt ∧ ¬ t.Free (s₁.proc c).mmt ∧
      ∀ q, q ≠ (s₁.proc c).mmt → (t.Free q ↔ s.Free q) := by
  obtain ⟨own₁, hborn, -⟩ := h.forked hl.unused hl.fork hl.born
  obtain ⟨own₂, h₂⟩ := hborn.run h.sys.owns hl.run hl.calls
  obtain ⟨h₃, -, rfl⟩ := h₂.inv.exit hl.exit
  have hc₃ : (s₂.exit c).proc c = { s₂.proc c with state := .zombie } := if_pos rfl
  rcases h₃.wait hl.wait with ⟨-, rfl⟩ | ⟨c', own', k', hz, ht, hgone, hloc, rfl⟩
  · have hr := hl.reaped
    rw [hc₃] at hr
    cases hr
  have hcc : c' = c := by
    by_contra hne
    have hr := hl.reaped
    rw [show ((s₂.exit c).detach k' c' _).proc c = (s₂.exit c).proc c from
      update_of_ne (Ne.symm hne) .., hc₃] at hr
    cases hr
  subst hcc
  have hne : ((s₂.exit c').proc c').state ≠ .unused := by
    rw [hc₃]
    nofun
  have hch := h₂.child
  have hchild : Child own own₂ ((s₂.exit c').proc c') := by
    rw [hc₃]
    exact ⟨hch.only, hch.dirFree, hch.stackFree, hch.mmtFree, hch.mmt, hch.apart⟩
  obtain ⟨hmmt, hfree⟩ := hchild.reap h.sys.owns (h₃.dir hne) ht.sys.owns hgone hloc
  have hb : ((s₂.exit c').proc c').mmt = (s₁.proc c').mmt := by
    rw [hc₃]
    exact h₂.mmt
  rw [hb] at hmmt hfree
  refine ⟨?_, ?_, fun q hq => ?_⟩
  · rw [h.free_iff, ← hb]
    exact hchild.mmtFree
  · rw [ht.free_iff, hmmt]
    nofun
  · rw [ht.free_iff, h.free_iff]
    exact hfree q hq

/-! ## There are lives -/

theorem Living.returns (h : Living L own₀ c s₁ own s) (h₀ : Owns L own₀ k₀) (calls : List Call)
    (hcalls : ∀ e ∈ calls, e.Of c ∧ e.Short) (hplain : ∀ e ∈ calls, e.Plain) :
    ∃ t, Trace.Run (Host.step L) s calls t := by
  induction calls using List.reverseRecOn with
  | nil => exact ⟨s, .nil⟩
  | append_singleton calls e ih =>
    obtain ⟨t, hr⟩ := ih (fun f hf => hcalls f (mem_append_left _ hf))
      fun f hf => hplain f (mem_append_left _ hf)
    obtain ⟨own', ht⟩ := h.run h₀ hr fun f hf => hcalls f (mem_append_left _ hf)
    obtain ⟨hof, hshort⟩ := hcalls e (mem_append_right _ mem_cons_self)
    have hp := hplain e (mem_append_right _ mem_cons_self)
    obtain ⟨hsbrk, hexec, -⟩ := ht.inv.returns ht.live
    cases e with
    | sbrk q n =>
      cases hof
      obtain ⟨t', ht'⟩ := hsbrk n
      exact ⟨t', .snoc _ hr ht'⟩
    | exec q file argv =>
      cases hof
      obtain ⟨t', ht'⟩ := hexec file argv hshort
      exact ⟨t', .snoc _ hr ht'⟩
    | kernel e => exact hp.elim
    | userinit | fork | exit | wait => exact hof.elim

/-- **Every child can live**: whatever calls it makes, they return, it exits, and `wait` finds
it, unless another zombie is found first. -/
theorem Inv.lives (h : Inv L own s) (hc : (s.proc c).state = .unused)
    (hs : Host.step L s (.fork p) = some s₁) (hc₁ : (s₁.proc c).state = .live)
    (hz : ∀ q, (s.proc q).state ≠ .zombie) (calls : List Call)
    (hcalls : ∀ e ∈ calls, e.Of c ∧ e.Short) (hplain : ∀ e ∈ calls, e.Plain) :
    ∃ s₂ s₃ t, LifeOf L p c calls s s₁ s₂ s₃ t := by
  have hlive : (s.proc p).state = .live := (ite_none_right_eq_some.mp hs).1
  have hpc : p ≠ c := by
    rintro rfl
    rw [hc] at hlive
    cases hlive
  obtain ⟨own₁, hborn, hpar, hsame⟩ := h.forked hc hs hc₁
  obtain ⟨s₂, hr⟩ := hborn.returns h.sys.owns calls hcalls hplain
  obtain ⟨own₂, h₂⟩ := hborn.run h.sys.owns hr hcalls
  have hinit : s₂.initproc ≠ some c := by
    intro hi
    rw [h₂.initproc] at hi
    obtain ⟨-, hi₁, -⟩ := h.fork hs
    rw [hi₁] at hi
    have hl' := h.init c hi
    rw [hc] at hl'
    cases hl'
  obtain ⟨s₃, hx⟩ := (h₂.inv.returns h₂.live).2.2.1 hinit
  obtain ⟨h₃, -, rfl⟩ := h₂.inv.exit hx
  have hc₃ : (s₂.exit c).proc c = { s₂.proc c with state := .zombie } := if_pos rfl
  have hstate : ∀ q, q ≠ c → ((s₂.exit c).proc q).state = (s.proc q).state := by
    intro q hq
    rw [exit_proc_of_ne hq, h₂.rest q hq, hsame q hq]
  obtain ⟨t, hw⟩ := (h₃.returns (by rw [hstate p hpc, hlive])).2.2.2
  refine ⟨s₂, _, t, hc, hs, hc₁, hr, hcalls, hx, hw, ?_⟩
  have hzc : ((s₂.exit c).proc c).parent = some p ∧ ((s₂.exit c).proc c).state = .zombie := by
    rw [hc₃]
    exact ⟨h₂.parent.trans hpar, rfl⟩
  rcases h₃.wait hw with ⟨hnone, -⟩ | ⟨c', own', k', hfound, -, -, -, rfl⟩
  · exact absurd (decide_eq_true hzc) (List.find?_eq_none.mp hnone c (mem_finRange c))
  · have hcc : c' = c := by
      by_contra hne
      exact hz c' ((hstate c' hne).symm.trans (zombie_child hfound).2)
    subst hcc
    exact congrArg Proc.state (update_self c' _ (s₂.exit c').proc)

theorem exists_free {q : Slot} (hq : (s.proc q).state = .unused) : ∃ c, s.free = some c := by
  cases hf : s.free with
  | some c => exact ⟨c, rfl⟩
  | none => exact absurd (decide_eq_true hq) (List.find?_eq_none.mp hf q (mem_finRange q))

/-- What `main` does before the first process. -/
theorem run_of_kernel {m : Word → Page} {es : List Event} {sys : Sys} (h : Vm.Runs L m es sys)
    (hes : ∀ e ∈ es, e.Below ∧ e.on = none) : Runs L m (es.map .kernel) (empty sys) := by
  induction h with
  | nil => exact .nil
  | snoc e _ hs ih =>
    obtain ⟨hb, hon⟩ := hes e (mem_append_right _ mem_cons_self)
    rw [map_append]
    have hall : e.on.all (fun v => decide (v ∉ ([] : List Word))) = true := by
      rw [hon]
      rfl
    refine .snoc _ (ih fun f hf => hes f (mem_append_left _ hf)) ((if_pos ⟨hb, hall⟩).trans ?_)
    exact congrArg (Option.map _) hs

/-- **`main` up to the first process**, which has one page. -/
theorem exists_init (L : Link) (hL : L.kend.toNat ≤ 0x80400000) (m : Word → Page) :
    ∃ es own s p, Runs L m es s ∧ (∀ e ∈ es, e.Short) ∧ Inv L own s ∧ (s.proc p).state = .live ∧
      (∀ q, q ≠ p → (s.proc q).state = .unused) ∧ (s.proc p).sz = PGSIZE ∧
      Present (view s.sys.kmem.mem (s.proc p).pgdir (vpn 0)) ∧ ¬ Scarce own 50000 := by
  obtain ⟨own, sys, hrun, hinv, hplenty, -⟩ := exists_boot L hL m
  have hrun₁ := run_of_kernel hrun (by simp [Event.Below, Event.on])
  have hshort : ∀ e ∈ ([.kinit1, .kinit2] : List Event).map Call.kernel ++ [.userinit 0 zeros],
      e.Short := by simp [Call.Short]
  obtain ⟨own₁, hinv₁⟩ := inv_of_run hrun₁ fun e he => hshort e (mem_append_left _ he)
  obtain ⟨p, hp⟩ := exists_free (s := empty sys) (q := ⟨0, by decide⟩) rfl
  have hplenty₁ : Plenty own₁ := fun q hq hlo hhi =>
    (hinv.owns.free_iff hinv₁.sys.owns).mp (hplenty q hq hlo hhi)
  have hscarce : ∀ n < 56320, ¬ Scarce own₁ n := fun n => hplenty₁.not_scarce
  obtain ⟨np, k, ⟨own', hb, hsz, hs, hpage⟩, hcall⟩ := call_of_meets
   
    (mono (userinit_meets hinv₁.sys.owns ((empty sys).proc p) 0 zeros) (fun _ _ => id) fun _ hc =>
      hc.elim (by decide) (hscarce _ (by omega)))
  have hstep : Host.step L (empty sys) (.userinit 0 zeros) =
      some (((empty sys).attach k p np).setInit p) := by
    unfold Host.step
    rw [hp]
    exact hcall
  have hself : update (empty sys).proc p np p = np := update_self ..
  refine ⟨_, own', _, p, .snoc _ hrun₁ hstep, hshort, hinv₁.attach_init hb, ?_, fun q hq => ?_, ?_, ?_,
    fun hc => hscarce _ (by omega) (hs _ hc)⟩
  · exact (congrArg Proc.state hself).trans hb.state
  · exact congrArg Proc.state (update_of_ne hq np (empty sys).proc)
  · exact (congrArg Proc.sz hself).trans hsz
  · show Present (view k.mem (update (empty sys).proc p np p).pgdir (vpn 0))
    rw [hself]
    exact hpage.resolve_right (hscarce _ (by omega))

end

end Host

end Xv6.Vm
