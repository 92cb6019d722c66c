/-
# `Xv6.File.Refs` — reference counts of open files are exact

Inside a call a reference may be in a local variable, or a descriptor may have been
stored before `filedup` has counted it.  `Inv avail used s x` is the invariant with such a
debt: `x f` references to `f` are counted and in no descriptor.  Each function of
`file.c` moves references between the counts, the descriptors and `x`, and each
complete call starts and ends with `x = 0`.
-/
import Mathlib.Algebra.Group.Pi.Lemmas
import Xv6.File.Ends
import Xv6.Lib.Refs

namespace Xv6.Files

open List
open Fs (FileId Fd NOFILE)
open Function (update update_apply update_of_ne update_self)

variable {P : Type}

/-! ## The invariant, with a debt -/

/-- The references the descriptors make. -/
def State.slots (s : State P) (d : P × Fd) (f : FileId) : Nat := Refs.one (s.ofile d) f

/-- The processes that have no descriptors. -/
def ProcState.Vacant (st : ProcState) : Prop := st = .unused ∨ st = .zombie

theorem live_not_vacant {s : State P} {p : P} (h : s.proc p = .live) : ¬ (s.proc p).Vacant := by
  rw [h]
  rintro (h | h) <;> cases h

theorem setFd_self [DecidableEq P] (s : State P) (p : P) (fd : Fd) (v : Option FileId) :
    (s.setFd p fd v).ofile (p, fd) = v :=
  update_self ..

theorem setFd_of_ne [DecidableEq P] {s : State P} {p q : P} {fd gd : Fd} {v : Option FileId}
    (h : (q, gd) ≠ (p, fd)) : (s.setFd p fd v).ofile (q, gd) = s.ofile (q, gd) :=
  update_of_ne h ..

theorem slots_setFd [DecidableEq P] (s : State P) (p : P) (fd : Fd) (v : Option FileId) :
    (s.setFd p fd v).slots = update s.slots (p, fd) (Refs.one v) := by
  funext d f
  by_cases hd : d = (p, fd)
  · subst hd
    simp only [State.slots, State.setFd, update_self]
  · simp only [State.slots, State.setFd, update_of_ne hd]

theorem pipeclose_keeps (s : State P) (q : Page) (w : Bool) :
    (pipeclose s q w).file = s.file ∧ (pipeclose s q w).ofile = s.ofile ∧
      (pipeclose s q w).proc = s.proc := by
  simp only [pipeclose]
  split_ifs <;> exact ⟨rfl, rfl, rfl⟩

variable [Fintype P]

structure Inv (avail used : List Page) (s : State P) (x : FileId → Int) : Prop where
  count : ∀ f, (s.file f).ref = (Refs.total s.slots f : Int) + x f
  idle : ∀ f, (s.file f).ref = 0 → (s.file f).type = .none
  vacant : ∀ p fd, (s.proc p).Vacant → s.ofile (p, fd) = none
  pipes : PipesOk avail used s

namespace Inv

variable {avail used : List Page} {s s' : State P} {x : FileId → Int} {f : FileId} {p : P} {fd : Fd}
  {g : File → File}

theorem one_le_ref (h : Inv avail used s x) (hf : 1 ≤ (Refs.total s.slots f : Int) + x f) :
    1 ≤ (s.file f).ref := by
  rw [h.count]
  exact hf

theorem one_le_total (hfd : s.ofile (p, fd) = some f) : 1 ≤ Refs.total s.slots f :=
  Refs.total_pos_iff.mpr ⟨(p, fd), Refs.one_pos.mpr hfd⟩

/-! ### The stores -/

theorem count_modify (h : Inv avail used s x) {n : Int}
    (hn : (g (s.file f)).ref = (s.file f).ref + n) (k : FileId) :
    ((s.modify f g).file k).ref = (Refs.total s.slots k : Int) + (x + Pi.single f n : FileId → Int) k := by
  rw [Pi.add_apply]
  by_cases hk : k = f
  · subst hk
    rw [State.modify_self, hn, h.count, Pi.single_eq_same]
    omega
  · rw [State.modify_of_ne hk, Pi.single_eq_of_ne hk, h.count]
    omega

theorem idle_modify (h : Inv avail used s x)
    (hg : (g (s.file f)).ref = 0 → (g (s.file f)).type = .none) (k : FileId)
    (hk : ((s.modify f g).file k).ref = 0) : ((s.modify f g).file k).type = .none := by
  by_cases hkf : k = f
  · subst hkf
    rw [State.modify_self] at hk ⊢
    exact hg hk
  · rw [State.modify_of_ne hkf] at hk ⊢
    exact h.idle k hk

section

variable (h : Inv avail used s x)
include h

/-- The count of a file changes, and perhaps other fields, but not what makes it an
end of a pipe. -/
theorem modify {n : Int} (hn : (g (s.file f)).ref = (s.file f).ref + n)
    (hg : (g (s.file f)).ref = 0 → (g (s.file f)).type = .none)
    (ht : (g (s.file f)).type = .pipe ↔ (s.file f).type = .pipe)
    (hp : (s.file f).type = .pipe → (g (s.file f)).pipe = (s.file f).pipe ∧
      (g (s.file f)).writable = (s.file f).writable) :
    Inv avail used (s.modify f g) (x + Pi.single f n) where
  count := h.count_modify hn
  idle := h.idle_modify hg
  vacant := h.vacant
  pipes := by
    refine h.pipes.congr (fun k => ?_) rfl rfl rfl rfl
    by_cases hk : k = f
    · subst hk
      rw [State.modify_self]
      exact ⟨ht, hp⟩
    · rw [State.modify_of_ne hk]
      exact ⟨Iff.rfl, fun _ => ⟨rfl, rfl⟩⟩

/-! ### `file.c` -/

theorem filealloc (ha : Files.filealloc s = some (f, s')) :
    Inv avail used s' (x + Pi.single f 1) ∧ (s.file f).ref = 0 ∧
      s' = s.modify f fun fl => { fl with ref := 1 } := by
  obtain ⟨k, hk, he⟩ := Option.map_eq_some_iff.mp ha
  cases he
  have href : (s.file f).ref = 0 := by simpa using List.find?_some hk
  refine ⟨h.modify (by simp [href]) (by simp) Iff.rfl fun _ => ⟨rfl, rfl⟩, href, rfl⟩

theorem filedup (hf : 1 ≤ (s.file f).ref) :
    ∃ s', Files.filedup s f = .ok s' ∧ Inv avail used s' (x + Pi.single f 1) ∧
      s'.ofile = s.ofile ∧ s'.proc = s.proc := by
  refine ⟨_, if_neg (by omega), h.modify rfl (fun h0 => ?_) Iff.rfl (fun _ => ⟨rfl, rfl⟩), rfl, rfl⟩
  have h0' : (s.file f).ref + 1 = 0 := h0
  omega

theorem fileclose (havail : avail.Nodup) (hf : 1 ≤ (s.file f).ref) :
    ∃ s', Files.fileclose s f = .ok s' ∧ Inv avail used s' (x - Pi.single f 1) ∧
      s'.ofile = s.ofile ∧ s'.proc = s.proc := by
  have hsub : x - Pi.single f 1 = x + Pi.single f (-1) := by
    rw [Pi.single_neg, sub_eq_add_neg]
  rw [hsub]
  by_cases hlast : 0 < (s.file f).ref - 1
  · refine ⟨_, (if_neg (by omega)).trans (if_pos hlast),
      h.modify rfl (fun h0 => ?_) Iff.rfl (fun _ => ⟨rfl, rfl⟩), rfl, rfl⟩
    have h0' : (s.file f).ref - 1 = 0 := h0
    omega
  · have h1 : (s.file f).ref = 1 := by omega
    refine ⟨_, (if_neg (by omega)).trans (if_neg hlast), ?_⟩
    by_cases hpipe : (s.file f).type = .pipe
    · rw [if_pos hpipe]
      set g : File → File := fun fl => { fl with ref := 0, type := .none } with hg
      obtain ⟨hfile, hofile, hproc⟩ := pipeclose_keeps (s.modify f g) (s.file f).pipe
        (s.file f).writable
      refine ⟨⟨fun k => ?_, fun k hk => ?_, fun q fd hq => ?_,
        h.pipes.close havail hpipe (by rw [hg])⟩, hofile, hproc⟩
      · have hslots : (pipeclose (s.modify f g) (s.file f).pipe (s.file f).writable).slots =
            s.slots := by
          funext d k
          simp only [State.slots, hofile]
          rfl
        rw [hfile, hslots]
        exact h.count_modify (by rw [hg, h1]; rfl) k
      · rw [hfile] at hk ⊢
        exact h.idle_modify (fun _ => by rw [hg]) k hk
      · rw [hofile]
        rw [hproc] at hq
        exact h.vacant q fd hq
    · rw [if_neg hpipe]
      refine ⟨h.modify (by rw [h1]; rfl) (fun _ => rfl) ⟨fun hc => (nomatch hc), fun hc => ?_⟩
        fun hc => absurd hc hpipe, rfl, rfl⟩
      exact absurd hc hpipe

end

theorem pages {avail' used' : List Page} (h : Inv avail used s 0) {free : List Page}
    (hfree : (free ++ s.pipes).Perm avail') :
    Inv avail' used' { s with free := free, used := used' } 0 where
  count := h.count
  idle := h.idle
  vacant := h.vacant
  pipes := ⟨hfree, rfl, h.pipes.live, h.pipes.inj, h.pipes.flag, h.pipes.opened⟩

/-! ### Descriptors and processes -/

section Descriptors

variable [DecidableEq P]

section

variable (h : Inv avail used s x)
include h

/-- A descriptor changes; what it referred to is owed, and what it refers to is
paid. -/
theorem setFd (fd : Fd) {v : Option FileId} (hv : v = none ∨ ¬ (s.proc p).Vacant) :
    Inv avail used (s.setFd p fd v)
      fun f => x f + (Refs.one (s.ofile (p, fd)) f : Int) - (Refs.one v f : Int) where
  count k := by
    have htot := Refs.total_update s.slots (p, fd) (Refs.one v) k
    rw [slots_setFd]
    have hc := h.count k
    have hs : s.slots (p, fd) k = Refs.one (s.ofile (p, fd)) k := rfl
    show (s.file k).ref = _
    omega
  idle := h.idle
  vacant q gd hq := by
    by_cases hd : (q, gd) = (p, fd)
    · rw [hd, setFd_self]
      cases hd
      exact hv.resolve_right fun hn => hn hq
    · rw [setFd_of_ne hd]
      exact h.vacant q gd hq
  pipes := h.pipes.congr (fun _ => ⟨Iff.rfl, fun _ => ⟨rfl, rfl⟩⟩) rfl rfl rfl rfl

theorem setFd_some (hfd : s.ofile (p, fd) = none)
    (hp : ¬ (s.proc p).Vacant) : Inv avail used (s.setFd p fd (some f)) (x - Pi.single f 1) := by
  have hset := h.setFd fd (v := some f) (.inr hp)
  refine (congrArg (Inv avail used _) (funext fun k => ?_)).mp hset
  rw [hfd, Refs.one_none, Pi.sub_apply]
  by_cases hk : k = f
  · subst hk; simp
  · simp [Refs.one_of_ne (Ne.symm hk), hk]

theorem setFd_none (hfd : s.ofile (p, fd) = some f) :
    Inv avail used (s.setFd p fd none) (x + Pi.single f 1) := by
  have hset := h.setFd (p := p) fd (.inl rfl)
  refine (congrArg (Inv avail used _) (funext fun k => ?_)).mp hset
  rw [hfd, Refs.one_none, Pi.add_apply]
  by_cases hk : k = f
  · subst hk; simp
  · simp [Refs.one_of_ne (Ne.symm hk), hk]

theorem setProc (st : ProcState) (hst : st.Vacant → ∀ fd, s.ofile (p, fd) = none) :
    Inv avail used { s with proc := update s.proc p st } x where
  count := h.count
  idle := h.idle
  vacant q fd hq := by
    by_cases hqp : q = p
    · subst hqp
      exact hst (by simpa only [update_self] using hq) fd
    · exact h.vacant q fd (by simpa only [update_of_ne hqp] using hq)
  pipes := h.pipes.congr (fun _ => ⟨Iff.rfl, fun _ => ⟨rfl, rfl⟩⟩) rfl rfl rfl rfl

theorem fdalloc (hp : ¬ (s.proc p).Vacant) (ha : Files.fdalloc s p f = some (fd, s')) :
    Inv avail used s' (x - Pi.single f 1) ∧ s.ofile (p, fd) = none ∧
      s' = s.setFd p fd (some f) := by
  obtain ⟨k, hk, he⟩ := Option.map_eq_some_iff.mp ha
  cases he
  have hfree : s.ofile (p, fd) = none := by simpa using List.find?_some hk
  exact ⟨h.setFd_some hfree hp, hfree, rfl⟩

end

end Descriptors

/-! ### `pipealloc` -/

/-- A file that is counted nowhere else. -/
theorem setPipe (h : Inv avail used s x) (havail : avail.Nodup) {f₀ f₁ : FileId} {q : Page}
    {free : List Page} (hne : f₀ ≠ f₁) (ht₀ : (s.file f₀).type = .none)
    (ht₁ : (s.file f₁).type = .none) (h₀ : (s.file f₀).ref ≠ 0) (h₁ : (s.file f₁).ref ≠ 0)
    (hfree : s.free = q :: free) : Inv avail used (Files.setPipe s f₀ f₁ q free) x := by
  have href : ∀ k, ((Files.setPipe s f₀ f₁ q free).file k).ref = (s.file k).ref := by
    intro k
    simp only [Files.setPipe, State.modify, update_apply]
    split_ifs <;> simp_all
  refine ⟨fun k => (href k).trans (h.count k), fun k hk => ?_, h.vacant,
    h.pipes.create havail hne (by rw [ht₀]; simp) (by rw [ht₁]; simp) hfree⟩
  rw [href] at hk
  have hk₀ : k ≠ f₀ := by rintro rfl; exact h₀ hk
  have hk₁ : k ≠ f₁ := by rintro rfl; exact h₁ hk
  simp only [Files.setPipe, State.modify, update_of_ne hk₀, update_of_ne hk₁]
  exact h.idle k hk

/-- The two references `pipealloc` returns are owed. -/
theorem pipealloc (h : Inv avail used s 0) (havail : avail.Nodup) :
    ∃ r s', Files.pipealloc s = .ok (r, s') ∧ s'.ofile = s.ofile ∧ s'.proc = s.proc ∧
      match r with
      | none => Inv avail used s' 0
      | some (f₀, f₁) => f₀ ≠ f₁ ∧ Inv avail used s' (Pi.single f₀ 1 + Pi.single f₁ 1) := by
  rw [Files.pipealloc]
  cases h₀ : Files.filealloc s with
  | none => exact ⟨none, s, rfl, rfl, rfl, h⟩
  | some r₀ =>
    obtain ⟨f₀, s₁⟩ := r₀
    obtain ⟨hI₁, href₀, rfl⟩ := h.filealloc h₀
    set s₁ := s.modify f₀ fun fl => { fl with ref := 1 } with hs₁
    have hf₀ : s₁.file f₀ = { s.file f₀ with ref := 1 } := State.modify_self
    simp only
    cases h₁ : Files.filealloc s₁ with
    | none =>
      obtain ⟨s₂, hc, hI₂, ho, hp⟩ := hI₁.fileclose havail (by rw [hf₀])
      refine ⟨none, s₂, ?_, ho, hp, ?_⟩
      · simp only [hc]; rfl
      · simpa using hI₂
    | some r₁ =>
      obtain ⟨f₁, s₂⟩ := r₁
      obtain ⟨hI₂, href₁, rfl⟩ := hI₁.filealloc h₁
      set s₂ := s₁.modify f₁ fun fl => { fl with ref := 1 } with hs₂
      have hne : f₀ ≠ f₁ := by
        rintro rfl
        rw [hf₀] at href₁
        cases href₁
      have hf₁ : s₂.file f₁ = { s₁.file f₁ with ref := 1 } := State.modify_self
      have hf₀' : s₂.file f₀ = s₁.file f₀ := State.modify_of_ne hne
      simp only
      cases hfree : s₂.free with
      | nil =>
        obtain ⟨s₃, hc₃, hI₃, ho₃, hp₃⟩ := hI₂.fileclose havail (by rw [hf₀', hf₀])
        have href : 1 ≤ (s₃.file f₁).ref := hI₃.one_le_ref (by simp [hne.symm])
        obtain ⟨s₄, hc₄, hI₄, ho₄, hp₄⟩ := hI₃.fileclose havail href
        refine ⟨none, s₄, ?_, ho₄.trans ho₃, hp₄.trans hp₃, ?_⟩
        · simp only [hc₃, bind, Except.bind, hc₄]; rfl
        · simpa using hI₄
      | cons q free =>
        refine ⟨_, _, rfl, rfl, rfl, hne, ?_⟩
        rw [zero_add] at hI₂
        refine hI₂.setPipe havail hne ?_ ?_ ?_ ?_ hfree
        · rw [hf₀', hf₀]; exact h.idle f₀ href₀
        · rw [hf₁]; exact hI₁.idle f₁ href₁
        · rw [hf₀', hf₀]; exact one_ne_zero
        · rw [hf₁]; exact one_ne_zero

/-! ## System calls -/

section Calls

variable [DecidableEq P]

section

variable (h : Inv avail used s 0)
include h

theorem sysOpen (havail : avail.Nodup) (hp : ¬ (s.proc p).Vacant) (found r w : Bool) :
    ∃ s', Files.sysOpen s p found r w = .ok s' ∧ Inv avail used s' 0 := by
  rw [Files.sysOpen]
  cases found with
  | false => exact ⟨s, rfl, h⟩
  | true =>
    cases ha : Files.filealloc s with
    | none => exact ⟨s, rfl, h⟩
    | some a =>
      obtain ⟨f, s₁⟩ := a
      obtain ⟨hI₁, href, rfl⟩ := h.filealloc ha
      set s₁ := s.modify f fun fl => { fl with ref := 1 } with hs₁
      have hf : s₁.file f = { s.file f with ref := 1 } := State.modify_self
      simp only
      cases hd : Files.fdalloc s₁ p f with
      | none =>
        obtain ⟨s₂, hc, hI₂, -, -⟩ := hI₁.fileclose havail (by rw [hf])
        exact ⟨s₂, hc, by simpa using hI₂⟩
      | some b =>
        obtain ⟨fd, s₂⟩ := b
        obtain ⟨hI₂, -, rfl⟩ := hI₁.fdalloc hp hd
        have hf₂ : (s₁.setFd p fd (some f)).file f = { s.file f with ref := 1 } := hf
        have hnone : (s.file f).type = .none := h.idle f href
        have hI₃ := hI₂.modify (n := 0)
          (g := fun fl => { fl with type := .inode, readable := r, writable := w })
          (by rw [hf₂]; rfl) (by rw [hf₂]; exact nofun) (by simp [hf₂, hnone])
          (by simp [hf₂, hnone])
        exact ⟨_, rfl, by simpa using hI₃⟩

/-- `fdalloc` has stored the descriptor before `filedup` counts it. -/
theorem sysDup (hp : ¬ (s.proc p).Vacant) :
    ∃ s', Files.sysDup s p fd = .ok s' ∧ Inv avail used s' 0 := by
  rw [Files.sysDup]
  cases hfd : s.ofile (p, fd) with
  | none => exact ⟨s, rfl, h⟩
  | some f =>
    simp only
    cases hd : Files.fdalloc s p f with
    | none => exact ⟨s, rfl, h⟩
    | some b =>
      obtain ⟨gd, s₁⟩ := b
      obtain ⟨hI₁, -, rfl⟩ := h.fdalloc hp hd
      have href : 1 ≤ (s.file f).ref := h.one_le_ref (by
        have := one_le_total hfd
        rw [Pi.zero_apply]
        omega)
      obtain ⟨s₂, hc, hI₂, -, -⟩ := hI₁.filedup href
      exact ⟨s₂, hc, by simpa using hI₂⟩

theorem sysClose (havail : avail.Nodup) :
    ∃ s', Files.sysClose s p fd = .ok s' ∧ Inv avail used s' 0 := by
  rw [Files.sysClose]
  cases hfd : s.ofile (p, fd) with
  | none => exact ⟨s, rfl, h⟩
  | some f =>
    have hI₁ := h.setFd_none hfd
    obtain ⟨s₂, hc, hI₂, -, -⟩ := hI₁.fileclose havail (f := f) (hI₁.one_le_ref (by simp))
    exact ⟨s₂, hc, by simpa using hI₂⟩

/-- The three ways `sys_pipe` unwinds. -/
theorem sysPipe (havail : avail.Nodup) (hp : ¬ (s.proc p).Vacant) :
    ∃ s', Files.sysPipe s p = .ok s' ∧ Inv avail used s' 0 := by
  obtain ⟨r, s₁, hr, ho₁, hp₁, hI₁⟩ := h.pipealloc havail
  rw [Files.sysPipe, hr]
  match r, hI₁ with
  | none, hI₁ => exact ⟨s₁, rfl, hI₁⟩
  | some (rf, wf), ⟨hne, hI₁⟩ =>
    simp only [bind, Except.bind]
    cases hd₀ : Files.fdalloc s₁ p rf with
    | none =>
      obtain ⟨s₂, hc₂, hI₂, -, -⟩ := hI₁.fileclose havail (f := rf)
        (hI₁.one_le_ref (by simp [hne.symm]))
      obtain ⟨s₃, hc₃, hI₃, -, -⟩ := hI₂.fileclose havail (f := wf)
        (hI₂.one_le_ref (by simp))
      refine ⟨s₃, ?_, by simpa using hI₃⟩
      simp only [hc₂, hc₃]
    | some b =>
      obtain ⟨fd₀, s₂⟩ := b
      obtain ⟨hI₂, hfree, rfl⟩ := hI₁.fdalloc (by rw [hp₁]; exact hp) hd₀
      simp only
      cases hd₁ : Files.fdalloc (s₁.setFd p fd₀ (some rf)) p wf with
      | none =>
        have hI₃ := hI₂.setFd_none (setFd_self s₁ p fd₀ (some rf))
        obtain ⟨s₄, hc₄, hI₄, -, -⟩ := hI₃.fileclose havail (f := rf)
          (hI₃.one_le_ref (by simp [hne]))
        obtain ⟨s₅, hc₅, hI₅, -, -⟩ := hI₄.fileclose havail (f := wf)
          (hI₄.one_le_ref (by simp))
        refine ⟨s₅, ?_, by simpa using hI₅⟩
        simp only [hc₄, hc₅]
      | some b =>
        obtain ⟨fd₁, s₃⟩ := b
        obtain ⟨hI₃, -, rfl⟩ := hI₂.fdalloc (by rw [State.setFd, hp₁]; exact hp) hd₁
        exact ⟨_, rfl, by simpa using hI₃⟩

end

/-- The loop of `fork`: the child's descriptors are free when their turn comes. -/
theorem dupFiles {q : P} : ∀ {fds : List Fd} {s : State P}, Inv avail used s 0 →
    ¬ (s.proc q).Vacant → fds.Nodup → (∀ fd ∈ fds, s.ofile (q, fd) = none) →
    ∃ s', Files.dupFiles p q fds s = .ok s' ∧ Inv avail used s' 0 ∧ s'.proc = s.proc := by
  intro fds
  induction fds with
  | nil => exact fun h _ _ _ => ⟨_, rfl, h, rfl⟩
  | cons fd fds ih =>
    intro s h hq hnd hfree
    obtain ⟨hfd, hnd⟩ := nodup_cons.mp hnd
    rw [Files.dupFiles]
    cases ho : s.ofile (p, fd) with
    | none => exact ih h hq hnd fun gd hgd => hfree gd (mem_cons_of_mem _ hgd)
    | some f =>
      have hone := one_le_total ho
      obtain ⟨s₁, hc, hI₁, ho₁, hp₁⟩ := h.filedup (f := f)
        (h.one_le_ref (by rw [Pi.zero_apply]; omega))
      have hI₂ : Inv avail used (s₁.setFd q fd (some f)) 0 := by
        have hno : s₁.ofile (q, fd) = none := by
          rw [ho₁]
          exact hfree fd mem_cons_self
        simpa using hI₁.setFd_some (f := f) hno (by rw [hp₁]; exact hq)
      obtain ⟨s₃, hc₃, hI₃, hp₃⟩ := ih hI₂ (by rw [State.setFd, hp₁]; exact hq) hnd
        (fun gd hgd => by
          have hne : (q, gd) ≠ (q, fd) := by
            rintro he
            cases he
            exact hfd hgd
          rw [setFd_of_ne hne, ho₁]
          exact hfree gd (mem_cons_of_mem _ hgd))
      refine ⟨s₃, ?_, hI₃, hp₃.trans hp₁⟩
      simp only [hc, bind, Except.bind]
      exact hc₃

theorem fork (h : Inv avail used s 0) (child : Option P)
    (hc : ∀ q, child = some q → s.proc q = .unused) :
    ∃ s', Files.fork s p child = .ok s' ∧ Inv avail used s' 0 := by
  cases child with
  | none => exact ⟨s, rfl, h⟩
  | some q =>
    have hq := hc q rfl
    have hI₁ := h.setProc (p := q) .embryo fun hv => by cases hv <;> contradiction
    have hnew : ¬ (update s.proc q .embryo q).Vacant := by
      rw [update_self]
      rintro (h | h) <;> cases h
    obtain ⟨s₂, hd, hI₂, hp₂⟩ := hI₁.dupFiles (p := p)
      hnew (nodup_finRange NOFILE)
      (fun fd _ => h.vacant q fd (.inl hq))
    refine ⟨_, ?_, hI₂.setProc (p := q) .live fun hv => by cases hv <;> contradiction⟩
    rw [Files.fork]
    simp only [hd, bind, Except.bind]
    rfl

theorem closeFiles (havail : avail.Nodup) : ∀ (fds : List Fd) {s : State P},
    Inv avail used s 0 → ∃ s', Files.closeFiles p fds s = .ok s' ∧ Inv avail used s' 0 ∧
      (∀ fd, (s.ofile (p, fd) = none ∨ fd ∈ fds) → s'.ofile (p, fd) = none) := by
  intro fds
  induction fds with
  | nil => exact fun h => ⟨_, rfl, h, fun fd hfd => hfd.resolve_right not_mem_nil⟩
  | cons fd fds ih =>
    intro s h
    rw [Files.closeFiles]
    cases ho : s.ofile (p, fd) with
    | none =>
      obtain ⟨s', hc, hI, hnone⟩ := ih h
      refine ⟨s', hc, hI, fun gd hgd => hnone gd ?_⟩
      rcases hgd with hgd | hgd
      · exact .inl hgd
      · rcases mem_cons.mp hgd with rfl | hgd
        · exact .inl ho
        · exact .inr hgd
    | some f =>
      have hone := one_le_total ho
      obtain ⟨s₁, hc, hI₁, ho₁, hp₁⟩ := h.fileclose havail (f := f)
        (h.one_le_ref (by rw [Pi.zero_apply]; omega))
      have hI₂ : Inv avail used (s₁.setFd p fd none) 0 := by
        have hsome : s₁.ofile (p, fd) = some f := by rw [ho₁, ho]
        simpa using hI₁.setFd_none hsome
      obtain ⟨s₃, hc₃, hI₃, hnone⟩ := ih hI₂
      refine ⟨s₃, ?_, hI₃, fun gd hgd => hnone gd ?_⟩
      · simp only [hc, bind, Except.bind]
        exact hc₃
      · by_cases hg : gd = fd
        · subst hg
          exact .inl (setFd_self ..)
        · have hne : (p, gd) ≠ (p, fd) := fun he => hg (Prod.mk.inj he).2
          rcases hgd with hgd | hgd
          · rw [setFd_of_ne hne, ho₁]
            exact .inl hgd
          · exact .inr ((mem_cons.mp hgd).resolve_left hg)

theorem exit (h : Inv avail used s 0) (havail : avail.Nodup) :
    ∃ s', Files.exit s p = .ok s' ∧ Inv avail used s' 0 := by
  obtain ⟨s₁, hc, hI₁, hnone⟩ := closeFiles havail (List.finRange NOFILE) h
  refine ⟨_, ?_, hI₁.setProc (p := p) .zombie fun _ fd => hnone fd (.inr (mem_finRange fd))⟩
  rw [Files.exit]
  simp only [hc, bind, Except.bind]
  rfl

theorem reap (h : Inv avail used s 0) (hp : s.proc p = .zombie) :
    Inv avail used { s with proc := update s.proc p .unused } 0 :=
  h.setProc .unused fun _ fd => h.vacant p fd (.inr hp)

end Calls

end Inv

/-! ## What nothing owed means -/

/-- The descriptors that refer to the file `f`. -/
def State.descriptors (s : State P) (f : FileId) : Finset (P × Fd) :=
  Finset.univ.filter fun d => s.ofile d = some f

/-- Some descriptor of some process refers to the read end, or to the write end, of
the pipe at `q`. -/
def State.Refers (s : State P) (q : Page) (writable : Bool) : Prop :=
  ∃ d f, s.ofile d = some f ∧ (s.file f).type = .pipe ∧ (s.file f).pipe = q ∧
    (s.file f).writable = writable

namespace Inv

variable {avail used : List Page} {s : State P}

theorem ref_eq_card (h : Inv avail used s 0) (f : FileId) :
    (s.file f).ref = ((s.descriptors f).card : Int) := by
  rw [h.count, State.descriptors, Finset.card_filter]
  exact add_zero _

/-- A file that is an end of a pipe is not idle, so a descriptor refers to it. -/
theorem endOpen_iff (h : Inv avail used s 0) (q : Page) (w : Bool) :
    EndOpen s q w ↔ s.Refers q w := by
  constructor
  · rintro ⟨f, ht, hq, hw⟩
    have href : (s.file f).ref ≠ 0 := fun h0 => by
      rw [h.idle f h0] at ht
      cases ht
    rw [h.ref_eq_card] at href
    obtain ⟨d, hd⟩ := Finset.card_ne_zero.mp (Int.ofNat_ne_zero.mp href)
    exact ⟨d, f, (Finset.mem_filter.mp hd).2, ht, hq, hw⟩
  · rintro ⟨d, f, -, ht, hq, hw⟩
    exact ⟨f, ht, hq, hw⟩

theorem mem_pipes_iff (h : Inv avail used s 0) (q : Page) : q ∈ s.pipes ↔ ∃ w, s.Refers q w := by
  constructor
  · intro hq
    obtain ⟨w, hw⟩ := h.pipes.opened q hq
    exact ⟨w, (h.endOpen_iff q w).mp ((h.pipes.flag q hq w).mp hw)⟩
  · rintro ⟨w, d, f, -, ht, rfl, -⟩
    exact h.pipes.live f ht

end Inv

/-! ## Runs -/

section Run

variable [DecidableEq P] {initproc : P} {pool : List Page} {es : List (Event P)} {s s' : State P}

/-- Between calls nothing is owed. -/
def State.Sound (pool : List Page) (s : State P) : Prop :=
  ∃ avail, Inv avail s.used s 0 ∧ (avail ++ s.used).Perm pool

theorem State.Sound.init (initproc : P) (pool : List Page) :
    (State.init initproc pool).Sound pool := by
  refine ⟨pool, ⟨fun f => ?_, fun _ _ => rfl, fun _ _ _ => rfl, ?_⟩, by rw [State.init, append_nil]⟩
  · have hzero : Refs.total (State.init initproc pool).slots f = 0 :=
      Nat.eq_zero_of_not_pos fun hpos => by
        obtain ⟨d, hd⟩ := Refs.total_pos_iff.mp hpos
        cases hd
    rw [hzero]
    rfl
  · exact ⟨by rw [State.init, append_nil], rfl, nofun, nofun, nofun, nofun⟩

/-- The calls that are not other kernel code using pages. -/
def Event.IsCall : Event P → Prop
  | .grab | .give _ => False
  | _ => True

/-- **A complete call** does not panic, pays its debts and keeps the pages of pipes
apart from those of others. -/
theorem Inv.call {avail used : List Page} (h : Inv avail used s 0) (havail : avail.Nodup)
    {e : Event P} (he : e.IsCall) (hl : e.Legal s) :
    ∃ s', s.call e = .ok s' ∧ Inv avail used s' 0 := by
  match e, he, hl with
  | .open p found r w, _, hl => exact h.sysOpen havail (live_not_vacant hl) found r w
  | .dup p fd, _, hl => exact h.sysDup (live_not_vacant hl)
  | .close p fd, _, _ => exact h.sysClose havail
  | .pipe p, _, hl => exact h.sysPipe havail (live_not_vacant hl)
  | .fork p none, _, _ => exact h.fork (p := p) none fun _ hr => (nomatch hr)
  | .fork p (some q), _, hl => exact h.fork (some q) fun r hr => by cases hr; exact hl.2
  | .exit p, _, _ => exact h.exit havail
  | .reap p, _, hl => exact ⟨_, rfl, h.reap hl⟩

theorem State.Sound.call (h : s.Sound pool) (hpool : pool.Nodup) {e : Event P} (hl : e.Legal s) :
    ∃ s', s.call e = .ok s' ∧ s'.Sound pool ∧ ∀ q ∈ s.pipes, q ∈ s'.pipes ∨ q ∈ s'.free := by
  obtain ⟨avail, hI, hperm⟩ := h
  have havail : avail.Nodup := (nodup_append.mp (hperm.nodup_iff.mpr hpool)).1
  by_cases he : e.IsCall
  · obtain ⟨s', hc, hI'⟩ := hI.call havail he hl
    have hu : s'.used = s.used := hI'.pipes.others
    refine ⟨s', hc, ⟨avail, hu.symm ▸ hI', hu.symm ▸ hperm⟩, fun q hq => ?_⟩
    have hmem := hI'.pipes.pages.mem_iff.mpr (hI.pipes.pages.mem_iff.mp (mem_append_right _ hq))
    exact (mem_append.mp hmem).symm
  · match e with
    | .open .. | .dup .. | .close .. | .pipe .. | .fork .. | .exit .. | .reap .. =>
      exact absurd trivial he
    | .grab =>
      simp only [State.call]
      cases hf : s.free with
      | nil => exact ⟨s, rfl, ⟨avail, hI, hperm⟩, fun q hq => .inl hq⟩
      | cons q free =>
        refine ⟨_, rfl, ⟨free ++ s.pipes, hI.pages (List.Perm.refl _), ?_⟩, fun q hq => .inl hq⟩
        have hpages := hI.pipes.pages
        rw [hf] at hpages
        exact perm_middle.trans ((hpages.append_right s.used).trans hperm)
    | .give q =>
      refine ⟨_, rfl, ⟨q :: avail, hI.pages (hI.pipes.pages.cons q), ?_⟩, fun q hq => .inl hq⟩
      have hq : q ∈ s.used := hl
      exact (perm_middle.symm.trans ((perm_cons_erase hq).symm.append_left avail)).trans
        hperm

theorem State.Sound.of_run (hpool : pool.Nodup) (h : Runs initproc pool es s) : s.Sound pool := by
  refine Trace.Run.invariant (I := fun _ s => s.Sound pool) (State.Sound.init initproc pool) ?_ h
  intro _ s e s' hs hstep
  rw [State.step] at hstep
  split at hstep
  next hl =>
    obtain ⟨s₁, hc, hs₁, -⟩ := hs.call hpool hl
    rw [hc] at hstep
    cases hstep
    exact hs₁
  next => cases hstep

/-- **Reference counts of open files are exact.**  After any sequence of complete
calls: the count of a file is the number of descriptors that refer to it and a file
with count 0 is free; the pages that are pipes are those some descriptor refers to,
their flags say which ends are referred to, and every page is in one place; and the
next call does not panic, and frees the pages that are pipes no longer. -/
theorem file_refs_exact (hpool : pool.Nodup) (h : Runs initproc pool es s) :
    (∀ f, (s.file f).ref = ((s.descriptors f).card : Int)) ∧
    (∀ f, (s.file f).ref = 0 → (s.file f).type = .none) ∧
    (∀ q ∈ s.pipes, ((s.ends q).readopen = true ↔ s.Refers q false) ∧
      ((s.ends q).writeopen = true ↔ s.Refers q true)) ∧
    (∀ q, q ∈ s.pipes ↔ ∃ w, s.Refers q w) ∧
    (s.free ++ s.used ++ s.pipes).Perm pool ∧
    (∀ e, e.Legal s → ∃ s', s.call e = .ok s' ∧
      ∀ q ∈ s.pipes, (¬ ∃ w, s'.Refers q w) → q ∈ s'.free) := by
  have hs := State.Sound.of_run hpool h
  obtain ⟨avail, hI, hperm⟩ := id hs
  refine ⟨hI.ref_eq_card, hI.idle, fun q hq => ⟨?_, ?_⟩, hI.mem_pipes_iff, ?_, fun e hl => ?_⟩
  · exact (hI.pipes.flag q hq false).trans (hI.endOpen_iff q false)
  · exact (hI.pipes.flag q hq true).trans (hI.endOpen_iff q true)
  · have hswap : (s.free ++ s.used ++ s.pipes).Perm (s.free ++ s.pipes ++ s.used) := by
      rw [append_assoc, append_assoc]
      exact perm_append_comm.append_left _
    exact (hswap.trans (hI.pipes.pages.append_right _)).trans hperm
  · obtain ⟨s', hc, ⟨avail', hI', -⟩, hq⟩ := hs.call hpool hl
    refine ⟨s', hc, fun q hqs hno => (hq q hqs).resolve_left fun hqs' => hno ?_⟩
    exact (hI'.mem_pipes_iff q).mp hqs'

end Run

/-- A pipe is made, its ends are shared with a child, and both processes close or
exit: the page is free again. -/
def pipeLife : List (Event (Fin 2)) :=
  [.pipe 0, .fork 0 (some 1), .close 0 ⟨0, by decide⟩, .dup 1 ⟨1, by decide⟩, .exit 0,
    .close 1 ⟨1, by decide⟩, .exit 1]

theorem file_refs_exact_pipe_life :
    ∃ s : State (Fin 2), Runs 0 [7, 8] pipeLife s ∧ s.free = [7, 8] ∧
      ∀ f, (s.file f).ref = ((s.descriptors f).card : Int) :=
  Trace.exists_of_exec_imp (Q := fun s => s.free = [7, 8]) (by decide +kernel)
    fun _ hrun hfree => ⟨hfree, (file_refs_exact (by decide) hrun).1⟩

end Xv6.Files
