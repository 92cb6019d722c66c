/-
# `Xv6.File.Ends` — pipes and the files that are their ends

A pipe is a page with two flags, and two files of `ftable` refer to it.  `PipesOk`
says how the three agree; it is kept when `pipealloc` makes a pipe and when the last
reference to an end is closed, which frees the page once the other end is gone.
-/
import Xv6.File.Table

namespace Xv6.Files

open List
open Fs (FileId)
open Function (update update_of_ne update_self)

variable {P : Type}

theorem State.modify_self {s : State P} {f : FileId} {g : File → File} :
    (s.modify f g).file f = g (s.file f) :=
  update_self ..

theorem State.modify_of_ne {s : State P} {f k : FileId} {g : File → File} (h : k ≠ f) :
    (s.modify f g).file k = s.file k :=
  update_of_ne h ..

/-! ## Pipes and their ends -/

/-- Some file is the read end, or the write end, of the pipe at `p`. -/
def EndOpen (s : State P) (p : Page) (writable : Bool) : Prop :=
  ∃ f, (s.file f).type = .pipe ∧ (s.file f).pipe = p ∧ (s.file f).writable = writable

/-- The flag `pipeclose` clears. -/
def Ends.isOpen (e : Ends) (writable : Bool) : Bool := if writable then e.writeopen else e.readopen

/-- Of the pages in `avail` each is free or a pipe, `used` are the others; each end is
one file, and the flags say which ends there are. -/
structure PipesOk (avail used : List Page) (s : State P) : Prop where
  pages : (s.free ++ s.pipes).Perm avail
  others : s.used = used
  live : ∀ f, (s.file f).type = .pipe → (s.file f).pipe ∈ s.pipes
  inj : ∀ f g, (s.file f).type = .pipe → (s.file g).type = .pipe →
    (s.file f).pipe = (s.file g).pipe → (s.file f).writable = (s.file g).writable → f = g
  flag : ∀ p ∈ s.pipes, ∀ w, ((s.ends p).isOpen w = true ↔ EndOpen s p w)
  opened : ∀ p ∈ s.pipes, ∃ w, (s.ends p).isOpen w = true

namespace PipesOk

variable {avail used : List Page} {s s' : State P}

/-- Only the files that are pipes matter. -/
theorem congr (h : PipesOk avail used s)
    (hf : ∀ f, ((s'.file f).type = .pipe ↔ (s.file f).type = .pipe) ∧
      ((s.file f).type = .pipe → (s'.file f).pipe = (s.file f).pipe ∧
        (s'.file f).writable = (s.file f).writable))
    (he : s'.ends = s.ends) (hp : s'.pipes = s.pipes)
    (hfree : s'.free = s.free) (hu : s'.used = s.used) :
    PipesOk avail used s' := by
  have hend : ∀ p w, EndOpen s' p w ↔ EndOpen s p w := by
    intro p w
    constructor
    · rintro ⟨f, h₁, h₂, h₃⟩
      have h₁' := (hf f).1.mp h₁
      obtain ⟨h₄, h₅⟩ := (hf f).2 h₁'
      exact ⟨f, h₁', h₄ ▸ h₂, h₅ ▸ h₃⟩
    · rintro ⟨f, h₁, h₂, h₃⟩
      obtain ⟨h₄, h₅⟩ := (hf f).2 h₁
      exact ⟨f, (hf f).1.mpr h₁, h₄.trans h₂, h₅.trans h₃⟩
  refine ⟨by rw [hfree, hp]; exact h.pages, hu.trans h.others, fun f h₁ => ?_, fun f g h₁ h₂ h₃ h₄ => ?_, ?_, ?_⟩
  · have h₁' := (hf f).1.mp h₁
    rw [((hf f).2 h₁').1, hp]
    exact h.live f h₁'
  · have h₁' := (hf f).1.mp h₁
    have h₂' := (hf g).1.mp h₂
    rw [((hf f).2 h₁').1, ((hf g).2 h₂').1] at h₃
    rw [((hf f).2 h₁').2, ((hf g).2 h₂').2] at h₄
    exact h.inj f g h₁' h₂' h₃ h₄
  · intro p hpp w
    rw [hp] at hpp
    rw [he, hend]
    exact h.flag p hpp w
  · intro p hpp
    rw [hp] at hpp
    rw [he]
    exact h.opened p hpp

theorem nodup (h : PipesOk avail used s) (havail : avail.Nodup) : s.pipes.Nodup :=
  (nodup_append.mp (h.pages.nodup_iff.mpr havail)).2.1

/-! ### One end is closed -/

section Close

variable {f : FileId} {g : File → File}

/-- The files that are pipes after `f` has been cleared are others. -/
theorem file_of_pipe (hg : (g (s.file f)).type = .none) {k : FileId}
    (hk : ((s.modify f g).file k).type = .pipe) :
    k ≠ f ∧ (s.modify f g).file k = s.file k := by
  have hne : k ≠ f := by
    rintro rfl
    rw [State.modify_self, hg] at hk
    cases hk
  exact ⟨hne, State.modify_of_ne hne⟩

theorem endOpen_modify (h : PipesOk avail used s) (hf : (s.file f).type = .pipe)
    (hg : (g (s.file f)).type = .none) (q : Page) (v : Bool) :
    EndOpen (s.modify f g) q v ↔
      EndOpen s q v ∧ ¬ (q = (s.file f).pipe ∧ v = (s.file f).writable) := by
  constructor
  · rintro ⟨k, h₁, h₂, h₃⟩
    obtain ⟨hne, heq⟩ := file_of_pipe hg h₁
    rw [heq] at h₁ h₂ h₃
    refine ⟨⟨k, h₁, h₂, h₃⟩, fun hqv => hne ?_⟩
    exact h.inj k f h₁ hf (h₂.trans hqv.1) (h₃.trans hqv.2)
  · rintro ⟨⟨k, h₁, h₂, h₃⟩, hqv⟩
    have hk : k ≠ f := by
      rintro rfl
      exact hqv ⟨h₂.symm, h₃.symm⟩
    have heq : (s.modify f g).file k = s.file k := State.modify_of_ne hk
    exact ⟨k, heq ▸ h₁, heq ▸ h₂, heq ▸ h₃⟩

theorem isOpen_close (e : Ends) (w v : Bool) :
    (if w then { e with writeopen := false } else { e with readopen := false } : Ends).isOpen v =
      (e.isOpen v && v != w) := by
  cases w <;> cases v <;> simp [Ends.isOpen]

theorem closed_iff (e : Ends) :
    (e.readopen = false ∧ e.writeopen = false) ↔ ∀ v, e.isOpen v = false :=
  ⟨fun h v => by cases v <;> simp [Ends.isOpen, h], fun h => ⟨h false, h true⟩⟩

/-- **The last reference to an end**: `fileclose` clears the file and calls
`pipeclose`, which frees the page when the other end is closed too. -/
theorem close (h : PipesOk avail used s) (havail : avail.Nodup) (hf : (s.file f).type = .pipe)
    (hg : (g (s.file f)).type = .none) :
    PipesOk avail used (pipeclose (s.modify f g) (s.file f).pipe (s.file f).writable) := by
  set p := (s.file f).pipe with hp
  set w := (s.file f).writable with hw
  have hpp : p ∈ s.pipes := h.live f hf
  have hend : ∀ q v, EndOpen (s.modify f g) q v ↔ EndOpen s q v ∧ ¬ (q = p ∧ v = w) :=
    h.endOpen_modify hf hg
  have hlive : ∀ k, ((s.modify f g).file k).type = .pipe →
      ((s.modify f g).file k).pipe ∈ s.pipes := by
    intro k hk
    have heq := (file_of_pipe hg hk).2
    rw [heq] at hk ⊢
    exact h.live k hk
  have hinj : ∀ j k, ((s.modify f g).file j).type = .pipe → ((s.modify f g).file k).type = .pipe →
      ((s.modify f g).file j).pipe = ((s.modify f g).file k).pipe →
      ((s.modify f g).file j).writable = ((s.modify f g).file k).writable → j = k := by
    intro j k hj hk
    have heqj := (file_of_pipe hg hj).2
    have heqk := (file_of_pipe hg hk).2
    rw [heqj] at hj ⊢
    rw [heqk] at hk ⊢
    exact h.inj j k hj hk
  set e : Ends := if w then { s.ends p with writeopen := false }
    else { s.ends p with readopen := false } with he
  have hflag : ∀ q ∈ s.pipes, ∀ v,
      ((update s.ends p e) q).isOpen v = true ↔ EndOpen (s.modify f g) q v := by
    intro q hq v
    rw [hend]
    by_cases hqp : q = p
    · subst hqp
      rw [update_self, he, isOpen_close, Bool.and_eq_true, h.flag _ hq, bne_iff_ne]
      simp
    · rw [update_of_ne hqp, h.flag q hq]
      simp [hqp]
  have hopened : ∀ q ∈ s.pipes, q ≠ p → ∃ v, ((update s.ends p e) q).isOpen v = true := by
    intro q hq hqp
    rw [update_of_ne hqp]
    exact h.opened q hq
  have hpipe : pipeclose (s.modify f g) p w =
      if e.readopen = false ∧ e.writeopen = false then
        { s.modify f g with
          ends := update s.ends p e, free := p :: s.free, pipes := s.pipes.erase p }
      else { s.modify f g with ends := update s.ends p e } := rfl
  rw [hpipe]
  by_cases hc : e.readopen = false ∧ e.writeopen = false
  · rw [if_pos hc]
    have hmem : ∀ q, q ∈ s.pipes.erase p ↔ q ≠ p ∧ q ∈ s.pipes := fun q =>
      (h.nodup havail).mem_erase_iff
    refine ⟨?_, h.others, fun k hk => ?_, hinj, fun q hq v => hflag q ((hmem q).mp hq).2 v, fun q hq =>
      hopened q ((hmem q).mp hq).2 ((hmem q).mp hq).1⟩
    · have hback : (p :: (s.free ++ s.pipes.erase p)).Perm (s.free ++ s.pipes) :=
        perm_middle.symm.trans ((perm_cons_erase hpp).symm.append_left _)
      exact hback.trans h.pages
    · -- no other file is an end of this pipe
      refine (hmem _).mpr ⟨fun hkp => ?_, hlive k hk⟩
      have ho := (hflag p hpp _).mpr ⟨k, hk, hkp, rfl⟩
      rw [update_self, (closed_iff e).mp hc] at ho
      cases ho
  · rw [if_neg hc]
    refine ⟨h.pages, h.others, hlive, hinj, hflag, fun q hq => ?_⟩
    by_cases hqp : q = p
    · subst hqp
      rw [closed_iff] at hc
      push Not at hc
      obtain ⟨v, hv⟩ := hc
      refine ⟨v, ?_⟩
      show ((update s.ends _ e) _).isOpen v = true
      rwa [update_self, ← Bool.not_eq_false]
    · exact hopened q hq hqp

end Close

/-- `pipealloc` makes the page `p` a pipe and gives it two files that were none. -/
theorem create (h : PipesOk avail used s) (havail : avail.Nodup) {f₀ f₁ : FileId} {p : Page}
    {free : List Page} (hne : f₀ ≠ f₁) (h₀ : (s.file f₀).type ≠ .pipe)
    (h₁ : (s.file f₁).type ≠ .pipe) (hfree : s.free = p :: free) :
    PipesOk avail used (setPipe s f₀ f₁ p free) := by
  have hp : p ∉ s.pipes := by
    intro hp
    have hnd := h.pages.nodup_iff.mpr havail
    rw [hfree] at hnd
    simp only [cons_append, nodup_cons, mem_append] at hnd
    exact hnd.1 (.inr hp)
  have hfile₀ : (setPipe s f₀ f₁ p free).file f₀ = ⟨.pipe, (s.file f₀).ref, true, false, p⟩ := by
    simp only [setPipe, State.modify, update_self, update_of_ne hne]
  have hfile₁ : (setPipe s f₀ f₁ p free).file f₁ = ⟨.pipe, (s.file f₁).ref, false, true, p⟩ := by
    simp only [setPipe, State.modify, update_self, update_of_ne hne.symm]
  have hfile : ∀ k, k ≠ f₀ → k ≠ f₁ → (setPipe s f₀ f₁ p free).file k = s.file k := by
    intro k hk₀ hk₁
    simp only [setPipe, State.modify, update_of_ne hk₀, update_of_ne hk₁]
  -- a file that is a pipe afterwards is one of the two, or was a pipe elsewhere
  have hcases : ∀ k, ((setPipe s f₀ f₁ p free).file k).type = .pipe →
      (k = f₀ ∨ k = f₁ ∨ (setPipe s f₀ f₁ p free).file k = s.file k ∧
        (s.file k).type = .pipe ∧ (s.file k).pipe ≠ p) := by
    intro k hk
    by_cases hk₀ : k = f₀
    · exact .inl hk₀
    by_cases hk₁ : k = f₁
    · exact .inr (.inl hk₁)
    rw [hfile k hk₀ hk₁] at hk
    exact .inr (.inr ⟨hfile k hk₀ hk₁, hk, fun hkp => hp (hkp ▸ h.live k hk)⟩)
  refine ⟨?_, h.others, fun k hk => ?_, fun j k hj hk hpg hw => ?_, fun q hq v => ?_, fun q hq => ?_⟩
  · refine List.Perm.trans ?_ h.pages
    rw [hfree]
    exact perm_middle
  · rcases hcases k hk with rfl | rfl | ⟨heq, hkt, -⟩
    · rw [hfile₀]; exact mem_cons_self
    · rw [hfile₁]; exact mem_cons_self
    · rw [heq]; exact mem_cons_of_mem _ (h.live k hkt)
  · rcases hcases j hj with rfl | rfl | ⟨heqj, hjt, hjp⟩ <;>
      rcases hcases k hk with rfl | rfl | ⟨heqk, hkt, hkp⟩
    · rfl
    · rw [hfile₀, hfile₁] at hw; cases hw
    · rw [hfile₀, heqk] at hpg; exact absurd hpg.symm hkp
    · rw [hfile₀, hfile₁] at hw; cases hw
    · rfl
    · rw [hfile₁, heqk] at hpg; exact absurd hpg.symm hkp
    · rw [hfile₀, heqj] at hpg; exact absurd hpg hjp
    · rw [hfile₁, heqj] at hpg; exact absurd hpg hjp
    · rw [heqj, heqk] at hpg hw
      exact h.inj j k hjt hkt hpg hw
  · show ((update s.ends p ⟨true, true⟩) q).isOpen v = true ↔ _
    by_cases hqp : q = p
    · subst hqp
      rw [update_self]
      refine iff_of_true (by cases v <;> rfl) ?_
      cases v with
      | false => exact ⟨f₀, by rw [hfile₀], by rw [hfile₀], by rw [hfile₀]⟩
      | true => exact ⟨f₁, by rw [hfile₁], by rw [hfile₁], by rw [hfile₁]⟩
    · rw [update_of_ne hqp, h.flag q ((mem_cons.mp hq).resolve_left hqp)]
      constructor
      · rintro ⟨k, hk, hkq, hkv⟩
        have hk₀ : k ≠ f₀ := by rintro rfl; exact h₀ hk
        have hk₁ : k ≠ f₁ := by rintro rfl; exact h₁ hk
        refine ⟨k, ?_⟩
        rw [hfile k hk₀ hk₁]
        exact ⟨hk, hkq, hkv⟩
      · rintro ⟨k, hk, hkq, hkv⟩
        rcases hcases k hk with rfl | rfl | ⟨heq, hkt, -⟩
        · rw [hfile₀] at hkq; exact absurd hkq.symm hqp
        · rw [hfile₁] at hkq; exact absurd hkq.symm hqp
        · rw [heq] at hkq hkv
          exact ⟨k, hkt, hkq, hkv⟩
  · show ∃ v, ((update s.ends p ⟨true, true⟩) q).isOpen v = true
    by_cases hqp : q = p
    · subst hqp
      rw [update_self]
      exact ⟨true, rfl⟩
    · rw [update_of_ne hqp]
      exact h.opened q ((mem_cons.mp hq).resolve_left hqp)

end PipesOk

end Xv6.Files
