/-
# `Xv6.Lib.Trace` — runs of a partial step function

A system is a step function `σ → ε → Option σ`: the event `ε` says which party
moves and how, `none` says the move is not possible now.  A *run* is a list of
events that the steps accept one after the other, so a statement about every run
is a statement about every interleaving.  What is proved about runs goes through
one rule, `Run.invariant`: the invariant may speak of the events so far as well
as of the state, which makes history variables ordinary functions of the trace.
-/
import Mathlib.Algebra.GroupWithZero.Nat
import Mathlib.Data.List.Induction

namespace Trace

/-- The parties of a sample run are the elements of `Fin 2` or of `Fin 3`. -/
instance twoNeZero : NeZero 2 := ⟨by decide⟩

instance threeNeZero : NeZero 3 := ⟨by decide⟩

open List

variable {σ ε : Type} (step : σ → ε → Option σ)

/-- `Run step s₀ es s`: from `s₀` the events `es` lead to `s`. -/
inductive Run (s₀ : σ) : List ε → σ → Prop
  | nil : Run s₀ [] s₀
  | snoc {es : List ε} {s s' : σ} (e : ε) :
      Run s₀ es s → step s e = some s' → Run s₀ (es ++ [e]) s'

def exec (s₀ : σ) : List ε → Option σ
  | [] => some s₀
  | e :: es => (step s₀ e).bind (fun s => exec s es)

variable {step} {s₀ s : σ} {es : List ε}

/-- **The invariant rule.** -/
theorem Run.invariant {I : List ε → σ → Prop} (hinit : I [] s₀)
    (hstep : ∀ es s e s', I es s → step s e = some s' → I (es ++ [e]) s') (h : Run step s₀ es s) :
    I es s := by
  induction h with
  | nil => exact hinit
  | snoc e _ hs ih => exact hstep _ _ e _ ih hs

/-- **The invariant rule for runs whose steps meet a condition**: `G` is asked of each
event in the state it starts from. -/
theorem Run.guarded_trace {I : List ε → σ → Prop} {G : σ → ε → Prop} (hinit : I [] s₀)
    (hstep : ∀ es s e s', Run step s₀ es s → I es s → G s e → step s e = some s' →
      I (es ++ [e]) s') (h : Run step s₀ es s)
    (hG : ∀ pre e post t, es = pre ++ e :: post → Run step s₀ pre t → G t e) : I es s := by
  induction h with
  | nil => exact hinit
  | @snoc es s s' e hr hs ih =>
    have hI : I es s := by
      refine ih fun pre f post t he ht => hG pre f (post ++ [e]) t ?_ ht
      rw [he, append_assoc, cons_append]
    exact hstep es s e s' hr hI (hG es e [] s rfl hr) hs

/-- The rule for an invariant of the state. -/
theorem Run.guarded {I : σ → Prop} {G : σ → ε → Prop} (hinit : I s₀)
    (hstep : ∀ es s e s', Run step s₀ es s → I s → G s e → step s e = some s' → I s')
    (h : Run step s₀ es s)
    (hG : ∀ pre e post t, es = pre ++ e :: post → Run step s₀ pre t → G t e) : I s :=
  h.guarded_trace hinit hstep hG

theorem Run.append {fs : List ε} {t : σ} (h : Run step s₀ es s) (h' : Run step s fs t) :
    Run step s₀ (es ++ fs) t := by
  induction h' with
  | nil => rw [append_nil]; exact h
  | snoc e _ hs ih => rw [← append_assoc]; exact .snoc e ih hs

theorem run_of_exec : ∀ {es : List ε} {s₀ s : σ}, exec step s₀ es = some s → Run step s₀ es s
  | [], s₀, s, h => by
    cases h; exact .nil
  | e :: es, s₀, s, h => by
    simp only [exec, Option.bind_eq_some_iff] at h
    obtain ⟨s₁, h₁, h₂⟩ := h
    have hone : Run step s₀ ([] ++ [e]) s₁ := .snoc e .nil h₁
    exact hone.append (run_of_exec h₂)

/-- An execution whose last state is seen to be as wanted. -/
theorem exists_of_exec {Q : σ → Prop} [DecidablePred Q]
    (h : (exec step s₀ es).any (fun s => decide (Q s)) = true) :
    ∃ s, Run step s₀ es s ∧ Q s := by
  obtain ⟨s, hs, hQ⟩ := (Option.any_eq_true _ _).mp h
  exact ⟨s, run_of_exec hs, of_decide_eq_true hQ⟩

/-- The same for what follows of a run that ends so. -/
theorem exists_of_exec_imp {Q R : σ → Prop} [DecidablePred Q]
    (h : (exec step s₀ es).any (fun s => decide (Q s)) = true)
    (hR : ∀ s, Run step s₀ es s → Q s → R s) : ∃ s, Run step s₀ es s ∧ R s := by
  obtain ⟨s, hs, hQ⟩ := exists_of_exec h
  exact ⟨s, hs, hR s hs hQ⟩

theorem exists_run (h : (exec step s₀ es).isSome = true) : ∃ s, Run step s₀ es s :=
  (Option.isSome_iff_exists.mp h).imp fun _ => run_of_exec

theorem exec_of_run (h : Run step s₀ es s) : exec step s₀ es = some s := by
  have happend : ∀ (es : List ε) (s₀ : σ) (e : ε),
      exec step s₀ (es ++ [e]) = (exec step s₀ es).bind fun s => step s e := by
    intro es
    induction es with
    | nil => intro s₀ e; simp [exec]
    | cons f es ih => intro s₀ e; simp [exec, ih, Option.bind_assoc]
  induction h with
  | nil => rfl
  | snoc e _ hs ih => rw [happend, ih, Option.bind_some, hs]

/-- Every event of an execution meets the condition `G`. -/
def checks (step : σ → ε → Option σ) (G : σ → ε → Bool) : σ → List ε → Bool
  | _, [] => true
  | s, e :: es => G s e && ((step s e).all fun s' => checks step G s' es)

theorem of_checks {G : σ → ε → Bool} : ∀ {es : List ε} {s₀ : σ}, checks step G s₀ es = true →
    ∀ {pre : List ε} {e : ε} {post : List ε} {t : σ}, es = pre ++ e :: post →
      Run step s₀ pre t → G t e = true := by
  intro es s₀ h pre
  induction pre generalizing es s₀ with
  | nil =>
    intro e post t he ht
    cases exec_of_run ht
    rw [he, nil_append, checks, Bool.and_eq_true] at h
    exact h.1
  | cons f pre ih =>
    intro e post t he ht
    have hex := exec_of_run ht
    rw [exec, Option.bind_eq_some_iff] at hex
    obtain ⟨s₁, hs₁, hex⟩ := hex
    rw [he, cons_append, checks, Bool.and_eq_true, hs₁] at h
    exact ih h.2 rfl (run_of_exec hex)

/-- The condition of `Run.guarded`, for an execution. -/
theorem guard_of_checks {G : σ → ε → Prop} [∀ s e, Decidable (G s e)]
    (h : checks step (fun s e => decide (G s e)) s₀ es = true) :
    ∀ pre e post t, es = pre ++ e :: post → Run step s₀ pre t → G t e :=
  fun _ _ _ _ he ht => of_decide_eq_true (of_checks h he ht)

/-- Every prefix of a run is a run, and the next event of the run steps from it. -/
theorem Run.split (h : Run step s₀ es s) :
    ∀ {pre : List ε} {e : ε} {post : List ε}, es = pre ++ e :: post →
      ∃ t t', Run step s₀ pre t ∧ step t e = some t' ∧ Run step t' post s := by
  induction h with
  | nil => intro pre e post he; simp at he
  | @snoc es s s' f hr hs ih =>
    intro pre e post he
    rcases eq_nil_or_concat post with rfl | ⟨post', g, rfl⟩
    · obtain ⟨rfl, hfe⟩ := append_inj' he rfl
      cases hfe
      exact ⟨s, s', hr, hs, .nil⟩
    · rw [concat_eq_append, ← cons_append, ← append_assoc] at he
      obtain ⟨rfl, hg⟩ := append_inj' he rfl
      cases hg
      obtain ⟨t, t', h₁, h₂, h₃⟩ := ih rfl
      exact ⟨t, t', h₁, h₂, by rw [concat_eq_append]; exact .snoc f h₃ hs⟩

end Trace
