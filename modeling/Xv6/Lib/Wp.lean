/-
# `Xv6.Lib.Wp` — weakest preconditions of code that changes a state and may stop

A function of the kernel is `StateT σ (Except ε) α`: it reads and writes the state
and it may stop the machine with an error.  `Meets x s Q E` says what it does from `s`:
it returns in `Q`, or it stops with an error in `E`.  With `E` empty this is total
correctness.  There is one rule for each way to build such a function, and `mono`
to use what is known of a callee.
-/
import Mathlib.Logic.Basic

namespace Wp

variable {σ ε α β : Type}

/-- What a computation that returned has gone through. -/
theorem ok_of_bind {x : Except ε α} {f : α → Except ε β} {r : β} (h : x >>= f = .ok r) :
    ∃ a, x = .ok a ∧ f a = .ok r := by
  cases x with
  | error e => cases h
  | ok a => exact ⟨a, rfl, h⟩

/-- From `s`, `x` returns in `Q` or stops with an error in `E`.  Irreducible, so that proofs
go through the rules and never run the code. -/
@[irreducible]
def Meets (x : StateT σ (Except ε) α) (s : σ) (Q : α → σ → Prop) (E : ε → Prop) : Prop :=
  match x s with
  | .ok (a, s') => Q a s'
  | .error e => E e

variable {s : σ} {Q : α → σ → Prop} {E E' : ε → Prop} {f g : α → StateT σ (Except ε) β} {a : α}
  {c : Prop}

theorem of_pure (h : Q a s) : Meets (pure a : StateT σ (Except ε) α) s Q E := by
  unfold Meets
  exact h

theorem of_throw {e : ε} (h : E e) : Meets (throw e : StateT σ (Except ε) α) s Q E := by
  unfold Meets
  exact h

theorem of_get {Q : σ → σ → Prop} (h : Q s s) : Meets (get : StateT σ (Except ε) σ) s Q E := by
  unfold Meets
  exact h

theorem of_set {s' : σ} {Q : PUnit → σ → Prop} (h : Q ⟨⟩ s') :
    Meets (set s' : StateT σ (Except ε) PUnit) s Q E := by
  unfold Meets
  exact h

theorem of_modify {f : σ → σ} {Q : PUnit → σ → Prop} (h : Q ⟨⟩ (f s)) :
    Meets (modify f : StateT σ (Except ε) PUnit) s Q E := by
  unfold Meets
  exact h

theorem of_bind {x : StateT σ (Except ε) α} {Q : β → σ → Prop}
    (h : Meets x s (fun a s' => Meets (f a) s' Q E) E) : Meets (x >>= f) s Q E := by
  unfold Meets at h ⊢
  show match (x s >>= fun p => f p.1 p.2) with | .ok (b, t) => Q b t | .error e => E e
  cases hx : x s with
  | ok | error =>
    rw [hx] at h
    exact h

theorem of_ite {_ : Decidable c} {x y : StateT σ (Except ε) α} (ht : c → Meets x s Q E)
    (hf : ¬ c → Meets y s Q E) : Meets (if c then x else y) s Q E := by
  split
  · exact ht ‹c›
  · exact hf ‹¬ c›

theorem of_pos {_ : Decidable c} {x y : StateT σ (Except ε) α} (hc : c) (h : Meets x s Q E) :
    Meets (if c then x else y) s Q E :=
  of_ite (fun _ => h) (absurd hc)

theorem of_neg {_ : Decidable c} {x y : StateT σ (Except ε) α} (hc : ¬ c) (h : Meets y s Q E) :
    Meets (if c then x else y) s Q E :=
  of_ite (fun h' => absurd h' hc) fun _ => h

theorem of_true {x y : StateT σ (Except ε) α} (h : Meets x s Q E) :
    Meets (if true = true then x else y) s Q E :=
  of_pos rfl h

theorem of_false {x y : StateT σ (Except ε) α} (h : Meets y s Q E) :
    Meets (if false = true then x else y) s Q E :=
  of_neg Bool.false_ne_true h

/-- **Consequence**: what is known of a callee is weakened to what its caller needs. -/
theorem mono {x : StateT σ (Except ε) α} {Q' : α → σ → Prop} (h : Meets x s Q E)
    (hQ : ∀ a s', Q a s' → Q' a s') (hE : ∀ e, E e → E' e) : Meets x s Q' E' := by
  unfold Meets at h ⊢
  cases hx : x s with
  | ok p =>
    rw [hx] at h
    exact hQ p.1 p.2 h
  | error e =>
    rw [hx] at h
    exact hE e h

/-- What is known of a program in two ways. -/
theorem both {x : StateT σ (Except ε) α} {Q' : α → σ → Prop} (h : Meets x s Q E)
    (h' : Meets x s Q' E') : Meets x s (fun a s' => Q a s' ∧ Q' a s') fun e => E e ∧ E' e := by
  unfold Meets at h h' ⊢
  cases hx : x s with
  | ok | error =>
    rw [hx] at h h'
    exact ⟨h, h'⟩

/-- The rule of a call: the callee's postcondition is where the rest starts. -/
theorem call {x : StateT σ (Except ε) α} {Q : β → σ → Prop} {R : α → σ → Prop} (h : Meets x s R E')
    (hE : ∀ e, E' e → E e) (hf : ∀ a s', R a s' → Meets (f a) s' Q E) : Meets (x >>= f) s Q E :=
  of_bind (mono h hf hE)

theorem ok {x : StateT σ (Except ε) α} {s' : σ} (h : Meets x s Q E) (hx : x s = .ok (a, s')) :
    Q a s' := by
  unfold Meets at h
  rw [hx] at h
  exact h

theorem returns {x : StateT σ (Except ε) α} (h : Meets x s Q fun _ => False) :
    ∃ a s', x s = .ok (a, s') ∧ Q a s' := by
  unfold Meets at h
  cases hx : x s with
  | ok p =>
    rw [hx] at h
    exact ⟨p.1, p.2, rfl, h⟩
  | error e =>
    rw [hx] at h
    exact h.elim

theorem of_map {x : StateT σ (Except ε) α} {f : α → β} {Q : β → σ → Prop}
    (h : Meets (f <$> x) s Q E) : Meets x s (fun a => Q (f a)) E := by
  unfold Meets at h ⊢
  replace h : match (x s >>= fun p => pure (f p.1, p.2)) with
    | .ok (b, t) => Q b t
    | .error e => E e := h
  cases hx : x s with
  | ok | error =>
    rw [hx] at h
    exact h

/-- What is known of a program is known of one that runs the same. -/
theorem congr {x y : StateT σ (Except ε) α} (h : Meets x s Q E) (hxy : y s = x s) : Meets y s Q E := by
  unfold Meets at h ⊢
  rwa [hxy]

/-- A parameter of the rest of a program may be chosen when it starts, as long as every value
has one. -/
theorem exists_bind {ι γ : Type} [Nonempty ι] {x : StateT σ (Except ε) α} {f : β → γ}
    {g' : ι → α → StateT σ (Except ε) γ} (hg : ∀ a, ∃ i, f <$> g a = g' i a) (s : σ) :
    ∃ i, (f <$> (x >>= g)) s = (x >>= g' i) s := by
  show ∃ i, ((x s >>= fun p => g p.1 p.2) >>= fun p => pure (f p.1, p.2)) =
    (x s >>= fun p => g' i p.1 p.2)
  cases x s with
  | error e =>
    obtain ⟨i⟩ := ‹Nonempty ι›
    exact ⟨i, rfl⟩
  | ok p =>
    obtain ⟨i, hi⟩ := hg p.1
    exact ⟨i, congrFun hi p.2⟩

/-! ## What is returned, whatever the state -/

/-- From any state, what `x` returns is in `R`. -/
def Yields (x : StateT σ (Except ε) α) (R : α → Prop) : Prop :=
  ∀ s, Meets x s (fun a _ => R a) fun _ => True

namespace Yields

variable {x y : StateT σ (Except ε) α} {R : α → Prop}

theorem trivial (x : StateT σ (Except ε) α) : Yields x fun _ => True := by
  intro s
  unfold Meets
  cases x s with
  | ok | error => exact True.intro

theorem pure (h : R a) : Yields (pure a : StateT σ (Except ε) α) R := fun _ => of_pure h

theorem throw (e : ε) : Yields (throw e : StateT σ (Except ε) α) R := fun _ => of_throw True.intro

theorem ite {_ : Decidable c} (ht : c → Yields x R) (hf : ¬ c → Yields y R) :
    Yields (if c then x else y) R :=
  fun s => of_ite (fun h => ht h s) fun h => hf h s

theorem call {T : β → Prop} (h : Yields x R) (hf : ∀ a, R a → Yields (f a) T) :
    Yields (x >>= f) T :=
  fun s => Wp.call (h s) (fun _ => id) fun a s' ha => hf a ha s'

/-- Nothing has to be known of what is called. -/
theorem bind {T : β → Prop} (hf : ∀ a, Yields (f a) T) : Yields (x >>= f) T :=
  call (trivial x) fun a _ => hf a

/-- What follows may be changed where it is not reached. -/
theorem bind_congr (h : Yields x R) (hfg : ∀ a, R a → f a = g a) : x >>= f = x >>= g := by
  funext s
  have hs := h s
  unfold Meets at hs
  show (x s >>= fun p => f p.1 p.2) = (x s >>= fun p => g p.1 p.2)
  cases hx : x s with
  | error e => rfl
  | ok p =>
    rw [hx] at hs
    exact congrFun (hfg p.1 hs) p.2

end Yields

/-! ## Programs that return where others do -/

/-- Where `x` returns, `y` returns the same. -/
def Refines (x y : StateT σ (Except ε) α) : Prop := ∀ s a s', x s = .ok (a, s') → y s = .ok (a, s')

namespace Refines

variable {x y : StateT σ (Except ε) α}

theorem refl (x : StateT σ (Except ε) α) : Refines x x := fun _ _ _ => id

/-- A program that stops may be replaced by any other. -/
theorem throw (e : ε) (y : StateT σ (Except ε) α) : Refines (throw e) y := fun _ _ _ => nofun

theorem bind (h : Refines x y) (hf : ∀ a, Refines (f a) (g a)) : Refines (x >>= f) (y >>= g) := by
  intro s b s' hrun
  replace hrun : (x s >>= fun p => f p.1 p.2) = .ok (b, s') := hrun
  show (y s >>= fun p => g p.1 p.2) = .ok (b, s')
  cases hx : x s with
  | error e =>
    rw [hx] at hrun
    cases hrun
  | ok p =>
    rw [hx] at hrun
    rw [h s p.1 p.2 hx]
    exact hf p.1 p.2 b s' hrun

theorem ite {_ : Decidable c} {x' y' : StateT σ (Except ε) α} (h : Refines x y)
    (h' : Refines x' y') : Refines (if c then x else x') (if c then y else y') := by
  split
  · exact h
  · exact h'

end Refines

end Wp
