/-
# `Xv6.Lib.Prog` — programs over a command set, and a protocol logic for them

A program is a tree of commands: it asks a machine for one thing after another
and goes on with the answers.  The same program text then has two readings, run
to the end by one party (`run`) or interleaved command by command with the
programs of others (`step`).

Programs are verified against a *protocol*: a ghost state `L` for each party,
what a command asks of it (`pre`) and how the answer changes it (`post`).
`Obeys` says that a program follows the protocol; it speaks of no machine.  A
machine invariant `J`, over the state and the ghost states of all parties, is
*respected* when every command that meets its precondition keeps it.  The two
meet in `Respects.run` and `Respects.interleaved`: a program that obeys keeps
every invariant that is respected, alone or interleaved.
-/
import Mathlib.Logic.Function.Basic
import Xv6.Lib.Trace

namespace Machine

open Function (update update_eq_self update_idem update_of_ne update_self)

/-! ## Programs -/

/-- A program over the commands `C`; the command `c` is answered by an `R c`. -/
inductive Prog (C : Type) (R : C → Type) (α : Type) : Type
  | ret (a : α) : Prog C R α
  | op (c : C) (k : R c → Prog C R α) : Prog C R α

/-- What comes of a command: an answer and a new state, a machine that has
halted, or a command that cannot be carried out now. -/
inductive Out (ε ρ σ : Type) : Type
  | ok (r : ρ) (s : σ) : Out ε ρ σ
  | halt (e : ε) : Out ε ρ σ
  | wait : Out ε ρ σ
  deriving DecidableEq

variable {C : Type} {R : C → Type} {α β ε σ τ T L : Type} {y : Prog C R α}

namespace Prog

def bind : Prog C R α → (α → Prog C R β) → Prog C R β
  | .ret a, f => f a
  | .op c k, f => .op c (fun r => (k r).bind f)

instance : Monad (Prog C R) where
  pure := .ret
  bind := Prog.bind

def call (c : C) : Prog C R (R c) := .op c .ret

@[simp] theorem op_bind (c : C) (k : R c → Prog C R α) (f : α → Prog C R β) :
    (.op c k : Prog C R α) >>= f = .op c (fun r => k r >>= f) := rfl

end Prog

def Out.bind {ρ τ : Type} : Out ε ρ σ → (ρ → σ → Out ε τ σ) → Out ε τ σ
  | .ok r s, f => f r s
  | .halt e, _ => .halt e
  | .wait, _ => .wait

def run (exec : (c : C) → σ → Out ε (R c) σ) : Prog C R α → σ → Out ε α σ
  | .ret a, s => .ok a s
  | .op c k, s =>
    match exec c s with
    | .ok r s' => run exec (k r) s'
    | .halt e => .halt e
    | .wait => .wait

theorem run_bind (exec : (c : C) → σ → Out ε (R c) σ) (f : α → Prog C R β) :
    ∀ (x : Prog C R α) (s : σ), run exec (x >>= f) s = (run exec x s).bind fun a s' => run exec (f a) s'
  | .ret _, _ => rfl
  | .op c k, s => by
    rw [Prog.op_bind, run, run]
    cases exec c s with
    | ok r s' => exact run_bind exec f (k r) s'
    | halt | wait => rfl

/-- What a continuation adds. -/
def Out.observe {ρ ω : Type} : Out ε ρ σ → (ρ → σ → List ω) → List ω
  | .ok r s, f => f r s
  | _, _ => []

/-- What is observed along a run, where `obs` says what is observed of a command. -/
def observe {ω : Type} (exec : (c : C) → σ → Out ε (R c) σ) (obs : C → σ → List ω) :
    Prog C R α → σ → List ω
  | .ret _, _ => []
  | .op c k, s => obs c s ++ (exec c s).observe fun r s' => observe exec obs (k r) s'

theorem observe_bind {ω : Type} (exec : (c : C) → σ → Out ε (R c) σ) (obs : C → σ → List ω)
    (f : α → Prog C R β) : ∀ (x : Prog C R α) (s : σ), observe exec obs (x >>= f) s =
      observe exec obs x s ++ (run exec x s).observe fun a s' => observe exec obs (f a) s'
  | .ret _, _ => rfl
  | .op c k, s => by
    rw [Prog.op_bind, observe, observe, run, List.append_assoc]
    refine congrArg (obs c s ++ ·) ?_
    cases exec c s with
    | ok r s' => exact observe_bind exec obs f (k r) s'
    | halt | wait => rfl

/-- `Does exec obs x s l o`: from `s` the program comes to `o`, and `l` is observed. -/
def Does {ω : Type} (exec : (c : C) → σ → Out ε (R c) σ) (obs : C → σ → List ω) (x : Prog C R α)
    (s : σ) (l : List ω) (o : Out ε α σ) : Prop :=
  run exec x s = o ∧ observe exec obs x s = l

namespace Does

variable {ω : Type} {exec : (c : C) → σ → Out ε (R c) σ} {obs : C → σ → List ω} {x : Prog C R α}
  {f : α → Prog C R β} {s t : σ} {l l' : List ω} {a : α} {e : ε} {o : Out ε β σ} {c : C}

theorem ret : Does exec obs (.ret a : Prog C R α) s [] (.ok a s) := ⟨rfl, rfl⟩

theorem call {r : R c} (h : exec c s = .ok r t) :
    Does exec obs (Prog.call c) s (obs c s) (.ok r t) := by
  simp only [Does, Prog.call, run, observe, h, Out.observe, List.append_nil, and_self]

theorem call_halt (h : exec c s = .halt e) : Does exec obs (Prog.call c) s (obs c s) (.halt e) := by
  simp only [Does, Prog.call, run, observe, h, Out.observe, List.append_nil, and_self]

theorem seq (hx : Does exec obs x s l (.ok a t)) (hf : Does exec obs (f a) t l' o) :
    Does exec obs (x >>= f) s (l ++ l') o := by
  refine ⟨?_, ?_⟩
  · rw [run_bind, hx.1]
    exact hf.1
  · rw [observe_bind, hx.1, hx.2]
    exact congrArg (l ++ ·) hf.2

theorem pos {c : Prop} {_ : Decidable c} {o : Out ε α σ} (hc : c) (hx : Does exec obs x s l o) :
    Does exec obs (if c then x else y) s l o := by
  rwa [if_pos hc]

theorem neg {c : Prop} {_ : Decidable c} {o : Out ε α σ} (hc : ¬ c) (hy : Does exec obs y s l o) :
    Does exec obs (if c then x else y) s l o := by
  rwa [if_neg hc]

/-- A command of which nothing is observed. -/
theorem silent {r : R c} {f : R c → Prog C R β} (h : exec c s = .ok r t) (ho : obs c s = [])
    (hf : Does exec obs (f r) t l o) : Does exec obs (Prog.call c >>= f) s l o := by
  have hcall : Does exec obs (Prog.call c) s (obs c s) (.ok r t) := call h
  rw [ho] at hcall
  exact hcall.seq hf

theorem seq_halt (hx : Does exec obs x s l (.halt e)) : Does exec obs (x >>= f) s l (.halt e) := by
  refine ⟨?_, ?_⟩
  · rw [run_bind, hx.1]
    rfl
  · rw [observe_bind, hx.1, hx.2]
    exact List.append_nil l

/-- What comes last is a value. -/
theorem map {g : α → β} {o : Out ε α σ} (hx : Does exec obs x s l o) (hf : ∀ a, f a = .ret (g a)) :
    Does exec obs (x >>= f) s l (o.bind fun a s' => .ok (g a) s') := by
  refine ⟨?_, ?_⟩
  · rw [run_bind, hx.1]
    simp only [hf, run]
  · rw [observe_bind, hx.1, hx.2]
    simp only [hf, observe]
    cases o with
    | ok | halt | wait => exact List.append_nil l

end Does

/-! ## Protocols -/

/-- A protocol on the ghost state `L`. -/
structure Protocol (C : Type) (R : C → Type) (L : Type) where
  /-- What a party must have to issue a command. -/
  pre : C → L → Prop
  /-- What it has after an answer. -/
  post : (c : C) → L → R c → L → Prop

/-- `Obeys π Q x l`: started with the ghost state `l`, the program issues only
commands it may issue, and ends with a result and a ghost state in `Q`. -/
def Obeys (π : Protocol C R L) (Q : α → L → Prop) : Prog C R α → L → Prop
  | .ret a, l => Q a l
  | .op c k, l => π.pre c l ∧ ∀ r l', π.post c l r l' → Obeys π Q (k r) l'

variable {π : Protocol C R L} {Q Q' : α → L → Prop}

theorem Obeys.ret {a : α} {l : L} (h : Q a l) : Obeys π Q (.ret a) l := h

theorem Obeys.call {Q : R c → L → Prop} {l : L} (hp : π.pre c l)
    (hq : ∀ r l', π.post c l r l' → Q r l') : Obeys π Q (Prog.call c) l :=
  ⟨hp, hq⟩

theorem Obeys.bind {P : β → L → Prop} {f : α → Prog C R β} :
    ∀ {x : Prog C R α} {l : L}, Obeys π Q x l → (∀ a l', Q a l' → Obeys π P (f a) l') →
      Obeys π P (x >>= f) l
  | .ret a, l, hx, hf => hf a l hx
  | .op _ _, _, hx, hf => ⟨hx.1, fun r l' hr => (hx.2 r l' hr).bind hf⟩

theorem Obeys.mono : ∀ {x : Prog C R α} {l : L}, Obeys π Q x l → (∀ a l', Q a l' → Q' a l') →
    Obeys π Q' x l
  | .ret a, l, hx, h => h a l hx
  | .op _ _, _, hx, h => ⟨hx.1, fun r l' hr => (hx.2 r l' hr).mono h⟩

/-- Run `x`, and go on from where it ends. -/
theorem Obeys.seq {P : β → L → Prop} {x : Prog C R α} {f : α → Prog C R β} {l : L}
    (h : Obeys π (fun a l' => Obeys π P (f a) l') x l) : Obeys π P (x >>= f) l :=
  h.bind fun _ _ h => h

theorem Obeys.ite {c : Prop} {_ : Decidable c} {x : Prog C R α} {l : L} (hx : c → Obeys π Q x l)
    (hy : ¬ c → Obeys π Q y l) : Obeys π Q (if c then x else y) l := by
  by_cases hc : c
  · rw [if_pos hc]
    exact hx hc
  · rw [if_neg hc]
    exact hy hc

/-! ## Invariants a machine respects -/

/-- Every command that meets its precondition keeps `J`, for some ghost state
the protocol allows afterwards. -/
def Respects [DecidableEq T] (exec : T → (c : C) → σ → Out ε (R c) σ) (π : Protocol C R L)
    (J : σ → (T → L) → Prop) : Prop :=
  ∀ t c s G r s', J s G → π.pre c (G t) → exec t c s = .ok r s' →
    ∃ l', π.post c (G t) r l' ∧ J s' (update G t l')

variable [DecidableEq T] {exec : T → (c : C) → σ → Out ε (R c) σ} {J : σ → (T → L) → Prop} {s' : σ}
  {st st' : σ × (T → Prog C R α)} {I : σ → Prop}

/-- **A complete run keeps the invariant.** -/
theorem Respects.run (h : Respects exec π J) {t : T} {a : α} :
    ∀ {x : Prog C R α} {s : σ} {G : T → L}, J s G → Obeys π Q x (G t) →
      run (exec t) x s = .ok a s' → ∃ l', Q a l' ∧ J s' (update G t l')
  | .ret b, s, G, hJ, hx, hr => by
    cases hr
    exact ⟨G t, hx, by rwa [update_eq_self]⟩
  | .op c k, s, G, hJ, hx, hr => by
    simp only [Machine.run] at hr
    cases hc : exec t c s with
    | ok r s₁ =>
      rw [hc] at hr
      obtain ⟨l₁, hl₁, hJ₁⟩ := h t c s G r s₁ hJ hx.1 hc
      have hx₁ := hx.2 r l₁ hl₁
      obtain ⟨l', hq, hJ'⟩ := h.run (G := update G t l₁) hJ₁
        (by rwa [update_self]) hr
      exact ⟨l', hq, by rwa [update_idem] at hJ'⟩
    | halt | wait => rw [hc] at hr; cases hr

/-! ## Interleavings -/

/-- One party takes the next command of its program. -/
def step (exec : T → (c : C) → σ → Out ε (R c) σ) (st : σ × (T → Prog C R α)) (t : T) :
    Option (σ × (T → Prog C R α)) :=
  match st.2 t with
  | .ret _ => none
  | .op c k =>
    match exec t c st.1 with
    | .ok r s' => some (s', update st.2 t (k r))
    | _ => none

/-- What one step can do. -/
theorem step_cases {t : T} (h : step exec st t = some st') :
    ∃ c k r s', st.2 t = .op c k ∧ exec t c st.1 = .ok r s' ∧
      st' = (s', update st.2 t (k r)) := by
  simp only [step] at h
  split at h
  · cases h
  · next c k hk =>
      split at h
      · next r s' hc =>
          cases h
          exact ⟨c, k, r, s', hk, hc, rfl⟩
      · cases h

/-- What is known of a system whose parties all obey: the invariant holds, for
ghost states from which every remaining program still obeys. -/
def Sound (π : Protocol C R L) (J : σ → (T → L) → Prop) (Q : α → L → Prop)
    (st : σ × (T → Prog C R α)) : Prop :=
  ∃ G, J st.1 G ∧ ∀ t, Obeys π Q (st.2 t) (G t)

theorem Respects.step (h : Respects exec π J) {t : T} (hs : Sound π J Q st)
    (hst : Machine.step exec st t = some st') : Sound π J Q st' := by
  obtain ⟨G, hJ, hG⟩ := hs
  obtain ⟨c, k, r, s', hk, hc, rfl⟩ := step_cases hst
  have ht := hG t
  rw [hk] at ht
  obtain ⟨l', hl', hJ'⟩ := h t c st.1 G r s' hJ ht.1 hc
  refine ⟨update G t l', hJ', fun u => ?_⟩
  by_cases hu : u = t
  · subst hu
    simpa only [update_self] using ht.2 r l' hl'
  · simpa only [update_of_ne hu] using hG u

/-- `I` holds at every point of a program that runs alone. -/
def Always (exec : (c : C) → σ → Out ε (R c) σ) (I : σ → Prop) : Prog C R α → σ → Prop
  | .ret _, s => I s
  | .op c k, s => I s ∧ ∀ r s', exec c s = .ok r s' → Always exec I (k r) s'

/-- **Where all others have ended, one program runs alone.** -/
theorem Always.of_run {t : T} {s : σ} {f : T → Prog C R α} {ts : List T}
    (hx : Always (exec t) I (f t) s) (hf : ∀ u, u ≠ t → ∃ a, f u = .ret a)
    (hr : Trace.Run (Machine.step exec) (s, f) ts st) : I st.1 := by
  have hall : Always (exec t) I (st.2 t) st.1 ∧ ∀ u, u ≠ t → ∃ a, st.2 u = .ret a := by
    refine hr.invariant (I := fun _ st => Always (exec t) I (st.2 t) st.1 ∧
      ∀ u, u ≠ t → ∃ a, st.2 u = .ret a) ⟨hx, hf⟩ fun _ st u st' hst hs => ?_
    obtain ⟨c, k, r, s', hk, hc, rfl⟩ := step_cases hs
    have hu : u = t := by
      by_contra hu
      obtain ⟨a, ha⟩ := hst.2 u hu
      rw [hk] at ha
      cases ha
    subst hu
    have hx := hst.1
    rw [hk] at hx
    refine ⟨?_, fun q hq => ?_⟩
    · simpa only [update_self] using hx.2 r s' hc
    · simpa only [update_of_ne hq] using hst.2 q hq
  cases ht : st.2 t with
  | ret a =>
    have h := hall.1
    rw [ht] at h
    exact h
  | op c k =>
    have h := hall.1
    rw [ht] at h
    exact h.1

/-- `Passes exec I y t x s`: the program `x` comes from `s` to the rest `y` at `t`, and
the states it passes through are in `I`. -/
inductive Passes (exec : (c : C) → σ → Out ε (R c) σ) (I : σ → Prop) (y : Prog C R α) (t : σ) :
    Prog C R α → σ → Prop
  | here : Passes exec I y t y t
  | call {c : C} {k : R c → Prog C R α} {a : R c} {s s' : σ} : I s → exec c s = .ok a s' →
      Passes exec I y t (k a) s' → Passes exec I y t (.op c k) s

theorem Passes.trans {exec : (c : C) → σ → Out ε (R c) σ} {x z : Prog C R α} {s t u : σ}
    (h : Passes exec I y t x s) (h' : Passes exec I z u y t) : Passes exec I z u x s := by
  induction h with
  | here => exact h'
  | call hI hc _ ih => exact .call hI hc ih

theorem Passes.always {exec : (c : C) → σ → Out ε (R c) σ} {x : Prog C R α} {s t : σ}
    (h : Passes exec I y t x s) (hy : Always exec I y t) : Always exec I x s := by
  induction h with
  | here => exact hy
  | call hI hc _ ih =>
    refine ⟨hI, fun r s' hr => ?_⟩
    rw [hc] at hr
    cases hr
    exact ih

/-- One party moves and the others stand. -/
theorem Passes.run {t : T} {x : Prog C R α} {s : σ} (h : Passes (exec t) I y s' x s) :
    ∀ {f : T → Prog C R α}, f t = x →
      ∃ ts, Trace.Run (Machine.step exec) (s, f) ts (s', update f t y) := by
  induction h with
  | here =>
    rintro f rfl
    exact ⟨[], by rw [update_eq_self]; exact .nil⟩
  | @call c k a s s₁ hI hc _ ih =>
    intro f hf
    have hstep : Machine.step exec (s, f) t = some (s₁, update f t (k a)) := by
      simp only [Machine.step, hf, hc]
    obtain ⟨ts, hts⟩ := ih (f := update f t (k a)) (update_self ..)
    rw [update_idem] at hts
    have hone : Trace.Run (Machine.step exec) (s, f) ([] ++ [t]) _ := .snoc t .nil hstep
    exact ⟨_, hone.append hts⟩

/-! ## Simulation -/

/-- The machine `exec` follows the machine `spec` along `rel`, on the commands
that `spec` allows in its state: where it answers, `spec` answers the same. -/
def Follows (exec : T → (c : C) → σ → Out ε (R c) σ) (spec : T → (c : C) → τ → Out ε (R c) τ)
    (rel : σ → τ → Prop) (allowed : T → C → τ → Prop) : Prop :=
  ∀ t c s a r s', rel s a → allowed t c a → exec t c s = .ok r s' →
    ∃ a', spec t c a = .ok r a' ∧ rel s' a'

/-- A machine as a protocol: its state is the ghost state, and its answers are the
only ones.  To obey it is the weakest liberal precondition on that machine. -/
def Protocol.ofSpec (spec : (c : C) → τ → Out ε (R c) τ) (allowed : C → τ → Prop) :
    Protocol C R τ where
  pre := allowed
  post c a r a' := spec c a = .ok r a'

omit [DecidableEq T] in
/-- **What a program does on the specification it does on the machine that follows it.** -/
theorem Follows.run {spec : T → (c : C) → τ → Out ε (R c) τ} {rel : σ → τ → Prop}
    {allowed : T → C → τ → Prop} (hf : Follows exec spec rel allowed) {t : T} {x : Prog C R α}
    {Q : α → τ → Prop} {a : τ} {s : σ} {b : α} (hr : rel s a)
    (hx : Obeys (.ofSpec (spec t) (allowed t)) Q x a) (h : Machine.run (exec t) x s = .ok b s') :
    ∃ a', Q b a' ∧ rel s' a' := by
  have hres : Respects (fun _ : Unit => exec t) (.ofSpec (spec t) (allowed t))
      (fun s G => rel s (G ())) := by
    intro _ c s G r s' hJ hp hc
    obtain ⟨a', hc', hr'⟩ := hf t c s (G ()) r s' hJ hp hc
    refine ⟨a', hc', ?_⟩
    show rel s' (update G () a' ())
    rwa [update_self]
  obtain ⟨a', hq, hr'⟩ := hres.run (G := fun _ => a) hr hx h
  exact ⟨a', hq, by rwa [update_self] at hr'⟩

end Machine
