/-
# `Xv6.Lock.Interrupt` — `pushcli`, `popcli` and `sched`

`ncli` and `intena` are fields of a CPU, but what they stand for belongs to a kernel
thread: how many calls of `pushcli` it has not undone, and whether interrupts were on
before the first of them.  A thread may call `sched` with one of them open and go on
on another CPU.

    readeflags   pushcli: eflags = readeflags()
    pushcli      the rest of pushcli, from cli() on
    popcli       popcli
    trap, iret   a trap or an interrupt comes, and its handler returns
    sti          sti() in idle
    xchg, movl   acquire and release, without their pushcli and popcli
    sched u      sched, which chooses the thread u

A thread may do these in any order, so every order of `acquire` and `release` is one of
them.  An interrupt may come between the two parts of `pushcli`, and the thread may
change the CPU there too; after `cli()` the fields of a CPU are its thread's alone, and
what is left is one step.  `depth` and `was` are no part of the machine: they count the
calls of `pushcli` a thread has not undone, and say if interrupts were on when it made
the first one.
-/
import Mathlib.Algebra.Group.Int.Defs
import Xv6.Lib.Trace

namespace Xv6.Interrupts

open Option
open Function (update update_apply update_of_ne update_self)
open Trace

/-- What a thread goes back to: a `pushcli` that has read `eflags`, or a handler, with the
flag it restores and the depth it began with. -/
inductive Frame
  | push (eflags : Bool)
  | trap (eflags : Bool) (depth : Nat)
  deriving DecidableEq

/-- A kernel thread.  `intena` is the local variable of `sched`, while the thread is in it. -/
structure Thread where
  frames : List Frame
  intena : Option Bool
  depth : Nat
  was : Bool
  deriving DecidableEq

/-- `struct cpu`, with the flag `FL_IF` of `eflags`. -/
structure Cpu where
  ncli : Int
  intena : Bool
  fl_if : Bool
  deriving DecidableEq

/-- In the middle of `pushcli`. -/
def pushing : List Frame → Bool
  | .push _ :: _ => true
  | _ => false

/-- What a thread can do alone. -/
inductive Op
  | readeflags
  | pushcli
  | popcli
  | trap
  | iret
  | sti
  deriving DecidableEq

/-- `pushcli`, from `cli()` on.  If `ncli` overflows, the code has no meaning. -/
def pushcli (x : Cpu) (y : Thread) : Option (Cpu × Thread) :=
  match y.frames with
  | .push eflags :: rest =>
    if x.ncli + 1 < 2 ^ 31 then
      some ({ fl_if := false
              intena := if x.ncli = 0 then eflags else x.intena
              ncli := x.ncli + 1 },
        { y with frames := rest
                 depth := y.depth + 1
                 was := if y.depth = 0 then x.fl_if else y.was })
    else none
  | _ => none

/-- `popcli`; none if it panics. -/
def popcli (x : Cpu) (y : Thread) : Option (Cpu × Thread) :=
  if x.fl_if = true ∨ x.ncli - 1 < 0 then none
  else some ({ x with ncli := x.ncli - 1
                      fl_if := decide (x.ncli - 1 = 0) && x.intena }, { y with depth := y.depth - 1 })

/-- A handler leaves as many calls of `pushcli` open as it has found. -/
def iret (x : Cpu) (y : Thread) : Option (Cpu × Thread) :=
  match y.frames with
  | .trap eflags depth :: rest =>
    if y.depth = depth then some ({ x with fl_if := eflags }, { y with frames := rest }) else none
  | _ => none

def exec (x : Cpu) (y : Thread) : Op → Option (Cpu × Thread)
  | .readeflags =>
    if pushing y.frames then none else some (x, { y with frames := .push x.fl_if :: y.frames })
  | .pushcli => pushcli x y
  | .popcli => if pushing y.frames then none else popcli x y
  | .trap => some ({ x with fl_if := false }, { y with frames := .trap x.fl_if y.depth :: y.frames })
  | .iret => iret x y
  | .sti => if pushing y.frames = true ∨ y.depth ≠ 0 then none else some ({ x with fl_if := true }, y)

/-- The CPUs `C` and the threads they run, the kernel threads `T`, and the spin locks `L`
with the CPU that holds each. -/
structure Machine (C T L : Type) where
  cpu : C → Cpu
  proc : C → T
  thread : T → Thread
  lock : L → Option C

/-- What happens on a CPU. -/
inductive Event (C T L : Type)
  | op (c : C) (o : Op)
  | xchg (c : C) (l : L)
  | movl (c : C) (l : L)
  | sched (c : C) (u : T)

section

variable {C T L : Type} [DecidableEq C] [DecidableEq T] [DecidableEq L] (ptable : L)

/-- `sched` on `c`; none if it panics.  It does nothing if the thread it chooses runs already.
Otherwise that one has called `sched` before, on any CPU. -/
def sched (m : Machine C T L) (c : C) (u : T) : Option (Machine C T L) :=
  let x := m.cpu c
  let y := m.thread (m.proc c)
  if m.lock ptable ≠ some c ∨ x.ncli ≠ 1 ∨ x.fl_if = true ∨ pushing y.frames = true then none
  else if u = m.proc c then some m
  else (m.thread u).intena.map fun intena =>
    { m with
      cpu := update m.cpu c { x with intena := intena }
      proc := update m.proc c u
      thread := update (update m.thread (m.proc c) { y with intena := some x.intena }) u
        { m.thread u with intena := none } }

def step (m : Machine C T L) : Event C T L → Option (Machine C T L)
  | .op c o => (exec (m.cpu c) (m.thread (m.proc c)) o).map fun r =>
    { m with cpu := update m.cpu c r.1, thread := update m.thread (m.proc c) r.2 }
  | .xchg c l => if m.lock l = none then some { m with lock := update m.lock l (some c) } else none
  | .movl c l => if m.lock l = some c then some { m with lock := update m.lock l none } else none
  | .sched c u => sched ptable m c u

end

/-! ## A CPU and its thread -/

/-- Handlers restore what they have found: a `pushcli` they have come into has read it too. -/
def Nested : List Frame → Prop
  | [] => True
  | .push _ :: rest => pushing rest = false ∧ Nested rest
  | .trap b d :: rest => (b = true → d = 0) ∧ (∀ e, rest.head? = some (.push e) → b = e) ∧ Nested rest

theorem head_of_not_pushing {fs : List Frame} (h : pushing fs = false) (e : Bool) :
    fs.head? ≠ some (.push e) := by
  intro he
  obtain ⟨rest, rfl⟩ := List.head?_eq_some_iff.mp he
  cases h

/-- **The thread `y` runs on the CPU `x`.** -/
structure Runs (x : Cpu) (y : Thread) : Prop where
  ncli : x.ncli = y.depth
  off : y.depth ≠ 0 → x.fl_if = false ∧ x.intena = y.was
  top : ∀ e, y.frames.head? = some (.push e) → x.fl_if = e
  nested : Nested y.frames
  here : y.intena = none

/-- **The thread `y` is in `sched`.** -/
structure Parked (y : Thread) : Prop where
  depth : y.depth = 1
  saved : y.intena = some y.was
  quiet : pushing y.frames = false
  nested : Nested y.frames

section

variable {x x' : Cpu} {y y' : Thread}

section

variable (h : Runs x y)
include h

theorem Runs.pushcli (hs : pushcli x y = some (x', y')) : Runs x' y' := by
  obtain ⟨frames, intena, depth, was⟩ := y
  unfold Interrupts.pushcli at hs
  split at hs
  · rename_i e rest hf
    cases hf
    obtain ⟨hquiet, hrest⟩ := h.nested
    obtain ⟨-, ⟨⟩⟩ := ite_none_right_eq_some.mp hs
    refine ⟨by rw [h.ncli]; rfl, fun _ => ⟨rfl, ?_⟩,
      fun e' he => absurd he (head_of_not_pushing hquiet e'), hrest, h.here⟩
    have hncli : x.ncli = 0 ↔ depth = 0 := by
      rw [h.ncli]
      exact Int.natCast_eq_zero
    by_cases hd : depth = 0
    · -- the flag that was read is the flag before `cli()`
      rw [if_pos (hncli.mpr hd), if_pos hd, h.top e rfl]
    · rw [if_neg (mt hncli.mp hd), if_neg hd]
      exact (h.off hd).2
  · cases hs

/-- `popcli` of a thread that has called `pushcli`. -/
theorem Runs.popcli_eq (hd : y.depth ≠ 0) : popcli x y = some
    ({ x with ncli := x.ncli - 1, fl_if := decide (y.depth - 1 = 0) && y.was },
      { y with depth := y.depth - 1 }) := by
  obtain ⟨hoff, hwas⟩ := h.off hd
  have hncli := h.ncli
  have hzero : decide (x.ncli - 1 = 0) = decide (y.depth - 1 = 0) := by
    rw [decide_eq_decide]
    omega
  unfold popcli
  rw [if_neg, hzero, hwas]
  rintro (hon | hneg)
  · rw [hoff] at hon
    cases hon
  · omega

/-- `popcli` of another thread panics. -/
theorem Runs.popcli_depth (hs : popcli x y = some (x', y')) : y.depth ≠ 0 := by
  intro hd
  have hneg : x.ncli - 1 < 0 := by
    have := h.ncli
    omega
  rw [popcli, if_pos (.inr hneg)] at hs
  cases hs

theorem Runs.popcli (hp : pushing y.frames = false)
    (hs : popcli x y = some (x', y')) : Runs x' y' := by
  have hd := h.popcli_depth hs
  rw [h.popcli_eq hd] at hs
  cases hs
  refine ⟨?_, fun hpos => ⟨?_, (h.off hd).2⟩, fun e he => absurd he (head_of_not_pushing hp e),
    h.nested, h.here⟩
  · have := h.ncli
    show x.ncli - 1 = ((y.depth - 1 : Nat) : Int)
    omega
  · show (decide (y.depth - 1 = 0) && y.was) = false
    rw [decide_eq_false hpos, Bool.false_and]

theorem Runs.iret (hs : iret x y = some (x', y')) : Runs x' y' := by
  obtain ⟨frames, intena, depth, was⟩ := y
  unfold Interrupts.iret at hs
  split at hs
  · rename_i b d rest hf
    cases hf
    obtain ⟨hzero, htop, hrest⟩ := h.nested
    obtain ⟨hd, ⟨⟩⟩ := ite_none_right_eq_some.mp hs
    refine ⟨h.ncli, fun hpos => ⟨?_, (h.off hpos).2⟩, htop, hrest, h.here⟩
    rw [← hd] at hzero
    exact Bool.eq_false_iff.mpr fun hb => hpos (hzero hb)
  · cases hs

/-- **One step of a thread.** -/
theorem Runs.exec {o : Op} (hs : exec x y o = some (x', y')) : Runs x' y' := by
  cases o with
  | readeflags =>
    obtain ⟨hp, ⟨⟩⟩ := ite_none_left_eq_some.mp hs
    refine ⟨h.ncli, h.off, ?_, ⟨Bool.eq_false_iff.mpr hp, h.nested⟩, h.here⟩
    rintro e ⟨⟩
    rfl
  | pushcli => exact h.pushcli hs
  | popcli =>
    obtain ⟨hp, hs⟩ := ite_none_left_eq_some.mp hs
    exact h.popcli (Bool.eq_false_iff.mpr hp) hs
  | trap =>
    cases hs
    refine ⟨h.ncli, fun hd => ⟨rfl, (h.off hd).2⟩, nofun, ⟨fun hon => ?_, h.top, h.nested⟩, h.here⟩
    by_contra hd
    rw [(h.off hd).1] at hon
    cases hon
  | iret => exact h.iret hs
  | sti =>
    obtain ⟨hno, ⟨⟩⟩ := ite_none_left_eq_some.mp hs
    obtain ⟨hp, hd⟩ := not_or.mp hno
    exact ⟨h.ncli, fun hpos => absurd hpos hd,
      fun e he => absurd he (head_of_not_pushing (Bool.eq_false_iff.mpr hp) e), h.nested, h.here⟩

end

end

/-! ## Threads that move between CPUs -/

section

variable {C T L : Type} {m m' m₀ : Machine C T L}

/-- No two CPUs run the same thread, and a thread that no CPU runs is in `sched`. -/
structure Good (m : Machine C T L) : Prop where
  runs : ∀ c, Runs (m.cpu c) (m.thread (m.proc c))
  alone : Function.Injective m.proc
  parked : ∀ t, (∀ c, m.proc c ≠ t) → Parked (m.thread t)

/-- The threads that run have no lock, the others have called `sched` before: from a system
call, or from the handler of an interrupt. -/
structure Start (m : Machine C T L) : Prop where
  ncli : ∀ c, (m.cpu c).ncli = 0
  alone : Function.Injective m.proc
  runs : ∀ c, (m.thread (m.proc c)).depth = 0 ∧ (m.thread (m.proc c)).frames = [] ∧
    (m.thread (m.proc c)).intena = none
  parked : ∀ t, (∀ c, m.proc c ≠ t) → (m.thread t).depth = 1 ∧
    (m.thread t).intena = some (m.thread t).was ∧
    ((m.thread t).frames = [] ∨ (m.thread t).frames = [.trap true 0])

theorem Start.good (h : Start m) : Good m := by
  refine ⟨fun c => ?_, h.alone, fun t ht => ?_⟩
  · obtain ⟨hd, hf, hi⟩ := h.runs c
    refine ⟨by rw [h.ncli, hd]; rfl, fun hpos => absurd hd hpos, fun e he => ?_, ?_, hi⟩
    · rw [hf] at he
      cases he
    · rw [hf]
      trivial
  · obtain ⟨hd, hi, hf⟩ := h.parked t ht
    refine ⟨hd, hi, ?_, ?_⟩ <;> rcases hf with hf | hf <;> rw [hf]
    · rfl
    · rfl
    · trivial
    · exact ⟨fun _ => rfl, nofun, trivial⟩

variable [DecidableEq C] [DecidableEq T]

/-- A step of one thread, on its CPU. -/
theorem Good.act (h : Good m) {c : C} {x : Cpu} {y : Thread} (hr : Runs x y) :
    Good { m with cpu := update m.cpu c x, thread := update m.thread (m.proc c) y } := by
  refine ⟨fun c' => ?_, h.alone, fun t ht => ?_⟩
  · show Runs (update m.cpu c x c') (update m.thread (m.proc c) y (m.proc c'))
    rcases eq_or_ne c' c with rfl | hc
    · rwa [update_self, update_self]
    · rw [update_of_ne (h.alone.ne hc), update_of_ne hc]
      exact h.runs c'
  · show Parked (update m.thread (m.proc c) y t)
    rw [update_of_ne (ht c).symm]
    exact h.parked t ht

/-- **The switch**: the thread that goes takes `intena` along, and the one that comes brings
its own. -/
theorem Good.switch (h : Good m) {c : C} {u : T} {intena : Bool} (hone : (m.cpu c).ncli = 1)
    (hoff : (m.cpu c).fl_if = false) (hquiet : pushing (m.thread (m.proc c)).frames = false)
    (hi : (m.thread u).intena = some intena) :
    Good { m with
      cpu := update m.cpu c { m.cpu c with intena := intena }
      proc := update m.proc c u
      thread := update (update m.thread (m.proc c)
        { m.thread (m.proc c) with intena := some (m.cpu c).intena }) u
        { m.thread u with intena := none } } := by
  have hrun := h.runs c
  have hdepth : (m.thread (m.proc c)).depth = 1 := by
    have := hrun.ncli
    omega
  have haway : ∀ c', m.proc c' ≠ u := by
    rintro c' rfl
    rw [(h.runs c').here] at hi
    cases hi
  have hpark := h.parked u haway
  have hwas : intena = (m.thread u).was := Option.some.inj (hi.symm.trans hpark.saved)
  refine ⟨fun c' => ?_, fun c₁ c₂ => ?_, fun t ht => ?_⟩
  · rcases eq_or_ne c' c with rfl | hc
    · simp only [update_self]
      exact ⟨by rw [hone, hpark.depth]; rfl, fun _ => ⟨hoff, hwas⟩,
        fun e he => absurd he (head_of_not_pushing hpark.quiet e), hpark.nested, rfl⟩
    · simp only [update_of_ne hc, update_of_ne (haway c'), update_of_ne (h.alone.ne hc)]
      exact h.runs c'
  · simp only [update_apply]
    split <;> split
    · intro _
      simp_all
    · intro e
      exact absurd e.symm (haway c₂)
    · intro e
      exact absurd e (haway c₁)
    · exact fun e => h.alone e
  · replace ht : ∀ c', update m.proc c u c' ≠ t := ht
    have hother : ∀ c', c' ≠ c → m.proc c' ≠ t := by
      intro c' hc
      rw [← update_of_ne hc u m.proc]
      exact ht c'
    have htu : t ≠ u := by
      rw [← update_self c u m.proc]
      exact (ht c).symm
    simp only [update_of_ne htu]
    rcases eq_or_ne t (m.proc c) with rfl | htc
    · rw [update_self]
      exact ⟨hdepth, congrArg some (hrun.off (by omega)).2, hquiet, hrun.nested⟩
    · rw [update_of_ne htc]
      refine h.parked t fun c' => ?_
      rcases eq_or_ne c' c with rfl | hc
      · exact htc.symm
      · exact hother c' hc

variable {ptable : L}

theorem Good.sched (h : Good m) {c : C} {u : T} (hs : sched ptable m c u = some m') : Good m' := by
  obtain ⟨hno, hs⟩ := ite_none_left_eq_some.mp hs
  simp only [not_or, not_not, Bool.not_eq_true] at hno
  obtain ⟨-, hone, hoff, hquiet⟩ := hno
  by_cases hu : u = m.proc c
  · rw [if_pos hu] at hs
    cases hs
    exact h
  · rw [if_neg hu] at hs
    obtain ⟨intena, hi, rfl⟩ := map_eq_some_iff.mp hs
    exact h.switch hone hoff hquiet hi

variable [DecidableEq L]

theorem Good.step (h : Good m) {e : Event C T L} (hs : step ptable m e = some m') : Good m' := by
  cases e with
  | op c o =>
    obtain ⟨⟨x, y⟩, hr, rfl⟩ := map_eq_some_iff.mp hs
    exact h.act ((h.runs c).exec hr)
  | xchg c l =>
    obtain ⟨-, ⟨⟩⟩ := ite_none_right_eq_some.mp hs
    exact ⟨h.runs, h.alone, h.parked⟩
  | movl c l =>
    obtain ⟨-, ⟨⟩⟩ := ite_none_right_eq_some.mp hs
    exact ⟨h.runs, h.alone, h.parked⟩
  | sched c u => exact h.sched hs

/-- **Interrupts survive nesting and switching.**  `ncli` counts the calls of `pushcli` that the
thread on the CPU has not undone; interrupts are off if there is one; and the `popcli` that
undoes the last one does not panic, and turns interrupts on exactly if they were on before
the first. -/
theorem interrupts_kept {es : List (Event C T L)} (hstart : Start m₀)
    (hrun : Run (step ptable) m₀ es m) (c : C) :
    (m.cpu c).ncli = (m.thread (m.proc c)).depth ∧
    (0 < (m.cpu c).ncli → (m.cpu c).fl_if = false) ∧
    (∀ m', step ptable m (.op c .popcli) = some m' → (m'.thread (m.proc c)).depth = 0 →
      ((m'.cpu c).fl_if = true ↔ (m.thread (m.proc c)).was = true)) ∧
    ((m.thread (m.proc c)).depth ≠ 0 → pushing (m.thread (m.proc c)).frames = false →
      step ptable m (.op c .popcli) ≠ none) := by
  have hgood : Good m :=
    hrun.invariant (I := fun _ => Good) hstart.good fun _ _ _ _ h hs => h.step hs
  have hc := hgood.runs c
  refine ⟨hc.ncli, fun hpos => ?_, fun m' hs hd => ?_, fun hd hquiet => ?_⟩
  · refine (hc.off fun hd => ?_).1
    rw [hc.ncli, hd] at hpos
    cases hpos
  · obtain ⟨⟨x, y⟩, hr, rfl⟩ := map_eq_some_iff.mp hs
    obtain ⟨-, hr⟩ := ite_none_left_eq_some.mp hr
    rw [hc.popcli_eq (hc.popcli_depth hr)] at hr
    cases hr
    simp only [update_self] at hd ⊢
    rw [decide_eq_true hd, Bool.true_and]
  · rw [step, exec, hquiet, hc.popcli_eq hd]
    nofun

/-- Two CPUs that run the threads 0 and 1, the first with interrupts on; the thread 2 had them on
when it called `pushcli`, and is in `sched`. -/
def threeThreads : Machine (Fin 2) (Fin 3) Unit where
  cpu c := ⟨0, false, c == 0⟩
  proc c := c.castSucc
  thread t := if t = 2 then ⟨[], some true, 1, true⟩ else ⟨[], none, 0, false⟩
  lock _ := none

theorem start_threeThreads : Start threeThreads where
  ncli _ := rfl
  alone _ _ h := Fin.castSucc_inj.mp h
  runs := by decide
  parked := by decide

/-- The CPU 1, which had interrupts off, turns them on for the thread 2. -/
theorem interrupts_kept_moved : ∃ m m', Run (step ()) threeThreads
      [.op 1 .readeflags, .op 1 .pushcli, .xchg 1 (), .sched 1 2, .movl 1 ()] m ∧
    (m.cpu 1).ncli = 1 ∧ (m.cpu 1).fl_if = false ∧
    step () m (.op 1 .popcli) = some m' ∧ (m'.cpu 1).fl_if = true := by
  have hexec : ∃ m, Run (step ()) threeThreads
        [.op 1 .readeflags, .op 1 .pushcli, .xchg 1 (), .sched 1 2, .movl 1 ()] m ∧
      (m.thread (m.proc 1)).depth = 1 ∧ (m.thread (m.proc 1)).was = true ∧
      pushing (m.thread (m.proc 1)).frames = false ∧ (step () m (.op 1 .popcli)).all
        (fun m' => (m'.thread (m.proc 1)).depth = 0) = true := exists_of_exec (by decide)
  obtain ⟨m, hrun, hdepth, hwas, hquiet, hlast⟩ := hexec
  obtain ⟨hncli, hoff, hlastPop, hpops⟩ := interrupts_kept start_threeThreads hrun 1
  rw [hdepth] at hncli
  obtain ⟨m', hm'⟩ := ne_none_iff_exists'.mp (hpops (by rw [hdepth]; decide) hquiet)
  rw [hm'] at hlast
  exact ⟨m, m', hrun, hncli, hoff (by rw [hncli]; decide), hm',
    (hlastPop m' hm' (of_decide_eq_true hlast)).mpr hwas⟩

end

end Xv6.Interrupts
