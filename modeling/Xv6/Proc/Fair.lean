/-
# `Xv6.Proc.Fair` — the scheduler starves nobody

`roundrobin` looks for a process to run from the slot after `rrindex` on, around the
table, and `rrindex` moves to the one it takes.  `rrindex` is changed nowhere else and
the table may be changed by anyone between two calls, so the calls are a sequence of
tables of which only the index of each is tied to the call before.

The rule is the one of `Xv6.Lib.Turn`: a process that stays `RUNNABLE` is passed by less
often than the table has slots.
-/
import Xv6.Lib.Turn
import Xv6.Proc.Calm

namespace Xv6.Procs

variable {C : Type} {n : Nat} [NeZero n]

/-- A slot that `roundrobin` may take. -/
def Kernel.ready (s : Kernel C n) (p : Fin n) : Bool := (s.proc p).state = .runnable

/-- `rrindex` after a call of `roundrobin`. -/
def Kernel.nextIndex (s : Kernel C n) : Nat := s.roundrobin.elim s.rrindex Fin.val

theorem Kernel.roundrobin_eq (s : Kernel C n) : s.roundrobin = Turn.pick s.rrindex s.ready := rfl

/-- The tables at one call of `roundrobin` after the other: nothing is said about them but
that `rrindex` is where the call before has left it. -/
def Calls (k : Nat → Kernel C n) : Prop := ∀ j, (k (j + 1)).rrindex = (k j).nextIndex

/-- The rule of the turns, from any call on. -/
theorem Calls.passed_lt {k : Nat → Kernel C n} (h : Calls k) {p : Fin n} {m l : Nat}
    (hready : ∀ j, j < l → ((k (m + j)).proc p).state = .runnable)
    (hpassed : ∀ j, j < l → (k (m + j)).roundrobin ≠ some p) : l < n := by
  refine Turn.passed_lt (s := p) (fun j => (k (m + j)).rrindex) (fun j => (k (m + j)).ready)
    (fun j _ => ?_) (fun j hj => ?_) fun j hj => ?_
  · exact h (m + j)
  · exact decide_eq_true (hready j hj)
  · rw [← Kernel.roundrobin_eq]
    exact hpassed j hj

/-- **Nobody starves.**  Whatever happens to the table between the calls of `roundrobin`, a
process that is `RUNNABLE` at as many calls in a row as the table has slots is the result of one
of them, and at most one call less goes by, each with another process as its result, while it is
`RUNNABLE` and not chosen. -/
theorem roundrobin_fair {k : Nat → Kernel C n} (h : Calls k) (p : Fin n) (m : Nat) :
    ((∀ j, m ≤ j → j < m + n → ((k j).proc p).state = .runnable) →
      ∃ j, m ≤ j ∧ j < m + n ∧ (k j).roundrobin = some p) ∧
    ∀ l, (∀ j, m ≤ j → j < m + l →
        ((k j).proc p).state = .runnable ∧ (k j).roundrobin ≠ some p) →
      l ≤ n - 1 ∧ ∀ j, m ≤ j → j < m + l → ∃ q, q ≠ p ∧ (k j).roundrobin = some q := by
  refine ⟨fun hready => ?_, fun l hl => ⟨?_, fun j hj hjl => ?_⟩⟩
  · by_contra hno
    refine Nat.lt_irrefl n (h.passed_lt (p := p) (m := m) (fun j hj => ?_) fun j hj hp => ?_)
    · exact hready _ (Nat.le_add_right m j) (Nat.add_lt_add_left hj m)
    · exact hno ⟨m + j, Nat.le_add_right m j, Nat.add_lt_add_left hj m, hp⟩
  · have hlt : l < n := h.passed_lt (p := p) (m := m)
      (fun j hj => (hl _ (Nat.le_add_right m j) (Nat.add_lt_add_left hj m)).1)
      fun j hj => (hl _ (Nat.le_add_right m j) (Nat.add_lt_add_left hj m)).2
    exact Nat.le_sub_one_of_lt hlt
  · obtain ⟨hrun, hne⟩ := hl j hj hjl
    have hready : (k j).ready p = true := decide_eq_true hrun
    obtain ⟨q, hq, -⟩ := Turn.gap_step hready hne
    refine ⟨q, fun he => hne ?_, hq⟩
    rw [← he]
    exact hq

/-- Two processes that can always run, and the index at one of them. -/
def pair (i : Nat) : Kernel Unit 2 where
  proc _ := ⟨.runnable, 1, none, none, false⟩
  nextpid := 2
  rrindex := i
  cpu _ := none
  lock := none
  context _ := .forkret
  task _ := .none
  hist := ⟨[⟨1, 0⟩], fun _ => 0, [], [], fun _ => false⟩

/-- They take turns. -/
theorem roundrobin_fair_pair : Calls (fun j => pair (j % 2)) ∧
    ∃ j, 0 ≤ j ∧ j < 0 + 2 ∧ (pair (j % 2)).roundrobin = some 0 := by
  have hcalls : Calls (fun j => pair (j % 2)) := by
    intro j
    show (pair ((j + 1) % 2)).rrindex = (pair (j % 2)).nextIndex
    rcases Nat.mod_two_eq_zero_or_one j with hj | hj
    · rw [hj, show (j + 1) % 2 = 1 by omega]
      decide
    · rw [hj, show (j + 1) % 2 = 0 by omega]
      decide
  exact ⟨hcalls, (roundrobin_fair hcalls 0 0).1 fun _ _ _ => rfl⟩

end Xv6.Procs
