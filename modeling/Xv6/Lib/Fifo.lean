/-
# `Xv6.Lib.Fifo` — a queue in an array, with counters that wrap

The queue lives in an array of `N` cells.  Two counters are kept, of the elements
taken and of the elements put; they run modulo `M`, a larger multiple of `N`, and
an element's cell is its counter modulo `N`.  `Rep data r w q` says that the array
and the counters hold the queue `q`.  The tests "empty" (`w = r`) and "full"
(`w = r + N` modulo `M`) are exact because `N < M`, and the cells do not jump when
a counter wraps because `N` divides `M`.
-/
import Mathlib.Algebra.GroupWithZero.Nat
import Mathlib.Data.Fin.Basic
import Mathlib.Data.List.Basic

namespace Fifo

open List

variable {α : Type} {N M : Nat} [NeZero N]

/-- The queue `q` is in `data`, between the counters `r` and `w`. -/
structure Rep (N M : Nat) [NeZero N] (data : Fin N → α) (r w : Nat) (q : List α) : Prop where
  length : q.length ≤ N
  start : r < M
  tail : w = (r + q.length) % M
  slot : ∀ k (h : k < q.length), data (Fin.ofNat N (r + k)) = q[k]

variable {data : Fin N → α} {r w : Nat} {q : List α}

theorem Rep.nil (data : Fin N → α) (h : r < M) : Rep N M data r r ([] : List α) :=
  ⟨Nat.zero_le _, h, (Nat.mod_eq_of_lt h).symm, fun _ hk => nomatch hk⟩

/-- The number of elements is the difference of the counters. -/
theorem Rep.sub_mod (h : Rep N M data r w q) (hNM : N < M) : (w + (M - r)) % M = q.length := by
  have h₁ := h.length
  have h₂ := h.start
  rw [h.tail, Nat.mod_add_mod, show r + q.length + (M - r) = q.length + M by omega,
    Nat.add_mod_right, Nat.mod_eq_of_lt (by omega)]

theorem Rep.eq_iff (h : Rep N M data r w q) (hNM : N < M) : w = r ↔ q = [] := by
  constructor
  · intro he
    have h₁ := h.sub_mod hNM
    have h₂ := h.start
    rw [he, show r + (M - r) = M by omega, Nat.mod_self] at h₁
    exact length_eq_zero_iff.mp h₁.symm
  · rintro rfl
    rw [h.tail, length_nil, Nat.add_zero, Nat.mod_eq_of_lt h.start]

theorem Rep.eq_add_iff (h : Rep N M data r w q) (hNM : N < M) : w = (r + N) % M ↔ q.length = N := by
  constructor
  · intro he
    have h₁ := h.sub_mod hNM
    have h₂ := h.start
    rw [he, Nat.mod_add_mod, show r + N + (M - r) = N + M by omega, Nat.add_mod_right,
      Nat.mod_eq_of_lt hNM] at h₁
    exact h₁.symm
  · intro hl
    rw [h.tail, hl]

/-- A cell depends on the counter modulo `N` only. -/
theorem ofNat_mod (hdvd : N ∣ M) (k : Nat) : Fin.ofNat N (k % M) = Fin.ofNat N k := by
  ext
  exact Nat.mod_mod_of_dvd k hdvd

/-- Different elements of a queue are in different cells. -/
theorem ofNat_ne {i j : Nat} (hij : i < j) (hj : j < i + N) : Fin.ofNat N i ≠ Fin.ofNat N j := by
  intro he
  have h : i % N = j % N := congrArg Fin.val he
  have hd : N ∣ j - i := Nat.dvd_of_mod_eq_zero (Nat.sub_mod_eq_zero_of_mod_eq h.symm)
  have := Nat.le_of_dvd (by omega) hd
  omega

theorem Rep.push (h : Rep N M data r w q) (hdvd : N ∣ M) (hfree : q.length < N) (b : α) :
    Rep N M (Function.update data (Fin.ofNat N w) b) r ((w + 1) % M) (q ++ [b]) where
  length := by
    rw [length_append]
    exact hfree
  start := h.start
  tail := by
    rw [h.tail, Nat.mod_add_mod, length_append, length_singleton, Nat.add_assoc]
  slot k hk := by
    rw [h.tail, ofNat_mod hdvd]
    rw [length_append, length_singleton] at hk
    rcases Nat.lt_succ_iff_lt_or_eq.mp hk with hk | rfl
    · rw [Function.update_of_ne (ofNat_ne (by omega) (by omega)), h.slot k hk,
        getElem_append_left hk]
    · rw [Function.update_self, getElem_append_right (Nat.le_refl _)]
      simp

theorem Rep.pop {b : α} (h : Rep N M data r w (b :: q)) (hdvd : N ∣ M) :
    data (Fin.ofNat N r) = b ∧ Rep N M data ((r + 1) % M) w q := by
  have hM : 0 < M := Nat.lt_of_le_of_lt (Nat.zero_le _) h.start
  refine ⟨?_, ?_, Nat.mod_lt _ hM, ?_, fun k hk => ?_⟩
  · have := h.slot 0 (Nat.succ_pos _)
    rwa [Nat.add_zero] at this
  · exact Nat.le_of_succ_le h.length
  · rw [h.tail, Nat.mod_add_mod, length_cons]
    congr 1
    omega
  · have := h.slot (k + 1) (Nat.succ_lt_succ hk)
    have he : Fin.ofNat N ((r + 1) % M + k) = Fin.ofNat N (r + (k + 1)) := by
      rw [← ofNat_mod hdvd, Nat.mod_add_mod, ofNat_mod hdvd, Nat.add_assoc, Nat.add_comm 1 k]
    rw [he, this, getElem_cons_succ]

theorem Rep.unpush {b : α} (h : Rep N M data r w (q ++ [b])) (hdvd : N ∣ M) :
    data (Fin.ofNat N ((w + (M - 1)) % M)) = b ∧ Rep N M data r ((w + (M - 1)) % M) q := by
  have hM : r < M := h.start
  have hlen := h.length
  rw [length_append, length_singleton] at hlen
  have hw : (w + (M - 1)) % M = (r + q.length) % M := by
    rw [h.tail, Nat.mod_add_mod, length_append, length_singleton,
      show r + (q.length + 1) + (M - 1) = r + q.length + M by omega, Nat.add_mod_right]
  rw [hw]
  have hslot := h.slot q.length (by rw [length_append]; exact Nat.lt_succ_self _)
  refine ⟨?_, Nat.le_of_succ_le hlen, hM, rfl, fun k hk => ?_⟩
  · rw [ofNat_mod hdvd, hslot, getElem_append_right (Nat.le_refl _)]
    simp
  · rw [h.slot k (by rw [length_append]; omega), getElem_append_left hk]

theorem Rep.take_left {q' : List α} (h : Rep N M data r w (q ++ q')) :
    Rep N M data r ((r + q.length) % M) q := by
  have hlen := h.length
  rw [length_append] at hlen
  refine ⟨by omega, h.start, rfl, fun k hk => ?_⟩
  rw [h.slot k (by rw [length_append]; omega), getElem_append_left hk]

end Fifo
