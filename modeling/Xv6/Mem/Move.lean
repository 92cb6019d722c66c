/-
# `Xv6.Mem.Move` — `memmove` in the kernel and in the user library

`string.c` and `ulib.c`.  The kernel copies downwards if the source starts below the
destination and runs into it, and upwards if not; the user library always copies
upwards.  Pointers are 32-bit words, so `d += n` may be the end of the address space,
which is 0; the loops only use the bytes before it.
-/
import Mathlib.Algebra.GroupWithZero.Nat
import Xv6.Lib.Copy

namespace Xv6.Mem

open List
open Function (update)

abbrev Word : Type := BitVec 32

abbrev Memory : Type := Word → UInt8

/-- `while(n-- > 0) *d++ = *s++;` -/
def copyUp : Nat → Word → Word → Memory → Memory
  | 0, _, _, m => m
  | n + 1, d, s, m => copyUp n (d + 1) (s + 1) (update m d (m s))

/-- `while(n-- > 0) *--d = *--s;` -/
def copyDown : Nat → Word → Word → Memory → Memory
  | 0, _, _, m => m
  | n + 1, d, s, m => copyDown n (d - 1) (s - 1) (update m (d - 1) (m (s - 1)))

/-- `memmove` of the kernel: what it returns, and memory. -/
def memmove (dst src n : Word) (m : Memory) : Word × Memory :=
  (dst, if src < dst ∧ dst < src + n then copyDown n.toNat (dst + n) (src + n) m
    else copyUp n.toNat dst src m)

/-- `memmove` of the user library, where `n` is an `int`. -/
def Ulib.memmove (dst src n : Word) (m : Memory) : Word × Memory :=
  (dst, copyUp n.toInt.toNat dst src m)

/-! ## The loops -/

/-- Byte `i` behind `p`. -/
def nth (p : Word) (i : Nat) : Word := p + BitVec.ofNat 32 i

theorem nth_succ (p : Word) (i : Nat) : nth p i + 1 = nth p (i + 1) := by
  rw [nth, nth, BitVec.ofNat_add, BitVec.add_assoc]
  rfl

theorem nth_add (p : Word) (i j : Nat) : nth (nth p i) j = nth p (i + j) := by
  rw [nth, nth, nth, BitVec.ofNat_add, BitVec.add_assoc]

theorem toNat_nth {p : Word} {i : Nat} (h : p.toNat + i < 2 ^ 32) :
    (nth p i).toNat = p.toNat + i := by
  rw [nth, BitVec.toNat_add, BitVec.toNat_ofNat]
  omega

theorem nth_ne {p q : Word} {i j : Nat} (hp : p.toNat + i < 2 ^ 32) (hq : q.toNat + j < 2 ^ 32)
    (h : p.toNat + i ≠ q.toNat + j) : nth p i ≠ nth q j := by
  intro he
  have := congrArg BitVec.toNat he
  rw [toNat_nth hp, toNat_nth hq] at this
  exact h this

theorem copyUp_eq (n k : Nat) (d s : Word) (m : Memory) :
    copyUp n (nth d k) (nth s k) m = Copy.run (nth d) (nth s) (List.range' k n) m := by
  induction n generalizing k m with
  | zero => rfl
  | succ n ih => rw [copyUp, nth_succ, nth_succ, ih, List.range'_succ, Copy.run]

theorem copyUp_run (n : Nat) (d s : Word) (m : Memory) :
    copyUp n d s m = Copy.run (nth d) (nth s) (List.range n) m := by
  have h := copyUp_eq n 0 d s m
  rwa [nth, nth, BitVec.add_zero, BitVec.add_zero, ← range_eq_range'] at h

theorem copyDown_run (n : Nat) (d s : Word) (m : Memory) :
    copyDown n (nth d n) (nth s n) m = Copy.run (nth d) (nth s) (List.range n).reverse m := by
  induction n generalizing m with
  | zero => rfl
  | succ n ih =>
    rw [copyDown, ← nth_succ, ← nth_succ, BitVec.add_sub_cancel, BitVec.add_sub_cancel, ih,
      range_succ, reverse_append]
    rfl

section

variable {dst src n : Word} {m : Memory}

theorem pairwise_range {R : Nat → Nat → Prop} {n : Nat} (h : ∀ i j, i < j → j < n → R i j) :
    (List.range n).Pairwise R :=
  pairwise_lt_range.imp_of_mem fun {i j} _ hj hij => h i j hij (mem_range.mp hj)

theorem add_eq_nth (p : Word) : p + n = nth p n.toNat := by
  rw [nth, BitVec.ofNat_toNat, BitVec.setWidth_eq]

section

variable (hd : dst.toNat + n.toNat ≤ 2 ^ 32)

include hd

theorem nth_distinct : (List.range n.toNat).Pairwise fun i j => nth dst i ≠ nth dst j :=
  pairwise_range fun i j hij hj => nth_ne (by omega) (by omega) (by omega)

theorem run_frame {is : List Nat} (his : ∀ i ∈ is, i < n.toNat) {a : Word}
    (ha : a.toNat < dst.toNat ∨ dst.toNat + n.toNat ≤ a.toNat) :
    Copy.run (nth dst) (nth src) is m a = m a := by
  refine Copy.run_outside fun i hi he => ?_
  have := his i hi
  rw [he, toNat_nth (by omega)] at ha
  omega

theorem copyUp_outside {a : Word} (ha : a.toNat < dst.toNat ∨ dst.toNat + n.toNat ≤ a.toNat) :
    copyUp n.toNat dst src m a = m a := by
  rw [copyUp_run]
  exact run_frame hd (fun i hi => mem_range.mp hi) ha

theorem memmove_outside {a : Word} (ha : a.toNat < dst.toNat ∨ dst.toNat + n.toNat ≤ a.toNat) :
    (memmove dst src n m).2 a = m a := by
  rw [memmove]
  split
  · rw [add_eq_nth, add_eq_nth, copyDown_run]
    exact run_frame hd (fun i hi => mem_range.mp (mem_reverse.mp hi)) ha
  · exact copyUp_outside hd ha

end

variable (hs : src.toNat + n.toNat ≤ 2 ^ 32) (hd : dst.toNat + n.toNat ≤ 2 ^ 32)

include hs hd

/-- The kernel's test finds the copies that have to go downwards. -/
theorem overlaps_iff : src < dst ∧ dst < src + n ↔
    src.toNat < dst.toNat ∧ dst.toNat < src.toNat + n.toNat := by
  rw [BitVec.lt_def, BitVec.lt_def, BitVec.toNat_add]
  omega

theorem memmove_inside {i : Nat} (hi : i < n.toNat) :
    (memmove dst src n m).2 (nth dst i) = m (nth src i) := by
  rw [memmove]
  by_cases h : src < dst ∧ dst < src + n
  · rw [if_pos h, add_eq_nth, add_eq_nth, copyDown_run]
    rw [overlaps_iff hs hd] at h
    refine Copy.run_snapshot ?_ ?_ (mem_reverse.mpr (mem_range.mpr hi))
    · exact pairwise_reverse.mpr ((nth_distinct hd).imp Ne.symm)
    · exact pairwise_reverse.mpr (pairwise_range fun i j hij hj =>
        nth_ne (by omega) (by omega) (by omega))
  · rw [if_neg h, copyUp_run]
    rw [overlaps_iff hs hd] at h
    refine Copy.run_snapshot (nth_distinct hd) ?_ (mem_range.mpr hi)
    exact pairwise_range fun i j hij hj => nth_ne (by omega) (by omega) (by omega)

/-- **The kernel's `memmove` copies as if through a snapshot**, however the ranges overlap. -/
theorem memmove_snapshot :
    (∀ i, i < n.toNat → (memmove dst src n m).2 (nth dst i) = m (nth src i)) ∧
      ∀ a : Word, a.toNat < dst.toNat ∨ dst.toNat + n.toNat ≤ a.toNat →
        (memmove dst src n m).2 a = m a :=
  ⟨fun _ hi => memmove_inside hs hd hi, fun _ ha => memmove_outside hd ha⟩

omit hs hd in
/-- Three bytes, moved up by one. -/
theorem memmove_snapshot_three : (memmove 1 0 3 fun a => UInt8.ofNat a.toNat).2 (nth 1 2) =
    UInt8.ofNat (nth 0 2).toNat :=
  (memmove_snapshot (by decide) (by decide)).1 2 (by decide)

/-! ## The two of them -/

/-- Upwards into the rest of the source: in the end each byte is the one it was copied from. -/
theorem copyUp_linked (h : src < dst ∧ dst < src + n) {i : Nat} (hi : i < n.toNat) :
    copyUp n.toNat dst src m (nth dst i) = copyUp n.toNat dst src m (nth src i) := by
  rw [overlaps_iff hs hd] at h
  rw [copyUp_run]
  refine Copy.run_linked (nth_distinct hd) ?_ (fun j hj => ?_) (mem_range.mpr hi)
  · exact pairwise_range fun i j hij hj => nth_ne (by omega) (by omega) (by omega)
  · have hj := mem_range.mp hj
    exact nth_ne (by omega) (by omega) (by omega)

/-- Then the bytes are those of the source if and only if these repeat at the distance. -/
theorem copyUp_snapshot_iff (h : src < dst ∧ dst < src + n) :
    (∀ i, i < n.toNat → copyUp n.toNat dst src m (nth dst i) = m (nth src i)) ↔
      ∀ i, i + (dst.toNat - src.toNat) < n.toNat →
        m (nth src (i + (dst.toNat - src.toNat))) = m (nth src i) := by
  have hlinked := fun i hi => copyUp_linked (m := m) hs hd h (i := i) hi
  rw [overlaps_iff hs hd] at h
  generalize hk : dst.toNat - src.toNat = k
  have hshift : ∀ i, nth src (i + k) = nth dst i := by
    intro i
    have hdst : nth src k = dst := by
      apply BitVec.eq_of_toNat_eq
      rw [toNat_nth (by omega)]
      omega
    rw [Nat.add_comm, ← nth_add, hdst]
  constructor
  · intro hbyte i hi
    rw [← hbyte _ hi, hlinked _ hi, hshift, hbyte i (by omega)]
  · intro hper i
    -- the bytes before the destination are never stored to; the others come from further down
    induction i using Nat.strongRecOn with
    | ind i ih =>
      intro hi
      rw [hlinked i hi]
      by_cases hlt : i < k
      · refine copyUp_outside hd (.inl ?_)
        rw [toNat_nth (by omega)]
        omega
      · obtain ⟨j, rfl⟩ := Nat.exists_eq_add_of_le' (Nat.le_of_not_lt hlt)
        rw [hper j hi, hshift, ih j (by omega) (by omega)]

/-- **The user library's `memmove` is the kernel's** if the destination does not start inside the
source, behind its start, or if the source repeats itself at their distance. -/
theorem memmove_agree_iff (hn : 0 ≤ n.toInt) : Ulib.memmove dst src n m = memmove dst src n m ↔
    (src < dst ∧ dst < src + n → ∀ i, i + (dst.toNat - src.toNat) < n.toNat →
      m (nth src (i + (dst.toNat - src.toNat))) = m (nth src i)) := by
  have hlen : n.toInt.toNat = n.toNat := by
    rw [BitVec.toInt_eq_toNat_cond] at hn ⊢
    omega
  rw [Ulib.memmove, hlen]
  by_cases h : src < dst ∧ dst < src + n
  · rw [← copyUp_snapshot_iff hs hd h, forall_prop_of_true h]
    constructor
    · intro he i hi
      exact (congrFun (congrArg Prod.snd he) _).trans (memmove_inside hs hd hi)
    · intro hbyte
      refine Prod.ext rfl (funext fun a => ?_)
      by_cases ha : a.toNat < dst.toNat ∨ dst.toNat + n.toNat ≤ a.toNat
      · exact (copyUp_outside hd ha).trans (memmove_outside hd ha).symm
      · have hi : a.toNat - dst.toNat < n.toNat := by omega
        have hat : nth dst (a.toNat - dst.toNat) = a := by
          apply BitVec.eq_of_toNat_eq
          rw [toNat_nth (by omega)]
          omega
        rw [← hat]
        exact (hbyte _ hi).trans (memmove_inside hs hd hi).symm
  · rw [memmove, if_neg h]
    exact ⟨fun _ hc => absurd hc h, fun _ => rfl⟩

omit hs hd in
theorem memmove_agree_down : Ulib.memmove 0 1 3 (fun a => UInt8.ofNat a.toNat) =
    memmove 0 1 3 fun a => UInt8.ofNat a.toNat :=
  (memmove_agree_iff (by decide) (by decide) (by decide)).mpr fun h => absurd h (by decide)

omit hs hd in
/-- Two bytes moved up by one: the user library copies the first one twice. -/
theorem memmove_differ : ∃ (m : Memory) (dst src n : Word), src.toNat + n.toNat ≤ 2 ^ 32 ∧
    dst.toNat + n.toNat ≤ 2 ^ 32 ∧ 0 ≤ n.toInt ∧
    (Ulib.memmove dst src n m).2 2 ≠ (memmove dst src n m).2 2 :=
  ⟨fun a => UInt8.ofNat a.toNat, 1, 0, 2, by decide, by decide, by decide, by decide⟩

end

end Xv6.Mem
