/-
# `Xv6.Fs.Bitmap` — the free map as a set

`balloc` and `bfree` of `fs.c` on maps of any number of blocks.  `Vol.balloc` of
`Xv6.Fs.Block` asks for the first clear bit; here are the two loops it stands
for, in the arithmetic of the source: `b` is an `int`, so `BBLOCK(b, sb)` divides
with sign, and the tests against `sb.size` are those of `uint`s.

Up to 2^31 blocks the loops are the search (`ballocInt_eq`).  From there on `b` is
negative, and they would look at blocks before the map.

The free blocks are a set, and `balloc` takes its least element out.  For that the
map must mark its own blocks and the super block as in use: `bzero` clears what
`balloc` returns, also if that is a block of the map.
-/
import Mathlib.Data.Finset.Max
import Mathlib.Data.List.Find
import Xv6.Fs.Room

namespace Xv6

open Bytes

/-! ## The loops -/

/-- `BBLOCK(b, sb)` with an `int` for `b`. -/
def Superblock.BBLOCKint (sb : Superblock) (b : BitVec 32) : Nat :=
  ((b.toInt.tdiv BPB + sb.bmapstart) % 2 ^ 32).toNat

theorem Superblock.BBLOCKint_eq (sb : Superblock) {b : Nat} (hb : b < 2 ^ 31)
    (hmap : sb.BBLOCK b < 2 ^ 32) : sb.BBLOCKint (BitVec.ofNat 32 b) = sb.BBLOCK b := by
  have hnat : (BitVec.ofNat 32 b).toNat = b := by
    rw [BitVec.toNat_ofNat, Nat.mod_eq_of_lt (by omega)]
  have hint : (BitVec.ofNat 32 b).toInt = b := by
    rw [BitVec.toInt_eq_toNat_of_lt (by omega), hnat]
  rw [BBLOCK] at hmap ⊢
  rw [BBLOCKint, hint, ← Int.ofNat_tdiv, ← Int.natCast_add,
    Int.emod_eq_of_lt (Int.natCast_nonneg _) (by exact_mod_cast hmap), Int.toNat_natCast]

namespace Fs.Vol

/-- The inner loop, from `bi` on, in at most `n` turns: the first clear bit. -/
def ballocBits (size : Nat) (data : Block) (b : BitVec 32) : Nat → Nat → Option Nat
  | 0, _ => none
  | n + 1, bi =>
    if bi < BPB ∧ (b + BitVec.ofNat 32 bi).toNat < size then
      if data.bit bi then ballocBits size data b n (bi + 1) else some bi
    else none

/-- The outer loop, from `b` on, in at most `n` turns. -/
def ballocBlocks (v : Vol) : Nat → BitVec 32 → Option (Except Panic (Nat × Vol))
  | 0, _ => none
  | n + 1, b =>
    if b.toNat < v.sb.size then
      let bno := v.sb.BBLOCKint b
      match ballocBits v.sb.size (v.disk bno) b (BPB + 1) 0 with
      | some bi =>
        let c := (b + BitVec.ofNat 32 bi).toNat
        some (.ok (c, (v.put bno ((v.disk bno).setBit bi)).bzero c))
      | none => ballocBlocks v n (b + BitVec.ofNat 32 BPB)
    else some (.error .balloc)

/-- `balloc` with its loops; `none` if they do not end, which is after so many turns, since then
`b` is 0 again. -/
def ballocInt (v : Vol) : Option (Except Panic (Nat × Vol)) := v.ballocBlocks (2 ^ 20 + 1) 0

variable {v w : Vol} {b c n : Nat}

/-- The inner loop is a search. -/
theorem ballocBits_eq (size : Nat) (data : Block) {b : BitVec 32} (hb : b.toNat + BPB < 2 ^ 32)
    {n bi : Nat} (hn : BPB < bi + n) : ballocBits size data b n bi =
      (List.range' bi (min BPB (size - b.toNat) - bi)).find? fun bi => !data.bit bi := by
  induction n generalizing bi with
  | zero =>
    rw [show min BPB (size - b.toNat) - bi = 0 by omega]
    rfl
  | succ n ih =>
    rw [ballocBits]
    have hsum : bi < BPB → (b + BitVec.ofNat 32 bi).toNat = b.toNat + bi := by
      intro hbi
      rw [BitVec.toNat_add, BitVec.toNat_ofNat, Nat.mod_eq_of_lt (by omega),
        Nat.mod_eq_of_lt (by omega)]
    by_cases hin : bi < BPB ∧ (b + BitVec.ofNat 32 bi).toNat < size
    · have hlt := hsum hin.1 ▸ hin.2
      rw [if_pos hin, ih (by omega), show min BPB (size - b.toNat) - bi =
        min BPB (size - b.toNat) - (bi + 1) + 1 by omega, List.range'_succ, List.find?_cons]
      cases hbit : data.bit bi
      · rfl
      · rfl
    · rw [if_neg hin]
      have hnone : min BPB (size - b.toNat) - bi = 0 := by
        by_cases hbi : bi < BPB
        · have := fun hlt => hin ⟨hbi, hlt⟩
          omega
        · omega
      rw [hnone]
      rfl

/-- What `balloc` does with the result of its search. -/
def ballocAt (v : Vol) : Option Nat → Except Panic (Nat × Vol)
  | some b => .ok (b, (v.put (v.sb.BBLOCK b) ((v.disk (v.sb.BBLOCK b)).setBit (b % BPB))).bzero b)
  | none => .error .balloc

theorem balloc_eq (v : Vol) :
    v.balloc = v.ballocAt ((List.range v.sb.size).find? fun b => !v.bit b) := by
  rw [balloc]
  cases (List.range v.sb.size).find? fun b => !v.bit b with
  | none | some => rfl

/-- The bits of one block of the map. -/
theorem BBLOCK_add (sb : Superblock) {bi : Nat} (hb : b % 4096 = 0) (hbi : bi < BPB) :
    sb.BBLOCK (b + bi) = sb.BBLOCK b ∧ (b + bi) % BPB = bi := by
  simp only [Superblock.BBLOCK, BPB, BSIZE] at *
  omega

theorem bit_add {bi : Nat} (hb : b % 4096 = 0) (hbi : bi < BPB) :
    v.bit (b + bi) = (v.disk (v.sb.BBLOCK b)).bit bi := by
  obtain ⟨h₁, h₂⟩ := BBLOCK_add v.sb hb hbi
  rw [bit, h₁, h₂]

/-- The numbers from `b` on, those of a block of the map and the others. -/
theorem range'_split (b size : Nat) : List.range' b (size - b) =
    (List.range' 0 (min BPB (size - b))).map (b + ·) ++ List.range' (b + BPB) (size - (b + BPB)) := by
  rw [List.map_add_range', Nat.add_zero]
  rcases Nat.le_total (size - b) BPB with h | h
  · rw [Nat.min_eq_right h, show size - (b + BPB) = 0 by omega, List.range'_zero, List.append_nil]
  · rw [Nat.min_eq_left h, List.range'_append_1, show BPB + (size - (b + BPB)) = size - b by omega]

/-- The outer loop is a search, a block of the map at a time. -/
theorem ballocBlocks_eq (hsize : v.sb.size ≤ 2 ^ 31) (hmap : ∀ c, c < v.sb.size → v.sb.BBLOCK c < 2 ^ 32)
    (hb : b % 4096 = 0) (hlt : b < 2 ^ 32) (hn : v.sb.size ≤ b + 4096 * n) :
    v.ballocBlocks (n + 1) (BitVec.ofNat 32 b) = some
      (v.ballocAt ((List.range' b (v.sb.size - b)).find? fun b => !v.bit b)) := by
  have hnat : (BitVec.ofNat 32 b).toNat = b := by
    rw [BitVec.toNat_ofNat, Nat.mod_eq_of_lt hlt]
  induction n generalizing b with
  | zero =>
    rw [ballocBlocks, hnat, if_neg (by omega), show v.sb.size - b = 0 by omega]
    rfl
  | succ n ih =>
    rw [ballocBlocks, hnat]
    by_cases hin : b < v.sb.size
    · rw [if_pos hin]
      have hbno : v.sb.BBLOCKint (BitVec.ofNat 32 b) = v.sb.BBLOCK b :=
        v.sb.BBLOCKint_eq (by omega) (hmap b hin)
      have hend : (BitVec.ofNat 32 b).toNat + BPB < 2 ^ 32 := by
        simp only [BPB, BSIZE]
        omega
      have hbits := ballocBits_eq v.sb.size (v.disk (v.sb.BBLOCK b)) hend
        (show BPB < 0 + (BPB + 1) by omega)
      rw [hnat, Nat.sub_zero] at hbits
      have hsame : ∀ bi ∈ List.range' 0 (min BPB (v.sb.size - b)),
          ((fun b => !v.bit b) ∘ (b + ·)) bi = !(v.disk (v.sb.BBLOCK b)).bit bi := by
        intro bi hbi
        have hlt := (List.mem_range'_1.mp hbi).2
        rw [Function.comp_apply, bit_add hb (by omega)]
      simp only [hbno, hbits]
      rw [range'_split, List.find?_append, List.find?_map, List.find?_congr hsame]
      cases hfind : (List.range' 0 (min BPB (v.sb.size - b))).find? fun bi =>
          !(v.disk (v.sb.BBLOCK b)).bit bi with
      | none =>
        have hnext : BitVec.ofNat 32 b + BitVec.ofNat 32 BPB = BitVec.ofNat 32 (b + BPB) :=
          (BitVec.ofNat_add ..).symm
        have hB : BPB = 4096 := rfl
        rw [hnext, Option.map_none, Option.none_or]
        refine ih (by omega) (by omega) (by omega) ?_
        rw [BitVec.toNat_ofNat, Nat.mod_eq_of_lt (by omega)]
      | some bi =>
        have hbi := (List.mem_range'_1.mp (List.mem_of_find?_eq_some hfind)).2
        obtain ⟨h₁, h₂⟩ := BBLOCK_add v.sb hb (show bi < BPB by omega)
        have hsum : (BitVec.ofNat 32 b + BitVec.ofNat 32 bi).toNat = b + bi := by
          rw [← BitVec.ofNat_add, BitVec.toNat_ofNat, Nat.mod_eq_of_lt (by omega)]
        simp only [hsum, Option.map_some, Option.some_or, ballocAt, h₁, h₂]
    · rw [if_neg hin, show v.sb.size - b = 0 by omega]
      rfl

/-- **The two loops of `balloc` look for the first clear bit.** -/
theorem ballocInt_eq (hsize : v.sb.size ≤ 2 ^ 31) (hmap : ∀ c, c < v.sb.size → v.sb.BBLOCK c < 2 ^ 32) :
    v.ballocInt = some v.balloc := by
  rw [balloc_eq, List.range_eq_range']
  exact ballocBlocks_eq hsize hmap rfl (by decide) (by omega)

/-- The block of the map for the number 2^31 is not found. -/
example : Superblock.BBLOCKint ⟨2 ^ 31 + 1, 0, 0, 0, 0, 0, 600000⟩ (BitVec.ofNat 32 (2 ^ 31)) = 75712 ∧
    Superblock.BBLOCK ⟨2 ^ 31 + 1, 0, 0, 0, 0, 0, 600000⟩ (2 ^ 31) = 1124288 := by
  decide

/-! ## The set of free blocks -/

/-- The number has a bit in the map. -/
def InMap (v : Vol) (c : Nat) : Prop := c / BPB * BPB < v.sb.size

/-- The map lies on the disk behind the super block, and it and the super block are in use. -/
structure Laid (v : Vol) : Prop where
  super : Superblock.read v.disk = v.sb
  size : v.sb.size ≤ 2 ^ 31
  behind : 1 < v.sb.bmapstart
  inside : ∀ b, b < v.sb.size → v.sb.BBLOCK b < v.sb.size
  self : ∀ b, b < v.sb.size → v.bit (v.sb.BBLOCK b) = true
  one : 1 < v.sb.size → v.bit 1 = true

/-- `w` is `v` with the free block `b` marked and cleared. -/
structure Took (v : Vol) (b : Nat) (w : Vol) : Prop where
  bits : ∀ c, v.InMap c → w.bit c = (decide (c = b) || v.bit c)
  zero : w.disk b = Buffer.zero
  others : ∀ c, c ≠ b → c ≠ v.sb.BBLOCK b → w.disk c = v.disk c
  sb : w.sb = v.sb

/-- `w` is `v` without the mark of the block `b`. -/
structure Gave (v : Vol) (b : Nat) (w : Vol) : Prop where
  bits : ∀ c, w.bit c = (decide (c ≠ b) && v.bit c)
  others : ∀ c, c ≠ v.sb.BBLOCK b → w.disk c = v.disk c
  sb : w.sb = v.sb

theorem inMap_of_lt (h : c < v.sb.size) : v.InMap c :=
  Nat.lt_of_le_of_lt (Nat.div_mul_le_self c BPB) h

theorem mem_spare : b ∈ v.spare ↔ b < v.sb.size ∧ v.bit b = false := by
  rw [spare, Alloc.spare, Finset.mem_filter, Finset.mem_range]

theorem Laid.bit_BBLOCK (h : v.Laid) (hc : v.InMap c) : v.bit (v.sb.BBLOCK c) = true := by
  have hsame : v.sb.BBLOCK (c / BPB * BPB) = v.sb.BBLOCK c := by
    rw [Superblock.BBLOCK, Nat.mul_div_cancel _ (by decide), Superblock.BBLOCK]
  rw [← hsame]
  exact h.self _ hc

/-- Two numbers with the same bit of the same block are the same. -/
theorem eq_of_bit (h : v.sb.BBLOCK c = v.sb.BBLOCK b) (h' : c % BPB = b % BPB) : c = b := by
  have hdiv : c / BPB = b / BPB := Nat.add_right_cancel h
  rw [← Nat.div_add_mod c BPB, ← Nat.div_add_mod b BPB, hdiv, h']

theorem bit_put (v : Vol) (b c : Nat) (data : Block) : (v.put b data).bit c =
    if v.sb.BBLOCK c = b then data.bit (c % BPB) else v.bit c := by
  simp only [bit, put, Function.update_apply]
  split
  · rfl
  · rfl

/-- Marking a free block and clearing it. -/
theorem Laid.took (h : v.Laid) (hb : b ∈ v.spare) : Took v b
    ((v.put (v.sb.BBLOCK b) ((v.disk (v.sb.BBLOCK b)).setBit (b % BPB))).bzero b) where
  bits c hc := by
    obtain ⟨-, hclear⟩ := mem_spare.mp hb
    -- `bzero` does not come to the map
    have hne : v.sb.BBLOCK c ≠ b := by
      rintro rfl
      rw [h.bit_BBLOCK hc] at hclear
      cases hclear
    rw [bzero, bit_put, put_sb, if_neg hne, bit_put]
    by_cases hsame : v.sb.BBLOCK c = v.sb.BBLOCK b
    · rw [if_pos hsame, Block.bit_setBit _ _ (Nat.mod_lt _ (by decide)), bit, hsame]
      congr 1
      exact decide_eq_decide.mpr ⟨fun he => eq_of_bit hsame he.symm, fun he => by rw [he]⟩
    · rw [if_neg hsame, decide_eq_false (by rintro rfl; exact hsame rfl), Bool.false_or]
  zero := Function.update_self ..
  others _ hcb hcm := (Function.update_of_ne hcb ..).trans (Function.update_of_ne hcm ..)
  sb := rfl

theorem Laid.gave (h : v.Laid) (hb : v.bit b = true) :
    v.bfree b = .ok (v.put (v.sb.BBLOCK b) ((v.disk (v.sb.BBLOCK b)).clearBit (b % BPB))) ∧
      Gave v b (v.put (v.sb.BBLOCK b) ((v.disk (v.sb.BBLOCK b)).clearBit (b % BPB))) := by
  refine ⟨?_, fun c => ?_, fun c hc => Function.update_of_ne hc .., rfl⟩
  · rw [bfree]
    simp only [h.super, hb, if_true]
  · rw [bit_put]
    by_cases hsame : v.sb.BBLOCK c = v.sb.BBLOCK b
    · rw [if_pos hsame, Block.bit_clearBit _ _ (Nat.mod_lt _ (by decide)), bit, hsame]
      congr 1
      exact decide_eq_decide.mpr
        (not_congr ⟨fun he => eq_of_bit hsame he.symm, fun he => by rw [he]⟩)
    · rw [if_neg hsame, decide_eq_true (by rintro rfl; exact hsame rfl), Bool.true_and]

theorem Took.spare (h : Took v b w) : w.spare = v.spare.erase b := by
  ext c
  rw [mem_spare, Finset.mem_erase, mem_spare, h.sb]
  constructor
  · rintro ⟨hc, hbit⟩
    rw [h.bits c (inMap_of_lt hc), Bool.or_eq_false_iff, decide_eq_false_iff_not] at hbit
    exact ⟨hbit.1, hc, hbit.2⟩
  · rintro ⟨hne, hc, hbit⟩
    rw [h.bits c (inMap_of_lt hc), hbit, decide_eq_false hne]
    exact ⟨hc, rfl⟩

theorem Gave.spare (h : Gave v b w) (hb : b < v.sb.size) : w.spare = insert b v.spare := by
  ext c
  rw [mem_spare, Finset.mem_insert, mem_spare, h.sb, h.bits, Bool.and_eq_false_iff,
    decide_eq_false_iff_not, not_not]
  constructor
  · rintro ⟨hc, rfl | hbit⟩
    · exact .inl rfl
    · exact .inr ⟨hc, hbit⟩
  · rintro (rfl | ⟨hc, hbit⟩)
    · exact ⟨hb, .inl rfl⟩
    · exact ⟨hc, .inr hbit⟩

theorem Took.laid (h : Took v b w) (hv : v.Laid) (hb : b ∈ v.spare) : w.Laid := by
  obtain ⟨hlt, hclear⟩ := mem_spare.mp hb
  have hone : w.disk 1 = v.disk 1 := by
    refine h.others 1 ?_ ?_
    · rintro rfl
      rw [hv.one hlt] at hclear
      cases hclear
    · have hle : v.sb.bmapstart ≤ v.sb.BBLOCK b := Superblock.bmap_le_BBLOCK b
      have hlt := hv.behind
      omega
  refine ⟨?_, ?_, ?_, ?_, ?_, ?_⟩
  · rw [h.sb, ← hv.super]
    simp only [Superblock.read, hone]
  · rw [h.sb]
    exact hv.size
  · rw [h.sb]
    exact hv.behind
  · rw [h.sb]
    exact hv.inside
  · intro c hc
    rw [h.sb] at hc ⊢
    rw [h.bits _ (inMap_of_lt (hv.inside c hc)), hv.self c hc, Bool.or_true]
  · intro hc
    rw [h.sb] at hc
    rw [h.bits 1 (inMap_of_lt hc), hv.one hc, Bool.or_true]

/-- The search of `balloc` finds the least element. -/
theorem find_spare (v : Vol) : (List.range v.sb.size).find? (fun b => !v.bit b) =
    if hne : v.spare.Nonempty then some (v.spare.min' hne) else none := by
  by_cases hne : v.spare.Nonempty
  · rw [dif_pos hne, List.find?_range_eq_some]
    obtain ⟨hlt, hclear⟩ := mem_spare.mp (v.spare.min'_mem hne)
    refine ⟨by rw [hclear]; rfl, List.mem_range.mpr hlt, fun c hc => ?_⟩
    have hbit : v.bit c = true := by
      by_contra hbit
      have hmem : c ∈ v.spare := mem_spare.mpr ⟨by omega, by simpa using hbit⟩
      exact absurd (v.spare.min'_le c hmem) (by omega)
    rw [hbit]
    rfl
  · rw [dif_neg hne, List.find?_range_eq_none]
    intro c hc
    have hbit : v.bit c = true := by
      by_contra hbit
      exact hne ⟨c, mem_spare.mpr ⟨hc, by simpa using hbit⟩⟩
    rw [hbit]
    rfl

/-- The loops of `balloc` on such a map. -/
theorem Laid.ballocInt (h : v.Laid) : v.ballocInt =
    some (v.ballocAt (if hne : v.spare.Nonempty then some (v.spare.min' hne) else none)) := by
  have hloops : v.ballocInt = some v.balloc := by
    refine ballocInt_eq h.size fun c hc => ?_
    have h₁ := h.inside c hc
    have h₂ := h.size
    omega
  rw [hloops, balloc_eq, find_spare]

/-- **The free map is a set.**  `balloc` takes out the least free block, and clears it and no other;
it panics only if there is none.  `bfree` puts a block back, and so undoes a `balloc`. -/
theorem bitmap_refines_set (h : v.Laid) :
    (v.spare = ∅ → v.ballocInt = some (.error .balloc)) ∧
    (∀ hne : v.spare.Nonempty, ∃ w, v.ballocInt = some (.ok (v.spare.min' hne, w)) ∧
      Took v (v.spare.min' hne) w ∧ w.spare = v.spare.erase (v.spare.min' hne) ∧
      ∃ w', w.bfree (v.spare.min' hne) = .ok w' ∧ w'.spare = v.spare ∧
        ∀ c, v.InMap c → w'.bit c = v.bit c) ∧
    ∀ b, b < v.sb.size → v.bit b = true →
      ∃ w, v.bfree b = .ok w ∧ Gave v b w ∧ w.spare = insert b v.spare := by
  rw [h.ballocInt]
  refine ⟨fun hempty => ?_, fun hne => ?_, fun b hb hbit => ?_⟩
  · rw [dif_neg (Finset.not_nonempty_iff_eq_empty.mpr hempty)]
    rfl
  · rw [dif_pos hne]
    have hb := v.spare.min'_mem hne
    generalize v.spare.min' hne = b at hb
    obtain ⟨hlt, hclear⟩ := mem_spare.mp hb
    have htook := h.took hb
    have hmark : Vol.bit _ b = true := (htook.bits b (inMap_of_lt hlt)).trans (by simp)
    obtain ⟨hfree, hgave⟩ := (htook.laid h hb).gave hmark
    refine ⟨_, rfl, htook, htook.spare, _, hfree, ?_, fun c hc => ?_⟩
    · rw [hgave.spare (by rw [htook.sb]; exact hlt), htook.spare, Finset.insert_erase hb]
    · rw [hgave.bits, htook.bits c hc]
      by_cases hcb : c = b
      · rw [hcb, hclear]
        simp
      · simp [hcb]
  · obtain ⟨hfree, hgave⟩ := h.gave hbit
    exact ⟨_, hfree, hgave, hgave.spare hb⟩

theorem smallVol_laid : smallVol.Laid where
  super := smallVol_holds.ok.super
  size := by decide
  behind := by decide
  inside := show ∀ b, b < 8 → smallVol.sb.BBLOCK b < 8 by decide
  self := show ∀ b, b < 8 → smallVol.bit (smallVol.sb.BBLOCK b) = true by decide +kernel
  one _ := by decide +kernel

/-- On the small disk the first free block is 4. -/
theorem bitmap_refines_set_small : ∃ w, smallVol.ballocInt = some (.ok (4, w)) ∧
    Took smallVol 4 w := by
  have hspare : smallVol.spare = {4, 5, 6, 7} := by decide +kernel
  have hne : smallVol.spare.Nonempty := ⟨4, by rw [hspare]; decide⟩
  have hmin : smallVol.spare.min' hne = 4 := by
    simp only [hspare]
    exact Nat.le_antisymm (Finset.min'_le _ _ (by decide)) (Finset.le_min' _ _ _ (by decide))
  obtain ⟨w, hw, htook, -⟩ := (bitmap_refines_set smallVol_laid).2.1 hne
  rw [hmin] at hw htook
  exact ⟨w, hw, htook⟩

/-- The small disk with a map that does not mark its own block, which is block 3. -/
def looseVol : Vol :=
  { smallVol with
    disk := Function.update smallDisk 3 (((Block.setBit Buffer.zero 0).setBit 1).setBit 2) }

/-- `balloc` returns the map, and has cleared it: block 0 is free. -/
theorem balloc_clears_map : ∃ w, looseVol.ballocInt = some (.ok (3, w)) ∧
    looseVol.bit 0 = true ∧ w.bit 0 = false := by
  have hmap : ∀ c, c < looseVol.sb.size → looseVol.sb.BBLOCK c < 2 ^ 32 :=
    show ∀ c, c < 8 → looseVol.sb.BBLOCK c < 2 ^ 32 by decide
  have hfind : (List.range looseVol.sb.size).find? (fun b => !looseVol.bit b) = some 3 := by
    decide +kernel
  have hrun : looseVol.ballocInt = some (looseVol.ballocAt (some 3)) := by
    rw [ballocInt_eq (by decide) hmap, balloc_eq, hfind]
  refine ⟨_, hrun, by decide +kernel, ?_⟩
  rw [bzero, bit_put, if_pos (by decide)]
  decide +kernel

end Fs.Vol

end Xv6
