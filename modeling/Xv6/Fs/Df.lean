/-
# `Xv6.Fs.Df` — what `df` counts

`df` reads the free map and the inodes of /disk1 as bytes and counts, in nested loops over
blocks, bytes and bits, what it takes for free.  The kernel has its own loops over the
same bytes, in `balloc` and `ialloc`, and the numbers `df` prints should be those of the
calls that would succeed.

They differ.  `!byte&1` is `(!byte)&1`, which asks whether the rest of the byte is zero and
not whether its lowest bit is, and the scan of the map ends after as many bits as there
are *data* blocks, though it starts at block 0.  The scan of the inodes starts at inode 0,
which `ialloc` never returns.

`lseek` and `read` on /disk1 give the block asked for; `lseek` is given an `int`.
-/
import Mathlib.Order.Interval.Finset.Nat
import Xv6.Fs.Bitmap
import Xv6.Lib.Count

namespace Xv6

open Bytes Count Finset

/-- The super block as `mkfs` lays out a disk, whose byte numbers are `int`s.  The root inode
is number 1, and its first block is behind the free map. -/
structure Superblock.Made (sb : Superblock) : Prop where
  log : sb.logstart = 2
  inodes : sb.inodestart = 2 + sb.nlog
  bmap : sb.bmapstart = 2 + sb.nlog + (sb.ninodes / IPB + 1)
  data : sb.size = sb.dataStart + sb.nblocks
  root : ROOTINO < sb.ninodes
  room : 0 < sb.nblocks
  ints : sb.size * BSIZE ≤ 2 ^ 31

theorem Superblock.Made.bmap_lt {sb : Superblock} (h : sb.Made) : sb.bmapstart < sb.size := by
  rw [h.data, Superblock.dataStart]
  generalize sb.size / BPB = m
  omega

namespace Df

/-! ## The program -/

/-- `lseek(fd, i*BSIZE, SEEK_SET); read(fd, tmpb, BSIZE);` -/
def readBlock (disk : Disk) (i : Nat) : Block := disk (i * BSIZE % 2 ^ 32 / BSIZE)

/-- The loop over the bits of a byte, which is a `char`. -/
def bits (nblocks : Nat) : Nat → Int8 → Nat × Nat → Nat × Nat
  | 0, _, s => s
  | n + 1, byte, (checked, free) =>
    -- `!` binds stronger than `&`
    let free := if (if byte = 0 then (1 : Int32) else 0) &&& 1 ≠ 0 then free + 1 else free
    let checked := checked + 1
    if checked = nblocks then (checked, free) else bits nblocks n (byte >>> 1) (checked, free)

def freeBlocks (sb : Superblock) (disk : Disk) : Nat :=
  let bmapSize : Int := ((sb.size : Int) - sb.nblocks - sb.bmapstart).bmod (2 ^ 32)
  let stop := ((bmapSize + sb.bmapstart) % 2 ^ 32).toNat
  (loop sb.nblocks
    (fun i => loop sb.nblocks (fun j => bits sb.nblocks 8 ((readBlock disk i).byte j).toInt8) BSIZE 0)
    (stop - sb.bmapstart) sb.bmapstart (0, 0)).2

def freeInodes (sb : Superblock) (disk : Disk) : Nat :=
  (loop sb.ninodes
    (fun i => loop sb.ninodes (fun j s =>
      (s.1 + 1, if ((readBlock disk i).dinode j).type = 0 then s.2 + 1 else s.2)) IPB 0)
    (sb.bmapstart - sb.inodestart) sb.inodestart (0, 0)).2

/-- The two numbers it prints; the super block is block 1. -/
def main (disk : Disk) : Nat × Nat :=
  let sb := Superblock.read disk
  (freeBlocks sb disk, freeInodes sb disk)

theorem readBlock_eq {sb : Superblock} (h : sb.Made) (disk : Disk) {i : Nat} (hi : i < sb.size) :
    readBlock disk i = disk i := by
  have hints := h.ints
  rw [readBlock]
  congr 1
  simp only [BSIZE] at *
  omega

/-! ## The bits of a byte -/

/-- What a byte is after `k` turns. -/
def shifted (k : Nat) (byte : Int8) : Int8 := (fun b : Int8 => b >>> 1)^[k] byte

theorem bits_counts {p : Nat → Prop} [DecidablePred p] {lim : Nat} (n : Nat) (byte : Int8) (c : Nat)
    (hc : c < lim) (hp : ∀ k < n, p (c + k) ↔ shifted k byte = 0) :
    bits lim n byte (upTo p c) = upTo p (min (c + n) lim) := by
  induction n generalizing byte c with
  | zero =>
    rw [bits, Nat.add_zero, Nat.min_eq_left (Nat.le_of_lt hc)]
  | succ n ih =>
    have hfree : ((if byte = 0 then (1 : Int32) else 0) &&& 1 ≠ 0) ↔ p c := by
      have h₀ := hp 0 (Nat.succ_pos n)
      rw [Nat.add_zero] at h₀
      rw [h₀]
      by_cases hz : byte = 0
      · rw [if_pos hz]
        exact ⟨fun _ => hz, fun _ => by decide⟩
      · rw [if_neg hz]
        exact ⟨fun h => absurd (by decide) h, fun h => absurd h hz⟩
    have hstep : bits lim (n + 1) byte (upTo p c) =
        if c + 1 = lim then upTo p (c + 1) else bits lim n (byte >>> 1) (upTo p (c + 1)) := by
      rw [upTo_succ, upTo, bits]
      simp only [hfree]
    rw [hstep]
    by_cases hlast : c + 1 = lim
    · rw [if_pos hlast, Nat.min_eq_right (by omega), hlast]
    · rw [if_neg hlast, ih (byte >>> 1) (c + 1) (by omega) fun k hk => ?_]
      · rw [show c + 1 + n = c + (n + 1) by omega]
      · rw [show c + 1 + k = c + (k + 1) by omega, hp (k + 1) (by omega)]
        rfl

/-- A byte is zero after `k` turns if its bits from `k` on are clear; the highest bit is a sign,
and stays. -/
theorem shifted_eq_zero : ∀ x : BitVec 8, ∀ k < 8,
    shifted k ⟨⟨x⟩⟩ = 0 ↔ ∀ i < 8, k ≤ i → x.getLsbD i = false := by
  decide +kernel

/-! ## Blocks -/

section Blocks

variable {v w : Fs.Vol}

/-- The bits of the free map from `b` to the end of its byte are clear. -/
def Tail (v : Fs.Vol) (b : Nat) : Prop := ∀ i < 8, b % 8 ≤ i → v.bit (b / 8 * 8 + i) = false

instance (v : Fs.Vol) : DecidablePred (Tail v) := fun b =>
  inferInstanceAs (Decidable (∀ i < 8, b % 8 ≤ i → v.bit (b / 8 * 8 + i) = false))

theorem tail_iff {b : Nat} : Tail v b ↔ ∀ c, b ≤ c → c / 8 = b / 8 → v.bit c = false := by
  constructor
  · intro h c hbc hc
    have hbit := h (c % 8) (Nat.mod_lt c (by decide)) (by omega)
    rwa [← hc, Nat.div_add_mod'] at hbit
  · exact fun h i hi hb => h _ (by omega) (by omega)

theorem tail_byte {k j i : Nat} (hj : j < BSIZE) (hi : i < 8) :
    Tail v (k * BPB + j * 8 + i) ↔
      shifted i ((v.disk (v.sb.bmapstart + k)).byte j).toInt8 = 0 := by
  have hbit : ∀ t < 8, v.bit (k * BPB + j * 8 + t) =
      ((v.disk (v.sb.bmapstart + k)).byte j).toBitVec.getLsbD t := by
    intro t ht
    simp only [BSIZE] at hj
    have h₁ : (k * BPB + j * 8 + t) / BPB = k := by
      simp only [BPB, BSIZE]
      omega
    have h₂ : (k * BPB + j * 8 + t) % BPB = j * 8 + t := by
      simp only [BPB, BSIZE]
      omega
    rw [Fs.Vol.bit, Superblock.BBLOCK, h₁, h₂, Nat.add_comm k, Block.bit_eq,
      show (j * 8 + t) / 8 = j by omega, show (j * 8 + t) % 8 = t by omega]
  have hdiv : (k * BPB + j * 8 + i) / 8 * 8 = k * BPB + j * 8 := by
    simp only [BPB, BSIZE]
    omega
  have hmod : (k * BPB + j * 8 + i) % 8 = i := by
    omega
  have hzero := shifted_eq_zero ((v.disk (v.sb.bmapstart + k)).byte j).toBitVec i hi
  rw [Tail, hdiv, hmod]
  refine Iff.trans ⟨fun h t ht hle => ?_, fun h t ht hle => ?_⟩ hzero.symm
  · rw [← hbit t ht]
    exact h t ht hle
  · rw [hbit t ht]
    exact h t ht hle

/-- **What `df` counts**: the bits below `nblocks` behind which their byte is clear. -/
theorem freeBlocks_eq (h : v.sb.Made) :
    freeBlocks v.sb v.disk = Nat.count (Tail v) v.sb.nblocks := by
  have hdata := h.data
  have hints := h.ints
  have hall : v.sb.nblocks ≤ 0 + (v.sb.size / BPB + 1) * BPB := by
    simp only [BPB, BSIZE]
    omega
  rw [Superblock.dataStart] at hdata
  rw [freeBlocks]
  -- the number of blocks of the map
  generalize v.sb.size / BPB = m at hdata hall
  have hsize : ((v.sb.size : Int) - v.sb.nblocks - v.sb.bmapstart).bmod (2 ^ 32) = (m + 1 : Nat) := by
    simp only [BSIZE] at hints
    rw [Int.bmod_eq_of_le (by omega) (by omega)]
    omega
  have hstop : ((((m + 1 : Nat) : Int) + v.sb.bmapstart) % 2 ^ 32).toNat - v.sb.bmapstart = m + 1 := by
    simp only [BSIZE] at hints
    omega
  simp only [hsize, hstop]
  have hloop := loop_counts (p := Tail v) (w := BPB) (fun i => loop v.sb.nblocks
    (fun j => bits v.sb.nblocks 8 ((readBlock v.disk i).byte j).toInt8) BSIZE 0)
    (m + 1) v.sb.bmapstart 0 h.room fun k hk hlt => ?_
  · rw [Nat.min_eq_right hall, upTo_zero] at hloop
    rw [hloop]
    rfl
  · rw [Nat.zero_add] at hlt ⊢
    rw [readBlock_eq h _ (by omega)]
    refine loop_counts _ BSIZE 0 (k * BPB) hlt fun j hj hlt' => ?_
    rw [Nat.zero_add]
    exact bits_counts 8 _ _ hlt' fun i hi => tail_byte hj hi

/-- `balloc`, again and again; `none` once it panics. -/
def ballocs : Nat → Fs.Vol → Option Fs.Vol
  | 0, v => some v
  | n + 1, v =>
    match v.ballocInt with
    | some (.ok (_, w)) => ballocs n w
    | _ => none

/-- There are as many calls of `balloc` that succeed as free blocks. -/
theorem ballocs_isSome (n : Nat) (h : v.Laid) : (ballocs n v).isSome ↔ n ≤ v.spare.card := by
  induction n generalizing v with
  | zero => exact ⟨fun _ => Nat.zero_le _, fun _ => rfl⟩
  | succ n ih =>
    rw [ballocs, h.ballocInt]
    by_cases hne : v.spare.Nonempty
    · have hmem := v.spare.min'_mem hne
      have htook := h.took hmem
      rw [dif_pos hne]
      simp only [Fs.Vol.ballocAt]
      rw [ih (htook.laid h hmem), htook.spare, card_erase_of_mem hmem]
      have hpos := hne.card_pos
      omega
    · rw [dif_neg hne, not_nonempty_iff_eq_empty.mp hne, card_empty]
      exact iff_of_false (fun h => by cases h) (Nat.not_succ_le_zero n)

/-- **When `df` counts the free blocks.**  For every disk that is laid out as `mkfs` does and every
free map, `df` prints the number of clear bits below `sb.size` if and only if each of them is below
`nblocks` and has only clear bits behind it in its byte.  On a map that marks its own blocks and the
super block, that number is the number of `balloc` calls that succeed. -/
theorem df_free_blocks_iff (h : v.sb.Made) (hsb : Superblock.read v.disk = v.sb) :
    ((main v.disk).1 = v.spare.card ↔
      ∀ b < v.sb.size, v.bit b = false →
        b < v.sb.nblocks ∧ ∀ c, b ≤ c → c / 8 = b / 8 → v.bit c = false) ∧
    (v.Laid → ∀ n, (ballocs n v).isSome ↔ n ≤ v.spare.card) := by
  refine ⟨?_, fun hl n => ballocs_isSome n hl⟩
  have hlt : v.sb.nblocks ≤ v.sb.size := h.data ▸ Nat.le_add_left ..
  have hsub : (Finset.range v.sb.nblocks).filter (Tail v) ⊆ v.spare := by
    intro b hb
    rw [mem_filter, mem_range] at hb
    exact Fs.Vol.mem_spare.mpr ⟨by omega, tail_iff.mp hb.2 b (Nat.le_refl b) rfl⟩
  rw [main, hsb, freeBlocks_eq h, Nat.count_eq_card_filter_range]
  constructor
  · intro hcard b hb hbit
    have hmem : b ∈ v.spare := Fs.Vol.mem_spare.mpr ⟨hb, hbit⟩
    rw [← eq_of_subset_of_card_le hsub hcard.ge, mem_filter, mem_range] at hmem
    exact ⟨hmem.1, tail_iff.mp hmem.2⟩
  · intro hall
    refine congrArg Finset.card (Finset.Subset.antisymm hsub fun b hb => ?_)
    obtain ⟨hb, hbit⟩ := Fs.Vol.mem_spare.mp hb
    obtain ⟨h₁, h₂⟩ := hall b hb hbit
    rw [mem_filter, mem_range]
    exact ⟨h₁, tail_iff.mpr h₂⟩

theorem smallVol_made : Fs.smallVol.sb.Made := ⟨rfl, rfl, rfl, rfl, by decide, by decide, by decide⟩

/-- The small disk with every block in use. -/
def fullVol : Fs.Vol :=
  { Fs.smallVol with disk := Function.update Fs.smallDisk 3 (Buffer.ofFn fun _ => 255) }

/-- On a full disk `df` is right. -/
theorem df_free_blocks_full : fullVol.sb.Made ∧ (main fullVol.disk).1 = fullVol.spare.card := by
  have hfull : ∀ b < 8, fullVol.bit b = true := by decide +kernel
  refine ⟨smallVol_made, (df_free_blocks_iff (v := fullVol) smallVol_made
    (by decide +kernel)).1.mpr fun b hb hbit => ?_⟩
  rw [hfull b hb] at hbit
  cases hbit

/-- **`df` on the small disk**: blocks 4 to 7 are free, and `df` finds none. -/
theorem df_misses_blocks : Fs.smallVol.sb.Made ∧ Fs.smallVol.Laid ∧ Fs.smallVol.spare.card = 4 ∧
    (main Fs.smallVol.disk).1 = 0 :=
  ⟨smallVol_made, Fs.Vol.smallVol_laid, by decide +kernel, by decide +kernel⟩

end Blocks

/-! ## Inodes -/

section Inodes

variable {v w : Fs.Vol}

/-- **What `df` counts**: the free inodes from 0 on. -/
theorem freeInodes_eq (h : v.sb.Made) :
    freeInodes v.sb v.disk = Nat.count (fun x => (v.dinode x).type = 0) v.sb.ninodes := by
  have hroot := h.root
  have hturns : v.sb.bmapstart - v.sb.inodestart = v.sb.ninodes / IPB + 1 := by
    rw [h.bmap, h.inodes, Nat.add_sub_cancel_left]
  have hall : v.sb.ninodes ≤ 0 + (v.sb.ninodes / IPB + 1) * IPB := by
    simp only [IPB, BSIZE]
    omega
  have hlt := h.bmap_lt
  rw [freeInodes, hturns]
  have hloop := loop_counts (p := fun x => (v.dinode x).type = 0) (w := IPB) (fun i => loop v.sb.ninodes
    (fun j s => (s.1 + 1, if ((readBlock v.disk i).dinode j).type = 0 then s.2 + 1 else s.2)) IPB 0)
    (v.sb.ninodes / IPB + 1) v.sb.inodestart 0 (Nat.zero_lt_of_lt hroot) fun k hk hlim => ?_
  · rw [Nat.min_eq_right hall, upTo_zero] at hloop
    rw [hloop]
    rfl
  · rw [Nat.zero_add] at hlim ⊢
    rw [readBlock_eq h _ (by omega)]
    have hblock := loop_counts (p := fun x => (v.dinode x).type = 0) (w := 1) (fun j s =>
      (s.1 + 1, if ((v.disk (v.sb.inodestart + k)).dinode j).type = 0 then s.2 + 1 else s.2))
      IPB 0 (k * IPB) hlim fun j hj hlim' => ?_
    · rw [Nat.mul_one] at hblock
      exact hblock
    · rw [Nat.zero_add, Nat.mul_one] at *
      have hinode : v.dinode (k * IPB + j) = (v.disk (v.sb.inodestart + k)).dinode j := by
        rw [Fs.Vol.dinode, Superblock.IBLOCK, Nat.mul_comm k, Nat.mul_add_div (by decide),
          Nat.mul_add_mod, Nat.div_eq_of_lt hj, Nat.mod_eq_of_lt hj, Nat.add_zero, Nat.add_comm k]
      rw [Nat.min_eq_left (by omega), upTo_succ, ← hinode]
      rfl

/-- The inodes `ialloc` may return. -/
def idle (v : Fs.Vol) : Finset Nat := (Finset.Ico 1 v.sb.ninodes).filter fun x => (v.dinode x).type = 0

theorem mem_idle {x : Nat} : x ∈ idle v ↔ (1 ≤ x ∧ x < v.sb.ninodes) ∧ (v.dinode x).type = 0 := by
  rw [idle, mem_filter, mem_Ico]

/-- `ialloc`, again and again; `none` once it panics. -/
def iallocs (type : Int16) : Nat → Fs.Vol → Option Fs.Vol
  | 0, v => some v
  | n + 1, v =>
    match v.ialloc type with
    | .ok (_, w) => iallocs type n w
    | .error _ => none

theorem idle_setDinode {x : Nat} {d : Dinode} (hd : d.type ≠ 0) :
    idle (v.setDinode x d) = (idle v).erase x := by
  ext y
  rw [mem_idle, mem_erase, mem_idle, Fs.Vol.dinode_setDinode]
  by_cases hy : y = x
  · rw [if_pos hy]
    exact ⟨fun h => absurd h.2 hd, fun h => absurd hy h.1⟩
  · rw [if_neg hy]
    exact ⟨fun h => ⟨hy, h⟩, fun h => h.2⟩

/-- There are as many calls of `ialloc` that succeed as free inodes. -/
theorem iallocs_isSome {type : Int16} (ht : type ≠ 0) (n : Nat) (v : Fs.Vol) :
    (iallocs type n v).isSome ↔ n ≤ (idle v).card := by
  induction n generalizing v with
  | zero => exact ⟨fun _ => Nat.zero_le _, fun _ => rfl⟩
  | succ n ih =>
    rw [iallocs]
    cases ha : v.ialloc type with
    | error e =>
      have hnone : idle v = ∅ := by
        rw [Fs.Vol.ialloc] at ha
        split at ha
        · cases ha
        · rename_i hf
          refine eq_empty_of_forall_notMem fun x hx => ?_
          obtain ⟨hx, hfree⟩ := mem_idle.mp hx
          have hmem : x ∈ List.range' 1 (v.sb.ninodes - 1) := by
            rw [List.mem_range'_1]
            omega
          exact List.find?_eq_none.mp hf x hmem (decide_eq_true hfree)
      rw [hnone, card_empty]
      exact iff_of_false (fun h => by cases h) (Nat.not_succ_le_zero n)
    | ok r =>
      obtain ⟨x, w⟩ := r
      obtain ⟨h₁, h₂, hfree, -, rfl⟩ := Fs.Vol.ialloc_ok ha
      have hmem : x ∈ idle v := mem_idle.mpr ⟨⟨h₁, h₂⟩, hfree⟩
      rw [ih, idle_setDinode ht, card_erase_of_mem hmem]
      have hpos := card_pos.mpr ⟨x, hmem⟩
      omega

/-- **When `df` counts the free inodes.**  For every disk that is laid out as `mkfs` does and every
contents of the inode blocks, the number of `ialloc` calls that succeed is the number of free inodes
from 1 on, and `df` prints that number if and only if inode 0 is not free. -/
theorem df_free_inodes_iff (h : v.sb.Made) (hsb : Superblock.read v.disk = v.sb) :
    ((main v.disk).2 = (idle v).card ↔ (v.dinode 0).type ≠ 0) ∧
    ∀ type : Int16, type ≠ 0 → ∀ n, (iallocs type n v).isSome ↔ n ≤ (idle v).card := by
  refine ⟨?_, fun type ht n => iallocs_isSome ht n v⟩
  have hsplit : (Finset.range v.sb.ninodes).filter (fun x => (v.dinode x).type = 0) =
      if (v.dinode 0).type = 0 then insert 0 (idle v) else idle v := by
    have hroot := h.root
    ext x
    split
    · rename_i h₀
      rw [mem_filter, mem_range, mem_insert, mem_idle]
      constructor
      · rintro ⟨hx, hfree⟩
        by_cases hz : x = 0
        · exact .inl hz
        · exact .inr ⟨⟨by omega, hx⟩, hfree⟩
      · rintro (rfl | ⟨hx, hfree⟩)
        · exact ⟨by omega, h₀⟩
        · exact ⟨hx.2, hfree⟩
    · rename_i h₀
      rw [mem_filter, mem_range, mem_idle]
      constructor
      · rintro ⟨hx, hfree⟩
        have hz : x ≠ 0 := by
          rintro rfl
          exact h₀ hfree
        exact ⟨⟨by omega, hx⟩, hfree⟩
      · rintro ⟨hx, hfree⟩
        exact ⟨hx.2, hfree⟩
  have hzero : 0 ∉ idle v := fun hmem => absurd (mem_idle.mp hmem).1.1 (by decide)
  rw [main, hsb, freeInodes_eq h, Nat.count_eq_card_filter_range, hsplit]
  split
  · rename_i h₀
    rw [card_insert_of_notMem hzero]
    exact ⟨fun hcard => absurd hcard (Nat.succ_ne_self _), fun hne => absurd h₀ hne⟩
  · rename_i h₀
    exact ⟨fun _ => h₀, fun _ => rfl⟩

/-- The small disk with an inode 0 that is in use. -/
def rootedVol : Fs.Vol := Fs.smallVol.setDinode 0 ⟨1, 0, 0, 0, 0, fun _ => 0⟩

theorem df_free_inodes_rooted : rootedVol.sb.Made ∧
    (main rootedVol.disk).2 = (idle rootedVol).card :=
  ⟨smallVol_made, (df_free_inodes_iff (v := rootedVol) smallVol_made
    (by decide +kernel)).1.mpr (by decide +kernel)⟩

/-- **`df` on the small disk**: both inodes that it has are taken, and `df` finds a free one. -/
theorem df_counts_inode_zero : Fs.smallVol.sb.Made ∧
    Superblock.read Fs.smallVol.disk = Fs.smallVol.sb ∧ (idle Fs.smallVol).card = 0 ∧
    (main Fs.smallVol.disk).2 = 1 :=
  ⟨smallVol_made, by decide +kernel, by decide +kernel, by decide +kernel⟩

end Inodes

end Df

end Xv6
