/-
# `Xv6.Fs.Layout` — the on-disk format of the file system

What `fs.h` lays over the blocks of the disk: the super block, the on-disk
inodes, `IPB` to a block, and the free map, one bit for each block.  Each is a
view of a `Block` with a write, and the two lemmas a caller needs: what was
written reads back, and the neighbours are untouched.

    [ boot | super | log | inode blocks | free bit map | data blocks ]
-/
import Mathlib.Data.Fintype.Pi
import Mathlib.Tactic.IntervalCases
import Xv6.Disk

namespace Xv6

open Bytes

/-! ## Parameters -/

/-- Root i-number. -/
def ROOTINO : Nat := 1
/-- Size of the file system in blocks. -/
def FSSIZE : Nat := 1000
/-- Direct block addresses in an inode. -/
def NDIRECT : Nat := 12
/-- Block addresses in an indirect block. -/
def NINDIRECT : Nat := BSIZE / 4
/-- Largest file, in blocks. -/
def MAXFILE : Nat := NDIRECT + NINDIRECT
/-- Inodes per block. -/
def IPB : Nat := BSIZE / 64
/-- Bitmap bits per block. -/
def BPB : Nat := BSIZE * 8

/-! ## The super block -/

structure Superblock where
  size : Nat
  nblocks : Nat
  ninodes : Nat
  nlog : Nat
  logstart : Nat
  inodestart : Nat
  bmapstart : Nat
  deriving DecidableEq

namespace Superblock

/-- `readsb`: the super block is block 1. -/
def read (d : Disk) : Superblock where
  size := ((d 1).word 0).toNat
  nblocks := ((d 1).word 1).toNat
  ninodes := ((d 1).word 2).toNat
  nlog := ((d 1).word 3).toNat
  logstart := ((d 1).word 4).toNat
  inodestart := ((d 1).word 5).toNat
  bmapstart := ((d 1).word 6).toNat

variable (sb : Superblock)

/-- Block containing inode `i`. -/
def IBLOCK (i : Nat) : Nat := i / IPB + sb.inodestart

/-- Block of the free map containing the bit for block `b`. -/
def BBLOCK (b : Nat) : Nat := b / BPB + sb.bmapstart

/-- The first data block: `nmeta` of `mkfs`. -/
def dataStart : Nat := sb.bmapstart + sb.size / BPB + 1

/-- The regions of the disk follow each other and fit the disk. -/
structure Wf : Prop where
  log : 2 ≤ sb.logstart
  inodes : sb.logstart + sb.nlog ≤ sb.inodestart
  bmap : sb.inodestart + sb.ninodes / IPB + 1 ≤ sb.bmapstart
  fits : sb.dataStart ≤ sb.size
  disk : sb.size ≤ FSSIZE

instance : Decidable sb.Wf :=
  decidable_of_iff (2 ≤ sb.logstart ∧ sb.logstart + sb.nlog ≤ sb.inodestart ∧
      sb.inodestart + sb.ninodes / IPB + 1 ≤ sb.bmapstart ∧ sb.dataStart ≤ sb.size ∧
      sb.size ≤ FSSIZE)
    ⟨fun ⟨h₁, h₂, h₃, h₄, h₅⟩ => ⟨h₁, h₂, h₃, h₄, h₅⟩,
      fun h => ⟨h.log, h.inodes, h.bmap, h.fits, h.disk⟩⟩

/-- The block numbers of the data region. -/
def IsData (b : Nat) : Prop := sb.dataStart ≤ b ∧ b < sb.size

instance (b : Nat) : Decidable (sb.IsData b) := inferInstanceAs (Decidable (_ ∧ _))

variable {sb} {x b : Nat}

theorem IBLOCK_ne_super (h : sb.Wf) (x : Nat) : sb.IBLOCK x ≠ 1 := by
  have := h.log; have := h.inodes
  simp only [IBLOCK, IPB, BSIZE]; omega

theorem BBLOCK_ne_super (h : sb.Wf) (b : Nat) : sb.BBLOCK b ≠ 1 := by
  have := h.log; have := h.inodes; have := h.bmap
  simp only [BBLOCK, BPB, IPB, BSIZE] at *; omega

theorem IBLOCK_lt_bmap (h : sb.Wf) (hx : x < sb.ninodes) : sb.IBLOCK x < sb.bmapstart := by
  have := h.bmap
  simp only [IBLOCK, IPB, BSIZE] at this ⊢; omega

theorem bmap_le_BBLOCK (b : Nat) : sb.bmapstart ≤ sb.BBLOCK b := Nat.le_add_left _ _

theorem BBLOCK_lt_data (hb : b < sb.size) : sb.BBLOCK b < sb.dataStart := by
  simp only [BBLOCK, dataStart, BPB, BSIZE]; omega

theorem IsData.super_lt (h : sb.Wf) (hb : sb.IsData b) : 1 < b := by
  have := h.log; have := h.inodes; have := h.bmap; have := hb.1
  simp only [dataStart, BPB, IPB, BSIZE] at *; omega

theorem IsData.ne_IBLOCK (h : sb.Wf) (hb : sb.IsData b) (hx : x < sb.ninodes) :
    sb.IBLOCK x ≠ b := by
  have h₁ := IBLOCK_lt_bmap h hx; have h₂ := hb.1
  simp only [dataStart, BPB, BSIZE] at h₂; omega

theorem IsData.ne_BBLOCK {c : Nat} (hb : sb.IsData b) (hc : c < sb.size) : sb.BBLOCK c ≠ b := by
  have h₁ := BBLOCK_lt_data hc; have h₂ := hb.1
  omega

theorem IBLOCK_ne_BBLOCK (h : sb.Wf) (hx : x < sb.ninodes) : sb.IBLOCK x ≠ sb.BBLOCK b := by
  have h₁ := IBLOCK_lt_bmap h hx
  have h₂ : sb.bmapstart ≤ sb.BBLOCK b := bmap_le_BBLOCK b
  omega

end Superblock

/-! ## On-disk inodes -/

structure Dinode where
  type : Int16
  major : Int16
  minor : Int16
  nlink : Int16
  size : UInt32
  addrs : Fin (NDIRECT + 1) → UInt32
  deriving DecidableEq

/-- The `short` at byte `off`. -/
def Block.short (b : Block) (off : Nat) : Int16 := (UInt16.ofNat (b.num off 2)).toInt16

/-- Store a `short` at byte `off`. -/
def Block.setShort (b : Block) (off : Nat) (v : Int16) : Block :=
  b.setNum off 2 v.toUInt16.toNat

/-- `(struct dinode*)bp->data + i`. -/
def Block.dinode (b : Block) (i : Nat) : Dinode where
  type := b.short (64 * i)
  major := b.short (64 * i + 2)
  minor := b.short (64 * i + 4)
  nlink := b.short (64 * i + 6)
  size := UInt32.ofNat (b.num (64 * i + 8) 4)
  addrs := fun j => UInt32.ofNat (b.num (64 * i + 12 + 4 * j) 4)

/-- The stores of `iupdate`: field by field, then `memmove` of the addresses. -/
def Block.setDinode (b : Block) (i : Nat) (d : Dinode) : Block :=
  (((((b.setShort (64 * i) d.type).setShort (64 * i + 2) d.major).setShort (64 * i + 4)
    d.minor).setShort (64 * i + 6) d.nlink).setNum (64 * i + 8) 4 d.size.toNat).setNums
      (64 * i + 12) 4 ((List.ofFn d.addrs).map UInt32.toNat)

theorem Block.short_setShort_same (b : Block) {off : Nat} (v : Int16) (h : off + 2 ≤ BSIZE) :
    (b.setShort off v).short off = v := by
  have hv : v.toUInt16.toNat < 256 ^ 2 := v.toUInt16.toNat_lt
  rw [Block.short, Block.setShort, Buffer.num_setNum_same h, Nat.mod_eq_of_lt hv]
  simp

theorem Block.short_setShort_disjoint (b : Block) {off o : Nat} (v : Int16)
    (h : o + 2 ≤ off ∨ off + 2 ≤ o) : (b.setShort off v).short o = b.short o := by
  rw [Block.short, Block.setShort, Buffer.num_setNum_disjoint h, Block.short]

variable {i : Nat}

theorem Block.dinode_setDinode_same (b : Block) (d : Dinode) (hi : i < IPB) :
    (b.setDinode i d).dinode i = d := by
  have hi' : 64 * i + 64 ≤ BSIZE := by simp only [IPB, BSIZE] at hi ⊢; omega
  have hl : ((List.ofFn d.addrs).map UInt32.toNat).length = 13 := by
    rw [List.length_map, List.length_ofFn]; rfl
  have hshort : ∀ o v (c : Block), o + 2 ≤ 64 * i + 12 →
      Block.short (Buffer.setNums c (64 * i + 12) 4 v) o = c.short o := by
    intro o v c ho
    rw [Block.short, Block.short, Buffer.num_setNums_disjoint (Or.inl ho)]
  have hsize : ∀ o n (c : Block), o + 2 ≤ 64 * i + 8 →
      Block.short (c.setNum (64 * i + 8) 4 n) o = c.short o := by
    intro o n c ho
    rw [Block.short, Block.short, Buffer.num_setNum_disjoint (Or.inl ho)]
  obtain ⟨type, major, minor, nlink, size, addrs⟩ := d
  simp only [Block.dinode, Block.setDinode, Dinode.mk.injEq]
  refine ⟨?_, ?_, ?_, ?_, ?_, ?_⟩
  · rw [hshort _ _ _ (by omega), hsize _ _ _ (by omega),
      Block.short_setShort_disjoint _ _ (by omega), Block.short_setShort_disjoint _ _ (by omega),
      Block.short_setShort_disjoint _ _ (by omega), Block.short_setShort_same _ _ (by omega)]
  · rw [hshort _ _ _ (by omega), hsize _ _ _ (by omega),
      Block.short_setShort_disjoint _ _ (by omega), Block.short_setShort_disjoint _ _ (by omega),
      Block.short_setShort_same _ _ (by omega)]
  · rw [hshort _ _ _ (by omega), hsize _ _ _ (by omega),
      Block.short_setShort_disjoint _ _ (by omega), Block.short_setShort_same _ _ (by omega)]
  · rw [hshort _ _ _ (by omega), hsize _ _ _ (by omega),
      Block.short_setShort_same _ _ (by omega)]
  · rw [Buffer.num_setNums_disjoint (by omega), Buffer.num_setNum_same (by omega),
      Nat.mod_eq_of_lt (show size.toNat < 256 ^ 4 from size.toNat_lt)]
    exact UInt32.ofNat_toNat
  · funext j
    have hj : (j : Nat) < 13 := j.isLt
    rw [Buffer.num_setNums_same (by rw [hl]; exact hj) (by rw [hl]; omega)]
    simp only [List.getElem_map, List.getElem_ofFn]
    rw [Nat.mod_eq_of_lt (show (addrs j).toNat < 256 ^ 4 from (addrs j).toNat_lt)]
    exact UInt32.ofNat_toNat

theorem Block.dinode_setDinode_ne (b : Block) {j : Nat} (d : Dinode) (h : i ≠ j) :
    (b.setDinode i d).dinode j = b.dinode j := by
  have hl : 4 * ((List.ofFn d.addrs).map UInt32.toNat).length = 52 := by
    rw [List.length_map, List.length_ofFn]; rfl
  have hnum : ∀ o w, 64 * j ≤ o → o + w ≤ 64 * j + 64 →
      (b.setDinode i d).num o w = b.num o w := by
    intro o w h₁ h₂
    simp only [Block.setDinode, Block.setShort]
    rw [Buffer.num_setNums_disjoint (by omega), Buffer.num_setNum_disjoint (by omega),
      Buffer.num_setNum_disjoint (by omega), Buffer.num_setNum_disjoint (by omega),
      Buffer.num_setNum_disjoint (by omega), Buffer.num_setNum_disjoint (by omega)]
  have haddr : ∀ a : Fin (NDIRECT + 1), (b.setDinode i d).num (64 * j + 12 + 4 * a) 4 =
      b.num (64 * j + 12 + 4 * a) 4 := by
    intro a
    have ha : (a : Nat) < 13 := a.isLt
    exact hnum _ _ (by omega) (by omega)
  simp only [Block.dinode, Block.short, haddr]
  rw [hnum _ 2 (by omega) (by omega), hnum _ 2 (by omega) (by omega),
    hnum _ 2 (by omega) (by omega), hnum _ 2 (by omega) (by omega),
    hnum _ 4 (by omega) (by omega)]

/-! ## The free map -/

/-- `m = 1 << (bi % 8)`. -/
def mask (bi : Nat) : UInt8 := 1 <<< UInt8.ofNat (bi % 8)

/-- `(bp->data[bi/8] & m) != 0`. -/
def Block.bit (b : Block) (bi : Nat) : Bool := b.byte (bi / 8) &&& mask bi != 0

/-- `bp->data[bi/8] |= m`. -/
def Block.setBit (b : Block) (bi : Nat) : Block :=
  b.splice (bi / 8) [b.byte (bi / 8) ||| mask bi]

/-- `bp->data[bi/8] &= ~m`. -/
def Block.clearBit (b : Block) (bi : Nat) : Block :=
  b.splice (bi / 8) [b.byte (bi / 8) &&& ~~~ mask bi]

theorem toBitVec_mask (bi : Nat) : (mask bi).toBitVec = BitVec.twoPow 8 (bi % 8) := by
  have hk : bi % 8 < 8 := Nat.mod_lt _ (by omega)
  rw [mask]
  generalize bi % 8 = k at hk
  interval_cases k <;> rfl

theorem Block.bit_eq (b : Block) (bi : Nat) :
    b.bit bi = (b.byte (bi / 8)).toBitVec.getLsbD (bi % 8) := by
  have hk : bi % 8 < 8 := Nat.mod_lt _ (by omega)
  have hne : BitVec.twoPow 8 (bi % 8) ≠ 0 := by
    intro h
    have := congrArg (fun v => v.getLsbD (bi % 8)) h
    simp [hk] at this
  rw [Block.bit, bne, Bool.not_eq_eq_eq_not, Bool.eq_iff_iff, beq_iff_eq, ← UInt8.toBitVec_inj,
    UInt8.toBitVec_and, toBitVec_mask, BitVec.and_twoPow]
  cases hb : (b.byte (bi / 8)).toBitVec.getLsbD (bi % 8)
  · simp
  · simpa using hne

theorem Block.byte_splice_one (b : Block) (v : UInt8) (j : Nat) (hi : i < BSIZE) :
    (b.splice i [v]).byte j = if i = j then v else b.byte j := by
  by_cases h : i = j
  · subst h
    have hbyte : (b.splice i [v]).byte (i + 0) = ([v] : List UInt8)[0] :=
      Buffer.byte_splice_of_mem (by simp) hi
    simpa using hbyte
  · rw [if_neg h, Buffer.byte_splice_of_not_mem]
    simp only [List.length_singleton]; omega

theorem Block.bit_setBit (b : Block) (j : Nat) (hi : i < BPB) :
    (b.setBit i).bit j = (decide (i = j) || b.bit j) := by
  have hi' : i / 8 < BSIZE := by simp only [BPB] at hi; omega
  rw [Block.bit_eq, Block.bit_eq, Block.setBit, Block.byte_splice_one _ _ _ hi']
  by_cases h : i / 8 = j / 8
  · rw [if_pos h, UInt8.toBitVec_or, toBitVec_mask, BitVec.getLsbD_or, BitVec.getLsbD_twoPow, h,
      Bool.or_comm]
    congr 1
    rw [Bool.eq_iff_iff]
    simp only [Bool.and_eq_true, decide_eq_true_eq]
    omega
  · rw [if_neg h, decide_eq_false (by rintro rfl; exact h rfl), Bool.false_or]

theorem Block.bit_clearBit (b : Block) (j : Nat) (hi : i < BPB) :
    (b.clearBit i).bit j = (decide (i ≠ j) && b.bit j) := by
  have hi' : i / 8 < BSIZE := by simp only [BPB] at hi; omega
  rw [Block.bit_eq, Block.bit_eq, Block.clearBit, Block.byte_splice_one _ _ _ hi']
  by_cases h : i / 8 = j / 8
  · rw [if_pos h, UInt8.toBitVec_and, UInt8.toBitVec_not, toBitVec_mask, BitVec.getLsbD_and,
      BitVec.getLsbD_not, BitVec.getLsbD_twoPow, h, Bool.and_comm]
    congr 1
    rw [Bool.eq_iff_iff]
    simp only [Bool.and_eq_true, decide_eq_true_eq, Bool.not_eq_true', Bool.and_eq_false_iff,
      decide_eq_false_iff_not]
    omega
  · rw [if_neg h, decide_eq_true (by rintro rfl; exact h rfl), Bool.true_and]

end Xv6
