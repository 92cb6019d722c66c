/-
# `Xv6.Disk` — the parameters, blocks and the disk

The constants of `param.h` and `fs.h`, a disk block as `BSIZE` bytes, and the
32-bit words of a block: the log header, an indirect block and the superblock
are all read and written through `(uint*)bp->data`.
-/
import Xv6.Lib.Bytes
import Xv6.Lib.Writes

namespace Xv6

open Bytes

/-! ## Parameters -/

/-- Max number of blocks any FS operation writes. -/
def MAXOPBLOCKS : Nat := 10
/-- Max data blocks in the on-disk log. -/
def LOGSIZE : Nat := MAXOPBLOCKS * 3
/-- Size of the disk block cache. -/
def NBUF : Nat := MAXOPBLOCKS * 3
def BSIZE : Nat := 512

/-! ## Blocks -/

abbrev Block : Type := Buffer BSIZE

/-- A disk: one block for each block number. -/
abbrev Disk : Type := Nat → Block

/-- Word `i` of a block, `((uint*)data)[i]`. -/
def Block.word (b : Block) (i : Nat) : UInt32 := UInt32.ofNat (b.num (4 * i) 4)

/-- `((uint*)data)[i] = v`. -/
def Block.setWord (b : Block) (i : Nat) (v : UInt32) : Block := b.setNum (4 * i) 4 v.toNat

theorem Block.word_setWord_same (b : Block) {i : Nat} (v : UInt32) (hi : i < BSIZE / 4) :
    (b.setWord i v).word i = v := by
  have hv : v.toNat < 256 ^ 4 := v.toNat_lt
  have hi' : 4 * i + 4 ≤ BSIZE := by simp only [BSIZE] at hi ⊢; omega
  rw [Block.word, Block.setWord, Buffer.num_setNum_same hi', Nat.mod_eq_of_lt hv]
  exact UInt32.ofNat_toNat

theorem Block.word_setWord_ne (b : Block) {i j : Nat} (v : UInt32) (h : i ≠ j) :
    (b.setWord i v).word j = b.word j := by
  rw [Block.word, Block.setWord, Buffer.num_setNum_disjoint (by omega), Block.word]

end Xv6
