/-
# `Xv6.Fs.Block` — the store of the source: inodes on the blocks of the disk

`fs.c` from `balloc` to `writei`.  A volume is the disk, the super block in
memory, and of each cached inode the size and the block addresses.  The disk is
the one the buffer cache shows (`Xv6.Bio`): `bread` is a look at a block and
`log_write` an update of it.
-/
import Xv6.Fs.Kernel

namespace Xv6.Fs

open Bytes
open Function (update)

/-- What `fs.c` keeps: `sb`, the blocks, and `ip->size` and `ip->addrs`. -/
structure Vol where
  sb : Superblock
  disk : Disk
  size : InodeId → UInt32
  addrs : InodeId → Fin (NDIRECT + 1) → UInt32

namespace Vol

/-- `log_write` of block `b` with new data. -/
def put (v : Vol) (b : Nat) (data : Block) : Vol :=
  { v with disk := update v.disk b data }

def bit (v : Vol) (b : Nat) : Bool := (v.disk (v.sb.BBLOCK b)).bit (b % BPB)

def dinode (v : Vol) (x : Nat) : Dinode := (v.disk (v.sb.IBLOCK x)).dinode (x % IPB)

def setDinode (v : Vol) (x : Nat) (d : Dinode) : Vol :=
  v.put (v.sb.IBLOCK x) ((v.disk (v.sb.IBLOCK x)).setDinode (x % IPB) d)

/-- `ip->addrs[j] = b`. -/
def setAddr (v : Vol) (i : InodeId) (j : Fin (NDIRECT + 1)) (b : Nat) : Vol :=
  { v with addrs := update v.addrs i (update (v.addrs i) j (UInt32.ofNat b)) }

/-- `ip->size = n`. -/
def setSize (v : Vol) (i : InodeId) (n : Nat) : Vol :=
  { v with size := update v.size i (UInt32.ofNat n) }

/-! ## Blocks -/

def bzero (v : Vol) (b : Nat) : Vol := v.put b Buffer.zero

/-- Allocate a zeroed disk block.  The two loops look at the blocks below
`sb.size` in order, a block of the map at a time. -/
def balloc (v : Vol) : Except Panic (Nat × Vol) :=
  match (List.range v.sb.size).find? (fun b => !v.bit b) with
  | some b =>
    .ok (b, (v.put (v.sb.BBLOCK b) ((v.disk (v.sb.BBLOCK b)).setBit (b % BPB))).bzero b)
  | none => .error .balloc

def bfree (v : Vol) (b : Nat) : Except Panic Vol :=
  let v := { v with sb := Superblock.read v.disk }
  if v.bit b then
    .ok (v.put (v.sb.BBLOCK b) ((v.disk (v.sb.BBLOCK b)).clearBit (b % BPB)))
  else .error .bfree

/-! ## Inodes -/

/-- The address in `ip->addrs[j]`, allocated if there is none. -/
def addrOrAlloc (v : Vol) (i : InodeId) (j : Fin (NDIRECT + 1)) : Except Panic (Nat × Vol) :=
  if v.addrs i j = 0 then do
    let (b, v) ← v.balloc
    return (b, v.setAddr i j b)
  else .ok ((v.addrs i j).toNat, v)

/-- The address in `a[bn]` for the data `a` of block `ind`, allocated if there is none. -/
def wordOrAlloc (v : Vol) (ind bn : Nat) : Except Panic (Nat × Vol) :=
  if (v.disk ind).word bn = 0 then do
    let (b, w) ← v.balloc
    return (b, w.put ind ((v.disk ind).setWord bn (UInt32.ofNat b)))
  else .ok (((v.disk ind).word bn).toNat, v)

/-- The disk block address of the `bn`th block of the inode; allocates it if
there is no such block. -/
def bmap (v : Vol) (i : InodeId) (bn : Nat) : Except Panic (Nat × Vol) :=
  if h : bn < NDIRECT then v.addrOrAlloc i ⟨bn, Nat.lt_succ_of_lt h⟩
  else if bn - NDIRECT < NINDIRECT then do
    -- Load indirect block, allocating if necessary.
    let (ind, v) ← v.addrOrAlloc i (Fin.last NDIRECT)
    v.wordOrAlloc ind (bn - NDIRECT)
  else .error .bmap

/-- The copy of the disk inode in `ilock`. -/
def load (i : InodeId) (x : Nat) (v : Vol) : Attr × Vol :=
  let d := v.dinode x
  (⟨d.type, d.major, d.minor, d.nlink⟩,
    { v with size := update v.size i d.size,
             addrs := update v.addrs i d.addrs })

/-- Copy a modified in-memory inode to disk. -/
def iupdate (i : InodeId) (x : Nat) (a : Attr) (v : Vol) : Vol :=
  v.setDinode x ⟨a.type, a.major, a.minor, a.nlink, v.size i, v.addrs i⟩

/-- `if(ip->addrs[j]){ bfree(ip->dev, ip->addrs[j]); ip->addrs[j] = 0; }`. -/
def freeAddr (i : InodeId) (v : Vol) (j : Fin (NDIRECT + 1)) : Except Panic Vol :=
  if v.addrs i j = 0 then .ok v
  else do
    let v ← v.bfree (v.addrs i j).toNat
    return v.setAddr i j 0

/-- The loop of `itrunc` over the indirect block `a`. -/
def freeWords (a : Block) (v : Vol) (j : Nat) : Except Panic Vol :=
  if a.word j = 0 then .ok v else v.bfree (a.word j).toNat

/-- The blocks `itrunc` frees: the direct ones, those the indirect block lists, and
the indirect block. -/
def freeBlocks (i : InodeId) (v : Vol) : Except Panic Vol := do
  let v ← ((List.finRange NDIRECT).map Fin.castSucc).foldlM (freeAddr i) v
  let ind := v.addrs i (Fin.last NDIRECT)
  if ind = 0 then .ok v
  else do
    let v ← (List.range NINDIRECT).foldlM (freeWords (v.disk ind.toNat)) v
    freeAddr i v (Fin.last NDIRECT)

/-- Discard the contents of an inode. -/
def itrunc (i : InodeId) (x : Nat) (attr : Attr) (v : Vol) : Except Panic Vol := do
  let v ← freeBlocks i v
  return (v.setSize i 0).iupdate i x attr

/-- Mark the first free inode allocated. -/
def ialloc (type : Int16) (v : Vol) : Except Panic (Nat × Vol) :=
  match (List.range' 1 (v.sb.ninodes - 1)).find? (fun x => (v.dinode x).type = 0) with
  | some x => .ok (x, v.setDinode x ⟨type, 0, 0, 0, 0, fun _ => 0⟩)
  | none => .error .ialloc

/-! ## Content -/

/-- `min(n - tot, BSIZE - off%BSIZE)`, for the `n` bytes that remain. -/
def chunk (off n : Nat) : Nat := min n (BSIZE - off % BSIZE)

/-- The loop of `readi` for `n` bytes from `off` on, in at most `fuel` rounds. -/
def readLoop (i : InodeId) : Nat → Nat → Nat → Vol → Except Panic (List UInt8 × Vol)
  | 0, _, _, v => .ok ([], v)
  | fuel + 1, off, n, v =>
    if n = 0 then .ok ([], v)
    else do
      let (b, v) ← v.bmap i (off / BSIZE)
      let m := chunk off n
      let (bs, v') ← readLoop i fuel (off + m) (n - m) v
      return ((v.disk b).read (off % BSIZE) m ++ bs, v')

/-- Read data from an inode; `-1` is `none`. -/
def readi (i : InodeId) (_x : Nat) (off n : Nat) (v : Vol) :
    Except Panic (Option (List UInt8) × Vol) :=
  let size := (v.size i).toNat
  if size < off ∨ 2 ^ 32 ≤ off + n then .ok (none, v)
  else do
    let n := if size < off + n then size - off else n
    let (bs, v) ← readLoop i n off n v
    return (some bs, v)

/-- The loop of `writei` for the bytes `src` at `off`, in at most `fuel` rounds. -/
def writeLoop (i : InodeId) : Nat → Nat → List UInt8 → Vol → Except Panic Vol
  | 0, _, _, v => .ok v
  | fuel + 1, off, src, v =>
    if src = [] then .ok v
    else do
      let (b, v) ← v.bmap i (off / BSIZE)
      let m := chunk off src.length
      writeLoop i fuel (off + m) (src.drop m)
        (v.put b ((v.disk b).splice (off % BSIZE) (src.take m)))

def writei (i : InodeId) (x : Nat) (a : Attr) (off : Nat) (src : List UInt8) (v : Vol) :
    Except Panic (Int × Vol) :=
  let n := src.length
  if (v.size i).toNat < off ∨ 2 ^ 32 ≤ off + n then .ok (-1, v)
  else if MAXFILE * BSIZE < off + n then .ok (-1, v)
  else do
    let v ← writeLoop i n off src v
    if 0 < n ∧ (v.size i).toNat < off + n then
      return (n, (v.setSize i (off + n)).iupdate i x a)
    return (n, v)

end Vol

def blockStore : Store Vol where
  load := Vol.load
  size i _ v := (v.size i).toNat
  iupdate := Vol.iupdate
  itrunc := Vol.itrunc
  ialloc := Vol.ialloc
  readi := Vol.readi
  writei := Vol.writei

end Xv6.Fs
