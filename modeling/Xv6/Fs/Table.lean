/-
# `Xv6.Fs.Table` — the store as a table of inodes

What `fs.c` keeps on the blocks, seen from above: an inode is its attributes and
its bytes.  `Xv6.Fs.Refine` shows that the blocks are used as such a table; the
directories and the link counts are then studied on it.
-/
import Xv6.Fs.Kernel

namespace Xv6.Fs

open List

/-- An inode and its content. -/
structure Node extends Attr where
  content : List UInt8
  deriving DecidableEq

/-- The inodes by number. -/
abbrev Table : Type := Nat → Node

/-- `content` with `src` written at `off`, which is at most its length. -/
def overwrite (content : List UInt8) (off : Nat) (src : List UInt8) : List UInt8 :=
  content.take off ++ src ++ content.drop (off + src.length)

theorem getElem?_overwrite {content : List UInt8} {off : Nat} {src : List UInt8}
    (h : off ≤ content.length) (k : Nat) : (overwrite content off src)[k]? =
      if off ≤ k ∧ k < off + src.length then src[k - off]? else content[k]? := by
  have hl : (content.take off).length = off := by rw [length_take]; omega
  rw [overwrite]
  by_cases h₁ : k < off
  · rw [if_neg (by omega), append_assoc, List.getElem?_append_left (by omega),
      List.getElem?_take_of_lt h₁]
  · by_cases h₂ : k < off + src.length
    · rw [if_pos (by omega), append_assoc, List.getElem?_append_right (by omega), hl,
        List.getElem?_append_left (by omega)]
    · rw [if_neg (by omega), List.getElem?_append_right (by rw [length_append]; omega),
        List.getElem?_drop, length_append, hl]
      congr 1
      omega

@[simp] theorem length_overwrite (content : List UInt8) (off : Nat) (src : List UInt8)
    (h : off ≤ content.length) :
    (overwrite content off src).length = max content.length (off + src.length) := by
  simp only [overwrite, length_append, length_take, length_drop]
  omega

/-- A write right behind a write. -/
theorem overwrite_overwrite {content : List UInt8} {off : Nat} (src src' : List UInt8)
    (h : off ≤ content.length) :
    overwrite (overwrite content off src) (off + src.length) src' =
      overwrite content off (src ++ src') := by
  have h' : off + src.length ≤ (overwrite content off src).length := by
    rw [length_overwrite _ _ _ h]
    exact Nat.le_max_right _ _
  refine ext_getElem? fun k => ?_
  rw [getElem?_overwrite h', getElem?_overwrite h, getElem?_overwrite h, length_append]
  by_cases h₁ : off + src.length ≤ k
  · rw [List.getElem?_append_right (by omega)]
    by_cases h₂ : k < off + src.length + src'.length
    · rw [if_pos ⟨h₁, h₂⟩, if_pos (by omega)]
      congr 1
      omega
    · rw [if_neg (by omega), if_neg (by omega), if_neg (by omega)]
  · rw [if_neg (by omega)]
    by_cases h₂ : off ≤ k
    · rw [if_pos (by omega), if_pos (by omega), List.getElem?_append_left (by omega)]
    · rw [if_neg (by omega), if_neg (by omega)]

theorem overwrite_nil (content : List UInt8) (off : Nat) : overwrite content off [] = content := by
  rw [overwrite, append_nil, length_nil, Nat.add_zero, take_append_drop]

/-- `readi` on the bytes of a file. -/
def readBytes (content : List UInt8) (off n : Nat) : Option (List UInt8) :=
  if content.length < off ∨ 2 ^ 32 ≤ off + n then none
  else some ((content.drop off).take n)

/-- Whether `writei` writes. -/
def canWrite (content : List UInt8) (off n : Nat) : Prop :=
  off ≤ content.length ∧ off + n < 2 ^ 32 ∧ off + n ≤ MAXFILE * BSIZE

instance (content : List UInt8) (off n : Nat) : Decidable (canWrite content off n) :=
  inferInstanceAs (Decidable (_ ∧ _))

/-- `writei` on an inode with attributes `a` in memory: a write that extends the
file also stores the attributes. -/
def Node.write (node : Node) (a : Attr) (off : Nat) (src : List UInt8) : Node :=
  { toAttr := if node.content.length < off + src.length then a else node.toAttr,
    content := overwrite node.content off src }

/-- The store of a table of `n` inodes. -/
def tableStore (n : Nat) : Store Table where
  load _ x t := ((t x).toAttr, t)
  size _ x t := (t x).content.length
  iupdate _ x a t := Function.update t x { t x with toAttr := a }
  itrunc _ x a t := .ok (Function.update t x ⟨a, []⟩)
  ialloc type t :=
    match (List.range' 1 (n - 1)).find? (fun x => (t x).type = 0) with
    | some x => .ok (x, Function.update t x ⟨⟨type, 0, 0, 0⟩, []⟩)
    | none => .error .ialloc
  readi _ x off n t := .ok (readBytes (t x).content off n, t)
  writei _ x a off src t :=
    if canWrite (t x).content off src.length then
      .ok (src.length, Function.update t x ((t x).write a off src))
    else .ok (-1, t)

end Xv6.Fs
