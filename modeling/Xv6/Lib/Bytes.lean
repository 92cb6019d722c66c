/-
# `Xv6.Lib.Bytes` — fixed-size byte buffers and little-endian fields

A `Buffer n` is `n` bytes.  Two operations are enough for everything a C
program does to a structure it lays over a buffer: `read`, the bytes of a
field, and `splice`, a field overwritten.  Numbers are stored little-endian
(`leBytes`, `ofLe`), so a field of width `w` keeps a number modulo `256 ^ w`.

Nothing here knows what the bytes mean.
-/
import Mathlib.Data.List.Basic
import Mathlib.Tactic.Ring

namespace Bytes

/-! ## Little-endian numbers -/

/-- The `w` low bytes of `v`, least significant first. -/
def leBytes : Nat → Nat → List UInt8
  | 0, _ => []
  | w + 1, v => UInt8.ofNat v :: leBytes w (v / 256)

/-- The number a little-endian byte list stands for. -/
def ofLe : List UInt8 → Nat
  | [] => 0
  | b :: bs => b.toNat + 256 * ofLe bs

@[simp] theorem length_leBytes : ∀ w v : Nat, (leBytes w v).length = w
  | 0, _ => rfl
  | w + 1, v => by simp [leBytes, length_leBytes w]

theorem ofLe_leBytes : ∀ w v : Nat, ofLe (leBytes w v) = v % 256 ^ w
  | 0, v => by simp [leBytes, ofLe, Nat.mod_one]
  | w + 1, v => by
    have hb : (UInt8.ofNat v).toNat = v % 256 := by simp
    rw [leBytes, ofLe, ofLe_leBytes w (v / 256), hb, pow_succ, Nat.mul_comm (256 ^ w), Nat.mod_mul]

/-! ## Buffers -/

/-- A buffer of `n` bytes. -/
def Buffer (n : Nat) : Type := Fin n → UInt8

namespace Buffer

variable {n off w : Nat} {b : Buffer n} {bs : List UInt8}

instance : DecidableEq (Buffer n) := fun a b =>
  decidable_of_iff (∀ i, (h : i < n) → a ⟨i, h⟩ = b ⟨i, h⟩)
    ⟨fun h => funext fun i => h i i.isLt, fun h _ _ => h ▸ rfl⟩

/-- Byte `i`; positions past the end read as `0` and are never used. -/
def byte (b : Buffer n) (i : Nat) : UInt8 :=
  if h : i < n then b ⟨i, h⟩ else 0

def ofFn (f : Nat → UInt8) : Buffer n := fun i => f i

def zero : Buffer n := ofFn (fun _ => 0)

/-- The `len` bytes from `off` on. -/
def read (b : Buffer n) (off len : Nat) : List UInt8 :=
  (List.range len).map (fun k => b.byte (off + k))

/-- The bytes from `off` on replaced by `bs`; what runs past the end is dropped. -/
def splice (b : Buffer n) (off : Nat) (bs : List UInt8) : Buffer n :=
  ofFn (fun i => if off ≤ i then (bs[i - off]?).getD (b.byte i) else b.byte i)

theorem ext {a : Buffer n} (h : ∀ i < n, a.byte i = b.byte i) : a = b := by
  funext i
  have := h i i.isLt
  simpa only [byte, i.isLt, dif_pos] using this

@[simp] theorem byte_ofFn {f : Nat → UInt8} {i : Nat} (hi : i < n) :
    (ofFn f : Buffer n).byte i = f i := by
  simp [byte, ofFn, hi]

@[simp] theorem byte_zero (i : Nat) : (zero : Buffer n).byte i = 0 := by
  simp [byte, zero, ofFn]

@[simp] theorem length_read (b : Buffer n) (off len : Nat) : (b.read off len).length = len := by
  simp [read]

/-- Reading is determined by the bytes read. -/
theorem read_congr {a : Buffer n} {len : Nat} (h : ∀ k < len, a.byte (off + k) = b.byte (off + k)) :
    a.read off len = b.read off len := by
  exact List.map_congr_left (fun k hk => h k (List.mem_range.mp hk))

/-- Outside the spliced range nothing changes. -/
theorem byte_splice_of_not_mem {i : Nat} (h : i < off ∨ off + bs.length ≤ i) :
    (b.splice off bs).byte i = b.byte i := by
  by_cases hi : i < n
  · rw [splice, byte_ofFn hi]
    by_cases ho : off ≤ i
    · rw [if_pos ho, List.getElem?_eq_none (by omega)]
      rfl
    · rw [if_neg ho]
  · simp [byte, hi]

theorem byte_splice_of_mem {k : Nat} (hk : k < bs.length) (hn : off + k < n) :
    (b.splice off bs).byte (off + k) = bs[k] := by
  rw [splice, byte_ofFn hn, if_pos (Nat.le_add_right off k), Nat.add_sub_cancel_left,
    List.getElem?_eq_getElem hk]
  rfl

theorem read_splice_same (h : off + bs.length ≤ n) : (b.splice off bs).read off bs.length = bs := by
  apply List.ext_getElem (by simp)
  intro k h₁ h₂
  have := byte_splice_of_mem (b := b) h₂ (show off + k < n by omega)
  simpa [read] using this

theorem read_splice_disjoint {o len : Nat} (h : o + len ≤ off ∨ off + bs.length ≤ o) :
    (b.splice off bs).read o len = b.read o len :=
  read_congr (fun k hk => byte_splice_of_not_mem (by omega))

/-! ### Number fields -/

/-- The `w`-byte number at offset `off`. -/
def num (b : Buffer n) (off w : Nat) : Nat := ofLe (b.read off w)

/-- The `w`-byte number at offset `off` replaced by `v`. -/
def setNum (b : Buffer n) (off w v : Nat) : Buffer n := b.splice off (leBytes w v)

theorem num_setNum_same {v : Nat} (h : off + w ≤ n) :
    (b.setNum off w v).num off w = v % 256 ^ w := by
  have : (b.splice off (leBytes w v)).read off (leBytes w v).length = leBytes w v :=
    read_splice_same (by simpa using h)
  rw [length_leBytes] at this
  rw [num, setNum, this, ofLe_leBytes]

theorem num_setNum_disjoint {o w' v : Nat} (h : o + w' ≤ off ∨ off + w ≤ o) :
    (b.setNum off w v).num o w' = b.num o w' := by
  rw [num, setNum, read_splice_disjoint (by simpa using h), num]

/-- Consecutive `w`-byte numbers from offset `off` on replaced by `vs`. -/
def setNums (b : Buffer n) (off w : Nat) : List Nat → Buffer n
  | [] => b
  | v :: vs => (setNums b (off + w) w vs).setNum off w v

theorem num_setNums_disjoint {w' o : Nat} : ∀ {vs : List Nat} {off : Nat},
    o + w' ≤ off ∨ off + w * vs.length ≤ o → (b.setNums off w vs).num o w' = b.num o w'
  | [], off, _ => rfl
  | v :: vs, off, h => by
    have hl : w * (v :: vs).length = w * vs.length + w := by rw [List.length_cons, Nat.mul_succ]
    rw [setNums, num_setNum_disjoint (by omega), num_setNums_disjoint (by omega)]

theorem num_setNums_same : ∀ {vs : List Nat} {off j : Nat}
    (hj : j < vs.length), off + w * vs.length ≤ n →
    (b.setNums off w vs).num (off + w * j) w = vs[j] % 256 ^ w
  | v :: vs, off, 0, _, hn => by
    rw [List.length_cons, Nat.mul_succ] at hn
    rw [setNums, Nat.mul_zero, Nat.add_zero, num_setNum_same (by omega)]
    rfl
  | v :: vs, off, j + 1, hj, hn => by
    rw [List.length_cons, Nat.mul_succ] at hn
    have hj' : j < vs.length := Nat.lt_of_succ_lt_succ hj
    have hoff : off + w * (j + 1) = off + w + w * j := by rw [Nat.mul_succ]; omega
    rw [setNums, hoff, num_setNum_disjoint (by omega), num_setNums_same hj' (by omega)]
    rfl

end Buffer

end Bytes
