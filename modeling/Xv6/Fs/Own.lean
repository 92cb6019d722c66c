/-
# `Xv6.Fs.Own` — which inode owns which block

An inode refers to blocks at a fixed set of positions: its direct addresses, the
address of its indirect block and the words of that block.  `Vol.Owned` is the
ownership invariant of `Xv6.Lib.Alloc` for these positions and the free map, for
any assignment of addresses to inodes: during `writei` and `itrunc` the
addresses that count are the ones in memory, and `iupdate` makes the disk agree.
-/
import Xv6.Fs.Block
import Xv6.Lib.Alloc
import Xv6.Lib.Wp

namespace Xv6.Fs

open Bytes
open Function (update update_of_ne update_self)

/-! ## Positions -/

/-- `ip->addrs`. -/
abbrev Addrs : Type := Fin (NDIRECT + 1) → UInt32

/-- Where an inode refers to a block: an entry of `addrs` (the last is the
indirect block) or a word of the indirect block. -/
inductive Pos
  | addr (j : Fin (NDIRECT + 1))
  | word (j : Fin NINDIRECT)
  deriving DecidableEq

/-- The indirect block, `0` if there is none. -/
def ind (a : Addrs) : Nat := (a (Fin.last NDIRECT)).toNat

/-- The block an inode with addresses `a` refers to at a position, `0` for none. -/
def refAt (d : Disk) (a : Addrs) : Pos → Nat
  | .addr j => (a j).toNat
  | .word j => if ind a = 0 then 0 else ((d (ind a)).word j).toNat

/-- The references of all inodes, for an assignment `m` of addresses. -/
def refs (d : Disk) (m : Nat → Addrs) : Nat × Pos → Nat := fun q => refAt d (m q.1) q.2

@[simp] theorem refAt_last (d : Disk) (a : Addrs) : refAt d a (.addr (Fin.last NDIRECT)) = ind a :=
  rfl

theorem ind_eq_zero {a : Addrs} : ind a = 0 ↔ a (Fin.last NDIRECT) = 0 := by
  rw [ind, ← UInt32.toNat_inj]; rfl

variable {d : Disk}

/-- A block that is nobody's indirect block can be written. -/
theorem refAt_put {a : Addrs} {b : Nat} {data : Block} (h : ind a ≠ b) (p : Pos) :
    refAt (update d b data) a p = refAt d a p := by
  cases p with
  | addr j => rfl
  | word j => simp only [refAt, update_of_ne h]

theorem refs_put {m : Nat → Addrs} {b : Nat} {data : Block} (h : ∀ y, ind (m y) ≠ b) :
    refs (update d b data) m = refs d m := by
  funext q
  exact refAt_put (h q.1) q.2

theorem refs_setAddr {m : Nat → Addrs} {x : Nat} {j : Fin (NDIRECT + 1)} (hj : j ≠ Fin.last NDIRECT)
    (w : UInt32) :
    refs d (update m x (update (m x) j w)) =
      update (refs d m) (x, .addr j) w.toNat := by
  funext q
  obtain ⟨y, p⟩ := q
  by_cases hy : y = x
  · subst hy
    have hind : ind (update (m y) j w) = ind (m y) := by
      rw [ind, update_of_ne (Ne.symm hj), ind]
    cases p with
    | addr k =>
      by_cases hk : k = j
      · subst hk
        simp [refs, refAt]
      · have hne : (y, Pos.addr k) ≠ (y, .addr j) := by simpa using hk
        simp [refs, refAt, update_of_ne hne, update_of_ne hk]
    | word k =>
      have hne : (y, Pos.word k) ≠ (y, .addr j) := by simp
      rw [update_of_ne hne]
      simp only [refs, refAt, update_self, hind]
  · have hne : (y, p) ≠ (x, .addr j) := by simp [hy]
    simp [refs, update_of_ne hy, update_of_ne hne]

/-- Storing the address of an indirect block is a new reference at that position
only, if the block holds no address and there was none before. -/
theorem refs_setInd {m : Nat → Addrs} {x : Nat} (w : UInt32) (h₀ : ∀ k, refAt d (m x) (.word k) = 0)
    (h₁ : ∀ k, refAt d (update (m x) (Fin.last NDIRECT) w) (.word k) = 0) :
    refs d (update m x (update (m x) (Fin.last NDIRECT) w)) =
      update (refs d m) (x, .addr (Fin.last NDIRECT)) w.toNat := by
  funext q
  obtain ⟨y, p⟩ := q
  by_cases hy : y = x
  · subst hy
    cases p with
    | addr k =>
      by_cases hk : k = Fin.last NDIRECT
      · subst hk
        simp [refs, refAt]
      · have hne : (y, Pos.addr k) ≠ (y, .addr (Fin.last NDIRECT)) := by simpa using hk
        simp [refs, refAt, update_of_ne hne, update_of_ne hk]
    | word k =>
      have hne : (y, Pos.word k) ≠ (y, .addr (Fin.last NDIRECT)) := by simp
      rw [update_of_ne hne]
      simp only [refs, update_self]
      rw [h₀, h₁]
  · have hne : (y, p) ≠ (x, .addr (Fin.last NDIRECT)) := by simp [hy]
    simp [refs, update_of_ne hy, update_of_ne hne]

theorem refs_setWord {m : Nat → Addrs} {x : Nat} (j : Fin NINDIRECT) (w : UInt32)
    (h₀ : ind (m x) ≠ 0) (hind : ∀ y, ind (m y) = ind (m x) → y = x) :
    refs (update d (ind (m x)) ((d (ind (m x))).setWord j w)) m =
      update (refs d m) (x, .word j) w.toNat := by
  funext q
  obtain ⟨y, p⟩ := q
  by_cases hy : y = x
  · subst hy
    cases p with
    | addr k =>
      have hne : (y, Pos.addr k) ≠ (y, .word j) := by simp
      rw [update_of_ne hne]
      rfl
    | word k =>
      simp only [refs, refAt, if_neg h₀, update_self]
      by_cases hk : k = j
      · subst hk
        rw [update_self, Block.word_setWord_same _ _ k.isLt]
      · have hne : (y, Pos.word k) ≠ (y, .word j) := by simpa using hk
        rw [update_of_ne hne, Block.word_setWord_ne _ _ (by omega)]
        simp only [refs, refAt, if_neg h₀]
  · have hne : (y, p) ≠ (x, .word j) := by simp [hy]
    rw [update_of_ne hne]
    exact refAt_put (fun h => hy (hind y h)) p

/-! ## Volumes -/

namespace Vol

/-- The super block in memory is the one on the disk, and it is well formed. -/
structure Ok (v : Vol) : Prop where
  wf : v.sb.Wf
  super : Superblock.read v.disk = v.sb

/-- `x` is an allocated inode. -/
def Live (v : Vol) (x : Nat) : Prop := x < v.sb.ninodes ∧ (v.dinode x).type ≠ 0

instance (v : Vol) (x : Nat) : Decidable (v.Live x) := inferInstanceAs (Decidable (_ ∧ _))

/-- The addresses of the allocated inodes; a free inode refers to nothing. -/
def map (v : Vol) (x : Nat) : Addrs := if v.Live x then (v.dinode x).addrs else fun _ => 0

/-- The free map and the references by `m` agree. -/
def Owned (v : Vol) (m : Nat → Addrs) : Prop :=
  Alloc.Owned v.sb.dataStart v.sb.size (refs v.disk m) v.bit

/-- Nothing the super block and the inode blocks hold has changed. -/
structure Frame (v v' : Vol) : Prop where
  sb : v'.sb = v.sb
  super : Superblock.read v'.disk = Superblock.read v.disk
  dinode : ∀ x, x < v.sb.ninodes → v'.dinode x = v.dinode x

theorem Frame.refl (v : Vol) : Frame v v := ⟨rfl, rfl, fun _ _ => rfl⟩

variable {v' : Vol}

theorem Frame.trans {v v'' : Vol} (h : Frame v v') (h' : Frame v' v'') : Frame v v'' where
  sb := h'.sb.trans h.sb
  super := h'.super.trans h.super
  dinode x hx := (h'.dinode x (h.sb ▸ hx)).trans (h.dinode x hx)

theorem Frame.ok {v : Vol} (h : Frame v v') (hok : v.Ok) : v'.Ok where
  wf := h.sb ▸ hok.wf
  super := by rw [h.super, hok.super, h.sb]

theorem Frame.live {v : Vol} (h : Frame v v') (x : Nat) : v'.Live x ↔ v.Live x := by
  simp only [Live, h.sb]
  constructor
  · rintro ⟨hx, ht⟩
    rw [h.dinode x hx] at ht
    exact ⟨hx, ht⟩
  · rintro ⟨hx, ht⟩
    refine ⟨hx, ?_⟩
    rwa [h.dinode x hx]

theorem Frame.map {v : Vol} (h : Frame v v') : v'.map = v.map := by
  funext x
  by_cases hx : v.Live x
  · rw [Vol.map, Vol.map, if_pos hx, if_pos ((h.live x).mpr hx), h.dinode x hx.1]
  · rw [Vol.map, Vol.map, if_neg hx, if_neg (mt (h.live x).mp hx)]

/-! ### What a block write leaves alone -/

variable {v : Vol} {b x : Nat} {data : Block}

@[simp] theorem put_sb : (v.put b data).sb = v.sb := rfl
@[simp] theorem put_addrs : (v.put b data).addrs = v.addrs := rfl

theorem put_disk : (v.put b data).disk = update v.disk b data := rfl

theorem read_update (h : b ≠ 1) : Superblock.read (update d b data) = Superblock.read d := by
  simp only [Superblock.read, update_of_ne (Ne.symm h)]

/-- A write outside the super block and the inode blocks. -/
theorem frame_put (h₁ : b ≠ 1) (h : ∀ x, x < v.sb.ninodes → v.sb.IBLOCK x ≠ b) :
    Frame v (v.put b data) where
  sb := rfl
  super := read_update h₁
  dinode x hx := by
    simp only [Vol.dinode, put_sb, put_disk, update_of_ne (h x hx)]

theorem frame_put_data (hok : v.Ok) (hb : v.sb.IsData b) : Frame v (v.put b data) :=
  frame_put (Nat.ne_of_gt (hb.super_lt hok.wf)) fun _ hx => hb.ne_IBLOCK hok.wf hx

theorem frame_put_bitmap (hok : v.Ok) : Frame v (v.put (v.sb.BBLOCK b) data) :=
  frame_put (Superblock.BBLOCK_ne_super hok.wf b)
    fun _ hx => Superblock.IBLOCK_ne_BBLOCK hok.wf hx

theorem bit_put_data (hb : v.sb.IsData b) {c : Nat} (hc : c < v.sb.size) :
    (v.put b data).bit c = v.bit c := by
  simp only [Vol.bit, put_sb, put_disk, update_of_ne (hb.ne_BBLOCK hc)]

/-- A write to the block of the map that holds the bit of `b`, at that bit. -/
theorem bit_put_bitmap {f : Bool} (hd : ∀ i, data.bit i =
    if i = b % BPB then f else (v.disk (v.sb.BBLOCK b)).bit i) :
    (v.put (v.sb.BBLOCK b) data).bit = update v.bit b f := by
  funext c
  by_cases hcb : c = b
  · subst hcb
    simp only [Vol.bit, put_sb, put_disk, update_self, hd, if_true]
  · rw [update_of_ne hcb]
    by_cases hB : v.sb.BBLOCK c = v.sb.BBLOCK b
    · have hm : c % BPB ≠ b % BPB := by
        simp only [Superblock.BBLOCK, BPB, BSIZE] at hB ⊢; omega
      simp only [Vol.bit, put_sb, put_disk, hB, update_self, hd, if_neg hm]
    · simp only [Vol.bit, put_sb, put_disk, update_of_ne hB]

/-! ### What is owned -/

variable {m : Nat → Addrs} {q : Nat × Pos}

theorem Owned.isData (h : v.Owned m) (hq : refs v.disk m q ≠ 0) :
    v.sb.IsData (refs v.disk m q) := h.inRange q hq

/-- A block held at another position is nobody's indirect block. -/
theorem Owned.ind_ne (h : v.Owned m) (hq : refs v.disk m q ≠ 0)
    (hp : q.2 ≠ .addr (Fin.last NDIRECT)) (y : Nat) : ind (m y) ≠ refs v.disk m q := by
  intro he
  have := h.inj q (y, .addr (Fin.last NDIRECT)) hq he.symm
  rw [this] at hp
  exact hp rfl

/-- An unheld block is nobody's indirect block. -/
theorem ind_ne_of_unheld (hu : ∀ q, refs v.disk m q ≠ b) (y : Nat) : ind (m y) ≠ b :=
  hu (y, .addr (Fin.last NDIRECT))

theorem dataStart_pos : 0 < v.sb.dataStart := Nat.succ_pos _

theorem toNat_ofNat_isData (hok : v.Ok) (hb : v.sb.IsData b) : (UInt32.ofNat b).toNat = b := by
  have := hok.wf.disk; have := hb.2
  simp only [FSSIZE] at *
  rw [UInt32.toNat_ofNat']
  omega

theorem IsData_ne_zero (hok : v.Ok) (hb : v.sb.IsData b) : b ≠ 0 := by
  have := hb.super_lt hok.wf; omega

/-! ### `balloc` and `bfree` -/

/-- References see only the indirect blocks. -/
theorem refs_congr {d' : Disk} (h : ∀ y, ind (m y) ≠ 0 → d' (ind (m y)) = d (ind (m y))) :
    refs d' m = refs d m := by
  funext ⟨y, p⟩
  cases p with
  | addr j => rfl
  | word j =>
    by_cases h₀ : ind (m y) = 0
    · simp only [refs, refAt, if_pos h₀]
    · simp only [refs, refAt, if_neg h₀, h y h₀]

/-- What a successful `balloc` does. -/
structure Alloced (v : Vol) (m : Nat → Addrs) (b : Nat) (v' : Vol) : Prop where
  frame : Frame v v'
  size : v'.size = v.size
  addrs : v'.addrs = v.addrs
  isData : v.sb.IsData b
  unheld : ∀ q, refs v.disk m q ≠ b
  unmarked : v.bit b = false
  zero : v'.disk b = Buffer.zero
  data : ∀ c, v.sb.IsData c → c ≠ b → v'.disk c = v.disk c
  bit : ∀ c, c < v.sb.size → v'.bit c = update v.bit b true c

theorem balloc_ok (hok : v.Ok) (ho : v.Owned m) (h : v.balloc = .ok (b, v')) :
    Alloced v m b v' := by
  rw [balloc] at h
  cases hf : (List.range v.sb.size).find? (fun b => !v.bit b) with
  | none => rw [hf] at h; cases h
  | some b' =>
    rw [hf] at h
    cases h
    have hlt : b < v.sb.size := List.mem_range.mp (List.mem_of_find?_eq_some hf)
    have hbit : v.bit b = false := by simpa using List.find?_some hf
    obtain ⟨hlo, hun⟩ := ho.unheld hbit hlt
    have hd : v.sb.IsData b := ⟨hlo, hlt⟩
    have hbits : (v.put (v.sb.BBLOCK b) ((v.disk (v.sb.BBLOCK b)).setBit (b % BPB))).bit =
        update v.bit b true := bit_put_bitmap fun i => by
      rw [Block.bit_setBit _ _ (Nat.mod_lt _ (by decide))]
      by_cases hi : i = b % BPB
      · simp [hi]
      · simp [hi, Ne.symm hi]
    refine ⟨(frame_put_bitmap hok).trans
        (frame_put_data ((frame_put_bitmap hok).ok hok) hd), rfl, rfl, hd, hun, hbit, ?_, ?_, ?_⟩
    · exact update_self ..
    · intro c hc hcb
      have hcB : c ≠ v.sb.BBLOCK b := Ne.symm (hc.ne_BBLOCK hlt)
      simp only [bzero, put_disk, update_of_ne hcb, update_of_ne hcB]
    · intro c hc
      rw [← hbits]
      exact bit_put_data (v := v.put (v.sb.BBLOCK b) _) hd hc

/-- The references of `m` are the same after `balloc`. -/
theorem Alloced.refs (h : Alloced v m b v') (ho : v.Owned m) :
    Xv6.Fs.refs v'.disk m = Xv6.Fs.refs v.disk m :=
  refs_congr fun y hy => h.data _ (ho.isData (q := (y, .addr (Fin.last NDIRECT))) hy)
    (ind_ne_of_unheld h.unheld y)

/-- The block may be given to a position that has none. -/
theorem Alloced.give (h : Alloced v m b v') (ho : v.Owned m) (hq : Xv6.Fs.refs v.disk m q = 0)
    {v'' : Vol} {m' : Nat → Addrs} (hsb : v''.sb = v.sb)
    (hbit : ∀ c, c < v.sb.size → v''.bit c = v'.bit c)
    (hr : Xv6.Fs.refs v''.disk m' = update (Xv6.Fs.refs v.disk m) q b) :
    v''.Owned m' := by
  have := Alloc.Owned.alloc ho dataStart_pos h.unmarked h.isData.2 hq
  rw [Owned, hsb, hr]
  refine this.congr_used (Nat.le_of_lt (Nat.lt_of_le_of_lt h.isData.1 h.isData.2)) fun c hc => ?_
  rw [hbit c hc, h.bit c hc]

/-- What `bfree` does to a block that is held: it does not panic. -/
theorem bfree_ok {ι : Type} {r : ι → Nat} (hok : v.Ok)
    (ho : Alloc.Owned v.sb.dataStart v.sb.size r v.bit) {q : ι} (hq : r q ≠ 0) :
    ∃ v', v.bfree (r q) = .ok v' ∧ Frame v v' ∧ v'.size = v.size ∧ v'.addrs = v.addrs ∧
      (∀ c, v.sb.IsData c → v'.disk c = v.disk c) ∧
      v'.bit = update v.bit (r q) false := by
  have hd : v.sb.IsData (r q) := ho.inRange q hq
  have hm : v.bit (r q) = true := (ho.marked _ hd.1 hd.2).mpr ⟨q, rfl⟩
  generalize r q = b at *
  refine ⟨v.put (v.sb.BBLOCK b) ((v.disk (v.sb.BBLOCK b)).clearBit (b % BPB)), ?_,
    frame_put_bitmap hok, rfl, rfl, ?_, ?_⟩
  · simp only [bfree, hm, if_true, hok.super]
  · intro c hc
    rw [put_disk, update_of_ne (Ne.symm (hc.ne_BBLOCK hd.2))]
  · refine bit_put_bitmap fun i => ?_
    rw [Block.bit_clearBit _ _ (Nat.mod_lt _ (by decide))]
    by_cases hi : i = b % BPB
    · simp [hi]
    · simp [hi, Ne.symm hi]

end Vol

end Xv6.Fs
