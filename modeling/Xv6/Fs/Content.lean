/-
# `Xv6.Fs.Content` — `bmap`, `readi`, `writei` and `itrunc` on owned blocks

While an inode is locked its addresses in memory may be ahead of the disk.
`Vol.mapWith i x` is the assignment of addresses that counts then: the disk's,
but for inode `x` the ones of the cache entry `i`.  `Grew` says what the
allocations of `bmap` may do to it: positions of `x` that were empty are filled,
and no other block that anybody holds is touched.  The contents of all inodes
follow from that.
-/
import Xv6.Fs.Own

namespace Xv6.Fs

open Bytes List
open Wp (ok_of_bind)
open Function (update update_eq_self update_idem update_of_ne update_self)

theorem word_zero (j : Nat) : Block.word Buffer.zero j = 0 := by
  have h : (Buffer.zero : Block).num (4 * j) 4 = 0 := by
    simp [Buffer.num, Buffer.read, range_succ, ofLe]
  rw [Block.word, h]
  rfl

variable {w : Vol} {b : Nat}

namespace Vol

/-- The addresses that count while inode `x` is locked in the entry `i`. -/
def mapWith (v : Vol) (i : InodeId) (x : Nat) : Nat → Addrs := update v.map x (v.addrs i)

/-- The references that count then. -/
def refsWith (v : Vol) (i : InodeId) (x : Nat) : Nat × Pos → Nat := refs v.disk (v.mapWith i x)

variable {v v' v'' : Vol} {i : InodeId} {x : Nat}

theorem refsWith_self (p : Pos) : v.refsWith i x (x, p) = refAt v.disk (v.addrs i) p := by
  simp [refsWith, refs, mapWith]

theorem refsWith_of_ne {y : Nat} (h : y ≠ x) (p : Pos) :
    v.refsWith i x (y, p) = refAt v.disk (v.map y) p := by
  simp [refsWith, refs, mapWith, update_of_ne h]

/-- With the disk's own addresses in memory nothing is ahead. -/
theorem mapWith_eq (h : v.addrs i = v.map x) : v.mapWith i x = v.map := by
  rw [mapWith, h, update_eq_self]

/-! ## Allocation on behalf of an inode -/

/-- Blocks were allocated for positions `S` of inode `x`. -/
structure Grew (v : Vol) (i : InodeId) (x : Nat) (S : Pos → Prop) (v' : Vol) : Prop where
  frame : Frame v v'
  size : v'.size = v.size
  slots : ∀ j, j ≠ i → v'.addrs j = v.addrs j
  owned : v'.Owned (v'.mapWith i x)
  grow : ∀ q, v.refsWith i x q ≠ 0 → v'.refsWith i x q = v.refsWith i x q
  fills : ∀ q, v.refsWith i x q = 0 → v'.refsWith i x q ≠ 0 → q.1 = x ∧ S q.2
  kept : ∀ q, v.refsWith i x q ≠ 0 → q ≠ (x, .addr (Fin.last NDIRECT)) →
    v'.disk (v.refsWith i x q) = v.disk (v.refsWith i x q)

theorem Grew.refl {S : Pos → Prop} (h : v.Owned (v.mapWith i x)) : Grew v i x S v where
  frame := .refl v
  size := rfl
  slots _ _ := rfl
  owned := h
  grow _ _ := rfl
  fills _ h₀ h₁ := absurd h₀ h₁
  kept _ _ _ := rfl

theorem Grew.trans {S S' : Pos → Prop} (h : Grew v i x S v') (h' : Grew v' i x S' v'') :
    Grew v i x (fun p => S p ∨ S' p) v'' where
  frame := h.frame.trans h'.frame
  size := h'.size.trans h.size
  slots j hj := (h'.slots j hj).trans (h.slots j hj)
  owned := h'.owned
  grow q hq := (h'.grow q (by rwa [h.grow q hq])).trans (h.grow q hq)
  fills q h₀ h₁ := by
    by_cases hq : v'.refsWith i x q = 0
    · exact ⟨(h'.fills q hq h₁).1, .inr (h'.fills q hq h₁).2⟩
    · exact ⟨(h.fills q h₀ hq).1, .inl (h.fills q h₀ hq).2⟩
  kept q hq hne := by
    have hq' := h.grow q hq
    have := h'.kept q (by rwa [hq']) hne
    rw [hq'] at this
    rw [this, h.kept q hq hne]

/-- A reference at one empty position of `x`, to a block just allocated. -/
theorem grew_of_alloced {p : Pos} (ho : v.Owned (v.mapWith i x))
    (ha : Alloced v (v.mapWith i x) b w) (hf : Frame v v') (hsize : v'.size = v.size)
    (hslots : ∀ j, j ≠ i → v'.addrs j = v.addrs j) (hp : v.refsWith i x (x, p) = 0)
    (hbit : ∀ c, c < v.sb.size → v'.bit c = w.bit c)
    (hr : v'.refsWith i x = update (v.refsWith i x) (x, p) b)
    (hkept : ∀ q, v.refsWith i x q ≠ 0 → q ≠ (x, .addr (Fin.last NDIRECT)) →
      v'.disk (v.refsWith i x q) = v.disk (v.refsWith i x q)) :
    Grew v i x (· = p) v' where
  frame := hf
  size := hsize
  slots := hslots
  owned := ha.give ho hp hf.sb hbit hr
  grow q hq := by
    have hne : q ≠ (x, p) := by rintro rfl; exact hq hp
    rw [hr, update_of_ne hne]
  fills q h₀ h₁ := by
    by_contra hn
    have hne : q ≠ (x, p) := by rintro rfl; exact hn ⟨rfl, rfl⟩
    rw [hr, update_of_ne hne] at h₁
    exact h₁ h₀
  kept := hkept

/-- What `balloc` leaves of the blocks that are held. -/
theorem Alloced.kept {m : Nat → Addrs} (ha : Alloced v m b w) (ho : v.Owned m) {q : Nat × Pos}
    (hq : Xv6.Fs.refs v.disk m q ≠ 0) :
    w.disk (Xv6.Fs.refs v.disk m q) = v.disk (Xv6.Fs.refs v.disk m q) :=
  ha.data _ (ho.isData hq) (ha.unheld q)

theorem setAddr_mapWith (j : Fin (NDIRECT + 1)) (b : Nat) (hm : w.map = v.map)
    (ha : w.addrs = v.addrs) : (w.setAddr i j b).mapWith i x =
      update (v.mapWith i x) x
        (update (v.mapWith i x x) j (UInt32.ofNat b)) := by
  have hmap : (w.setAddr i j b).map = w.map := rfl
  simp only [mapWith, hmap, hm, update_idem, update_self]
  simp only [setAddr, update_self, ha]

/-- **`addrOrAlloc`**: the address is there afterwards. -/
theorem addrOrAlloc_ok (hok : v.Ok) (ho : v.Owned (v.mapWith i x)) {j : Fin (NDIRECT + 1)}
    (h : v.addrOrAlloc i j = .ok (b, v')) :
    Grew v i x (· = .addr j) v' ∧ v'.refsWith i x (x, .addr j) = b ∧ b ≠ 0 ∧
      (v.refsWith i x (x, .addr j) ≠ 0 → v' = v) := by
  have hself : v.refsWith i x (x, .addr j) = (v.addrs i j).toNat := refsWith_self _
  have hz : (v.addrs i j).toNat = 0 ↔ v.addrs i j = 0 := by rw [← UInt32.toNat_inj]; rfl
  rw [addrOrAlloc] at h
  by_cases h₀ : v.addrs i j = 0
  · rw [if_pos h₀] at h
    obtain ⟨⟨b', w⟩, hb, h⟩ := ok_of_bind h
    cases h
    have ha := balloc_ok hok ho hb
    have hw : (UInt32.ofNat b).toNat = b := toNat_ofNat_isData hok ha.isData
    have hp : v.refsWith i x (x, .addr j) = 0 := by rw [hself, hz]; exact h₀
    have hr : (w.setAddr i j b).refsWith i x =
        update (v.refsWith i x) (x, .addr j) b := by
      rw [refsWith, setAddr_mapWith j b ha.frame.map ha.addrs]
      show refs w.disk _ = _
      rw [refsWith, ← ha.refs ho]
      by_cases hj : j = Fin.last NDIRECT
      · subst hj
        rw [refs_setInd, hw]
        · intro k
          rw [refAt, if_pos]
          rw [mapWith, update_self, ind_eq_zero]
          exact h₀
        · intro k
          have hind : ind (update (v.mapWith i x x) (Fin.last NDIRECT)
              (UInt32.ofNat b)) = b := by rw [ind, update_self, hw]
          rw [refAt, hind, ha.zero, word_zero]
          simp
      · rw [refs_setAddr hj, hw]
    refine ⟨grew_of_alloced ho ha ⟨ha.frame.sb, ha.frame.super, ha.frame.dinode⟩ ha.size
        (fun k hk => ?_) hp (fun c _ => rfl) hr (fun q hq _ => ha.kept ho hq),
      ?_, IsData_ne_zero hok ha.isData, fun hne => absurd hp hne⟩
    · simp only [setAddr, update_of_ne hk, ha.addrs]
    · rw [hr, update_self]
  · rw [if_neg h₀] at h
    cases h
    exact ⟨.refl ho, hself, mt hz.mp h₀, fun _ => rfl⟩

/-! ## `bmap` -/

end Vol

/-- The position of the `bn`th block of a file. -/
def posOf (bn : Nat) : Pos :=
  if h : bn < NDIRECT then .addr ⟨bn, Nat.lt_succ_of_lt h⟩
  else .word ⟨(bn - NDIRECT) % NINDIRECT, Nat.mod_lt _ (by decide)⟩

variable {bn : Nat}

theorem posOf_direct (hd : bn < NDIRECT) : posOf bn = .addr ⟨bn, Nat.lt_succ_of_lt hd⟩ := dif_pos hd

theorem posOf_indirect (hd : ¬ bn < NDIRECT) (hk : bn - NDIRECT < NINDIRECT) :
    posOf bn = .word ⟨bn - NDIRECT, hk⟩ := by
  rw [posOf, dif_neg hd]
  simp only [Nat.mod_eq_of_lt hk]

theorem indirect_lt (hbn : bn < MAXFILE) (hd : ¬ bn < NDIRECT) : bn - NDIRECT < NINDIRECT := by
  simp only [MAXFILE] at hbn
  omega

theorem posOf_ne_last (bn : Nat) : posOf bn ≠ .addr (Fin.last NDIRECT) := by
  rw [posOf]
  split
  · next h =>
      intro he
      simp only [Pos.addr.injEq, Fin.ext_iff, Fin.val_last] at he
      omega
  · intro he; cases he

theorem posOf_inj {a : Nat} (ha : a < MAXFILE) (hb : b < MAXFILE) (h : posOf a = posOf b) :
    a = b := by
  rw [posOf, posOf] at h
  simp only [MAXFILE] at ha hb
  by_cases ha' : a < NDIRECT
  · by_cases hb' : b < NDIRECT
    · rw [dif_pos ha', dif_pos hb'] at h
      simpa using h
    · rw [dif_pos ha', dif_neg hb'] at h
      cases h
  · by_cases hb' : b < NDIRECT
    · rw [dif_neg ha', dif_pos hb'] at h
      cases h
    · rw [dif_neg ha', dif_neg hb'] at h
      simp only [Pos.word.injEq, Fin.mk.injEq] at h
      rw [Nat.mod_eq_of_lt (by omega), Nat.mod_eq_of_lt (by omega)] at h
      omega

namespace Vol

variable {v v' : Vol} {i : InodeId} {x : Nat}

/-- The second half of `bmap`: a word of the indirect block `a`. -/
theorem wordOrAlloc_ok (hok : v.Ok) (ho : v.Owned (v.mapWith i x)) {k : Fin NINDIRECT} {a : Nat}
    (ha : v.refsWith i x (x, .addr (Fin.last NDIRECT)) = a) (ha₀ : a ≠ 0)
    (h : v.wordOrAlloc a k = .ok (b, v')) :
    Grew v i x (· = .word k) v' ∧ v'.refsWith i x (x, .word k) = b ∧ b ≠ 0 ∧
      (v.refsWith i x (x, .word k) ≠ 0 → v' = v) := by
  have hind : ind (v.mapWith i x x) = a := ha
  have hself : v.refsWith i x (x, .word k) = ((v.disk a).word k).toNat := by
    rw [refsWith, refs, refAt, hind, if_neg ha₀]
  have hz : ((v.disk a).word k).toNat = 0 ↔ (v.disk a).word k = 0 := by
    rw [← UInt32.toNat_inj]; rfl
  rw [wordOrAlloc] at h
  by_cases h₀ : (v.disk a).word k = 0
  · rw [if_pos h₀] at h
    obtain ⟨⟨b', w⟩, hb, h⟩ := ok_of_bind h
    cases h
    have hal := balloc_ok hok ho hb
    have hw : (UInt32.ofNat b).toNat = b := toNat_ofNat_isData hok hal.isData
    have hp : v.refsWith i x (x, .word k) = 0 := by rw [hself, hz]; exact h₀
    have haq : v.refsWith i x (x, .addr (Fin.last NDIRECT)) ≠ 0 := by rw [ha]; exact ha₀
    have had : v.sb.IsData a := ha ▸ ho.isData haq
    have hdat : w.disk a = v.disk a := ha ▸ hal.kept ho haq
    have hf : Frame w (w.put a ((v.disk a).setWord k (UInt32.ofNat b))) :=
      frame_put_data (hal.frame.ok hok) (by rw [hal.frame.sb]; exact had)
    have hm : (w.put a ((v.disk a).setWord k (UInt32.ofNat b))).mapWith i x =
        v.mapWith i x := by
      rw [mapWith, hf.map, hal.frame.map, put_addrs, hal.addrs, mapWith]
    have hr : (w.put a ((v.disk a).setWord k (UInt32.ofNat b))).refsWith i x =
        update (v.refsWith i x) (x, .word k) b := by
      rw [refsWith, hm, put_disk, ← hdat, refsWith, ← hal.refs ho, ← hind]
      refine (refs_setWord k _ (by rw [hind]; exact ha₀) fun y hy => ?_).trans (by rw [hw])
      have hyx := ho.inj (y, .addr (Fin.last NDIRECT)) (x, .addr (Fin.last NDIRECT))
        (by rw [show refs v.disk (v.mapWith i x) (y, .addr (Fin.last NDIRECT)) =
          ind (v.mapWith i x y) from rfl, hy, hind]; exact ha₀) hy
      exact (Prod.mk.inj hyx).1
    refine ⟨grew_of_alloced ho hal (hal.frame.trans hf) hal.size
        (fun j _ => by rw [put_addrs, hal.addrs]) hp (fun c hc => ?_) hr
        (fun q hq hne => ?_),
      by rw [hr, update_self], IsData_ne_zero hok hal.isData,
      fun hne => absurd hp hne⟩
    · exact bit_put_data (by rw [hal.frame.sb]; exact had)
        (by rw [hal.frame.sb]; exact hc)
    · have hqa : v.refsWith i x q ≠ a := by
        intro he
        exact hne (ho.inj q _ hq (he.trans ha.symm))
      rw [put_disk, update_of_ne hqa]
      exact hal.kept ho hq
  · rw [if_neg h₀] at h
    cases h
    exact ⟨.refl ho, hself, mt hz.mp h₀, fun _ => rfl⟩

/-- **`bmap`**: the block is there afterwards, and only blocks of this inode were
allocated for it. -/
theorem bmap_ok (hok : v.Ok) (ho : v.Owned (v.mapWith i x)) (hbn : bn < MAXFILE)
    (h : v.bmap i bn = .ok (b, v')) :
    Grew v i x (fun p => p = .addr (Fin.last NDIRECT) ∨ p = posOf bn) v' ∧
      v'.refsWith i x (x, posOf bn) = b ∧ b ≠ 0 ∧
      (v.refsWith i x (x, posOf bn) ≠ 0 → v' = v) := by
  rw [bmap] at h
  by_cases hd : bn < NDIRECT
  · rw [dif_pos hd] at h
    obtain ⟨hg, hb, hb₀, hs⟩ := addrOrAlloc_ok hok ho h
    rw [posOf_direct hd]
    exact ⟨{ hg with fills := fun q h₀ h₁ => ⟨(hg.fills q h₀ h₁).1, .inr (hg.fills q h₀ h₁).2⟩ },
      hb, hb₀, hs⟩
  · have hk := indirect_lt hbn hd
    rw [dif_neg hd, if_pos hk] at h
    obtain ⟨⟨a, w⟩, ha, h⟩ := ok_of_bind h
    obtain ⟨hg, hb, hb₀, hs⟩ := addrOrAlloc_ok hok ho ha
    obtain ⟨hg', hb', hb₀', hs'⟩ :=
      wordOrAlloc_ok (k := ⟨bn - NDIRECT, hk⟩) (hg.frame.ok hok) hg.owned hb hb₀ h
    rw [posOf_indirect hd hk]
    refine ⟨hg.trans hg', hb', hb₀', fun hne => ?_⟩
    -- a word that is there is in an indirect block that is there
    have hi : v.refsWith i x (x, .addr (Fin.last NDIRECT)) ≠ 0 := by
      intro he
      apply hne
      rw [refsWith_self, refAt, if_pos]
      rwa [refsWith_self] at he
    obtain rfl := hs hi
    exact hs' hne

/-- A block that is there is found, and nothing changes. -/
theorem bmap_filled (hbn : bn < MAXFILE) (h : refAt v.disk (v.addrs i) (posOf bn) ≠ 0) :
    v.bmap i bn = .ok (refAt v.disk (v.addrs i) (posOf bn), v) := by
  rw [bmap]
  have hne : ∀ {w : UInt32}, w.toNat ≠ 0 → w ≠ 0 := by rintro w hw rfl; exact hw rfl
  by_cases hd : bn < NDIRECT
  · rw [posOf_direct hd, refAt] at h
    rw [dif_pos hd, addrOrAlloc, if_neg (hne h), posOf_direct hd]
    rfl
  · have hk := indirect_lt hbn hd
    rw [posOf_indirect hd hk, refAt] at h
    have hi : ind (v.addrs i) ≠ 0 := fun h₀ => h (if_pos h₀)
    rw [if_neg hi] at h
    have hw : (v.disk (v.addrs i (Fin.last NDIRECT)).toNat).word (bn - NDIRECT) ≠ 0 := hne h
    rw [dif_neg hd, if_pos hk, addrOrAlloc, if_neg (hne hi), posOf_indirect hd hk, refAt, if_neg hi]
    simp only [bind, Except.bind]
    rw [wordOrAlloc, if_neg hw]
    rfl

end Vol

/-! ## Bytes -/

/-- Byte `k` of a file with addresses `a`. -/
def byteAt (d : Disk) (a : Addrs) (k : Nat) : UInt8 :=
  (d (refAt d a (posOf (k / BSIZE)))).byte (k % BSIZE)

/-- The file has a block for each of its first `n` bytes. -/
def Filled (d : Disk) (a : Addrs) (n : Nat) : Prop :=
  ∀ k, k < n → refAt d a (posOf (k / BSIZE)) ≠ 0

/-- The first `n` bytes of a file. -/
def bytes (d : Disk) (a : Addrs) (n : Nat) : List UInt8 := (List.range n).map (byteAt d a)

@[simp] theorem length_bytes (d : Disk) (a : Addrs) (n : Nat) : (bytes d a n).length = n := by
  simp [bytes]

variable {off : Nat}

theorem chunk_pos {n : Nat} (h : n ≠ 0) : 0 < Vol.chunk off n := by
  have : off % BSIZE < BSIZE := Nat.mod_lt _ (by decide)
  simp only [Vol.chunk]; omega

theorem chunk_le (off n : Nat) : Vol.chunk off n ≤ n := Nat.min_le_left ..

/-- A chunk lies in one block. -/
theorem chunk_div {n k : Nat} (hk : k < Vol.chunk off n) :
    (off + k) / BSIZE = off / BSIZE ∧ (off + k) % BSIZE = off % BSIZE + k := by
  simp only [Vol.chunk, BSIZE] at *
  omega

namespace Vol

variable {v v' v'' : Vol} {i : InodeId} {x : Nat} {src : List UInt8}

/-- **`readi`'s loop** on blocks that are there. -/
theorem readLoop_ok : ∀ {fuel off n : Nat}, n ≤ fuel → off + n ≤ MAXFILE * BSIZE →
    Filled v.disk (v.addrs i) (off + n) →
    v.readLoop i fuel off n = .ok ((List.range' off n).map (byteAt v.disk (v.addrs i)), v)
  | 0, off, n, hf, _, _ => by
    obtain rfl : n = 0 := by omega
    rfl
  | fuel + 1, off, n, hf, hm, hfill => by
    rw [readLoop]
    by_cases hn : n = 0
    · subst hn
      rfl
    · have hpos : 0 < chunk off n := chunk_pos hn
      have hle := chunk_le off n
      have hbn : off / BSIZE < MAXFILE := by simp only [BSIZE] at *; omega
      have hne : refAt v.disk (v.addrs i) (posOf (off / BSIZE)) ≠ 0 := hfill off (by omega)
      have ih : readLoop i fuel (off + chunk off n) (n - chunk off n) v = _ :=
        readLoop_ok (by omega) (by omega) (by rwa [Nat.add_assoc, Nat.add_sub_cancel' hle])
      rw [if_neg hn, bmap_filled hbn hne]
      show Except.bind (readLoop i fuel (off + chunk off n) (n - chunk off n) v) _ = _
      rw [ih]
      have hsplit : List.range' off n = List.range' off (chunk off n) ++
          List.range' (off + chunk off n) (n - chunk off n) := by
        rw [List.range'_append_1, Nat.add_sub_cancel' hle]
      rw [hsplit, map_append]
      refine congrArg (fun l => Except.ok (l ++ _, v)) ?_
      rw [Buffer.read, List.range'_eq_map_range, map_map]
      refine map_congr_left fun k hk => ?_
      obtain ⟨h₁, h₂⟩ := chunk_div (mem_range.mp hk)
      simp only [Function.comp, byteAt, h₁, h₂]

/-! ## Writing -/

/-- The bytes `src` are in the file at `off`, and everything else is as it was. -/
structure Wrote (v : Vol) (i : InodeId) (x off : Nat) (src : List UInt8) (v' : Vol) : Prop where
  frame : Frame v v'
  size : v'.size = v.size
  slots : ∀ j, j ≠ i → v'.addrs j = v.addrs j
  owned : v'.Owned (v'.mapWith i x)
  grow : ∀ q, v.refsWith i x q ≠ 0 → v'.refsWith i x q = v.refsWith i x q
  others : ∀ q, q.1 ≠ x → v'.refsWith i x q = v.refsWith i x q ∧
    (v.refsWith i x q ≠ 0 → v'.disk (v.refsWith i x q) = v.disk (v.refsWith i x q))
  inside : ∀ k, (hk : k < src.length) → v'.refsWith i x (x, posOf ((off + k) / BSIZE)) ≠ 0 ∧
    byteAt v'.disk (v'.addrs i) (off + k) = src[k]
  outside : ∀ k, k < MAXFILE * BSIZE → k < off ∨ off + src.length ≤ k →
    v.refsWith i x (x, posOf (k / BSIZE)) ≠ 0 →
    byteAt v'.disk (v'.addrs i) k = byteAt v.disk (v.addrs i) k
  /-- Where all blocks were there, no address changes. -/
  same : (∀ k, k < src.length → v.refsWith i x (x, posOf ((off + k) / BSIZE)) ≠ 0) →
    v'.addrs = v.addrs

theorem Wrote.nil (ho : v.Owned (v.mapWith i x)) : Wrote v i x off [] v where
  frame := .refl v
  size := rfl
  slots _ _ := rfl
  owned := ho
  grow _ _ := rfl
  others _ _ := ⟨rfl, fun _ => rfl⟩
  inside _ hk := absurd hk (Nat.not_lt_zero _)
  outside _ _ _ _ := rfl
  same _ := rfl

theorem Wrote.append {src' : List UInt8} (h : Wrote v i x off src v')
    (h' : Wrote v' i x (off + src.length) src' v'')
    (hm : off + (src ++ src').length ≤ MAXFILE * BSIZE) : Wrote v i x off (src ++ src') v'' where
  frame := h.frame.trans h'.frame
  size := h'.size.trans h.size
  slots j hj := (h'.slots j hj).trans (h.slots j hj)
  owned := h'.owned
  grow q hq := (h'.grow q (by rwa [h.grow q hq])).trans (h.grow q hq)
  others q hq := by
    obtain ⟨h₁, h₂⟩ := h.others q hq
    obtain ⟨h₁', h₂'⟩ := h'.others q hq
    refine ⟨h₁'.trans h₁, fun hne => ?_⟩
    rw [h₁] at h₂'
    rw [h₂' hne, h₂ hne]
  inside k hk := by
    rw [length_append] at hk hm
    by_cases hlt : k < src.length
    · obtain ⟨h₁, h₂⟩ := h.inside k hlt
      refine ⟨by rwa [h'.grow _ h₁], ?_⟩
      rw [h'.outside (off + k) (by omega) (by omega) h₁, h₂, getElem_append_left hlt]
    · have := h'.inside (k - src.length) (by omega)
      rw [show off + src.length + (k - src.length) = off + k by omega] at this
      rw [getElem_append_right (by omega)]
      exact this
  outside k hk hout hne := by
    rw [length_append] at hout
    rw [h'.outside k hk (by omega) (by rwa [h.grow _ hne]), h.outside k hk (by omega) hne]
  same hall := by
    rw [length_append] at hall
    have h₁ := h.same fun k hk => hall k (by omega)
    refine (h'.same fun k hk => ?_).trans h₁
    have := hall (src.length + k) (by omega)
    rw [← Nat.add_assoc] at this
    rwa [h.grow _ this]

/-- A block of the file is nobody's indirect block, so a write to it changes no reference. -/
theorem refsWith_put (hok : v.Ok) (ho : v.Owned (v.mapWith i x))
    (hb : v.refsWith i x (x, posOf bn) = b) (hb₀ : b ≠ 0) (data : Block) :
    (v.put b data).refsWith i x = v.refsWith i x := by
  have hbq : v.refsWith i x (x, posOf bn) ≠ 0 := by rw [hb]; exact hb₀
  have hf : Frame v (v.put b data) := frame_put_data hok (hb ▸ ho.isData hbq)
  have hm : (v.put b data).mapWith i x = v.mapWith i x := by
    rw [mapWith, hf.map, put_addrs, mapWith]
  rw [refsWith, hm, put_disk, refsWith, ← hb]
  exact refs_put fun y => ho.ind_ne hbq (posOf_ne_last _) y

/-- One round of the loop: a chunk spliced into its block. -/
theorem wrote_chunk (hok : v.Ok) (ho : v.Owned (v.mapWith i x)) (hs : 0 < src.length)
    (hbn : off / BSIZE < MAXFILE) (hin : off % BSIZE + src.length ≤ BSIZE)
    (hw : v.bmap i (off / BSIZE) = .ok (b, w)) :
    Wrote v i x off src (w.put b ((w.disk b).splice (off % BSIZE) src)) := by
  obtain ⟨hg, hb, hb₀, hsame⟩ := bmap_ok hok ho hbn hw
  have hbq : w.refsWith i x (x, posOf (off / BSIZE)) ≠ 0 := by rw [hb]; exact hb₀
  have hd : w.sb.IsData b := hb ▸ hg.owned.isData hbq
  have hf : Frame w (w.put b ((w.disk b).splice (off % BSIZE) src)) :=
    frame_put_data (hg.frame.ok hok) hd
  generalize hdata : (w.disk b).splice (off % BSIZE) src = data at hf ⊢
  have hr : (w.put b data).refsWith i x = w.refsWith i x :=
    refsWith_put (hg.frame.ok hok) hg.owned hb hb₀ data
  have hra : ∀ p, refAt (w.put b data).disk (w.addrs i) p = refAt w.disk (w.addrs i) p := by
    intro p
    have := congrFun hr (x, p)
    rwa [refsWith_self, refsWith_self] at this
  have hrb : refAt w.disk (w.addrs i) (posOf (off / BSIZE)) = b := by rw [← hb, refsWith_self]
  refine ⟨hg.frame.trans hf, hg.size, hg.slots, ?_, ?_, ?_, ?_, ?_, fun hall => ?_⟩
  · have hbit : ∀ c, c < w.sb.size → (w.put b data).bit c = w.bit c :=
      fun c hc => bit_put_data hd hc
    have := hg.owned.congr_used (Nat.le_of_lt (Nat.lt_of_le_of_lt hd.1 hd.2)) hbit
    show Alloc.Owned w.sb.dataStart w.sb.size ((w.put b data).refsWith i x) _
    rwa [hr]
  · intro q hq
    rw [hr, hg.grow q hq]
  · intro q hq
    have hrq : w.refsWith i x q = v.refsWith i x q := by
      by_cases h₀ : v.refsWith i x q = 0
      · by_contra hne
        exact hq (hg.fills q h₀ (fun h => hne (h.trans h₀.symm))).1
      · exact hg.grow q h₀
    refine ⟨by rw [hr, hrq], fun hne => ?_⟩
    have hqb : v.refsWith i x q ≠ b := by
      rw [← hrq, ← hb]
      intro he
      have := hg.owned.inj q _ (show w.refsWith i x q ≠ 0 by rwa [hrq]) he
      rw [this] at hq
      exact hq rfl
    rw [put_disk, update_of_ne hqb]
    refine hg.kept q hne ?_
    rintro rfl
    exact hq rfl
  · intro k hk
    have hdiv : (off + k) / BSIZE = off / BSIZE := by simp only [BSIZE] at *; omega
    have hmod : (off + k) % BSIZE = off % BSIZE + k := by simp only [BSIZE] at *; omega
    refine ⟨by rw [hr, hdiv]; exact hbq, ?_⟩
    rw [byteAt, put_addrs, hra, hdiv, hrb, put_disk, update_self, hmod, ← hdata]
    exact Buffer.byte_splice_of_mem hk (by omega)
  · intro k hk hout hne
    have hrk := hg.grow _ hne
    rw [refsWith_self, refsWith_self] at hrk
    rw [byteAt, put_addrs, hra, hrk, byteAt]
    by_cases hbk : k / BSIZE = off / BSIZE
    · -- another byte of the same block
      have he : refAt v.disk (v.addrs i) (posOf (k / BSIZE)) = b := by rw [← hrk, hbk, hrb]
      rw [he, put_disk, update_self, ← hdata, Buffer.byte_splice_of_not_mem (by
        have h₁ := Nat.div_add_mod k BSIZE
        have h₂ := Nat.div_add_mod off BSIZE
        rw [hbk] at h₁
        omega)]
      have := hg.kept _ hne (by simpa using posOf_ne_last _)
      rw [refsWith_self, he] at this
      rw [this]
    · have hne' : refAt v.disk (v.addrs i) (posOf (k / BSIZE)) ≠ b := by
        rw [← hrk, ← hrb]
        intro he
        have := hg.owned.inj (x, posOf (k / BSIZE)) (x, posOf (off / BSIZE))
          (show w.refsWith i x _ ≠ 0 by rw [hg.grow _ hne]; exact hne)
          (show w.refsWith i x _ = w.refsWith i x _ by rw [refsWith_self, refsWith_self]; exact he)
        exact hbk (posOf_inj (by simp only [BSIZE] at *; omega) hbn (Prod.mk.inj this).2)
      rw [put_disk, update_of_ne hne']
      have := hg.kept _ hne (by simpa using posOf_ne_last _)
      rw [refsWith_self] at this
      rw [this]
  · rw [put_addrs, hsame (by simpa using hall 0 hs)]

theorem wrote_round (hok : v.Ok) (ho : v.Owned (v.mapWith i x)) (hs : src ≠ [])
    (hm : off + src.length ≤ MAXFILE * BSIZE) (hw : v.bmap i (off / BSIZE) = .ok (b, w)) :
    off / BSIZE < MAXFILE ∧ Wrote v i x off (src.take (chunk off src.length))
      (w.put b ((w.disk b).splice (off % BSIZE) (src.take (chunk off src.length)))) := by
  have hn : src.length ≠ 0 := fun h₀ => hs (length_eq_zero_iff.mp h₀)
  have hlen : (src.take (chunk off src.length)).length = chunk off src.length := by
    rw [length_take, Nat.min_eq_left (chunk_le ..)]
  have hbn : off / BSIZE < MAXFILE := by simp only [BSIZE] at *; omega
  refine ⟨hbn, wrote_chunk hok ho (by rw [hlen]; exact chunk_pos hn) hbn ?_ hw⟩
  rw [hlen]
  simp only [chunk, BSIZE]
  omega

/-- **`writei`'s loop.** -/
theorem writeLoop_ok : ∀ {fuel off : Nat} {src : List UInt8} {v v' : Vol}, v.Ok →
    v.Owned (v.mapWith i x) → src.length ≤ fuel → off + src.length ≤ MAXFILE * BSIZE →
    v.writeLoop i fuel off src = .ok v' → Wrote v i x off src v'
  | 0, off, src, v, v', hok, ho, hf, _, h => by
    obtain rfl : src = [] := length_eq_zero_iff.mp (Nat.le_zero.mp hf)
    cases h
    exact .nil ho
  | fuel + 1, off, src, v, v', hok, ho, hf, hm, h => by
    rw [writeLoop] at h
    by_cases hs : src = []
    · rw [if_pos hs] at h
      cases h
      subst hs
      exact .nil ho
    · rw [if_neg hs] at h
      have hpos : 0 < chunk off src.length :=
        chunk_pos fun h₀ => hs (length_eq_zero_iff.mp h₀)
      have hle := chunk_le off src.length
      have hlen : (src.take (chunk off src.length)).length = chunk off src.length := by
        rw [length_take, Nat.min_eq_left hle]
      obtain ⟨⟨b, w⟩, hb, h⟩ := ok_of_bind h
      obtain ⟨-, hc⟩ := wrote_round hok ho hs hm hb
      have hrest := writeLoop_ok (hc.frame.ok hok) hc.owned
        (by rw [length_drop]; omega) (by rw [length_drop]; omega) h
      have := hc.append (by rw [hlen]; exact hrest) (by rw [take_append_drop]; exact hm)
      rwa [take_append_drop] at this

end Vol

end Xv6.Fs
