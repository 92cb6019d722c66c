/-
# `Xv6.Fs.Update` — `iupdate`, `ialloc` and `itrunc` on owned blocks

The functions that store inodes, and the one that frees their blocks.  `itrunc`
frees the words of an indirect block while the block still holds them: until the
block itself is gone the references that count are not the ones on the disk, so
its loop is followed on the ownership map alone.
-/
import Xv6.Fs.Content

namespace Xv6.Fs

open Bytes List
open Function (update update_eq_self update_of_ne update_self)

namespace Vol

variable {v v' : Vol} {i : InodeId} {x : Nat}

/-! ## Storing an inode -/

@[simp] theorem setDinode_sb (d : Dinode) : (v.setDinode x d).sb = v.sb := rfl
@[simp] theorem setDinode_size (d : Dinode) : (v.setDinode x d).size = v.size := rfl
@[simp] theorem setDinode_addrs (d : Dinode) : (v.setDinode x d).addrs = v.addrs := rfl

theorem dinode_setDinode (y : Nat) (d : Dinode) :
    (v.setDinode x d).dinode y = if y = x then d else v.dinode y := by
  simp only [dinode, setDinode, put_sb, put_disk]
  by_cases hB : v.sb.IBLOCK y = v.sb.IBLOCK x
  · rw [hB, update_self]
    by_cases hy : y = x
    · subst hy
      rw [if_pos rfl, Block.dinode_setDinode_same _ _ (Nat.mod_lt _ (by decide))]
    · rw [if_neg hy, Block.dinode_setDinode_ne]
      simp only [Superblock.IBLOCK, IPB, BSIZE] at hB ⊢
      omega
  · have hy : y ≠ x := by rintro rfl; exact hB rfl
    rw [update_of_ne hB, if_neg hy]

theorem setDinode_ok (hok : v.Ok) (d : Dinode) : (v.setDinode x d).Ok where
  wf := hok.wf
  super := by
    rw [setDinode, put_disk, read_update (Superblock.IBLOCK_ne_super hok.wf x), hok.super]
    rfl

theorem bit_setDinode (hok : v.Ok) (hx : x < v.sb.ninodes) (d : Dinode) (c : Nat) :
    (v.setDinode x d).bit c = v.bit c := by
  simp only [bit, setDinode, put_sb, put_disk,
    update_of_ne (Ne.symm (Superblock.IBLOCK_ne_BBLOCK hok.wf hx))]

/-- Blocks of the data region are not touched. -/
theorem disk_setDinode (hok : v.Ok) (hx : x < v.sb.ninodes) (d : Dinode) {c : Nat}
    (hc : v.sb.IsData c) : (v.setDinode x d).disk c = v.disk c := by
  rw [setDinode, put_disk, update_of_ne (Ne.symm (hc.ne_IBLOCK hok.wf hx))]

theorem map_setDinode (hx : x < v.sb.ninodes) (d : Dinode) :
    (v.setDinode x d).map = update v.map x (if d.type = 0 then fun _ => 0 else d.addrs) := by
  funext y
  by_cases hy : y = x
  · subst hy
    simp only [map, Live, setDinode_sb, dinode_setDinode, if_true, hx, true_and]
    by_cases hd : d.type = 0
    · simp [hd]
    · simp [hd]
  · have hd : (v.setDinode x d).dinode y = v.dinode y := by rw [dinode_setDinode, if_neg hy]
    have hl : (v.setDinode x d).Live y ↔ v.Live y := by simp only [Live, setDinode_sb, hd]
    rw [update_of_ne hy]
    by_cases hlive : v.Live y
    · rw [map, map, if_pos hlive, if_pos (hl.mpr hlive), hd]
    · rw [map, map, if_neg hlive, if_neg (mt hl.mp hlive)]

/-- References are not in the inode blocks. -/
theorem refs_setDinode (hok : v.Ok) (hx : x < v.sb.ninodes) {m : Nat → Addrs} (ho : v.Owned m)
    (d : Dinode) : refs (v.setDinode x d).disk m = refs v.disk m :=
  refs_congr fun y hy => disk_setDinode hok hx d (ho.isData (q := (y, .addr (Fin.last NDIRECT))) hy)

theorem Owned.setDinode {m : Nat → Addrs} (ho : v.Owned m) (hok : v.Ok) (hx : x < v.sb.ninodes)
    (d : Dinode) : (v.setDinode x d).Owned m := by
  rw [Owned, refs_setDinode hok hx ho d]
  refine Alloc.Owned.congr_used ho ?_ fun c _ => bit_setDinode hok hx d c
  exact hok.wf.fits

/-- **`iupdate`** makes the disk agree with what counted while the inode was locked. -/
theorem iupdate_owned (hok : v.Ok) (hx : x < v.sb.ninodes) (ho : v.Owned (v.mapWith i x))
    {a : Attr} (ha : a.type ≠ 0) : (v.iupdate i x a).Owned (v.iupdate i x a).map := by
  rw [iupdate, map_setDinode hx, if_neg ha]
  exact ho.setDinode hok hx _

/-! ## Freeing blocks -/

/-- Freeing touches the free map only. -/
structure Unmarked (v v' : Vol) : Prop where
  frame : Frame v v'
  size : v'.size = v.size
  data : ∀ c, v.sb.IsData c → v'.disk c = v.disk c

theorem Unmarked.trans {v'' : Vol} (h : Unmarked v v') (h' : Unmarked v' v'') :
    Unmarked v v'' where
  frame := h.frame.trans h'.frame
  size := h'.size.trans h.size
  data c hc := (h'.data c (by rw [h.frame.sb]; exact hc)).trans (h.data c hc)

/-- One direct block, or an indirect block without words. -/
theorem freeAddr_ok (hok : v.Ok) {r : Nat × Pos → Nat}
    (ho : Alloc.Owned v.sb.dataStart v.sb.size r v.bit) {j : Fin (NDIRECT + 1)}
    (hr : r (x, .addr j) = (v.addrs i j).toNat) :
    ∃ v', freeAddr i v j = .ok v' ∧ Unmarked v v' ∧
      v'.addrs = update v.addrs i (update (v.addrs i) j 0) ∧
      Alloc.Owned v.sb.dataStart v.sb.size (update r (x, .addr j) 0) v'.bit := by
  rw [freeAddr]
  by_cases h₀ : v.addrs i j = 0
  · rw [if_pos h₀]
    have hr₀ : r (x, .addr j) = 0 := by rw [hr, h₀]; rfl
    refine ⟨v, rfl, ⟨.refl v, rfl, fun _ _ => rfl⟩, ?_, ?_⟩
    · rw [← h₀, update_eq_self, update_eq_self]
    · rwa [← hr₀, update_eq_self]
  · have hq : r (x, .addr j) ≠ 0 := by
      rw [hr]
      intro h
      exact h₀ (UInt32.toNat_inj.mp h)
    obtain ⟨w, hw, hf, hsz, hadd, hdat, hbit⟩ := bfree_ok hok ho hq
    rw [if_neg h₀, ← hr, hw]
    refine ⟨w.setAddr i j 0, rfl, ⟨⟨hf.sb, hf.super, hf.dinode⟩, hsz, hdat⟩, ?_, ?_⟩
    · rw [setAddr, hadd]
      rfl
    · show Alloc.Owned _ _ _ w.bit
      rw [hbit]
      exact ho.free dataStart_pos hq

theorem freeDirect_ok : ∀ {l : List (Fin (NDIRECT + 1))} {v : Vol} {r : Nat × Pos → Nat}, v.Ok →
    Alloc.Owned v.sb.dataStart v.sb.size r v.bit →
    (∀ j, r (x, .addr j) = (v.addrs i j).toNat) →
    ∃ v', l.foldlM (freeAddr i) v = .ok v' ∧ Unmarked v v' ∧
      (∀ k, k ≠ i → v'.addrs k = v.addrs k) ∧
      (∀ j, v'.addrs i j = if j ∈ l then 0 else v.addrs i j) ∧
      Alloc.Owned v.sb.dataStart v.sb.size
        (fun q => if q.1 = x ∧ ∃ j ∈ l, q.2 = .addr j then 0 else r q) v'.bit
  | [], v, r, hok, ho, hr =>
    ⟨v, rfl, ⟨.refl v, rfl, fun _ _ => rfl⟩, fun _ _ => rfl, fun _ => by simp, by simpa using ho⟩
  | j :: l, v, r, hok, ho, hr => by
    obtain ⟨w, hw, hu, hadd, how⟩ := freeAddr_ok (i := i) hok ho (hr j)
    have how' : Alloc.Owned w.sb.dataStart w.sb.size (update r (x, .addr j) 0) w.bit := by
      rw [hu.frame.sb]; exact how
    have hwi : w.addrs i = update (v.addrs i) j 0 := by
      rw [hadd, update_self]
    obtain ⟨v', hv', hu', hsl, had', ho'⟩ := freeDirect_ok (l := l) (hu.frame.ok hok) how' (by
      intro k
      rw [hwi]
      by_cases hk : k = j
      · subst hk; simp
      · have hne : (x, Pos.addr k) ≠ (x, .addr j) := by simpa using hk
        rw [update_of_ne hne, update_of_ne hk, hr])
    refine ⟨v', ?_, hu.trans hu', fun k hk => ?_, fun k => ?_, ?_⟩
    · rw [foldlM_cons, hw]
      exact hv'
    · rw [hsl k hk, hadd, update_of_ne hk]
    · rw [had', hwi]
      by_cases hk : k = j
      · subst hk; simp
      · simp [hk]
    · rw [hu.frame.sb] at ho'
      refine cast (congrArg (fun r => Alloc.Owned _ _ r v'.bit) ?_) ho'
      funext q
      obtain ⟨y, p⟩ := q
      by_cases hq : (y, p) = (x, Pos.addr j)
      · cases hq
        simp
      · rw [update_of_ne hq]
        have : (y = x ∧ ∃ k ∈ j :: l, p = Pos.addr k) ↔ (y = x ∧ ∃ k ∈ l, p = Pos.addr k) := by
          constructor
          · rintro ⟨rfl, k, hk, rfl⟩
            rcases mem_cons.mp hk with rfl | hk
            · exact absurd rfl hq
            · exact ⟨rfl, k, hk, rfl⟩
          · rintro ⟨rfl, k, hk, rfl⟩
            exact ⟨rfl, k, mem_cons_of_mem j hk, rfl⟩
        simp only [this]

/-- The second loop of `itrunc`, over the words `l` of the indirect block `a`. -/
theorem freeWords_ok {a : Block} : ∀ {l : List Nat} {v : Vol} {r : Nat × Pos → Nat}, v.Ok →
    Alloc.Owned v.sb.dataStart v.sb.size r v.bit →
    (∀ k : Fin NINDIRECT, k.val ∈ l → r (x, .word k) = (a.word k).toNat) →
    l.Nodup → (∀ k ∈ l, k < NINDIRECT) →
    ∃ v', l.foldlM (freeWords a) v = .ok v' ∧ Unmarked v v' ∧ v'.addrs = v.addrs ∧
      Alloc.Owned v.sb.dataStart v.sb.size
        (fun q => if q.1 = x ∧ ∃ k : Fin NINDIRECT, k.val ∈ l ∧ q.2 = .word k then 0 else r q)
        v'.bit
  | [], v, r, hok, ho, _, _, _ =>
    ⟨v, rfl, ⟨.refl v, rfl, fun _ _ => rfl⟩, rfl, by simpa using ho⟩
  | k :: l, v, r, hok, ho, hr, hnd, hlt => by
    have hk : k < NINDIRECT := hlt k mem_cons_self
    have hrk : r (x, .word ⟨k, hk⟩) = (a.word k).toNat := hr ⟨k, hk⟩ mem_cons_self
    -- one word, free or not
    have hone : ∃ w, freeWords a v k = .ok w ∧ Unmarked v w ∧ w.addrs = v.addrs ∧
        Alloc.Owned v.sb.dataStart v.sb.size (update r (x, .word ⟨k, hk⟩) 0) w.bit := by
      rw [freeWords]
      by_cases h₀ : a.word k = 0
      · have hr₀ : r (x, .word ⟨k, hk⟩) = 0 := by rw [hrk, h₀]; rfl
        rw [if_pos h₀]
        exact ⟨v, rfl, ⟨.refl v, rfl, fun _ _ => rfl⟩, rfl,
          by rwa [← hr₀, update_eq_self]⟩
      · have hq : r (x, .word ⟨k, hk⟩) ≠ 0 := by
          rw [hrk]
          intro h
          exact h₀ (UInt32.toNat_inj.mp h)
        obtain ⟨w, hw, hf, hsz, hadd, hdat, hbit⟩ := bfree_ok hok ho hq
        rw [if_neg h₀, ← hrk, hw]
        exact ⟨w, rfl, ⟨hf, hsz, hdat⟩, hadd, by rw [hbit]; exact ho.free dataStart_pos hq⟩
    obtain ⟨w, hw, hu, hadd, how⟩ := hone
    have how' : Alloc.Owned w.sb.dataStart w.sb.size
        (update r (x, .word ⟨k, hk⟩) 0) w.bit := by rw [hu.frame.sb]; exact how
    obtain ⟨hkl, hnd'⟩ := nodup_cons.mp hnd
    obtain ⟨v', hv', hu', hadd', ho'⟩ := freeWords_ok (a := a) (l := l) (hu.frame.ok hok) how'
      (by
        intro j hj
        have hne : (x, Pos.word j) ≠ (x, .word ⟨k, hk⟩) := by
          intro he
          simp only [Prod.mk.injEq, true_and, Pos.word.injEq] at he
          rw [he] at hj
          exact hkl hj
        rw [update_of_ne hne, hr j (mem_cons_of_mem k hj)])
      hnd' (fun j hj => hlt j (mem_cons_of_mem k hj))
    refine ⟨v', ?_, hu.trans hu', hadd'.trans hadd, ?_⟩
    · rw [foldlM_cons, hw]
      exact hv'
    · rw [hu.frame.sb] at ho'
      refine cast (congrArg (fun r => Alloc.Owned _ _ r v'.bit) ?_) ho'
      funext q
      obtain ⟨y, p⟩ := q
      by_cases hq : (y, p) = (x, Pos.word ⟨k, hk⟩)
      · cases hq
        simp
      · rw [update_of_ne hq]
        have : (y = x ∧ ∃ j : Fin NINDIRECT, j.val ∈ k :: l ∧ p = Pos.word j) ↔
            (y = x ∧ ∃ j : Fin NINDIRECT, j.val ∈ l ∧ p = Pos.word j) := by
          constructor
          · rintro ⟨rfl, j, hj, rfl⟩
            rcases mem_cons.mp hj with hjk | hj
            · exact absurd (by congr 2; exact Fin.ext hjk) hq
            · exact ⟨rfl, j, hj, rfl⟩
          · rintro ⟨rfl, j, hj, rfl⟩
            exact ⟨rfl, j, mem_cons_of_mem k hj, rfl⟩
        simp only [this]

/-- The references once inode `x` has none. -/
def refsWithout (v : Vol) (i : InodeId) (x : Nat) : Nat × Pos → Nat :=
  fun q => if q.1 = x then 0 else v.refsWith i x q

theorem ind_addrs_ne {j : Fin NDIRECT} : (j.castSucc : Fin (NDIRECT + 1)) ≠ Fin.last NDIRECT :=
  (Fin.castSucc_lt_last j).ne

theorem mem_direct {j : Fin (NDIRECT + 1)} :
    j ∈ (List.finRange NDIRECT).map Fin.castSucc ↔ j ≠ Fin.last NDIRECT := by
  constructor
  · intro h
    obtain ⟨k, -, rfl⟩ := mem_map.mp h
    exact ind_addrs_ne
  · intro h
    exact mem_map.mpr ⟨j.castPred h, mem_finRange _, Fin.castSucc_castPred j h⟩

/-- The loops of `itrunc`: all blocks of the inode are freed. -/
theorem freeBlocks_ok (hok : v.Ok) (ho : v.Owned (v.mapWith i x)) :
    ∃ w, freeBlocks i v = .ok w ∧ Unmarked v w ∧
      w.addrs = update v.addrs i (fun _ => 0) ∧
      Alloc.Owned v.sb.dataStart v.sb.size (v.refsWithout i x) w.bit := by
  obtain ⟨w₁, hw₁, hu₁, hsl₁, had₁, ho₁⟩ := freeDirect_ok
    hok ho
    (fun j => by rw [← refsWith, refsWith_self]; rfl)
  have hlast : w₁.addrs i (Fin.last NDIRECT) = v.addrs i (Fin.last NDIRECT) := by
    rw [had₁, if_neg (fun h => mem_direct.mp h rfl)]
  rw [freeBlocks, hw₁]
  show ∃ w, (if w₁.addrs i (Fin.last NDIRECT) = 0 then _ else _) = _ ∧ _
  by_cases h₀ : w₁.addrs i (Fin.last NDIRECT) = 0
  · rw [if_pos h₀]
    refine ⟨w₁, rfl, hu₁, ?_, ?_⟩
    · funext k
      by_cases hk : k = i
      · subst hk
        rw [update_self]
        funext j
        by_cases hj : j = Fin.last NDIRECT
        · rw [hj, h₀]
        · rw [had₁, if_pos (mem_direct.mpr hj)]
      · rw [update_of_ne hk, hsl₁ k hk]
    refine cast (congrArg (fun r => Alloc.Owned _ _ r w₁.bit) ?_) ho₁
    ext ⟨y, p⟩
    by_cases hy : y = x
    · subst hy
      have hind : ind (v.addrs i) = 0 := ind_eq_zero.mpr (hlast.symm.trans h₀)
      rw [refsWithout, if_pos rfl]
      cases p with
      | addr j =>
        by_cases hj : j = Fin.last NDIRECT
        · subst hj
          show (if _ then 0 else v.refsWith i y _) = 0
          rw [refsWith_self, refAt_last, hind, ite_self]
        · exact if_pos ⟨rfl, j, mem_direct.mpr hj, rfl⟩
      | word j =>
        show (if _ then 0 else v.refsWith i y _) = 0
        rw [refsWith_self, refAt, if_pos hind, ite_self]
    · rw [refsWithout, if_neg hy, if_neg (fun h => hy h.1)]
      rfl
  · rw [if_neg h₀]
    have hok₁ := hu₁.frame.ok hok
    have hind : ind (v.addrs i) ≠ 0 := fun h => h₀ (hlast.trans (ind_eq_zero.mp h))
    have hdat : w₁.disk (ind (v.addrs i)) = v.disk (ind (v.addrs i)) := by
      refine hu₁.data _ ?_
      have := ho.isData (q := (x, .addr (Fin.last NDIRECT)))
      rw [← refsWith, refsWith_self, refAt_last] at this
      exact this hind
    have ho₁' := ho₁
    rw [← hu₁.frame.sb] at ho₁'
    obtain ⟨w₂, hw₂, hu₂, had₂, ho₂⟩ := freeWords_ok
      (a := w₁.disk (w₁.addrs i (Fin.last NDIRECT)).toNat) hok₁ ho₁' (fun k _ => by
        rw [if_neg (by rintro ⟨-, j, -, hj⟩; cases hj), ← refsWith, refsWith_self, refAt,
          if_neg hind, hlast]
        rw [show (v.addrs i (Fin.last NDIRECT)).toNat = ind (v.addrs i) from rfl, hdat])
      nodup_range (fun k hk => mem_range.mp hk)
    rw [hw₂]
    have ho₂' := ho₂
    rw [← hu₂.frame.sb] at ho₂'
    obtain ⟨w₃, hw₃, hu₃, had₃, ho₃⟩ := freeAddr_ok
      (hu₂.frame.ok hok₁) ho₂' (by
        rw [if_neg (by rintro ⟨-, j, -, hj⟩; cases hj),
          if_neg (by rintro ⟨-, j, hj, he⟩; cases he; exact mem_direct.mp hj rfl), ← refsWith,
          refsWith_self, had₂, hlast]
        rfl)
    refine ⟨w₃, hw₃, (hu₁.trans hu₂).trans hu₃, ?_, ?_⟩
    · funext k
      by_cases hk : k = i
      · subst hk
        rw [had₃, update_self, update_self]
        funext j
        by_cases hj : j = Fin.last NDIRECT
        · rw [hj, update_self]
        · rw [update_of_ne hj, had₂, had₁, if_pos (mem_direct.mpr hj)]
      · rw [had₃, update_of_ne hk, update_of_ne hk, had₂, hsl₁ k hk]
    · rw [hu₂.frame.sb, hu₁.frame.sb] at ho₃
      refine cast (congrArg (fun r => Alloc.Owned _ _ r w₃.bit) ?_) ho₃
      ext ⟨y, p⟩
      by_cases hy : y = x
      · subst hy
        rw [refsWithout, if_pos rfl]
        cases p with
        | addr j =>
          by_cases hj : j = Fin.last NDIRECT
          · subst hj
            exact update_self ..
          · have hne : (y, Pos.addr j) ≠ (y, .addr (Fin.last NDIRECT)) := by simpa using hj
            rw [update_of_ne hne]
            exact ite_eq_left_iff.mpr fun _ => if_pos ⟨rfl, j, mem_direct.mpr hj, rfl⟩
        | word j =>
          have hne : (y, Pos.word j) ≠ (y, .addr (Fin.last NDIRECT)) := by simp
          rw [update_of_ne hne]
          exact if_pos ⟨rfl, j, mem_range.mpr j.isLt, rfl⟩
      · have hne : (y, p) ≠ (x, .addr (Fin.last NDIRECT)) := by simp [hy]
        rw [update_of_ne hne, refsWithout, if_neg hy, if_neg (fun h => hy h.1),
          if_neg (fun h => hy h.1)]
        rfl

/-- **`itrunc`** does not panic; it frees every block of the inode and no other. -/
theorem itrunc_ok (hok : v.Ok) (hx : x < v.sb.ninodes) (ho : v.Owned (v.mapWith i x)) (a : Attr) :
    ∃ v', itrunc i x a v = .ok v' ∧ v'.sb = v.sb ∧ v'.Ok ∧
      (∀ y, y < v.sb.ninodes → v'.dinode y =
        if y = x then ⟨a.type, a.major, a.minor, a.nlink, 0, fun _ => 0⟩ else v.dinode y) ∧
      v'.size = update v.size i 0 ∧
      v'.addrs = update v.addrs i (fun _ => 0) ∧
      (∀ c, v.sb.IsData c → v'.disk c = v.disk c) ∧
      v'.Owned (update v.map x (fun _ => 0)) := by
  obtain ⟨w, hw, hu, hadd, how⟩ := freeBlocks_ok hok ho
  have hwok : w.Ok := hu.frame.ok hok
  have hwx : x < w.sb.ninodes := by rw [hu.frame.sb]; exact hx
  -- with no addresses left the references on the disk are the remaining ones
  have howned : w.Owned (update v.map x (fun _ => 0)) := by
    rw [Owned, hu.frame.sb]
    refine cast (congrArg (fun r => Alloc.Owned _ _ r w.bit) ?_) how
    ext ⟨y, p⟩
    by_cases hy : y = x
    · subst hy
      rw [refsWithout, if_pos rfl, refs, update_self]
      cases p with
      | addr j => rfl
      | word j =>
        have h₀ : ind (fun _ => 0) = 0 := rfl
        rw [refAt, if_pos h₀]
    · rw [refsWithout, if_neg hy]
      show v.refsWith i x (y, p) = refAt w.disk (update v.map x (fun _ => 0) y) p
      rw [refsWith_of_ne hy, update_of_ne hy]
      cases p with
      | addr j => rfl
      | word j =>
        by_cases h₀ : ind (v.map y) = 0
        · rw [refAt, refAt, if_pos h₀, if_pos h₀]
        · have hd : v.sb.IsData (ind (v.map y)) := by
            have := ho.isData (q := (y, .addr (Fin.last NDIRECT)))
            rw [← refsWith, refsWith_of_ne hy, refAt_last] at this
            exact this h₀
          rw [refAt, refAt, if_neg h₀, if_neg h₀, hu.data _ hd]
  refine ⟨(w.setSize i 0).iupdate i x a, ?_, hu.frame.sb, ?_, ?_, ?_, hadd, ?_, ?_⟩
  · rw [itrunc, hw]
    rfl
  · have : (w.setSize i 0).Ok := ⟨hwok.wf, hwok.super⟩
    exact setDinode_ok this _
  · intro y hy
    rw [iupdate, dinode_setDinode]
    by_cases hyx : y = x
    · rw [if_pos hyx, if_pos hyx]
      simp only [setSize, update_self, hadd]
      rfl
    · rw [if_neg hyx, if_neg hyx]
      exact hu.frame.dinode y hy
  · rw [iupdate, setDinode_size, setSize, hu.size]
    rfl
  · intro c hc
    rw [iupdate, disk_setDinode (v := w.setSize i 0) ⟨hwok.wf, hwok.super⟩ hwx _
      (by rw [show (w.setSize i 0).sb = v.sb from hu.frame.sb]; exact hc)]
    exact hu.data c hc
  · exact Owned.setDinode howned ⟨hwok.wf, hwok.super⟩ hwx _

/-- **`ialloc`** stores an empty inode in a free place. -/
theorem ialloc_ok {t : Int16} (h : v.ialloc t = .ok (x, v')) :
    1 ≤ x ∧ x < v.sb.ninodes ∧ (v.dinode x).type = 0 ∧
      (∀ y, 1 ≤ y → y < x → (v.dinode y).type ≠ 0) ∧
      v' = v.setDinode x ⟨t, 0, 0, 0, 0, fun _ => 0⟩ := by
  rw [ialloc] at h
  cases hf : (List.range' 1 (v.sb.ninodes - 1)).find? (fun x => (v.dinode x).type = 0) with
  | none => rw [hf] at h; cases h
  | some y =>
    rw [hf] at h
    cases h
    obtain ⟨hp, l₁, l₂, hl, hl₁⟩ := List.find?_eq_some_iff_append.mp hf
    have hmem : x ∈ List.range' 1 (v.sb.ninodes - 1) := mem_of_find?_eq_some hf
    rw [mem_range'_1] at hmem
    refine ⟨hmem.1, by omega, by simpa using hp, fun y hy hyx hy₀ => ?_, rfl⟩
    have hy' : y ∈ l₁ ++ x :: l₂ := by rw [← hl, mem_range'_1]; omega
    rcases mem_append.mp hy' with hy₁ | hy₂
    · simpa [hy₀] using hl₁ y hy₁
    · have hs : (x :: l₂).Pairwise (· < ·) := by
        have := pairwise_lt_range' (s := 1) (n := v.sb.ninodes - 1)
        rw [hl] at this
        exact (pairwise_append.mp this).2.1
      rcases mem_cons.mp hy₂ with rfl | hy₂
      · omega
      · have := (pairwise_cons.mp hs).1 y hy₂
        omega

end Vol

end Xv6.Fs
