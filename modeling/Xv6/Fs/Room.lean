/-
# `Xv6.Fs.Room` — the blocks a write needs, and an inode as an array of bytes

`bmap` goes through one or two positions of the inode for a block of the file,
and allocates where one is empty.  A write gets through if the disk has a free
block for each empty position on its way, and panics if it has not: the count is
`Spent` of `Xv6.Lib.Alloc`, kept by every step.  With it `readi` and `writei` are
settled for every consistent inode: they are reads and writes of an array of
bytes.
-/
import Xv6.Fs.Seek

namespace Xv6.Fs

open Machine Bytes Finset
open Wp (ok_of_bind)

/-! ## The way of a write -/

/-- The positions `bmap` goes through for block `bn` of a file. -/
def path (bn : Nat) : Finset Pos :=
  if bn < NDIRECT then {posOf bn} else {.addr (Fin.last NDIRECT), posOf bn}

/-- How many blocks of a file the bytes `[off, off + n)` lie in. -/
def blocks (off n : Nat) : Nat := if n = 0 then 0 else (off % BSIZE + n - 1) / BSIZE + 1

/-- The positions on the way of a write to the bytes `[off, off + n)`. -/
def positions (off n : Nat) : Finset Pos :=
  (Finset.range (blocks off n)).biUnion fun j => path (off / BSIZE + j)

theorem posOf_mem_path (bn : Nat) : posOf bn ∈ path bn := by
  rw [path]
  split
  · exact mem_singleton_self _
  · exact mem_insert_of_mem (mem_singleton_self _)

theorem path_subset_positions (off : Nat) {n k : Nat} (hk : k < n) :
    path ((off + k) / BSIZE) ⊆ positions off n := by
  intro p hp
  have hj : (off + k) / BSIZE = off / BSIZE + ((off + k) / BSIZE - off / BSIZE) := by
    simp only [BSIZE]; omega
  refine mem_biUnion.mpr ⟨(off + k) / BSIZE - off / BSIZE, mem_range.mpr ?_, ?_⟩
  · rw [blocks, if_neg (by omega)]
    simp only [BSIZE]
    omega
  · rwa [← hj]

variable {off : Nat} {p : Pos}

/-- Every position is on the way to a byte. -/
theorem mem_positions {n : Nat} (hp : p ∈ positions off n) :
    ∃ k, k < n ∧ p ∈ path ((off + k) / BSIZE) := by
  obtain ⟨j, hj, hp⟩ := mem_biUnion.mp hp
  have hj := mem_range.mp hj
  rw [blocks] at hj
  split at hj
  · exact absurd hj (Nat.not_lt_zero j)
  · refine ⟨j * BSIZE - off % BSIZE, ?_, ?_⟩
    · simp only [BSIZE] at hj ⊢
      omega
    · rwa [show (off + (j * BSIZE - off % BSIZE)) / BSIZE = off / BSIZE + j by
        simp only [BSIZE] at hj ⊢
        omega]

theorem positions_append (off n m : Nat) :
    positions off (n + m) = positions off n ∪ positions (off + n) m := by
  refine Finset.Subset.antisymm (fun p hp => ?_) (union_subset (fun p hp => ?_) fun p hp => ?_)
  · obtain ⟨k, hk, hp⟩ := mem_positions hp
    by_cases hkn : k < n
    · exact mem_union_left _ (path_subset_positions _ hkn hp)
    · refine mem_union_right _ (path_subset_positions _ (k := k - n) (by omega) ?_)
      rwa [Nat.add_assoc, Nat.add_sub_cancel' (Nat.le_of_not_lt hkn)]
  · obtain ⟨k, hk, hp⟩ := mem_positions hp
    exact path_subset_positions _ (Nat.lt_add_right m hk) hp
  · obtain ⟨k, hk, hp⟩ := mem_positions hp
    rw [Nat.add_assoc] at hp
    exact path_subset_positions _ (Nat.add_lt_add_left hk n) hp

variable {src : List UInt8}

namespace Vol

variable {v v' v'' : Vol} {i : InodeId} {x b bn : Nat} {L : Finset Pos} {e : Panic}

/-- The blocks that are free. -/
def spare (v : Vol) : Finset Nat := Alloc.spare v.sb.size v.bit

/-- The positions of `L` at which the inode in memory has no block. -/
def lacking (v : Vol) (i : InodeId) (L : Finset Pos) : Finset Pos :=
  Alloc.lacking (refAt v.disk (v.addrs i)) L

/-- The blocks allocated on the way from `v` to `v'` are at positions of `L`. -/
def Spent (v : Vol) (i : InodeId) (L : Finset Pos) (v' : Vol) : Prop :=
  v.spare.card + (v'.lacking i L).card = v'.spare.card + (v.lacking i L).card

/-- There are not enough free blocks. -/
def Short (v : Vol) (i : InodeId) (L : Finset Pos) : Prop := v.spare.card < (v.lacking i L).card

instance (v : Vol) (i : InodeId) (L : Finset Pos) : Decidable (v.Short i L) :=
  inferInstanceAs (Decidable (_ < _))

theorem Spent.trans (h : Spent v i L v') (h' : Spent v' i L v'') : Spent v i L v'' := by
  simp only [Spent] at *
  omega

theorem Spent.short (h : Spent v i L v') : v'.Short i L ↔ v.Short i L := by
  simp only [Spent, Short] at *
  omega

/-- With no empty position left there were enough blocks. -/
theorem Spent.not_short (h : Spent v i L v') (h' : v'.lacking i L = ∅) : ¬ v.Short i L := by
  rw [Spent, h', card_empty] at h
  simp only [Short]
  omega

theorem mem_lacking (x : Nat) : p ∈ v.lacking i L ↔ p ∈ L ∧ v.refsWith i x (x, p) = 0 := by
  rw [lacking, Alloc.lacking, mem_filter, refsWith_self]

theorem Short.mono {L' : Finset Pos} (hL : L ⊆ L') (h : v.Short i L) : v.Short i L' :=
  Nat.lt_of_lt_of_le h (card_le_card (filter_subset_filter _ hL))

/-- Positions that have their blocks do not count. -/
theorem short_union {L' : Finset Pos} (h : v.lacking i L = ∅) :
    v.Short i (L ∪ L') ↔ v.Short i L' := by
  have he : v.lacking i (L ∪ L') = v.lacking i L' := by
    rw [lacking, Alloc.lacking, filter_union]
    exact (congrArg (· ∪ _) h).trans (empty_union _)
  rw [Short, Short, he]

/-- Nothing is free, and a position is empty. -/
theorem short_of_mem (hs : v.spare = ∅) (hp : p ∈ v.lacking i L) : v.Short i L := by
  rw [Short, hs, card_empty]
  exact card_pos.mpr ⟨p, hp⟩

/-- The same references of the inode and the same map. -/
theorem Spent.of_same (hsb : v'.sb = v.sb) (hbit : ∀ c, c < v.sb.size → v'.bit c = v.bit c)
    (hr : ∀ p, refAt v'.disk (v'.addrs i) p = refAt v.disk (v.addrs i) p) : Spent v i L v' := by
  have := Alloc.Spent.of_same (L := L) hbit fun p _ => (by rw [hr p] :
    refAt v'.disk (v'.addrs i) p = 0 ↔ refAt v.disk (v.addrs i) p = 0)
  rwa [Spent, spare, spare, hsb]

/-- A block was allocated for the empty position `p`. -/
theorem Grew.spent {m : Nat → Addrs} {w : Vol} (hg : Grew v i x (· = p) v') (ha : Alloced v m b w)
    (hbit : ∀ c, c < v.sb.size → v'.bit c = w.bit c) (hp : p ∈ v.lacking i L)
    (hp' : v'.refsWith i x (x, p) ≠ 0) : Spent v i L v' := by
  obtain ⟨hL, h₀⟩ := (mem_lacking x).mp hp
  rw [refsWith_self] at h₀ hp'
  have := Alloc.Spent.alloc ha.unmarked ha.isData.2
    (fun c hc => (hbit c hc).trans (ha.bit c hc)) hL h₀ hp' fun q hq => by
      rw [← refsWith_self, ← refsWith_self]
      constructor
      · intro hz
        by_contra hne
        exact hne ((hg.grow _ hne).symm.trans hz)
      · intro hz
        by_contra hne
        exact hq (hg.fills _ hz hne).2
  rwa [Spent, spare, spare, hg.frame.sb]

theorem balloc_full (h : v.balloc = .error e) : e = .balloc ∧ v.spare = ∅ := by
  rw [balloc] at h
  split at h
  · cases h
  · rename_i hnone
    cases h
    refine ⟨rfl, filter_eq_empty_iff.mpr fun b hb hf => ?_⟩
    have := List.find?_eq_none.mp hnone b (List.mem_range.mpr (mem_range.mp hb))
    rw [hf] at this
    exact this rfl

theorem addrOrAlloc_spent (hok : v.Ok) (ho : v.Owned (v.mapWith i x)) {j : Fin (NDIRECT + 1)}
    (hj : .addr j ∈ L) (h : v.addrOrAlloc i j = .ok (b, v')) : Spent v i L v' := by
  obtain ⟨hg, hb, hb₀, hs⟩ := addrOrAlloc_ok hok ho h
  by_cases h₀ : v.refsWith i x (x, .addr j) = 0
  · have hz : v.addrs i j = 0 := by
      rw [refsWith_self, refAt] at h₀
      exact UInt32.toNat_inj.mp h₀
    rw [addrOrAlloc, if_pos hz] at h
    obtain ⟨⟨b', w⟩, hb', h⟩ := ok_of_bind h
    cases h
    exact hg.spent (balloc_ok hok ho hb') (fun _ _ => rfl) ((mem_lacking x).mpr ⟨hj, h₀⟩)
      (by rw [hb]; exact hb₀)
  · rw [hs h₀]
    rfl

theorem addrOrAlloc_short {j : Fin (NDIRECT + 1)} (hj : .addr j ∈ L)
    (h : v.addrOrAlloc i j = .error e) : e = .balloc ∧ v.Short i L := by
  rw [addrOrAlloc] at h
  split at h
  · rename_i hz
    cases hb : v.balloc with
    | error e' =>
      rw [hb] at h
      cases h
      obtain ⟨he, hs⟩ := balloc_full hb
      refine ⟨he, short_of_mem hs ((mem_lacking 0).mpr ⟨hj, ?_⟩)⟩
      rw [refsWith_self, refAt, hz]
      rfl
    | ok r => rw [hb] at h; cases h
  · cases h

theorem wordOrAlloc_spent (hok : v.Ok) (ho : v.Owned (v.mapWith i x)) {k : Fin NINDIRECT} {a : Nat}
    (ha : v.refsWith i x (x, .addr (Fin.last NDIRECT)) = a) (ha₀ : a ≠ 0) (hk : .word k ∈ L)
    (h : v.wordOrAlloc a k = .ok (b, v')) : Spent v i L v' := by
  obtain ⟨hg, hb, hb₀, hs⟩ := wordOrAlloc_ok hok ho ha ha₀ h
  have hself : v.refsWith i x (x, .word k) = ((v.disk a).word k).toNat := by
    rw [refsWith_self] at ha ⊢
    rw [refAt, if_neg (by rw [← refAt_last v.disk, ha]; exact ha₀), ← refAt_last v.disk, ha]
  by_cases h₀ : v.refsWith i x (x, .word k) = 0
  · have hz : (v.disk a).word k = 0 := UInt32.toNat_inj.mp (hself ▸ h₀)
    rw [wordOrAlloc, if_pos hz] at h
    obtain ⟨⟨b', w⟩, hb', h⟩ := ok_of_bind h
    cases h
    have hal := balloc_ok hok ho hb'
    have had : w.sb.IsData a := by
      rw [hal.frame.sb, ← ha]
      exact ho.isData (by rw [← refsWith, ha]; exact ha₀)
    exact hg.spent hal (fun c hc => bit_put_data had (by rw [hal.frame.sb]; exact hc))
      ((mem_lacking x).mpr ⟨hk, h₀⟩) (by rw [hb]; exact hb₀)
  · rw [hs h₀]
    rfl

theorem wordOrAlloc_short {k : Fin NINDIRECT} {a : Nat}
    (ha : v.refsWith i x (x, .addr (Fin.last NDIRECT)) = a) (ha₀ : a ≠ 0) (hk : .word k ∈ L)
    (h : v.wordOrAlloc a k = .error e) : e = .balloc ∧ v.Short i L := by
  rw [wordOrAlloc] at h
  split at h
  · rename_i hz
    cases hb : v.balloc with
    | error e' =>
      rw [hb] at h
      cases h
      obtain ⟨he, hs⟩ := balloc_full hb
      refine ⟨he, short_of_mem hs ((mem_lacking x).mpr ⟨hk, ?_⟩)⟩
      rw [refsWith_self] at ha ⊢
      rw [refAt, if_neg (by rw [← refAt_last v.disk, ha]; exact ha₀), ← refAt_last v.disk, ha, hz]
      rfl
    | ok r => rw [hb] at h; cases h
  · cases h

/-- The two halves of `bmap`, by position. -/
theorem path_indirect (hd : ¬ bn < NDIRECT) (hk : bn - NDIRECT < NINDIRECT) :
    path bn = {.addr (Fin.last NDIRECT), .word ⟨bn - NDIRECT, hk⟩} := by
  rw [path, if_neg hd, posOf_indirect hd hk]

/-- **`bmap`** pays for the positions on its path. -/
theorem bmap_spent (hok : v.Ok) (ho : v.Owned (v.mapWith i x)) (hbn : bn < MAXFILE)
    (hL : path bn ⊆ L) (h : v.bmap i bn = .ok (b, v')) : Spent v i L v' := by
  rw [bmap] at h
  by_cases hd : bn < NDIRECT
  · rw [dif_pos hd] at h
    exact addrOrAlloc_spent hok ho (hL (posOf_direct hd ▸ posOf_mem_path bn)) h
  · have hk := indirect_lt hbn hd
    rw [path_indirect hd hk] at hL
    rw [dif_neg hd, if_pos hk] at h
    obtain ⟨⟨a, w⟩, ha, h⟩ := ok_of_bind h
    obtain ⟨hg, hb, hb₀, -⟩ := addrOrAlloc_ok hok ho ha
    exact (addrOrAlloc_spent hok ho (hL (mem_insert_self ..)) ha).trans
      (wordOrAlloc_spent (hg.frame.ok hok) hg.owned hb hb₀
        (hL (mem_insert_of_mem (mem_singleton_self _))) h)

/-- **`bmap`** panics for want of blocks only. -/
theorem bmap_short (hok : v.Ok) (ho : v.Owned (v.mapWith i x)) (hbn : bn < MAXFILE)
    (hL : path bn ⊆ L) (h : v.bmap i bn = .error e) : e = .balloc ∧ v.Short i L := by
  rw [bmap] at h
  by_cases hd : bn < NDIRECT
  · rw [dif_pos hd] at h
    exact addrOrAlloc_short (hL (posOf_direct hd ▸ posOf_mem_path bn)) h
  · have hk := indirect_lt hbn hd
    rw [path_indirect hd hk] at hL
    rw [dif_neg hd, if_pos hk] at h
    have hlast := hL (mem_insert_self ..)
    cases ha : v.addrOrAlloc i (Fin.last NDIRECT) with
    | error e' =>
      rw [ha] at h
      cases h
      exact addrOrAlloc_short hlast ha
    | ok r =>
      obtain ⟨a, w⟩ := r
      rw [ha] at h
      simp only [bind, Except.bind] at h
      obtain ⟨hg, hb, hb₀, -⟩ := addrOrAlloc_ok hok ho ha
      obtain ⟨he, hs⟩ := wordOrAlloc_short hb hb₀
        (hL (mem_insert_of_mem (mem_singleton_self _))) h
      exact ⟨he, (addrOrAlloc_spent hok ho hlast ha).short.mp hs⟩

/-- A chunk spliced into the block `bmap` has found costs nothing more. -/
theorem splice_spent (hok : v.Ok) (ho : v.Owned (v.mapWith i x)) (hbn : bn < MAXFILE)
    (hL : path bn ⊆ L) (h : v.bmap i bn = .ok (b, v')) (data : Block) :
    Spent v i L (v'.put b data) := by
  obtain ⟨hg, hb, hb₀, -⟩ := bmap_ok hok ho hbn h
  have hd : v'.sb.IsData b := hb ▸ hg.owned.isData (by rw [← refsWith, hb]; exact hb₀)
  refine (bmap_spent hok ho hbn hL h).trans (.of_same rfl (fun _ hc => bit_put_data hd hc) fun p => ?_)
  rw [← refsWith_self, refsWith_put (hg.frame.ok hok) hg.owned hb hb₀, refsWith_self]

/-- **The loop of `writei`** pays for the positions on its way, and panics for want of
blocks only. -/
theorem writeLoop_spent : ∀ (fuel off : Nat) (src : List UInt8) {v : Vol}, v.Ok →
    v.Owned (v.mapWith i x) → src.length ≤ fuel → off + src.length ≤ MAXFILE * BSIZE →
    (∀ k, k < src.length → path ((off + k) / BSIZE) ⊆ L) →
    (∀ v', v.writeLoop i fuel off src = .ok v' → Spent v i L v') ∧
      ∀ e, v.writeLoop i fuel off src = .error e → e = .balloc ∧ v.Short i L
  | 0, off, src, v, _, _, _, _, _ => ⟨fun v' h => by cases h; rfl, fun e h => by cases h⟩
  | fuel + 1, off, src, v, hok, ho, hf, hm, hL => by
    rw [writeLoop]
    by_cases hs : src = []
    · rw [if_pos hs]
      exact ⟨fun v' h => by cases h; rfl, fun e h => by cases h⟩
    · rw [if_neg hs]
      have hn : src.length ≠ 0 := fun h₀ => hs (List.length_eq_zero_iff.mp h₀)
      have hpos : 0 < chunk off src.length := chunk_pos hn
      have hle := chunk_le off src.length
      have hbn : off / BSIZE < MAXFILE := by simp only [BSIZE] at *; omega
      have hL₀ : path (off / BSIZE) ⊆ L := hL 0 (Nat.pos_of_ne_zero hn)
      cases hb : v.bmap i (off / BSIZE) with
      | error e =>
        refine ⟨fun v' h => (by cases h), fun e' h => ?_⟩
        cases h
        exact bmap_short hok ho hbn hL₀ hb
      | ok r =>
        obtain ⟨b, w⟩ := r
        obtain ⟨-, hc⟩ := wrote_round hok ho hs hm hb
        have hspent := splice_spent hok ho hbn hL₀ hb
          ((w.disk b).splice (off % BSIZE) (src.take (chunk off src.length)))
        obtain ⟨hgood, hbad⟩ := writeLoop_spent fuel (off + chunk off src.length)
          (src.drop (chunk off src.length)) (hc.frame.ok hok) hc.owned
          (by rw [List.length_drop]; omega) (by rw [List.length_drop]; omega) fun k hk => by
            rw [Nat.add_assoc]
            exact hL _ (by rw [List.length_drop] at hk; omega)
        exact ⟨fun v' h => hspent.trans (hgood v' h),
          fun e h => ⟨(hbad e h).1, hspent.short.mp (hbad e h).2⟩⟩

/-- After a write no position on its way is empty. -/
theorem Wrote.lacking (h : Wrote v i x off src v') :
    v'.lacking i (positions off src.length) = ∅ := by
  refine eq_empty_of_forall_notMem fun p hp => ?_
  obtain ⟨hp, h₀⟩ := (mem_lacking x).mp hp
  obtain ⟨k, hk, hp⟩ := mem_positions hp
  obtain ⟨hin, -⟩ := h.inside k hk
  rw [path] at hp
  split at hp
  · rw [mem_singleton.mp hp] at h₀
    exact hin h₀
  · rename_i hd
    rcases mem_insert.mp hp with rfl | hp
    · -- a word that is there is in an indirect block that is there
      apply hin
      rw [refsWith_self, refAt_last] at h₀
      rw [refsWith_self, posOf, dif_neg hd, refAt, if_pos h₀]
    · rw [mem_singleton.mp hp] at h₀
      exact hin h₀

/-- The loop gets through exactly if there are blocks enough. -/
theorem writeLoop_room (hok : v.Ok) (ho : v.Owned (v.mapWith i x))
    (hm : off + src.length ≤ MAXFILE * BSIZE) :
    (¬ v.Short i (positions off src.length) → ∃ v', v.writeLoop i src.length off src = .ok v') ∧
      (v.Short i (positions off src.length) → v.writeLoop i src.length off src = .error .balloc) := by
  obtain ⟨hgood, hbad⟩ := writeLoop_spent _ _ _ hok ho (Nat.le_refl _) hm
    fun k hk => path_subset_positions off hk
  cases h : v.writeLoop i src.length off src with
  | ok v' =>
    refine ⟨fun _ => ⟨v', rfl⟩, fun hs => absurd hs ?_⟩
    exact (hgood v' h).not_short (writeLoop_ok hok ho (Nat.le_refl _) hm h).lacking
  | error e =>
    obtain ⟨rfl, hs⟩ := hbad e h
    exact ⟨fun hn => absurd hs hn, fun _ => rfl⟩

/-- There is a block for every byte of `[off, off + n)`. -/
def FilledAt (v : Vol) (i : InodeId) (off n : Nat) : Prop :=
  ∀ k, k < n → refAt v.disk (v.addrs i) (posOf ((off + k) / BSIZE)) ≠ 0

/-- A write where every block is there takes no free block. -/
theorem not_short_of_filled {n : Nat} (h : v.FilledAt i off n) : ¬ v.Short i (positions off n) := by
  have hnone : v.lacking i (positions off n) = ∅ := by
    refine filter_eq_empty_iff.mpr fun p hp => ?_
    obtain ⟨k, hk, hp⟩ := mem_positions hp
    have hne := h k hk
    rw [path] at hp
    split at hp
    · rwa [mem_singleton.mp hp]
    · rename_i hd
      rcases mem_insert.mp hp with rfl | hp
      · rw [posOf, dif_neg hd, refAt] at hne
        exact fun h₀ => hne (if_pos h₀)
      · rwa [mem_singleton.mp hp]
  rw [Short, hnone]
  exact Nat.not_lt_zero _

end Vol

/-! ## Reads and writes -/

variable {P : Type} {n : Nat} {s : State P Vol} {i : InodeId}

/-- The file system is in order, and entry `i` of the inode cache has a regular file loaded. -/
structure Consistent (n : Nat) (s : State P Vol) (i : InodeId) : Prop where
  rel : Rel n s ⟨s.k, s.d.node⟩
  ready : Ready n ⟨s.k, s.d.node⟩ i

/-- The table may be the one the blocks hold. -/
theorem Rel.node {a : State P Table} (h : Rel n s a) : Rel n s ⟨s.k, s.d.node⟩ where
  k := rfl
  ninodes := h.ninodes
  holds := ⟨h.holds.ok, h.holds.owned, h.holds.sized, fun _ _ => rfl, fun _ _ => rfl⟩
  cached := h.cached

/-- `v` is the volume of `s` with the bytes `c` in the file of entry `i`. -/
structure Stored (n : Nat) (s : State P Vol) (i : InodeId) (c : List UInt8) (v : Vol) : Prop where
  consistent : Consistent n ⟨s.k, v⟩ i
  content : (v.node (s.k.inode i).inum).content = c
  live : ∀ y, s.d.Live y → v.Live y ∧ (v.node y).toAttr = (s.d.node y).toAttr
  others : ∀ y, y ≠ (s.k.inode i).inum → s.d.Live y → v.node y = s.d.node y

/-- The file system is in order, and entry `i` of the inode cache is loaded. -/
structure Loaded (n : Nat) (s : State P Vol) (i : InodeId) : Prop where
  rel : Rel n s ⟨s.k, s.d.node⟩
  tidy : Tidy n s.k s.d.node
  ref : 0 < (s.k.inode i).ref
  valid : (s.k.inode i).valid = true

/-- `v` is the volume of `s` with the bytes `c` in the inode of entry `i`. -/
structure Rewritten (n : Nat) (s : State P Vol) (i : InodeId) (c : List UInt8) (v : Vol) : Prop where
  loaded : Loaded n ⟨s.k, v⟩ i
  content : (v.node (s.k.inode i).inum).content = c
  live : ∀ y, s.d.Live y → v.Live y ∧ (v.node y).toAttr = (s.d.node y).toAttr
  others : ∀ y, y ≠ (s.k.inode i).inum → s.d.Live y → v.node y = s.d.node y

/-- What the table says of a write holds on the blocks. -/
theorem Loaded.wrote (h : Loaded n s i) {v' : Vol} {c : List UInt8}
    (hrel : Rel n ⟨s.k, v'⟩ (State.setContent ⟨s.k, s.d.node⟩ (s.k.inode i).inum c)) :
    Rewritten n s i c v' := by
  generalize hx : (s.k.inode i).inum = x at hrel
  have hset : ∀ y, (State.setContent ⟨s.k, s.d.node⟩ x c).d y =
      if y = x then ⟨(s.d.node x).toAttr, c⟩ else s.d.node y := fun y => Function.update_apply ..
  have hlive : ∀ y, s.d.Live y → v'.Live y := by
    intro y hy
    have hn : y < v'.sb.ninodes := by
      rw [hrel.ninodes, ← h.rel.ninodes]
      exact hy.1
    refine ⟨hn, ?_⟩
    rw [← hrel.holds.type y hn, hset]
    split
    · rename_i hyx
      rw [← hyx]
      exact hy.2
    · exact hy.2
  have hnode : ∀ y, s.d.Live y → v'.node y = if y = x then ⟨(s.d.node x).toAttr, c⟩ else s.d.node y := by
    intro y hy
    rw [← hrel.holds.node y (hlive y hy), hset]
  have hattr : ∀ y, s.d.Live y → (v'.node y).toAttr = (s.d.node y).toAttr := by
    intro y hy
    rw [hnode y hy]
    split
    · rename_i hyx
      rw [hyx]
    · rfl
  obtain ⟨hl, -⟩ := h.rel.loaded h.tidy h.ref h.valid
  subst hx
  refine ⟨⟨hrel.node, ⟨h.tidy.uniq, h.tidy.range, fun j hr hv => ?_, h.tidy.cwd⟩, h.ref, h.valid⟩, ?_,
    fun y hy => ⟨hlive y hy, hattr y hy⟩, fun y hyx hy => ?_⟩
  · obtain ⟨hj, -⟩ := h.rel.loaded h.tidy hr hv
    show _ = (v'.node _).toAttr ∧ (v'.node _).toAttr.type ≠ 0
    rw [hattr _ hj]
    exact h.tidy.alive j hr hv
  · rw [hnode _ hl, if_pos rfl]
  · rw [hnode y hy, if_neg hyx]

theorem Consistent.loaded (h : Consistent n s i) : Loaded n s i :=
  ⟨h.rel, h.ready.tidy, h.ready.ref, h.ready.valid⟩

theorem Consistent.stored (h : Consistent n s i) {v : Vol} {c : List UInt8}
    (hv : Rewritten n s i c v) : Stored n s i c v := by
  obtain ⟨hl, -⟩ := h.rel.loaded h.ready.tidy h.ready.ref h.ready.valid
  refine ⟨⟨hv.loaded.rel, hv.loaded.tidy, hv.loaded.ref, hv.loaded.valid, ?_⟩, hv.content, hv.live,
    hv.others⟩
  show (v.node _).toAttr.type = T_FILE
  rw [(hv.live _ hl).2]
  exact h.ready.regular

theorem Consistent.not_dev (h : Consistent n s i) : ¬ (s.k.inode i).type = T_DEV := by
  rw [show (s.k.inode i).type = T_FILE from h.ready.type]
  decide

/-- The addresses in memory are the ones on the disk. -/
theorem Loaded.owned (h : Loaded n s i) : s.d.Owned (s.d.mapWith i (s.k.inode i).inum) := by
  obtain ⟨hl, -, ha, -⟩ := h.rel.loaded h.tidy h.ref h.valid
  rw [Vol.mapWith_eq (by rw [ha, Vol.map, if_pos hl])]
  exact h.rel.holds.owned

theorem Consistent.owned (h : Consistent n s i) : s.d.Owned (s.d.mapWith i (s.k.inode i).inum) :=
  h.loaded.owned

/-- `writei` on a volume: refused, done, or out of blocks. -/
theorem Vol.writei_cases {v : Vol} {x : Nat} (a : Attr) (off : Nat) (src : List UInt8) (hok : v.Ok)
    (ho : v.Owned (v.mapWith i x)) :
    (((v.size i).toNat < off ∨ 2 ^ 32 ≤ off + src.length ∨ MAXFILE * BSIZE < off + src.length) →
      Vol.writei i x a off src v = .ok (-1, v)) ∧
    (off ≤ (v.size i).toNat → off + src.length ≤ MAXFILE * BSIZE →
      (¬ v.Short i (positions off src.length) → ∃ v', Vol.writei i x a off src v = .ok (src.length, v')) ∧
      (v.Short i (positions off src.length) → Vol.writei i x a off src v = .error .balloc)) := by
  constructor
  · intro hbad
    rw [Vol.writei]
    by_cases h₁ : (v.size i).toNat < off ∨ 2 ^ 32 ≤ off + src.length
    · exact if_pos h₁
    · exact (if_neg h₁).trans (if_pos (by omega))
  · intro hoff hm
    have h₁ : ¬ ((v.size i).toNat < off ∨ 2 ^ 32 ≤ off + src.length) := by
      simp only [MAXFILE, NDIRECT, NINDIRECT, BSIZE] at hm
      omega
    obtain ⟨hgood, hbad⟩ := Vol.writeLoop_room hok ho hm
    constructor
    · intro hs
      obtain ⟨w, hw⟩ := hgood hs
      rw [Vol.writei]
      simp only [if_neg h₁, if_neg (Nat.not_lt.mpr hm), hw]
      by_cases h₂ : 0 < src.length ∧ (w.size i).toNat < off + src.length
      · exact ⟨_, if_pos h₂⟩
      · exact ⟨_, if_neg h₂⟩
    · intro hs
      rw [Vol.writei]
      simp only [if_neg h₁, if_neg (Nat.not_lt.mpr hm), hbad hs]
      rfl

/-- A store to the inode leaves its references and the free map alone. -/
theorem Vol.iupdate_refAt {v : Vol} {x : Nat} {a : Attr} {m : Nat} (hok : v.Ok)
    (ho : v.Owned (v.mapWith i x)) (hx : x < v.sb.ninodes) (p : Pos) :
    refAt ((v.setSize i m).iupdate i x a).disk (((v.setSize i m).iupdate i x a).addrs i) p =
      refAt v.disk (v.addrs i) p := by
  refine refAt_congr (fun h₀ => ?_) p
  have hq : v.refsWith i x (x, .addr (Fin.last NDIRECT)) = ind (v.addrs i) := Vol.refsWith_self _
  refine Vol.disk_setDinode ⟨hok.wf, hok.super⟩ hx _ ?_
  show v.sb.IsData (ind (v.addrs i))
  rw [← hq]
  exact ho.isData (by rw [← Vol.refsWith, hq]; exact h₀)

/-- **What a `writei` that returns has allocated.** -/
theorem Vol.writei_spent {v v' : Vol} {x : Nat} {a : Attr} {r : Int} {L : Finset Pos} (hok : v.Ok)
    (ho : v.Owned (v.mapWith i x)) (hx : x < v.sb.ninodes) (hoff : off ≤ (v.size i).toNat)
    (hm : off + src.length ≤ MAXFILE * BSIZE) (hL : positions off src.length ⊆ L)
    (h : Vol.writei i x a off src v = .ok (r, v')) :
    v.Spent i L v' ∧ v'.lacking i (positions off src.length) = ∅ := by
  have h₁ : ¬ ((v.size i).toNat < off ∨ 2 ^ 32 ≤ off + src.length) := by
    simp only [MAXFILE, NDIRECT, NINDIRECT, BSIZE] at hm
    omega
  rw [Vol.writei] at h
  simp only [if_neg h₁, if_neg (Nat.not_lt.mpr hm)] at h
  cases hw : v.writeLoop i src.length off src with
  | error e => rw [hw] at h; cases h
  | ok w =>
    rw [hw] at h
    simp only [bind, Except.bind, pure, Except.pure] at h
    have hwrote := Vol.writeLoop_ok hok ho (Nat.le_refl _) hm hw
    have hspent := (Vol.writeLoop_spent _ _ _ hok ho (Nat.le_refl _) hm fun k hk =>
      (path_subset_positions off hk).trans hL).1 w hw
    split at h
    · cases h
      have hxw : x < w.sb.ninodes := by
        rw [hwrote.frame.sb]
        exact hx
      have hrefs := Vol.iupdate_refAt (a := a) (m := off + src.length) (hwrote.frame.ok hok)
        hwrote.owned hxw
      refine ⟨hspent.trans (.of_same rfl (fun c _ => ?_) hrefs), ?_⟩
      · exact Vol.bit_setDinode
          ⟨(hwrote.frame.ok hok).wf, (hwrote.frame.ok hok).super⟩ hxw _ c
      · rw [← hwrote.lacking]
        exact filter_congr fun p _ => by rw [hrefs p]
    · cases h
      exact ⟨hspent, hwrote.lacking⟩

/-- **`writei` on a loaded inode.** -/
theorem Loaded.writei (h : Loaded n s i) (off : Nat) (src : List UInt8) :
    (¬ canWrite (s.d.node (s.k.inode i).inum).content off src.length →
      Vol.writei i (s.k.inode i).inum (s.k.inode i).toAttr off src s.d = .ok (-1, s.d)) ∧
    (canWrite (s.d.node (s.k.inode i).inum).content off src.length →
      (¬ s.d.Short i (positions off src.length) →
        ∃ v', Vol.writei i (s.k.inode i).inum (s.k.inode i).toAttr off src s.d = .ok (src.length, v') ∧
          Rewritten n s i (overwrite (s.d.node (s.k.inode i).inum).content off src) v') ∧
      (s.d.Short i (positions off src.length) →
        Vol.writei i (s.k.inode i).inum (s.k.inode i).toAttr off src s.d = .error .balloc)) := by
  obtain ⟨hl, hs, ha, hattr⟩ := h.rel.loaded h.tidy h.ref h.valid
  have hlen : (s.d.node (s.k.inode i).inum).content.length = (s.d.size i).toNat := by
    rw [Vol.node, length_bytes, hs]
  obtain ⟨hrefuse, hwrite⟩ := Vol.writei_cases (s.k.inode i).toAttr off src
    h.rel.holds.ok h.owned
  simp only [canWrite, hlen]
  refine ⟨fun hc => hrefuse (by omega), fun hc => ⟨fun hroom => ?_, (hwrite hc.1 hc.2.2).2⟩⟩
  obtain ⟨v', hv'⟩ := (hwrite hc.1 hc.2.2).1 hroom
  obtain ⟨t', ht', hrel⟩ := h.rel.writei h.tidy h.ref h.valid hv'
  simp only [tableStore, canWrite, hlen, if_pos hc] at ht'
  cases ht'
  rw [Node.write, hattr, ite_self] at hrel
  exact ⟨v', hv', h.wrote hrel⟩

/-- **`writei` on a consistent inode.** -/
theorem Consistent.writei (h : Consistent n s i) (off : Nat) (src : List UInt8) :
    (¬ canWrite (s.d.node (s.k.inode i).inum).content off src.length →
      Vol.writei i (s.k.inode i).inum (s.k.inode i).toAttr off src s.d = .ok (-1, s.d)) ∧
    (canWrite (s.d.node (s.k.inode i).inum).content off src.length →
      (¬ s.d.Short i (positions off src.length) →
        ∃ v', Vol.writei i (s.k.inode i).inum (s.k.inode i).toAttr off src s.d = .ok (src.length, v') ∧
          Stored n s i (overwrite (s.d.node (s.k.inode i).inum).content off src) v') ∧
      (s.d.Short i (positions off src.length) →
        Vol.writei i (s.k.inode i).inum (s.k.inode i).toAttr off src s.d = .error .balloc)) := by
  obtain ⟨hrefuse, hwrite⟩ := h.loaded.writei off src
  refine ⟨hrefuse, fun hc => ⟨fun hroom => ?_, (hwrite hc).2⟩⟩
  obtain ⟨v', hv', hrewritten⟩ := (hwrite hc).1 hroom
  exact ⟨v', hv', h.stored hrewritten⟩

/-- The bytes of the file that entry `i` caches. -/
def State.content (s : State P Vol) (i : InodeId) : List UInt8 :=
  (s.d.node (s.k.inode i).inum).content

theorem Loaded.length_content (h : Loaded n s i) : (s.content i).length = (s.d.size i).toNat := by
  obtain ⟨-, hs, -⟩ := h.rel.loaded h.tidy h.ref h.valid
  rw [State.content, Vol.node, length_bytes, hs]

theorem Loaded.content_le (h : Loaded n s i) : (s.content i).length ≤ MAXFILE * BSIZE := by
  obtain ⟨hl, hs, -⟩ := h.rel.loaded h.tidy h.ref h.valid
  rw [h.length_content, hs]
  exact (h.rel.holds.sized _ hl).1

/-- Inside the file every byte has its block. -/
theorem Loaded.filledAt (h : Loaded n s i) {m : Nat} (hin : off + m ≤ (s.content i).length) :
    s.d.FilledAt i off m := by
  obtain ⟨hl, hs, ha, -⟩ := h.rel.loaded h.tidy h.ref h.valid
  intro k hk
  rw [h.length_content, hs] at hin
  rw [ha]
  exact (h.rel.holds.sized _ hl).2 _ (by omega)

/-- **An inode is an array of bytes.**  A read returns the bytes of its range up to the end of
the file, or -1 if it starts behind the end or wraps.  A write that may not be done returns -1
and changes nothing.  One that may be done replaces its range and nothing else, if the disk has
a free block for each position on its way that has none; if not, it panics. -/
theorem inode_bytes [DecidableEq P] (env : Env) (p : P) (h : Consistent n s i) (off m : Nat)
    (src : List UInt8) :
    exec blockStore env p (.readi i off m) s =
      .ok (readBytes (s.d.node (s.k.inode i).inum).content off m) s ∧
    (¬ canWrite (s.d.node (s.k.inode i).inum).content off src.length →
      exec blockStore env p (.writei i off src) s = .ok (-1 : Int) s) ∧
    (canWrite (s.d.node (s.k.inode i).inum).content off src.length →
      ¬ s.d.Short i (positions off src.length) →
      ∃ v', exec blockStore env p (.writei i off src) s = .ok (src.length : Int) ⟨s.k, v'⟩ ∧
        Consistent n ⟨s.k, v'⟩ i ∧
        (v'.node (s.k.inode i).inum).content =
          overwrite (s.d.node (s.k.inode i).inum).content off src ∧
        (v'.size i).toNat =
          max (s.d.node (s.k.inode i).inum).content.length (off + src.length) ∧
        (∀ y, s.d.Live y → v'.Live y ∧ (v'.node y).toAttr = (s.d.node y).toAttr) ∧
        ∀ y, y ≠ (s.k.inode i).inum → s.d.Live y → v'.node y = s.d.node y) ∧
    (canWrite (s.d.node (s.k.inode i).inum).content off src.length →
      s.d.Short i (positions off src.length) →
      exec blockStore env p (.writei i off src) s = .halt .balloc) := by
  obtain ⟨hrefuse, hwrite⟩ := h.writei off src
  simp only [exec, if_neg h.not_dev]
  refine ⟨?_, fun hc => ?_, fun hc hroom => ?_, fun hc hshort => ?_⟩
  · have := h.rel.readi h.ready.tidy h.ready.ref h.ready.valid off m
    simp only [blockStore, this]
  · simp only [blockStore, hrefuse hc]
  · obtain ⟨v', hv', hcon, hcontent, hlive, hothers⟩ := (hwrite hc).1 hroom
    refine ⟨v', by simp only [blockStore, hv'], hcon, hcontent, ?_, hlive, hothers⟩
    obtain ⟨-, hs', -⟩ := hcon.rel.loaded hcon.ready.tidy hcon.ready.ref hcon.ready.valid
    have : (v'.node (s.k.inode i).inum).content.length = (v'.size i).toNat := by
      rw [Vol.node, length_bytes, hs']
    rw [← this, hcontent, length_overwrite _ _ _ hc.1]
  · simp only [blockStore, (hwrite hc).2 hshort]

theorem seek_consistent : Consistent 2 seekStart.fs ⟨0, by decide⟩ :=
  ⟨seek_agree.rel, (seek_agree.opened () ⟨0, by decide⟩ ⟨0, by decide⟩ rfl).ready⟩

/-- Two bytes into the empty file of the small disk. -/
theorem inode_bytes_two : ∃ v', exec blockStore bareEnv () (.writei ⟨0, by decide⟩ 0 [7, 8])
      seekStart.fs = .ok (2 : Int) ⟨seekKernel, v'⟩ ∧
    (v'.node 1).content = [7, 8] := by
  obtain ⟨-, -, hwrite, -⟩ := inode_bytes bareEnv () seek_consistent 0 0 [7, 8]
  obtain ⟨v', hx, -, hc, -⟩ := hwrite (by decide +kernel) (by decide +kernel)
  refine ⟨v', hx, hc.trans ?_⟩
  decide +kernel

/-- **A full disk stops the kernel.**  The small disk has four blocks for data, and the write of
2049 bytes to its empty file, which is within the limits, does not return. -/
theorem writei_full : ∃ src : List UInt8, Consistent 2 seekStart.fs ⟨0, by decide⟩ ∧
    canWrite (smallVol.node 1).content 0 src.length ∧
    exec blockStore bareEnv () (.writei ⟨0, by decide⟩ 0 src) seekStart.fs = .halt .balloc := by
  obtain ⟨src, hlen⟩ : ∃ src : List UInt8, src.length = 2049 := ⟨_, List.length_replicate (a := 7)⟩
  have hown : smallVol.Owned (smallVol.mapWith ⟨0, by decide⟩ 1) := by
    rw [Vol.mapWith_eq (by rw [smallVol_map]; rfl)]
    exact smallVol_holds.owned
  obtain ⟨-, hwrite⟩ := Vol.writei_cases ⟨T_FILE, 0, 0, 1⟩ 0 src
    smallVol_holds.ok hown
  rw [hlen] at hwrite
  have hfull := (hwrite (Nat.zero_le _) (by decide)).2 (by decide +kernel)
  refine ⟨src, seek_consistent, by rw [hlen]; decide +kernel, ?_⟩
  have hip : seekStart.fs.k.inode ⟨0, by decide⟩ = ⟨⟨T_FILE, 0, 0, 1⟩, 1, 1, none, true⟩ := rfl
  have hd : seekStart.fs.d = smallVol := rfl
  simp only [exec, hip, hd, if_neg (show ¬ T_FILE = T_DEV by decide), blockStore, hfull]

end Xv6.Fs
