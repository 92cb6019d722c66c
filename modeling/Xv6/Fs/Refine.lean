/-
# `Xv6.Fs.Refine` — the blocks are used as a table of inodes

`Rel` relates a machine on the block store to one on a table: the same kernel
tables, ownership of blocks as in `Xv6.Fs.Own`, and for each allocated inode the
attributes and the bytes the table has.  `follows` is the refinement: as long as
commands are issued on inodes that are locked and loaded, the block store
answers as the table does.
-/
import Xv6.Fs.Table
import Xv6.Fs.Update

namespace Xv6.Fs

open Machine Bytes List
open Function (update update_apply update_eq_self update_idem update_of_ne update_self)

/-! ## The relation -/

/-- The inode `x` as the table sees it. -/
def Vol.node (v : Vol) (x : Nat) : Node where
  type := (v.dinode x).type
  major := (v.dinode x).major
  minor := (v.dinode x).minor
  nlink := (v.dinode x).nlink
  content := bytes v.disk (v.dinode x).addrs (v.dinode x).size.toNat

/-- The sizes of the allocated inodes are right: every byte has a block. -/
def Vol.Sized (v : Vol) : Prop :=
  ∀ x, v.Live x → (v.dinode x).size.toNat ≤ MAXFILE * BSIZE ∧
    Filled v.disk (v.dinode x).addrs (v.dinode x).size.toNat

variable {P : Type} {v' : Vol} {i : InodeId} {off : Nat} {src : List UInt8}

/-- The cached copies of size and addresses are the ones on the disk. -/
def Cached (k : Kernel P) (v : Vol) : Prop :=
  ∀ i, 0 < (k.inode i).ref → (k.inode i).valid = true →
    v.size i = (v.dinode (k.inode i).inum).size ∧ v.addrs i = (v.dinode (k.inode i).inum).addrs

/-- The block store holds the table. -/
structure Holds (v : Vol) (t : Table) : Prop where
  ok : v.Ok
  owned : v.Owned v.map
  sized : v.Sized
  type : ∀ x, x < v.sb.ninodes → (t x).type = (v.dinode x).type
  node : ∀ x, v.Live x → t x = v.node x

/-- **The simulation relation.** -/
structure Rel (n : Nat) (s : State P Vol) (a : State P Table) : Prop where
  k : a.k = s.k
  ninodes : s.d.sb.ninodes = n
  holds : Holds s.d a.d
  cached : Cached s.k s.d

/-! ## What the commands rely on -/

/-- The inode cache is in order: referenced entries are for different inodes of
the file system, and loaded ones for allocated inodes. -/
structure Tidy (n : Nat) (k : Kernel P) (t : Table) : Prop where
  uniq : ∀ i j, 0 < (k.inode i).ref → 0 < (k.inode j).ref →
    (k.inode i).inum = (k.inode j).inum → i = j
  range : ∀ i, 0 < (k.inode i).ref → (k.inode i).inum < n
  alive : ∀ i, 0 < (k.inode i).ref → (k.inode i).valid = true →
    (k.inode i).toAttr = (t (k.inode i).inum).toAttr ∧ (t (k.inode i).inum).type ≠ 0
  cwd : ∀ p i, k.cwd p = some i → 0 < (k.inode i).ref

/-- The commands that use the content or the attributes of an inode. -/
def Cmd.uses : Cmd → Option InodeId
  | .attr i | .size i | .setNlink i _ | .setNode i _ _ | .ifree i | .readi i _ _
  | .writei i _ _ => some i
  | _ => none

/-- What is asked of a command: inodes it uses are referenced and loaded, and
`ialloc` has a type. -/
structure Allowed (n : Nat) (c : Cmd) (a : State P Table) : Prop where
  tidy : Tidy n a.k a.d
  uses : ∀ i, c.uses = some i → 0 < (a.k.inode i).ref ∧ (a.k.inode i).valid = true
  load : ∀ i, c = .load i → 0 < (a.k.inode i).ref
  ialloc : ∀ t, c = .ialloc t → t ≠ 0
  panic : c ≠ .panic .bfree

/-! ## Stores to inodes -/

section Stores

variable {v : Vol} {t : Table} {x : Nat}

theorem refAt_congr {d d' : Disk} {a : Addrs} (h : ind a ≠ 0 → d' (ind a) = d (ind a)) (p : Pos) :
    refAt d' a p = refAt d a p := by
  cases p with
  | addr j => rfl
  | word j =>
    by_cases h₀ : ind a = 0
    · rw [refAt, refAt, if_pos h₀, if_pos h₀]
    · rw [refAt, refAt, if_neg h₀, if_neg h₀, h h₀]

theorem bytes_congr {d d' : Disk} {a : Addrs} {n : Nat} (hf : Filled d a n)
    (h : ∀ p, refAt d a p ≠ 0 → d' (refAt d a p) = d (refAt d a p)) :
    bytes d' a n = bytes d a n ∧ Filled d' a n := by
  have hr : ∀ p, refAt d' a p = refAt d a p :=
    refAt_congr fun h₀ => h (.addr (Fin.last NDIRECT)) h₀
  constructor
  · refine map_congr_left fun k hk => ?_
    rw [byteAt, byteAt, hr, h _ (hf k (mem_range.mp hk))]
  · intro k hk
    rw [hr]
    exact hf k hk

section

variable (h : Holds v t)
include h

theorem Holds.isData (hx : v.Live x) {p : Pos}
    (hp : refAt v.disk (v.dinode x).addrs p ≠ 0) :
    v.sb.IsData (refAt v.disk (v.dinode x).addrs p) := by
  have := h.owned.isData (q := (x, p))
  simp only [refs, Vol.map, if_pos hx] at this
  exact this hp

/-- Volumes that agree on an inode and on its blocks agree on the node. -/
theorem Holds.node_congr (hx : v.Live x) (hd : v'.dinode x = v.dinode x)
    (hdisk : ∀ p, refAt v.disk (v.dinode x).addrs p ≠ 0 →
      v'.disk (refAt v.disk (v.dinode x).addrs p) = v.disk (refAt v.disk (v.dinode x).addrs p)) :
    v'.node x = v.node x ∧ Filled v'.disk (v'.dinode x).addrs (v'.dinode x).size.toNat := by
  obtain ⟨h₁, h₂⟩ := bytes_congr (h.sized x hx).2 hdisk
  rw [Vol.node, Vol.node, hd, h₁]
  exact ⟨rfl, h₂⟩

/-- A store to the inode `x` that leaves the blocks alone. -/
theorem Holds.setDinode (hx : x < v.sb.ninodes) {d : Dinode} {node : Node}
    (howned : (v.setDinode x d).Owned (v.setDinode x d).map) (htype : node.type = d.type)
    (hlive : d.type ≠ 0 → d.size.toNat ≤ MAXFILE * BSIZE ∧
      Filled (v.setDinode x d).disk d.addrs d.size.toNat ∧ node = (v.setDinode x d).node x) :
    Holds (v.setDinode x d) (update t x node) where
  ok := Vol.setDinode_ok h.ok d
  owned := howned
  sized y hy := by
    by_cases hyx : y = x
    · subst hyx
      have hd := Vol.dinode_setDinode (v := v) (x := y) y d
      rw [if_pos rfl] at hd
      have := hy.2
      rw [hd] at this ⊢
      exact ⟨(hlive this).1, (hlive this).2.1⟩
    · have hd := Vol.dinode_setDinode (v := v) (x := x) y d
      rw [if_neg hyx] at hd
      have hy' : v.Live y := ⟨hy.1, by rw [← hd]; exact hy.2⟩
      refine ⟨by rw [hd]; exact (h.sized y hy').1, ?_⟩
      exact (h.node_congr hy' hd fun p hp => Vol.disk_setDinode h.ok hx d (h.isData hy' hp)).2
  type y hy := by
    rw [Vol.dinode_setDinode]
    by_cases hyx : y = x
    · subst hyx
      rw [update_self, if_pos rfl, htype]
    · rw [update_of_ne hyx, if_neg hyx, h.type y hy]
  node y hy := by
    by_cases hyx : y = x
    · subst hyx
      have hd := Vol.dinode_setDinode (v := v) (x := y) y d
      rw [if_pos rfl] at hd
      have := hy.2
      rw [hd] at this
      rw [update_self]
      exact (hlive this).2.2
    · have hd := Vol.dinode_setDinode (v := v) (x := x) y d
      rw [if_neg hyx] at hd
      have hy' : v.Live y := ⟨hy.1, by rw [← hd]; exact hy.2⟩
      rw [update_of_ne hyx, h.node y hy']
      exact (h.node_congr hy' hd fun p hp => Vol.disk_setDinode h.ok hx d (h.isData hy' hp)).1.symm

/-- **`iupdate`** of a loaded inode. -/
theorem Holds.iupdate (hx : v.Live x) (hs : v.size i = (v.dinode x).size)
    (ha : v.addrs i = (v.dinode x).addrs) {a : Attr} (hat : a.type ≠ 0) :
    Holds (v.iupdate i x a) (update t x { t x with toAttr := a }) := by
  have hm : v.mapWith i x = v.map := Vol.mapWith_eq (by rw [ha, Vol.map, if_pos hx])
  have hown := Vol.iupdate_owned h.ok hx.1 (by rw [hm]; exact h.owned) hat
  obtain ⟨hb, hf⟩ := bytes_congr (h.sized x hx).2 fun p hp =>
    Vol.disk_setDinode h.ok hx.1 ⟨a.type, a.major, a.minor, a.nlink, v.size i, v.addrs i⟩
      (h.isData hx hp)
  refine h.setDinode hx.1 hown rfl fun _ => ⟨by rw [hs]; exact (h.sized x hx).1, ?_, ?_⟩
  · rw [hs, ha] at hf ⊢
    exact hf
  · have hd := Vol.dinode_setDinode (v := v) (x := x) x
      ⟨a.type, a.major, a.minor, a.nlink, v.size i, v.addrs i⟩
    rw [if_pos rfl] at hd
    rw [Vol.node, hd, h.node x hx, Vol.node]
    simp only [hs, ha] at hb ⊢
    rw [hb]

/-- **`ialloc`** of a free inode. -/
theorem Holds.ialloc (hx : x < v.sb.ninodes) (hfree : (v.dinode x).type = 0)
    {type : Int16} (ht : type ≠ 0) :
    Holds (v.setDinode x ⟨type, 0, 0, 0, 0, fun _ => 0⟩)
      (update t x ⟨⟨type, 0, 0, 0⟩, []⟩) := by
  have hm : v.map x = fun _ => 0 := by rw [Vol.map, if_neg (fun hl => hl.2 hfree)]
  refine h.setDinode hx ?_ rfl fun _ => ⟨Nat.zero_le _, fun k hk => absurd hk (Nat.not_lt_zero k), ?_⟩
  · rw [Vol.map_setDinode hx, if_neg ht, ← hm, update_eq_self]
    exact h.owned.setDinode h.ok hx _
  · rw [Vol.node, Vol.dinode_setDinode, if_pos rfl]
    rfl

/-- **The freeing of an inode**: `itrunc`, and `iupdate` with type 0. -/
theorem Holds.ifree (hx : v.Live x) (ha : v.addrs i = (v.dinode x).addrs)
    (a : Attr) :
    ∃ v', Vol.itrunc i x a v = .ok v' ∧ v'.sb = v.sb ∧
      (∀ y, y < v.sb.ninodes → y ≠ x →
        (v'.iupdate i x { a with type := 0 }).dinode y = v.dinode y) ∧
      (∀ j, j ≠ i → (v'.iupdate i x { a with type := 0 }).size j = v.size j ∧
        (v'.iupdate i x { a with type := 0 }).addrs j = v.addrs j) ∧
      Holds (v'.iupdate i x { a with type := 0 })
        (update t x ⟨{ a with type := 0 }, []⟩) := by
  have hm : v.mapWith i x = v.map := Vol.mapWith_eq (by rw [ha, Vol.map, if_pos hx])
  obtain ⟨w, hw, hsb, hok, hdin, hsize, hadd, hdat, hown⟩ :=
    Vol.itrunc_ok h.ok hx.1 (by rw [hm]; exact h.owned) a
  have hxw : x < w.sb.ninodes := by rw [hsb]; exact hx.1
  have hdin' : ∀ y, y < v.sb.ninodes → y ≠ x →
      (w.iupdate i x { a with type := 0 }).dinode y = v.dinode y := by
    intro y hy hyx
    rw [Vol.iupdate, Vol.dinode_setDinode, if_neg hyx, hdin y hy, if_neg hyx]
  have hdx : (w.iupdate i x { a with type := 0 }).dinode x =
      ⟨0, a.major, a.minor, a.nlink, w.size i, w.addrs i⟩ := by
    rw [Vol.iupdate, Vol.dinode_setDinode, if_pos rfl]
  have hdisk : ∀ c, v.sb.IsData c → (w.iupdate i x { a with type := 0 }).disk c = v.disk c := by
    intro c hc
    rw [Vol.iupdate, Vol.disk_setDinode hok hxw _ (by rw [hsb]; exact hc), hdat c hc]
  have hlive : ∀ y, (w.iupdate i x { a with type := 0 }).Live y → y ≠ x ∧ v.Live y := by
    intro y hy
    have hyx : y ≠ x := by
      rintro rfl
      exact hy.2 (by rw [hdx])
    have hyn : y < v.sb.ninodes := by rw [← hsb]; exact hy.1
    exact ⟨hyx, hyn, by rw [← hdin' y hyn hyx]; exact hy.2⟩
  refine ⟨w, hw, hsb, hdin', fun j hj => ?_, ⟨Vol.setDinode_ok hok _, ?_, ?_, ?_, ?_⟩⟩
  · simp only [Vol.iupdate, Vol.setDinode_size, Vol.setDinode_addrs, hsize, hadd,
      update_of_ne hj, and_self]
  · -- the references left are those of the other inodes
    have hmap : (w.iupdate i x { a with type := 0 }).map =
        update v.map x (fun _ => 0) := by
      funext y
      by_cases hy : (w.iupdate i x { a with type := 0 }).Live y
      · obtain ⟨hyx, hyv⟩ := hlive y hy
        rw [Vol.map, if_pos hy, update_of_ne hyx, Vol.map, if_pos hyv, hdin' y hyv.1 hyx]
      · rw [Vol.map, if_neg hy]
        by_cases hyx : y = x
        · subst hyx
          rw [update_self]
        · rw [update_of_ne hyx, Vol.map, if_neg]
          rintro ⟨hyn, hyt⟩
          refine hy ⟨by rw [show (w.iupdate i x { a with type := 0 }).sb = v.sb from hsb]; exact hyn,
            ?_⟩
          rw [hdin' y hyn hyx]
          exact hyt
    rw [hmap]
    exact hown.setDinode hok hxw _
  · intro y hy
    obtain ⟨hyx, hyv⟩ := hlive y hy
    have hd := hdin' y hyv.1 hyx
    refine ⟨by rw [hd]; exact (h.sized y hyv).1, ?_⟩
    exact (h.node_congr hyv hd fun p hp => hdisk _ (h.isData hyv hp)).2
  · intro y hy
    have hyn : y < v.sb.ninodes := by rw [← hsb]; exact hy
    by_cases hyx : y = x
    · subst hyx
      rw [update_self, hdx]
    · rw [update_of_ne hyx, hdin' y hyn hyx, h.type y hyn]
  · intro y hy
    obtain ⟨hyx, hyv⟩ := hlive y hy
    rw [update_of_ne hyx, h.node y hyv]
    exact (h.node_congr hyv (hdin' y hyv.1 hyx) fun p hp => hdisk _ (h.isData hyv hp)).1.symm

end

/-- The bytes of a file after a write. -/
theorem bytes_wrote {n : Nat} (hw : Vol.Wrote v i x off src v') (hf : Filled v.disk (v.addrs i) n)
    (hoff : off ≤ n) (hm : max n (off + src.length) ≤ MAXFILE * BSIZE) :
    bytes v'.disk (v'.addrs i) (max n (off + src.length)) =
        overwrite (bytes v.disk (v.addrs i) n) off src ∧
      Filled v'.disk (v'.addrs i) (max n (off + src.length)) := by
  have hold : ∀ k, k < n → v.refsWith i x (x, posOf (k / BSIZE)) ≠ 0 := by
    intro k hk
    rw [Vol.refsWith_self]
    exact hf k hk
  constructor
  · refine ext_getElem? fun k => ?_
    rw [getElem?_overwrite (by rwa [length_bytes])]
    simp only [bytes, List.getElem?_map]
    by_cases hin : off ≤ k ∧ k < off + src.length
    · have := (hw.inside (k - off) (by omega)).2
      rw [show off + (k - off) = k by omega] at this
      rw [if_pos hin, List.getElem?_range (by omega), List.getElem?_eq_getElem (by omega), ← this]
      rfl
    · rw [if_neg hin]
      by_cases hk : k < n
      · rw [List.getElem?_range (by omega), List.getElem?_range hk]
        show some _ = some _
        rw [hw.outside k (by omega) (by omega) (hold k hk)]
      · rw [List.getElem?_eq_none (by simp only [length_range]; omega),
          List.getElem?_eq_none (by simp only [length_range]; omega)]
        rfl
  · intro k hk
    rw [← Vol.refsWith_self]
    by_cases hin : off ≤ k ∧ k < off + src.length
    · have := (hw.inside (k - off) (by omega)).1
      rwa [show off + (k - off) = k by omega] at this
    · have h₀ := hold k (by omega)
      rwa [hw.grow _ h₀]

theorem Holds.wrote_other (h : Holds v t) (hw : Vol.Wrote v i x off src v') {y : Nat} (hyx : y ≠ x)
    (hy : v.Live y) :
    v'.node y = v.node y ∧ Filled v'.disk (v'.dinode y).addrs (v'.dinode y).size.toNat := by
  refine h.node_congr hy (hw.frame.dinode y hy.1) fun p hp => ?_
  have hq := (hw.others (y, p) hyx).2
  rw [Vol.refsWith_of_ne hyx, Vol.map, if_pos hy] at hq
  exact hq hp

/-- **`writei` within the file.** -/
theorem Holds.write_within (h : Holds v t) (hx : v.Live x) (hs : v.size i = (v.dinode x).size)
    (ha : v.addrs i = (v.dinode x).addrs) (hw : Vol.Wrote v i x off src v')
    (hin : off + src.length ≤ (v.dinode x).size.toNat) (a : Attr) :
    Holds v' (update t x ((t x).write a off src)) ∧ v'.addrs = v.addrs := by
  obtain ⟨hmax, hfill⟩ := h.sized x hx
  have hN : max (v.dinode x).size.toNat (off + src.length) = (v.dinode x).size.toNat := by omega
  have hadd : v'.addrs = v.addrs := hw.same fun k hk => by
    rw [Vol.refsWith_self, ha]
    exact hfill _ (by omega)
  have hmap : v'.mapWith i x = v'.map := Vol.mapWith_eq (by
    rw [hadd, ha, hw.frame.map, Vol.map, if_pos hx])
  obtain ⟨hb, hf⟩ := bytes_wrote hw (by rw [ha]; exact hfill) (by omega) (by omega)
  rw [hN, hadd, ha] at hb hf
  refine ⟨⟨hw.frame.ok h.ok, by rw [← hmap]; exact hw.owned, fun y hy => ?_, fun y hy => ?_,
    fun y hy => ?_⟩, hadd⟩
  · have hy' := (hw.frame.live y).mp hy
    have hd := hw.frame.dinode y hy'.1
    refine ⟨by rw [hd]; exact (h.sized y hy').1, ?_⟩
    by_cases hyx : y = x
    · subst hyx
      rw [hd]
      exact hf
    · exact (h.wrote_other hw hyx hy').2
  · rw [hw.frame.sb] at hy
    rw [hw.frame.dinode y hy, ← h.type y hy]
    by_cases hyx : y = x
    · subst hyx
      have hlen : ¬ (t y).content.length < off + src.length := by
        rw [h.node y hx, Vol.node, length_bytes]; omega
      rw [update_self, Node.write]
      simp only [if_neg hlen]
    · rw [update_of_ne hyx]
  · have hy' := (hw.frame.live y).mp hy
    by_cases hyx : y = x
    · subst hyx
      rw [update_self, Node.write, h.node y hx, Vol.node, Vol.node, hw.frame.dinode y hx.1, hb]
      simp only [length_bytes, if_neg (show ¬ (v.dinode y).size.toNat < off + src.length by omega)]
    · rw [update_of_ne hyx, h.node y hy', (h.wrote_other hw hyx hy').1]

/-- **`writei` that extends the file.** -/
theorem Holds.write_extend (h : Holds v t) (hx : v.Live x) (ha : v.addrs i = (v.dinode x).addrs)
    (hw : Vol.Wrote v i x off src v') (hoff : off ≤ (v.dinode x).size.toNat)
    (hext : (v.dinode x).size.toNat < off + src.length) (hm : off + src.length ≤ MAXFILE * BSIZE)
    {a : Attr} (hat : a.type ≠ 0) :
    Holds ((v'.setSize i (off + src.length)).iupdate i x a)
      (update t x ((t x).write a off src)) := by
  obtain ⟨hmax, hfill⟩ := h.sized x hx
  have hN : max (v.dinode x).size.toNat (off + src.length) = off + src.length := by omega
  obtain ⟨hb, hf⟩ := bytes_wrote hw (by rw [ha]; exact hfill) hoff (by omega)
  rw [hN] at hb hf
  rw [ha] at hb
  have hok' : (v'.setSize i (off + src.length)).Ok :=
    ⟨(hw.frame.ok h.ok).wf, (hw.frame.ok h.ok).super⟩
  have hx' : x < (v'.setSize i (off + src.length)).sb.ninodes := by
    show x < v'.sb.ninodes
    rw [hw.frame.sb]; exact hx.1
  have hsz : (UInt32.ofNat (off + src.length)).toNat = off + src.length := by
    rw [UInt32.toNat_ofNat']
    simp only [MAXFILE, NDIRECT, NINDIRECT, BSIZE] at hm
    omega
  -- what the inode refers to is in the data region, so `iupdate` leaves it alone
  have hdata : ∀ p, refAt v'.disk (v'.addrs i) p ≠ 0 →
      v'.sb.IsData (refAt v'.disk (v'.addrs i) p) := by
    intro p hp
    have := hw.owned.isData (q := (x, p))
    rw [← Vol.refsWith, Vol.refsWith_self] at this
    exact this hp
  have hd : ∀ y, ((v'.setSize i (off + src.length)).iupdate i x a).dinode y =
      if y = x then ⟨a.type, a.major, a.minor, a.nlink, UInt32.ofNat (off + src.length),
        v'.addrs i⟩ else v'.dinode y := by
    intro y
    rw [Vol.iupdate, Vol.dinode_setDinode]
    simp only [Vol.setSize, update_self]
    rfl
  have hkeep : ∀ c, v'.sb.IsData c →
      ((v'.setSize i (off + src.length)).iupdate i x a).disk c = v'.disk c := by
    intro c hc
    exact Vol.disk_setDinode hok' hx' _ hc
  obtain ⟨hb', hf'⟩ := bytes_congr hf fun p hp => hkeep _ (hdata p hp)
  have hlive : ∀ y, ((v'.setSize i (off + src.length)).iupdate i x a).Live y → y ≠ x →
      v.Live y := by
    intro y hy hyx
    refine (hw.frame.live y).mp ⟨hy.1, ?_⟩
    have := hy.2
    rwa [hd, if_neg hyx] at this
  have hother : ∀ y, v.Live y → y ≠ x →
      ((v'.setSize i (off + src.length)).iupdate i x a).node y = v.node y ∧
      Filled ((v'.setSize i (off + src.length)).iupdate i x a).disk (v.dinode y).addrs
        (v.dinode y).size.toNat := by
    intro y hy hyx
    have hdy : ((v'.setSize i (off + src.length)).iupdate i x a).dinode y = v.dinode y := by
      rw [hd, if_neg hyx, hw.frame.dinode y hy.1]
    have hblocks : ∀ p, refAt v.disk (v.dinode y).addrs p ≠ 0 →
        ((v'.setSize i (off + src.length)).iupdate i x a).disk
          (refAt v.disk (v.dinode y).addrs p) = v.disk (refAt v.disk (v.dinode y).addrs p) := by
      intro p hp
      have hq := (hw.others (y, p) hyx).2
      rw [Vol.refsWith_of_ne hyx, Vol.map, if_pos hy] at hq
      rw [hkeep _ (by rw [hw.frame.sb]; exact h.isData hy hp), hq hp]
    have := h.node_congr hy hdy hblocks
    rwa [hdy] at this
  refine ⟨Vol.setDinode_ok hok' _, Vol.iupdate_owned hok' hx' hw.owned hat, fun y hy => ?_,
    fun y hy => ?_, fun y hy => ?_⟩
  · by_cases hyx : y = x
    · rw [hd, if_pos hyx]
      simp only [hsz]
      exact ⟨hm, hf'⟩
    · have hy' := hlive y hy hyx
      rw [hd, if_neg hyx, hw.frame.dinode y hy'.1]
      exact ⟨(h.sized y hy').1, (hother y hy' hyx).2⟩
  · have hy' : y < v.sb.ninodes := by rw [← hw.frame.sb]; exact hy
    rw [hd]
    by_cases hyx : y = x
    · subst hyx
      rw [update_self, if_pos rfl, Node.write, h.node y hx, Vol.node, length_bytes, if_pos hext]
    · rw [update_of_ne hyx, if_neg hyx, h.type y hy', hw.frame.dinode y hy']
  · by_cases hyx : y = x
    · subst hyx
      rw [update_self, Node.write, h.node y hx, Vol.node, length_bytes, if_pos hext,
        Vol.node, hd, if_pos rfl]
      simp only [hsz, hb', hb]
    · have hy' := hlive y hy hyx
      rw [update_of_ne hyx, h.node y hy', (hother y hy' hyx).1]

end Stores

/-! ## The refinement -/

section Follow

variable {n : Nat} {s : State P Vol} {a : State P Table}

theorem Kernel.modify_inode (k : Kernel P) (i j : InodeId) (f : Inode P → Inode P) :
    (k.modify i f).inode j = if j = i then f (k.inode i) else k.inode j := by
  simp only [Kernel.modify, update_apply]

/-- A step on the kernel tables alone. -/
theorem Rel.kernel (h : Rel n s a) {k' : Kernel P}
    (hk : ∀ i, 0 < (k'.inode i).ref → (k'.inode i).valid = true →
      0 < (s.k.inode i).ref ∧ (s.k.inode i).valid = true ∧
        (k'.inode i).inum = (s.k.inode i).inum) :
    Rel n ⟨k', s.d⟩ ⟨k', a.d⟩ where
  k := rfl
  ninodes := h.ninodes
  holds := h.holds
  cached i hr hv := by
    obtain ⟨h₁, h₂, h₃⟩ := hk i hr hv
    rw [h₃]
    exact h.cached i h₁ h₂

theorem Rel.modify (h : Rel n s a) {f : Inode P → Inode P}
    (hf : 0 < (f (s.k.inode i)).ref → (f (s.k.inode i)).valid = true →
      0 < (s.k.inode i).ref ∧ (s.k.inode i).valid = true ∧
        (f (s.k.inode i)).inum = (s.k.inode i).inum) :
    Rel n ⟨s.k.modify i f, s.d⟩ ⟨s.k.modify i f, a.d⟩ := by
  refine h.kernel fun j hr hv => ?_
  rw [Kernel.modify_inode] at hr hv ⊢
  by_cases hj : j = i
  · subst hj
    simp only [if_true] at hr hv ⊢
    exact hf hr hv
  · simp only [if_neg hj] at hr hv ⊢
    exact ⟨hr, hv, trivial⟩

/-- A loaded inode is allocated, and its copies are right. -/
theorem Rel.loaded (h : Rel n s a) (ht : Tidy n s.k a.d) (hr : 0 < (s.k.inode i).ref)
    (hv : (s.k.inode i).valid = true) :
    s.d.Live (s.k.inode i).inum ∧ s.d.size i = (s.d.dinode (s.k.inode i).inum).size ∧
      s.d.addrs i = (s.d.dinode (s.k.inode i).inum).addrs ∧
      (s.k.inode i).toAttr = (a.d (s.k.inode i).inum).toAttr := by
  have hn : (s.k.inode i).inum < s.d.sb.ninodes := by rw [h.ninodes]; exact ht.range i hr
  obtain ⟨h₁, h₂⟩ := ht.alive i hr hv
  refine ⟨⟨hn, ?_⟩, (h.cached i hr hv).1, (h.cached i hr hv).2, h₁⟩
  rw [← h.holds.type _ hn]
  exact h₂

/-- The entries other than `i` do not notice a change of the inode in `i`. -/
theorem Rel.other_inum (ht : Tidy n s.k a.d) {j : InodeId} (hr : 0 < (s.k.inode i).ref)
    (hj : 0 < (s.k.inode j).ref) (hne : j ≠ i) : (s.k.inode j).inum ≠ (s.k.inode i).inum :=
  fun he => hne (ht.uniq j i hj hr he)

section

variable (h : Rel n s a)
include h

/-- `iupdate` with new attributes, `setNlink` and `setNode`. -/
theorem Rel.iupdate (ht : Tidy n s.k a.d) (hr : 0 < (s.k.inode i).ref)
    (hv : (s.k.inode i).valid = true) {attr : Attr} (hat : attr.type = (s.k.inode i).type) :
    Rel n ⟨s.k.modify i fun ip => { ip with toAttr := attr },
        Vol.iupdate i (s.k.inode i).inum attr s.d⟩
      ⟨s.k.modify i fun ip => { ip with toAttr := attr },
        update a.d (s.k.inode i).inum { a.d (s.k.inode i).inum with toAttr := attr }⟩ := by
  obtain ⟨hl, hs, ha, hattr⟩ := h.loaded ht hr hv
  have hat' : attr.type ≠ 0 := by
    rw [hat, hattr]
    exact (ht.alive i hr hv).2
  refine ⟨rfl, h.ninodes, h.holds.iupdate hl hs ha hat', fun j hjr hjv => ?_⟩
  rw [Kernel.modify_inode] at hjr hjv ⊢
  by_cases hj : j = i
  · subst hj
    simp only [if_true] at hjr hjv ⊢
    rw [Vol.iupdate, Vol.dinode_setDinode, if_pos rfl]
    exact ⟨rfl, rfl⟩
  · simp only [if_neg hj] at hjr hjv ⊢
    rw [Vol.iupdate, Vol.dinode_setDinode, if_neg (Rel.other_inum ht hr hjr hj)]
    exact h.cached j hjr hjv

theorem Rel.load (ht : Tidy n s.k a.d) (hr : 0 < (s.k.inode i).ref)
    (hty : (Vol.load i (s.k.inode i).inum s.d).1.type ≠ 0) :
    (Vol.load i (s.k.inode i).inum s.d).1 = (a.d (s.k.inode i).inum).toAttr ∧
      Rel n ⟨s.k.modify i fun ip =>
          { ip with toAttr := (Vol.load i (s.k.inode i).inum s.d).1, valid := true },
          (Vol.load i (s.k.inode i).inum s.d).2⟩
        ⟨s.k.modify i fun ip =>
          { ip with toAttr := (Vol.load i (s.k.inode i).inum s.d).1, valid := true }, a.d⟩ := by
  have hl : s.d.Live (s.k.inode i).inum :=
    ⟨by rw [h.ninodes]; exact ht.range i hr, hty⟩
  refine ⟨by rw [h.holds.node _ hl]; rfl, ⟨rfl, h.ninodes, ?_, fun j hjr hjv => ?_⟩⟩
  · obtain ⟨h₁, h₂, h₃, h₄, h₅⟩ := h.holds
    exact ⟨⟨h₁.wf, h₁.super⟩, h₂, h₃, h₄, h₅⟩
  · rw [Kernel.modify_inode] at hjr hjv ⊢
    by_cases hj : j = i
    · subst hj
      simp only [if_true, Vol.load, update_self]
      exact ⟨rfl, rfl⟩
    · simp only [if_neg hj] at hjr hjv ⊢
      simp only [Vol.load, update_of_ne hj]
      exact h.cached j hjr hjv

theorem Rel.ifree (ht : Tidy n s.k a.d) (hr : 0 < (s.k.inode i).ref)
    (hv : (s.k.inode i).valid = true) :
    ∃ v', Vol.itrunc i (s.k.inode i).inum (s.k.inode i).toAttr s.d = .ok v' ∧
      Rel n ⟨s.k.modify i fun ip =>
          { ip with toAttr := { (s.k.inode i).toAttr with type := 0 }, valid := false },
          v'.iupdate i (s.k.inode i).inum { (s.k.inode i).toAttr with type := 0 }⟩
        ⟨s.k.modify i fun ip =>
          { ip with toAttr := { (s.k.inode i).toAttr with type := 0 }, valid := false },
          update a.d (s.k.inode i).inum
            ⟨{ (s.k.inode i).toAttr with type := 0 }, []⟩⟩ := by
  obtain ⟨hl, -, ha, -⟩ := h.loaded ht hr hv
  obtain ⟨v', hv', hsb, hdin, hslot, hholds⟩ := h.holds.ifree hl ha (s.k.inode i).toAttr
  refine ⟨v', hv', ⟨rfl, hsb ▸ h.ninodes, hholds, fun j hjr hjv => ?_⟩⟩
  rw [Kernel.modify_inode] at hjr hjv ⊢
  by_cases hj : j = i
  · subst hj
    simp at hjv
  · simp only [if_neg hj] at hjr hjv ⊢
    have hne := Rel.other_inum ht hr hjr hj
    have hjn : (s.k.inode j).inum < s.d.sb.ninodes := by rw [h.ninodes]; exact ht.range j hjr
    rw [hdin _ hjn hne, (hslot j hj).1, (hslot j hj).2]
    exact h.cached j hjr hjv

theorem Rel.ialloc (ht : Tidy n s.k a.d) {type : Int16} (hty : type ≠ 0) {x : Nat}
    (hx : Vol.ialloc type s.d = .ok (x, v')) :
    (tableStore n).ialloc type a.d = .ok (x, update a.d x ⟨⟨type, 0, 0, 0⟩, []⟩) ∧
      Rel n ⟨s.k, v'⟩ ⟨s.k, update a.d x ⟨⟨type, 0, 0, 0⟩, []⟩⟩ := by
  obtain ⟨h₁, h₂, hfree, hleast, rfl⟩ := Vol.ialloc_ok hx
  refine ⟨?_, ⟨rfl, h.ninodes, h.holds.ialloc h₂ hfree hty, fun j hjr hjv => ?_⟩⟩
  · have hf : (List.range' 1 (n - 1)).find? (fun x => decide ((a.d x).type = 0)) = some x := by
      have hsplit : List.range' 1 (n - 1) =
          List.range' 1 (x - 1) ++ x :: List.range' (x + 1) (n - 1 - x) := by
        rw [← List.range'_succ]
        have := List.range'_append_1 (s := 1) (m := x - 1) (n := n - 1 - x + 1)
        rw [show 1 + (x - 1) = x by omega] at this
        rw [this]
        congr 1
        rw [← h.ninodes]
        omega
      refine List.find?_eq_some_iff_append.mpr ⟨?_, _, _, hsplit, fun y hy => ?_⟩
      · rw [h.holds.type x h₂]
        simpa using hfree
      · rw [mem_range'_1] at hy
        rw [h.holds.type y (by omega)]
        simpa using hleast y hy.1 (by omega)
    simp only [tableStore, hf]
  · have hne : (s.k.inode j).inum ≠ x := by
      rintro rfl
      exact (ht.alive j hjr hjv).2 (by rw [h.holds.type _ h₂]; exact hfree)
    rw [Vol.dinode_setDinode, if_neg hne]
    exact h.cached j hjr hjv

theorem Rel.readi (ht : Tidy n s.k a.d) (hr : 0 < (s.k.inode i).ref)
    (hv : (s.k.inode i).valid = true) (off m : Nat) :
    Vol.readi i (s.k.inode i).inum off m s.d =
      .ok (readBytes (a.d (s.k.inode i).inum).content off m, s.d) := by
  obtain ⟨hl, hs, ha, -⟩ := h.loaded ht hr hv
  obtain ⟨hmax, hfill⟩ := h.holds.sized _ hl
  rw [h.holds.node _ hl, Vol.node, readBytes, length_bytes, Vol.readi, hs]
  generalize hsz : (s.d.dinode (s.k.inode i).inum).size.toNat = size at *
  by_cases hc : size < off ∨ 2 ^ 32 ≤ off + m
  · rw [if_pos hc, if_pos hc]
  · rw [if_neg hc, if_neg hc]
    generalize hm' : (if size < off + m then size - off else m) = m'
    have hle : off + m' ≤ size := by rw [← hm']; split <;> omega
    have hloop : Vol.readLoop i m' off m' s.d = .ok _ :=
      Vol.readLoop_ok (Nat.le_refl m') (by omega)
        (by rw [ha]; exact fun k hk => hfill k (by omega))
    simp only [hloop, bind, Except.bind, pure, Except.pure]
    refine congrArg (fun l => Except.ok (some l, s.d)) ?_
    rw [ha, bytes, ← map_drop, ← map_take, range_eq_range', drop_range']
    congr 1
    refine ext_getElem ?_ fun k h₁ h₂ => by simp
    simp only [length_range', length_take, ← hm']
    split <;> omega

theorem Rel.writei (ht : Tidy n s.k a.d) (hr : 0 < (s.k.inode i).ref)
    (hv : (s.k.inode i).valid = true) {r : Int}
    (hw : Vol.writei i (s.k.inode i).inum (s.k.inode i).toAttr off src s.d = .ok (r, v')) :
    ∃ t', (tableStore n).writei i (s.k.inode i).inum (s.k.inode i).toAttr off src a.d =
        .ok (r, t') ∧ Rel n ⟨s.k, v'⟩ ⟨s.k, t'⟩ := by
  obtain ⟨hl, hs, ha, hattr⟩ := h.loaded ht hr hv
  have hlen : (a.d (s.k.inode i).inum).content.length =
      (s.d.dinode (s.k.inode i).inum).size.toNat := by
    rw [h.holds.node _ hl, Vol.node, length_bytes]
  simp only [tableStore, canWrite, hlen]
  have hrel : Rel n ⟨s.k, s.d⟩ ⟨s.k, a.d⟩ := h.kernel fun j hjr hjv => ⟨hjr, hjv, rfl⟩
  rw [Vol.writei, hs] at hw
  by_cases h₁ : (s.d.dinode (s.k.inode i).inum).size.toNat < off ∨ 2 ^ 32 ≤ off + src.length
  · simp only [if_pos h₁] at hw
    cases hw
    exact ⟨a.d, by rw [if_neg (by omega)], hrel⟩
  · by_cases h₂ : MAXFILE * BSIZE < off + src.length
    · simp only [if_neg h₁, if_pos h₂] at hw
      cases hw
      exact ⟨a.d, by rw [if_neg (by omega)], hrel⟩
    · rw [if_pos (by omega)]
      simp only [if_neg h₁, if_neg h₂] at hw
      cases hloop : Vol.writeLoop i src.length off src s.d with
      | error e =>
        rw [hloop] at hw
        cases hw
      | ok w =>
        rw [hloop] at hw
        simp only [bind, Except.bind, pure, Except.pure] at hw
        have hm : s.d.mapWith i (s.k.inode i).inum = s.d.map :=
          Vol.mapWith_eq (by rw [ha, Vol.map, if_pos hl])
        have hwr : Vol.Wrote s.d i (s.k.inode i).inum off src w :=
          Vol.writeLoop_ok h.holds.ok (by rw [hm]; exact h.holds.owned) (Nat.le_refl _)
            (by omega) hloop
        have hcached : ∀ j, 0 < (s.k.inode j).ref → (s.k.inode j).valid = true → j ≠ i →
            w.size j = (w.dinode (s.k.inode j).inum).size ∧
              w.addrs j = (w.dinode (s.k.inode j).inum).addrs := by
          intro j hjr hjv hj
          have hjn : (s.k.inode j).inum < s.d.sb.ninodes := by
            rw [h.ninodes]; exact ht.range j hjr
          rw [hwr.size, hwr.slots j hj, hwr.frame.dinode _ hjn]
          exact h.cached j hjr hjv
        rw [hwr.size, hs] at hw
        by_cases h₃ : (s.d.dinode (s.k.inode i).inum).size.toNat < off + src.length
        · rw [if_pos ⟨by omega, h₃⟩] at hw
          cases hw
          refine ⟨_, rfl, ⟨rfl, by rw [← h.ninodes]; exact congrArg _ hwr.frame.sb,
            h.holds.write_extend hl ha hwr (by omega) h₃ (by omega) (by
              rw [hattr]; exact (ht.alive i hr hv).2), fun j hjr hjv => ?_⟩⟩
          by_cases hj : j = i
          · subst hj
            rw [Vol.iupdate, Vol.dinode_setDinode, if_pos rfl]
            exact ⟨rfl, rfl⟩
          · rw [Vol.iupdate, Vol.dinode_setDinode, if_neg (Rel.other_inum ht hr hjr hj)]
            simp only [Vol.setDinode_size, Vol.setDinode_addrs, Vol.setSize, update_of_ne hj]
            exact hcached j hjr hjv hj
        · rw [if_neg (fun hc => h₃ hc.2)] at hw
          cases hw
          obtain ⟨hh, hadd⟩ := h.holds.write_within hl hs ha hwr (by omega)
            (s.k.inode i).toAttr
          refine ⟨_, rfl, ⟨rfl, by rw [← h.ninodes]; exact congrArg _ hwr.frame.sb, hh,
            fun j hjr hjv => ?_⟩⟩
          by_cases hj : j = i
          · subst hj
            rw [hwr.size, hadd, hwr.frame.dinode _ hl.1]
            exact ⟨hs, ha⟩
          · exact hcached j hjr hjv hj

end

/-- **The block store follows the table.** -/
theorem follows [DecidableEq P] (env : Env) (n : Nat) :
    Follows (exec (P := P) blockStore env) (exec (tableStore n) env) (Rel n)
      (fun _ c a => Allowed n c a) := by
  rintro p c ⟨k, v⟩ ⟨ak, t⟩ r s' h hal hx
  obtain rfl : ak = k := h.k
  have ht := hal.tidy
  -- a step on the tables that takes no entry over
  have hsame : ∀ k' : Kernel P, k'.inode = ak.inode → Rel n ⟨k', v⟩ ⟨k', t⟩ := by
    intro k' hk'
    refine h.kernel fun i hr hv => ?_
    rw [hk'] at hr hv ⊢
    exact ⟨hr, hv, rfl⟩
  cases c with
  | iget x =>
    simp only [exec] at hx ⊢
    cases hc : ak.cached x with
    | some i =>
      simp only [hc, State.answer] at hx ⊢
      cases hx
      have hi := List.find?_some hc
      simp only [decide_eq_true_eq] at hi
      exact ⟨_, rfl, h.modify fun _ hv => ⟨hi.1, hv, rfl⟩⟩
    | none =>
      simp only [hc] at hx ⊢
      cases he : ak.empty with
      | some i =>
        simp only [he, State.answer] at hx ⊢
        cases hx
        exact ⟨_, rfl, h.modify fun _ hv => absurd hv (by simp)⟩
      | none => simp only [he, reduceCtorEq] at hx
  | idupCwd =>
    simp only [exec] at hx ⊢
    cases hc : ak.cwd p with
    | some i =>
      simp only [hc, State.answer] at hx ⊢
      cases hx
      exact ⟨_, rfl, h.modify fun _ hv => ⟨ht.cwd p _ hc, hv, rfl⟩⟩
    | none => simp only [hc, reduceCtorEq] at hx
  | acquiresleep i b =>
    simp only [exec] at hx ⊢
    cases hl : (ak.inode i).lock with
    | some q => simp only [hl, reduceCtorEq] at hx
    | none =>
      simp only [hl, State.answer] at hx ⊢
      cases hx
      exact ⟨_, rfl, h.modify fun hr hv => ⟨hr, hv, rfl⟩⟩
  | releasesleep i =>
    cases hx
    exact ⟨_, rfl, h.modify fun hr hv => ⟨hr, hv, rfl⟩⟩
  | load i =>
    have hr := hal.load i rfl
    simp only [exec] at hx ⊢
    cases hv : (ak.inode i).valid with
    | true =>
      simp only [hv, if_true] at hx ⊢
      cases hx
      exact ⟨_, rfl, h⟩
    | false =>
      simp only [hv, Bool.false_eq_true, if_false] at hx ⊢
      change (if (Vol.load i (ak.inode i).inum v).1.type = 0 then _ else _) = _ at hx
      by_cases hty : (Vol.load i (ak.inode i).inum v).1.type = 0
      · rw [if_pos hty] at hx
        cases hx
      · obtain ⟨he, hrel⟩ := h.load ht hr hty
        rw [if_neg hty] at hx
        cases hx
        have hty' : ((tableStore n).load i (ak.inode i).inum t).1.type ≠ 0 := by
          show (t (ak.inode i).inum).toAttr.type ≠ 0
          rw [← he]
          exact hty
        rw [if_neg hty']
        refine ⟨_, rfl, ?_⟩
        rw [← show (Vol.load i (ak.inode i).inum v).1 =
          ((tableStore n).load i (ak.inode i).inum t).1 from he]
        exact hrel
  | inum i | ref i | holdingsleep i | valid i | attr i | ofile fd | file f | piperead m | pipewrite src =>
    cases hx
    exact ⟨_, rfl, h⟩
  | size i =>
    obtain ⟨hr, hv⟩ := hal.uses i rfl
    obtain ⟨hl, hs, -⟩ := h.loaded ht hr hv
    cases hx
    refine ⟨_, ?_, h⟩
    have hlen : (t (ak.inode i).inum).content.length = (v.size i).toNat := by
      have hs' : v.size i = (v.dinode (ak.inode i).inum).size := hs
      have hnode : t (ak.inode i).inum = v.node (ak.inode i).inum := h.holds.node _ hl
      rw [hnode, Vol.node, length_bytes, hs']
    exact congrArg (fun m => Out.ok m _) hlen
  | decref i =>
    cases hx
    exact ⟨_, rfl, h.modify fun hr hv => ⟨by dsimp only at hr ⊢; omega, hv, rfl⟩⟩
  | setNlink i m | setNode i major minor =>
    obtain ⟨hr, hv⟩ := hal.uses i rfl
    simp only [exec] at hx ⊢
    cases hx
    exact ⟨_, rfl, h.iupdate ht hr hv rfl⟩
  | ifree i =>
    obtain ⟨hr, hv⟩ := hal.uses i rfl
    obtain ⟨v', hv', hrel⟩ := h.ifree ht hr hv
    simp only [exec, blockStore, hv'] at hx
    cases hx
    refine ⟨_, rfl, ?_⟩
    simpa only [tableStore, update_idem, update_self] using hrel
  | ialloc type =>
    simp only [exec] at hx ⊢
    cases ha : blockStore.ialloc type v with
    | error e => rw [ha] at hx; cases hx
    | ok r' =>
      rw [ha] at hx
      cases hx
      obtain ⟨he, hrel⟩ := h.ialloc ht (hal.ialloc type rfl) ha
      rw [he]
      exact ⟨_, rfl, hrel⟩
  | readi i off m =>
    obtain ⟨hr, hv⟩ := hal.uses i rfl
    simp only [exec] at hx ⊢
    by_cases hd : (ak.inode i).type = T_DEV
    · rw [if_pos hd] at hx ⊢
      cases hx
      exact ⟨_, rfl, h⟩
    · have he := h.readi ht hr hv off m
      simp only [if_neg hd, blockStore, he] at hx ⊢
      cases hx
      exact ⟨_, rfl, h⟩
  | writei i off src =>
    obtain ⟨hr, hv⟩ := hal.uses i rfl
    simp only [exec] at hx ⊢
    by_cases hd : (ak.inode i).type = T_DEV
    · rw [if_pos hd] at hx ⊢
      cases hx
      exact ⟨_, rfl, h⟩
    · rw [if_neg hd] at hx ⊢
      cases hw : blockStore.writei i (ak.inode i).inum (ak.inode i).toAttr off src v with
      | error e => rw [hw] at hx; cases hx
      | ok r' =>
        rw [hw] at hx
        cases hx
        obtain ⟨t', ht', hrel⟩ := h.writei ht hr hv hw
        rw [ht']
        exact ⟨_, rfl, hrel⟩
  | cwd =>
    simp only [exec] at hx ⊢
    cases hc : ak.cwd p with
    | some i =>
      simp only [hc] at hx ⊢
      cases hx
      exact ⟨_, rfl, h⟩
    | none => simp only [hc, reduceCtorEq] at hx
  | setCwd i | clearFd fd | setFile f i r w | setOff f off =>
    simp only [exec] at hx ⊢
    cases hx
    exact ⟨_, rfl, hsame _ rfl⟩
  | filealloc =>
    simp only [exec] at hx ⊢
    cases hc : ak.freeFile with
    | some f =>
      simp only [hc] at hx ⊢
      cases hx
      exact ⟨_, rfl, hsame _ rfl⟩
    | none =>
      simp only [hc] at hx ⊢
      cases hx
      exact ⟨_, rfl, h⟩
  | fdalloc f =>
    simp only [exec] at hx ⊢
    cases hc : ak.freeFd p with
    | some fd =>
      simp only [hc] at hx ⊢
      cases hx
      exact ⟨_, rfl, hsame _ rfl⟩
    | none =>
      simp only [hc] at hx ⊢
      cases hx
      exact ⟨_, rfl, h⟩
  | fileput f =>
    simp only [exec] at hx ⊢
    by_cases h₁ : (ak.file f).ref < 1
    · rw [if_pos h₁] at hx
      cases hx
    · by_cases h₂ : 0 < (ak.file f).ref - 1
      · simp only [if_neg h₁, if_pos h₂] at hx ⊢
        cases hx
        exact ⟨_, rfl, hsame _ rfl⟩
      · simp only [if_neg h₁, if_neg h₂] at hx ⊢
        cases hx
        exact ⟨_, rfl, hsame _ rfl⟩
  | panic m => simp only [exec, reduceCtorEq] at hx

end Follow

end Xv6.Fs
