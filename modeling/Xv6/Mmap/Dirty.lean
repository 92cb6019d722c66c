/-
# `Xv6.Mmap.Dirty` — dirty pages go back to the file

`mmap_write_dirty` of `proc.c` writes the page at `addr` of a file mapping with

    writei(entry->ip, addr, entry->offset + ((int)entry->addr - (int)addr), PGSIZE)

The difference of the two addresses is the wrong way round, so page `k` goes to
`k` pages *before* the place the mapping starts at.  It always writes a whole
page, also where the mapping ends inside of it.  And no caller has opened a
transaction, so that every `log_write` of the call panics unless somebody else
has one open.  What is left is the first page of a mapping of at least a page
(`goes_back_iff`).
-/
import Xv6.Fs.Sections
import Xv6.Log.Group
import Xv6.Mmap.Table

namespace Xv6

open Machine Bytes List

/-! ## The blocks a write inside the file logs -/

namespace Fs

/-- The blocks that hold the bytes `[off, off + n)` of a file. -/
def fileBlocks (d : Disk) (a : Addrs) (off n : Nat) : List Nat :=
  (List.range (blocks off n)).map fun j => refAt d a (posOf (off / BSIZE + j))

/-- The block of the first byte, and those behind its chunk. -/
theorem fileBlocks_chunk (d : Disk) (a : Addrs) (off : Nat) {n : Nat} (hn : n ≠ 0) :
    fileBlocks d a off n = refAt d a (posOf (off / BSIZE)) ::
      fileBlocks d a (off + Vol.chunk off n) (n - Vol.chunk off n) := by
  rw [fileBlocks, Vol.blocks_chunk hn, range_succ_eq_map, map_cons, map_map, fileBlocks]
  refine congrArg (_ :: ·) (map_congr_left fun j hj => ?_)
  have hlt : j < blocks (off + Vol.chunk off n) (n - Vol.chunk off n) := mem_range.mp hj
  have hrest : n - Vol.chunk off n ≠ 0 := by
    intro h₀
    rw [blocks, if_pos h₀] at hlt
    exact Nat.not_lt_zero j hlt
  have hdiv : (off + Vol.chunk off n) / BSIZE = off / BSIZE + 1 := by
    simp only [Vol.chunk, BSIZE] at hrest ⊢
    omega
  rw [hdiv, Nat.add_right_comm]
  rfl

namespace Vol

variable {v : Vol} {i : InodeId} {x : Nat}

theorem bmapLog_filled {bn : Nat} (h : refAt v.disk (v.addrs i) (posOf bn) ≠ 0) :
    v.bmapLog i bn = [] := by
  rw [bmapLog]
  have hne : ∀ {w : UInt32}, w.toNat ≠ 0 → w ≠ 0 := by rintro w hw rfl; exact hw rfl
  by_cases hd : bn < NDIRECT
  · rw [posOf_direct hd, refAt] at h
    rw [dif_pos hd, addrLog, if_neg (hne h)]
  · rw [dif_neg hd]
    by_cases hk : bn - NDIRECT < NINDIRECT
    · rw [posOf_indirect hd hk, refAt] at h
      have hi : ind (v.addrs i) ≠ 0 := fun h₀ => h (if_pos h₀)
      rw [if_neg hi] at h
      have hw : (v.disk (v.addrs i (Fin.last NDIRECT)).toNat).word (bn - NDIRECT) ≠ 0 := hne h
      rw [if_pos hk, addrLog, if_neg (hne hi), addrOrAlloc, if_neg (hne hi), nil_append]
      simp only [after]
      rw [wordLog, if_neg hw]
    · rw [if_neg hk]

/-- **The loop of `writei`, where every block is there, logs these blocks one after the other.** -/
theorem writeLoopLog_filled : ∀ (fuel off : Nat) (src : List UInt8) {v : Vol}, v.Ok →
    v.Owned (v.mapWith i x) → src.length ≤ fuel → off + src.length ≤ MAXFILE * BSIZE →
    v.FilledAt i off src.length →
    v.writeLoopLog i fuel off src = fileBlocks v.disk (v.addrs i) off src.length
  | 0, off, src, v, _, _, hf, _, _ => by
    obtain rfl : src = [] := length_eq_zero_iff.mp (Nat.le_zero.mp hf)
    rfl
  | fuel + 1, off, src, v, hok, ho, hf, hm, hfill => by
    rw [writeLoopLog]
    by_cases hs : src = []
    · subst hs
      rfl
    have hn : src.length ≠ 0 := fun h₀ => hs (length_eq_zero_iff.mp h₀)
    have hpos : 0 < chunk off src.length := chunk_pos hn
    have hle := chunk_le off src.length
    have hbn : off / BSIZE < MAXFILE := by simp only [BSIZE] at *; omega
    obtain ⟨b, hat⟩ : ∃ b, refAt v.disk (v.addrs i) (posOf (off / BSIZE)) = b := ⟨_, rfl⟩
    have hne : refAt v.disk (v.addrs i) (posOf (off / BSIZE)) ≠ 0 := hfill 0 (by omega)
    have hb := bmap_filled hbn hne
    rw [hat] at hb
    obtain ⟨-, hc⟩ := wrote_round (x := x) hok ho hs hm hb
    -- the chunk goes to a data block, so no reference changes
    have hrefs : ∀ data p, refAt (v.put b data).disk (v.addrs i) p = refAt v.disk (v.addrs i) p := by
      intro data p
      have hself : v.refsWith i x (x, posOf (off / BSIZE)) = b := (refsWith_self _).trans hat
      have := congrFun (refsWith_put hok ho hself (hat ▸ hne) data) (x, p)
      rwa [refsWith_self, refsWith_self, put_addrs] at this
    have hfill' : ∀ data, (v.put b data).FilledAt i (off + chunk off src.length)
        (src.drop (chunk off src.length)).length := by
      intro data k hk
      rw [put_addrs, hrefs, Nat.add_assoc]
      rw [length_drop] at hk
      exact hfill _ (by omega)
    have ih := writeLoopLog_filled fuel (off + chunk off src.length)
      (src.drop (chunk off src.length)) (hc.frame.ok hok) hc.owned
      (by rw [length_drop]; omega) (by rw [length_drop]; omega) (hfill' _)
    rw [if_neg hs, bmapLog_filled hne, hb, fileBlocks_chunk _ _ _ hn, nil_append]
    simp only [after]
    rw [ih, length_drop, put_addrs, hat]
    exact congrArg (b :: ·) (map_congr_left fun j _ => hrefs _ _)

end Vol

section

variable {P : Type} {n : Nat} {s : State P Vol} {i : InodeId}

/-- **A write inside the file logs the blocks of its bytes and nothing else.** -/
theorem Consistent.writeiLog_inside (h : Consistent n s i) {off : Nat} {src : List UInt8}
    (hin : off + src.length ≤ (s.content i).length) :
    Vol.writeiLog i (s.k.inode i).inum off src s.d =
      fileBlocks s.d.disk (s.d.addrs i) off src.length := by
  have hsize := h.loaded.length_content
  have hlt := (s.d.size i).toNat_lt
  have hmax := h.loaded.content_le
  have hm : off + src.length ≤ MAXFILE * BSIZE := Nat.le_trans hin hmax
  rw [Vol.writeiLog, if_neg (by omega), if_neg (Nat.not_lt.mpr hm),
    Vol.writeLoopLog_filled _ _ _ h.rel.holds.ok h.owned (Nat.le_refl _) hm (h.loaded.filledAt hin)]
  cases hw : s.d.writeLoop i src.length off src with
  | error e => exact append_nil _
  | ok w =>
    have hwrote := Vol.writeLoop_ok h.rel.holds.ok h.owned (Nat.le_refl _) hm hw
    simp only [after]
    rw [if_neg (by rw [hwrote.size]; omega), append_nil]

end

end Fs

namespace Mmap

open Fs (InodeId FsProg Vol Env exec blockStore Consistent logged fileBlocks cmd canWrite overwrite)
open Vm (Word PGSIZE)

/-! ## `log_write` -/

/-- What `log_write` looks at: `log.size`, `log.outstanding` and the blocks in `log.lh`. -/
structure LogState where
  size : Nat
  outstanding : Int
  block : List Nat

/-- `log_write`, when nobody else is in it. -/
def LogState.logWrite (lg : LogState) (b : Nat) : Except Group.Panic LogState :=
  if lg.block.length ≥ LOGSIZE ∨ (lg.block.length : Int) ≥ (lg.size : Int) - 1 then .error .tooBig
  else if lg.outstanding < 1 then .error .outsideTrans
  else .ok { lg with block := Group.absorb lg.block b }

/-- None of these calls of `log_write` panics. -/
def LogState.Takes (lg : LogState) (bs : List Nat) : Prop :=
  ∃ lg', bs.foldlM LogState.logWrite lg = .ok lg'

/-! ## The function -/

/-- The file position `mmap_write_dirty` passes to `writei`. -/
def dirtyOffset (entry : Mme) (addr : Word) : Nat := (entry.offset + (entry.addr - addr)).toNat

/-- `mmap_write_dirty`, with the bytes of the page at `addr` and the inode `ip` of the entry. -/
def mmapWriteDirty (entry : Mme) (ip : InodeId) (addr : Word) (page : List UInt8) : FsProg Int := do
  Fs.ilock ip
  let tmp : Int ← cmd (.writei ip (dirtyOffset entry addr) page)
  Fs.iunlock ip
  return tmp

variable {P : Type} {n : Nat} {s t : Fs.State P Vol} {i : InodeId} {e : Mme} {k : Nat}

/-- What it does is what its `writei` does. -/
theorem mmapWriteDirty_does [DecidableEq P] (env : Env) (p : P) (h : Consistent n s i)
    (hl : (s.k.inode i).lock = none) (addr : Word) (page : List UInt8) :
    Does (exec blockStore env p) logged (mmapWriteDirty e i addr page) s
      [Vol.writeiLog i (s.k.inode i).inum (dirtyOffset e addr) page s.d]
      (match Vol.writei i (s.k.inode i).inum (s.k.inode i).toAttr (dirtyOffset e addr) page s.d with
        | .ok (r, v) => .ok r ⟨s.k, v⟩
        | .error m => .halt m) := by
  obtain ⟨hlog, hx⟩ := Fs.writei_locked env p h (dirtyOffset e addr) page
  refine (Fs.ilock_does env p h.ready.ref h.ready.valid hl).seq ?_
  cases hw : Vol.writei i (s.k.inode i).inum (s.k.inode i).toAttr (dirtyOffset e addr) page s.d with
  | error m =>
    rw [hw] at hx
    have hcall : Does _ logged _ _ _ _ := .call_halt hx
    rw [hlog] at hcall
    exact hcall.seq_halt
  | ok r =>
    obtain ⟨r, v⟩ := r
    rw [hw] at hx
    have hcall : Does _ logged _ _ _ _ := .call hx
    rw [hlog] at hcall
    exact hcall.seq ((Fs.iunlock_does (s := ⟨s.k, v⟩) env p h.ready.ref hl).seq .ret)

/-- **The bytes of the file after a call that returns.** -/
theorem mmapWriteDirty_content [DecidableEq P] {env : Env} {p : P} (h : Consistent n s i)
    (hl : (s.k.inode i).lock = none) {addr : Word} {page : List UInt8} {r : Int}
    (hr : run (exec blockStore env p) (mmapWriteDirty e i addr page) s = .ok r t) :
    t.content i = if canWrite (s.content i) (dirtyOffset e addr) page.length
      then overwrite (s.content i) (dirtyOffset e addr) page else s.content i := by
  rw [(mmapWriteDirty_does env p h hl addr page).1] at hr
  obtain ⟨hrefuse, hwrite⟩ := h.writei (dirtyOffset e addr) page
  by_cases hc : canWrite (s.content i) (dirtyOffset e addr) page.length
  · rw [if_pos hc]
    by_cases hs : s.d.Short i (Fs.positions (dirtyOffset e addr) page.length)
    · rw [(hwrite hc).2 hs] at hr
      cases hr
    · obtain ⟨v, hv, hstored⟩ := (hwrite hc).1 hs
      rw [hv] at hr
      cases hr
      exact hstored.content
  · rw [if_neg hc]
    rw [hrefuse hc] at hr
    cases hr
    rfl

/-! ## Where the pages go -/

/-- The address of page `k` of a mapping. -/
def pageAddr (e : Mme) (k : Nat) : Word := e.addr + BitVec.ofNat 32 (k * PGSIZE.toNat)

/-- Page `k` of a mapping of a file that is open and that nobody has locked. -/
structure FileMapping (n : Nat) (s : Fs.State P Vol) (i : InodeId) (e : Mme) (k : Nat) : Prop where
  consistent : Consistent n s i
  unlocked : (s.k.inode i).lock = none
  file : e.mflags = MAP_FILE
  ip : e.ip = some i
  inside : e.offset.toNat + e.sz.toNat ≤ (s.content i).length
  page : k * PGSIZE.toNat < e.sz.toNat

/-- The call returns, and the bytes of the page that are in the mapping are where they came from;
all others are as before. -/
def GoesBack [DecidableEq P] (env : Env) (p : P) (lg : LogState) (s : Fs.State P Vol) (i : InodeId)
    (e : Mme) (k : Nat) (page : List UInt8) : Prop :=
  ∃ (r : Int) (t : Fs.State P Vol) (ls : List (List Nat)),
    Does (exec blockStore env p) logged (mmapWriteDirty e i (pageAddr e k) page) s ls (.ok r t) ∧
    lg.Takes ls.flatten ∧
    t.content i = overwrite (s.content i) (e.offset.toNat + k * PGSIZE.toNat)
      (page.take (e.sz.toNat - k * PGSIZE.toNat))

theorem FileMapping.small (h : FileMapping n s i e k) : (s.content i).length < 2 ^ 32 := by
  rw [h.consistent.loaded.length_content]
  exact (s.d.size i).toNat_lt

/-- `k` pages before the start of the mapping. -/
theorem FileMapping.dirtyOffset_eq (h : FileMapping n s i e k) :
    dirtyOffset e (pageAddr e k) = (e.offset.toNat + 2 ^ 32 - k * 4096) % 2 ^ 32 := by
  have hpage : k * 4096 < e.sz.toNat := h.page
  have hlt : k * 4096 < 2 ^ 32 := Nat.lt_trans hpage e.sz.isLt
  rw [dirtyOffset, pageAddr, show PGSIZE.toNat = 4096 from rfl, BitVec.toNat_add, BitVec.toNat_sub,
    BitVec.toNat_add, BitVec.toNat_ofNat, Nat.mod_eq_of_lt hlt]
  omega

theorem exists_other (x y : UInt8) : ∃ b : UInt8, b ≠ x ∧ b ≠ y := by
  by_contra hall
  simp only [not_exists, not_and_or, not_not] at hall
  have h₀ := hall 0
  have h₁ := hall 1
  have h₂ := hall 2
  grind

theorem getElem?_overwrite_replicate {old : List UInt8} {off m j : Nat} {b : UInt8} (hle : off ≤ old.length)
    (h₁ : off ≤ j) (h₂ : j < off + m) : (overwrite old off (List.replicate m b))[j]? = some b := by
  rw [Fs.getElem?_overwrite hle, length_replicate, if_pos ⟨h₁, h₂⟩, List.getElem?_replicate,
    if_pos (by omega)]

/-- Bytes at the start and behind the end of the mapping tell where a page went. -/
theorem FileMapping.first_page [DecidableEq P] {env : Env} {p : P} {lg : LogState}
    (h : FileMapping n s i e k)
    (hback : ∀ page : List UInt8, page.length = PGSIZE.toNat → GoesBack env p lg s i e k page) :
    k = 0 ∧ PGSIZE.toNat ≤ e.sz.toNat := by
  have hin := h.inside
  have hpage : k * 4096 < e.sz.toNat := h.page
  have hsmall := h.small
  have hoff := h.dirtyOffset_eq
  generalize hcdef : s.content i = old at hin hsmall
  obtain ⟨b, hb, hb'⟩ := exists_other (old.getD (e.offset.toNat + k * 4096) 0)
    (old.getD (e.offset.toNat + e.sz.toNat) 0)
  obtain ⟨r, t, ls, hdoes, -, hcontent⟩ := hback (List.replicate 4096 b) length_replicate
  rw [mmapWriteDirty_content h.consistent h.unlocked hdoes.1, hcdef, length_replicate,
    show PGSIZE.toNat = 4096 from rfl, take_replicate] at hcontent
  have hmax := h.consistent.loaded.content_le
  rw [hcdef, show MAXFILE * BSIZE = 71680 from rfl] at hmax
  have hq : e.offset.toNat + k * 4096 ≤ old.length := by omega
  have hnot : ∀ j, b ≠ old.getD j 0 → old[j]? ≠ some b := by
    intro j hj hget
    rw [getD_eq_getElem?_getD, hget] at hj
    exact hj rfl
  have hright : (overwrite old (e.offset.toNat + k * 4096)
      (List.replicate (min (e.sz.toNat - k * 4096) 4096) b))[e.offset.toNat + k * 4096]? = some b :=
    getElem?_overwrite_replicate hq (Nat.le_refl _) (by omega)
  have hfirst := (congrArg (·[e.offset.toNat + k * 4096]?) hcontent).trans hright
  by_cases hc : canWrite old (dirtyOffset e (pageAddr e k)) 4096
  · rw [if_pos hc] at hfirst hcontent
    have hle := hc.1
    have hk : k = 0 := by
      by_contra hk
      rw [Fs.getElem?_overwrite hc.1, length_replicate, if_neg (by omega)] at hfirst
      exact hnot _ hb hfirst
    subst hk
    refine ⟨rfl, Nat.le_of_not_lt fun hsz => ?_⟩
    have hsz : e.sz.toNat < 4096 := hsz
    have hat : dirtyOffset e (pageAddr e 0) = e.offset.toNat := by omega
    have hbehind : (overwrite old (dirtyOffset e (pageAddr e 0))
        (List.replicate 4096 b))[e.offset.toNat + e.sz.toNat]? = some b :=
      getElem?_overwrite_replicate hle (Nat.le_trans (Nat.le_of_eq hat) (Nat.le_add_right _ _))
        (hat ▸ Nat.add_lt_add_left hsz _)
    rw [hcontent, Fs.getElem?_overwrite hq, length_replicate, if_neg (by omega)] at hbehind
    exact hnot _ hb' hbehind
  · rw [if_neg hc] at hfirst
    exact absurd hfirst (hnot _ hb)

/-- **A page goes back to where it came from exactly if** it is the first page of the mapping, the
mapping is at least a page long, and the log takes the blocks of the page. -/
theorem goes_back_iff [DecidableEq P] (env : Env) (p : P) (lg : LogState)
    (h : FileMapping n s i e k) :
    (∀ page : List UInt8, page.length = PGSIZE.toNat → GoesBack env p lg s i e k page) ↔
      k = 0 ∧ PGSIZE.toNat ≤ e.sz.toNat ∧
        lg.Takes (fileBlocks s.d.disk (s.d.addrs i) e.offset.toNat PGSIZE.toNat) := by
  have hin := h.inside
  have hlog : k = 0 → PGSIZE.toNat ≤ e.sz.toNat → ∀ page : List UInt8, page.length = PGSIZE.toNat →
      dirtyOffset e (pageAddr e k) = e.offset.toNat ∧
      Vol.writeiLog i (s.k.inode i).inum (dirtyOffset e (pageAddr e k)) page s.d =
        fileBlocks s.d.disk (s.d.addrs i) e.offset.toNat PGSIZE.toNat := by
    rintro rfl hsz page hpage
    have hoff : dirtyOffset e (pageAddr e 0) = e.offset.toNat := by
      have := e.offset.isLt
      rw [h.dirtyOffset_eq]
      omega
    rw [hoff, h.consistent.writeiLog_inside (by omega), hpage]
    exact ⟨rfl, rfl⟩
  constructor
  · intro hback
    obtain ⟨hk, hsz⟩ := h.first_page hback
    obtain ⟨r, t, ls, hdoes, htakes, -⟩ := hback (List.replicate PGSIZE.toNat 0) length_replicate
    have hls := hdoes.2.symm.trans (mmapWriteDirty_does env p h.consistent h.unlocked _ _).2
    rw [hls, (hlog hk hsz _ length_replicate).2, flatten_singleton] at htakes
    exact ⟨hk, hsz, htakes⟩
  · rintro ⟨hk, hsz, htakes⟩ page hpage
    obtain ⟨hoff, hblocks⟩ := hlog hk hsz page hpage
    have hlen := h.small
    have hmax := h.consistent.loaded.content_le
    have hc : canWrite (s.content i) e.offset.toNat page.length :=
      ⟨by omega, by omega, by omega⟩
    have hroom : ¬ s.d.Short i (Fs.positions e.offset.toNat page.length) :=
      Vol.not_short_of_filled (h.consistent.loaded.filledAt (by omega))
    obtain ⟨v, hv, hstored⟩ := ((h.consistent.writei e.offset.toNat page).2 hc).1 hroom
    have hdoes := mmapWriteDirty_does (e := e) env p h.consistent h.unlocked (pageAddr e k) page
    rw [hblocks, hoff, hv] at hdoes
    refine ⟨_, _, _, hdoes, ?_, ?_⟩
    · rwa [flatten_singleton]
    · subst hk
      rw [Nat.zero_mul, Nat.sub_zero, Nat.add_zero, take_of_length_le (by omega)]
      exact hstored.content

/-! ## A file of twelve blocks -/

/-- Blocks 4 to 15, and no indirect block. -/
def twelveBlocks : Fs.Addrs := fun j => if j.val < 12 then .ofNat (4 + j.val) else 0

/-- The disk of sixteen blocks whose inode 1 is a file that has all twelve for data. -/
def fullDisk : Disk := fun b =>
  if b = 1 then
    ((((((Block.setWord Buffer.zero 0 16).setWord 1 12).setWord 2 2).setWord 3 0).setWord 4 2).setWord
      5 2).setWord 6 3
  else if b = 2 then
    Block.setDinode Buffer.zero 1 ⟨Fs.T_FILE, 0, 0, 1, 6144, twelveBlocks⟩
  else if b = 3 then (List.range 16).foldl Block.setBit Buffer.zero
  else Buffer.zero

def fullVol : Vol :=
  ⟨⟨16, 12, 2, 0, 2, 2, 3⟩, fullDisk, fun _ => 6144, fun _ => twelveBlocks⟩

theorem fullVol_map (x : Nat) : fullVol.map x = if x = 1 then twelveBlocks else fun _ => 0 := by
  by_cases hx : x = 1
  · subst hx
    rw [if_pos rfl]
    decide +kernel
  · rw [if_neg hx, Vol.map, if_neg]
    rintro ⟨hlt, hlive⟩
    obtain rfl : x = 0 := by
      have : x < 2 := hlt
      omega
    exact hlive (by decide +kernel)

/-- The references of the volume. -/
theorem fullVol_refs (q : Nat × Fs.Pos) (h : Fs.refs fullVol.disk fullVol.map q ≠ 0) :
    ∃ j : Fin (NDIRECT + 1), j.val < 12 ∧ q = (1, .addr j) ∧
      Fs.refs fullVol.disk fullVol.map q = 4 + j.val := by
  obtain ⟨x, p⟩ := q
  rw [Fs.refs, fullVol_map] at *
  by_cases hx : x = 1
  · subst hx
    rw [if_pos rfl] at *
    cases p with
    | addr j =>
      have hj : ∀ j : Fin (NDIRECT + 1), (twelveBlocks j).toNat ≠ 0 →
          j.val < 12 ∧ (twelveBlocks j).toNat = 4 + j.val := by decide +kernel
      obtain ⟨hlt, heq⟩ := hj j h
      exact ⟨j, hlt, rfl, heq⟩
    | word j =>
      have hzero : Fs.refAt fullVol.disk twelveBlocks (.word j) = 0 := by
        rw [Fs.refAt, if_pos (by decide)]
      exact absurd hzero h
  · rw [if_neg hx] at h
    cases p with
    | addr | word => exact absurd rfl h

theorem fullVol_holds : Fs.Holds fullVol fullVol.node := by
  refine ⟨⟨by decide, by decide +kernel⟩, ⟨fun q hq => ?_, fun q q' hq heq => ?_, fun b h₁ h₂ => ?_, ?_⟩,
    fun x hx => ?_, fun _ _ => rfl, fun _ _ => rfl⟩
  · obtain ⟨j, hj, -, heq⟩ := fullVol_refs q hq
    rw [heq]
    exact ⟨Nat.le_add_right 4 _, show 4 + j.val < 16 by omega⟩
  · obtain ⟨j, -, rfl, hr⟩ := fullVol_refs q hq
    obtain ⟨j', -, rfl, hr'⟩ := fullVol_refs q' (heq ▸ hq)
    rw [hr, hr'] at heq
    rw [Fin.ext (Nat.add_left_cancel heq)]
  · have hbit : ∀ b, 4 ≤ b → b < 16 → fullVol.bit b = true := by decide +kernel
    have hat : ∀ b, 4 ≤ b → b < 16 → (twelveBlocks (Fin.ofNat (NDIRECT + 1) (b - 4))).toNat = b := by
      decide +kernel
    rw [hbit b h₁ h₂]
    refine ⟨fun _ => ⟨(1, .addr (Fin.ofNat (NDIRECT + 1) (b - 4))), ?_⟩, fun _ => rfl⟩
    rw [Fs.refs, fullVol_map]
    exact hat b h₁ h₂
  · show ∀ b, b < 4 → fullVol.bit b = true
    decide +kernel
  · obtain ⟨hlt, hlive⟩ := hx
    have hx : x = 1 := by
      have : x < 2 := hlt
      by_contra hne
      obtain rfl : x = 0 := by omega
      exact hlive (by decide +kernel)
    subst hx
    have hsize : (fullVol.dinode 1).size = 6144 := by decide +kernel
    have haddrs : (fullVol.dinode 1).addrs = twelveBlocks := by decide +kernel
    rw [hsize, haddrs]
    refine ⟨by decide, fun k hk => ?_⟩
    have hk : k < 6144 := hk
    have hdirect : k / BSIZE < NDIRECT := by
      simp only [BSIZE, NDIRECT]
      omega
    have hat : ∀ j : Fin NDIRECT, (twelveBlocks j.castSucc).toNat ≠ 0 := by decide +kernel
    rw [Fs.posOf_direct hdirect]
    exact hat ⟨k / BSIZE, hdirect⟩

/-- The file is open. -/
def fullState : Fs.State Unit Vol := ⟨Fs.seekKernel, fullVol⟩

theorem full_consistent : Consistent 2 fullState ⟨0, by decide⟩ where
  rel := ⟨rfl, rfl, fullVol_holds, fun i hi _ => by
    rw [Fs.seekKernel_ref hi]
    exact ⟨by decide +kernel, by decide +kernel⟩⟩
  ready :=
    { tidy :=
        { uniq := fun i j hi hj _ => (Fs.seekKernel_ref hi).trans (Fs.seekKernel_ref hj).symm
          range := fun i hi => by
            rw [Fs.seekKernel_ref hi]
            exact (show 1 < 2 by decide)
          alive := fun i hi _ => by
            rw [Fs.seekKernel_ref hi]
            decide +kernel
          cwd := fun _ _ h => nomatch h }
      ref := show 0 < (Fs.seekKernel.inode ⟨0, by decide⟩).ref by decide
      valid := show (Fs.seekKernel.inode ⟨0, by decide⟩).valid = true by decide
      regular := show (fullVol.node 1).type = Fs.T_FILE by decide +kernel }

/-- A mapping of `sz` bytes of the file from its start. -/
def fullMapping (sz : Word) : Mme :=
  ⟨0x7FFFD000, sz, MAP_FILE, 0, 0x80400000, 0, some ⟨0, Fs.ninode_pos⟩, 3, 1⟩

theorem full_mapping {sz : Word} (hsz : sz.toNat ≤ 6144) {k : Nat} (hk : k * PGSIZE.toNat < sz.toNat) :
    FileMapping 2 fullState ⟨0, by decide⟩ (fullMapping sz) k where
  consistent := full_consistent
  unlocked := rfl
  file := rfl
  ip := rfl
  inside := by
    rw [full_consistent.loaded.length_content, show (fullMapping sz).offset.toNat = 0 from rfl, Nat.zero_add]
    exact hsz
  page := hk

/-- The second page of 6000 bytes, in an open transaction: `writei` is asked to write at -4096, and
the file keeps its old bytes. -/
theorem second_page_lost : FileMapping 2 fullState ⟨0, by decide⟩ (fullMapping 6000) 1 ∧
    (∀ page : List UInt8, page.length = PGSIZE.toNat →
      run (exec blockStore Fs.bareEnv ()) (mmapWriteDirty (fullMapping 6000) ⟨0, by decide⟩
        (pageAddr (fullMapping 6000) 1) page) fullState = .ok (-1) fullState) ∧
    ¬ ∀ page : List UInt8, page.length = PGSIZE.toNat →
      GoesBack Fs.bareEnv () ⟨30, 1, []⟩ fullState ⟨0, by decide⟩ (fullMapping 6000) 1 page := by
  have hf : FileMapping 2 fullState ⟨0, by decide⟩ (fullMapping 6000) 1 :=
    full_mapping (by decide) (by decide)
  refine ⟨hf, fun page hpage => ?_, fun hback => absurd (hf.first_page hback).1 (by decide)⟩
  have hoff : dirtyOffset (fullMapping 6000) (pageAddr (fullMapping 6000) 1) = 4294963200 := by decide +kernel
  rw [(mmapWriteDirty_does Fs.bareEnv () hf.consistent rfl _ page).1, hoff]
  have hrefuse := (hf.consistent.writei 4294963200 page).1 fun hc => ?_
  · rw [hrefuse]
  · have hle := hc.1
    have hlen := full_consistent.loaded.length_content
    rw [show (fullState.d.size ⟨0, by decide⟩).toNat = 6144 from rfl] at hlen
    have : (fullState.content ⟨0, by decide⟩).length = 6144 := hlen
    rw [Fs.State.content] at this
    omega

/-- The first page, in an open transaction. -/
theorem goes_back_first : FileMapping 2 fullState ⟨0, by decide⟩ (fullMapping 6000) 0 ∧
    ∀ page : List UInt8, page.length = PGSIZE.toNat →
      GoesBack Fs.bareEnv () ⟨30, 1, []⟩ fullState ⟨0, by decide⟩ (fullMapping 6000) 0 page := by
  have hf : FileMapping 2 fullState ⟨0, by decide⟩ (fullMapping 6000) 0 :=
    full_mapping (by decide) (by decide)
  have hblocks : fileBlocks fullVol.disk twelveBlocks 0 4096 = [4, 5, 6, 7, 8, 9, 10, 11] := by
    decide +kernel
  refine ⟨hf, (goes_back_iff Fs.bareEnv () ⟨30, 1, []⟩ hf).mpr
    ⟨rfl, by decide, ⟨30, 1, [4, 5, 6, 7, 8, 9, 10, 11]⟩, ?_⟩⟩
  exact (congrArg (List.foldlM LogState.logWrite ⟨30, 1, []⟩) hblocks).trans rfl

end Mmap

end Xv6
