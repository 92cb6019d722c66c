/-
# `Xv6.Fs.Sections` — what a section of `filewrite` writes to the log

`filewrite` cuts a write into sections between `begin_op` and `end_op`, and each
section has `MAXOPBLOCKS` blocks of the log to itself.  The functions of the first
part list the blocks that `fs.c` calls `log_write` on, one for each function of
`Xv6.Fs.Block`.  A chunk of `WRITEMAX` bytes lies in four blocks of the file; with
them go the indirect block, the one block of the free map, and the block of the
inode.  The last part shows that the sections come to the same as one big one.
-/
import Xv6.Fs.Room

namespace Xv6.Fs

open Machine Bytes List
open Wp (ok_of_bind)

/-- What comes after a call, if it returns. -/
def after {α : Type} : Except Panic α → (α → List Nat) → List Nat
  | .ok a, f => f a
  | .error _, _ => []

variable {b : Nat} {e : Panic}

namespace Vol

/-! ## The calls of `log_write` -/

/-- `balloc` logs its block of the free map, and `bzero` the new block. -/
def ballocLog (v : Vol) : List Nat :=
  match (List.range v.sb.size).find? (fun b => !v.bit b) with
  | some b => [v.sb.BBLOCK b, b]
  | none => []

def addrLog (v : Vol) (i : InodeId) (j : Fin (NDIRECT + 1)) : List Nat :=
  if v.addrs i j = 0 then v.ballocLog else []

def wordLog (v : Vol) (ind bn : Nat) : List Nat :=
  if (v.disk ind).word bn = 0 then v.ballocLog ++ after v.balloc fun _ => [ind] else []

def bmapLog (v : Vol) (i : InodeId) (bn : Nat) : List Nat :=
  if h : bn < NDIRECT then v.addrLog i ⟨bn, Nat.lt_succ_of_lt h⟩
  else if bn - NDIRECT < NINDIRECT then
    v.addrLog i (Fin.last NDIRECT) ++
      after (v.addrOrAlloc i (Fin.last NDIRECT)) fun r => r.2.wordLog r.1 (bn - NDIRECT)
  else []

def writeLoopLog (i : InodeId) : Nat → Nat → List UInt8 → Vol → List Nat
  | 0, _, _, _ => []
  | fuel + 1, off, src, v =>
    if src = [] then []
    else
      let m := chunk off src.length
      v.bmapLog i (off / BSIZE) ++ after (v.bmap i (off / BSIZE)) fun r =>
        r.1 :: writeLoopLog i fuel (off + m) (src.drop m)
          (r.2.put r.1 ((r.2.disk r.1).splice (off % BSIZE) (src.take m)))

/-- The blocks `writei` calls `log_write` on, in order; the last one is `iupdate`'s. -/
def writeiLog (i : InodeId) (x : Nat) (off : Nat) (src : List UInt8) (v : Vol) : List Nat :=
  let n := src.length
  if (v.size i).toNat < off ∨ 2 ^ 32 ≤ off + n then []
  else if MAXFILE * BSIZE < off + n then []
  else v.writeLoopLog i n off src ++ after (v.writeLoop i n off src) fun w =>
    if 0 < n ∧ (w.size i).toNat < off + n then [w.sb.IBLOCK x] else []

/-! ## Nothing else changes -/

variable {v v' w : Vol} {i : InodeId} {x c : Nat}

/-! ## How many there are -/

theorem mem_ballocLog (hok : v.Ok) (h : v.balloc = .ok (b, w)) (hc : c ∈ v.ballocLog) :
    c = v.sb.bmapstart ∨ c = b := by
  rw [balloc] at h
  rw [ballocLog] at hc
  cases hf : (List.range v.sb.size).find? (fun b => !v.bit b) with
  | none => rw [hf] at h; cases h
  | some b' =>
    rw [hf] at h hc
    cases h
    -- the disk has fewer blocks than a block of the map has bits
    have hlt : b < v.sb.size := mem_range.mp (mem_of_find?_eq_some hf)
    have hB : v.sb.BBLOCK b = v.sb.bmapstart := by
      have := hok.wf.disk
      simp only [Superblock.BBLOCK, FSSIZE, BPB, BSIZE] at this ⊢
      omega
    simpa [hB] using hc

theorem ballocLog_error (h : v.balloc = .error e) : v.ballocLog = [] := by
  rw [balloc] at h
  rw [ballocLog]
  cases hf : (List.range v.sb.size).find? (fun b => !v.bit b) with
  | none => rfl
  | some b' => rw [hf] at h; cases h

theorem mem_addrLog (hok : v.Ok) {j : Fin (NDIRECT + 1)} (h : v.addrOrAlloc i j = .ok (b, w))
    (hc : c ∈ v.addrLog i j) : c = v.sb.bmapstart ∨ c = b := by
  rw [addrOrAlloc] at h
  rw [addrLog] at hc
  split at h
  · rename_i hz
    rw [if_pos hz] at hc
    obtain ⟨r, hb, h⟩ := ok_of_bind h
    cases h
    exact mem_ballocLog hok hb hc
  · rename_i hz
    rw [if_neg hz] at hc
    cases hc

theorem addrLog_error {j : Fin (NDIRECT + 1)} (h : v.addrOrAlloc i j = .error e) :
    v.addrLog i j = [] := by
  rw [addrOrAlloc] at h
  rw [addrLog]
  split at h
  · rename_i hz
    rw [if_pos hz]
    cases hb : v.balloc with
    | error e' => exact ballocLog_error hb
    | ok r => rw [hb] at h; cases h
  · cases h

theorem mem_wordLog (hok : v.Ok) {a k : Nat} (h : v.wordOrAlloc a k = .ok (b, w))
    (hc : c ∈ v.wordLog a k) : c = v.sb.bmapstart ∨ c = a ∨ c = b := by
  rw [wordOrAlloc] at h
  rw [wordLog] at hc
  split at h
  · rename_i hz
    rw [if_pos hz] at hc
    obtain ⟨r, hb, h⟩ := ok_of_bind h
    rw [hb] at hc
    cases h
    rcases mem_append.mp hc with hc | hc
    · exact (mem_ballocLog hok hb hc).imp_right .inr
    · exact .inr (.inl (mem_singleton.mp hc))
  · rename_i hz
    rw [if_neg hz] at hc
    cases hc

theorem wordLog_error {a k : Nat} (h : v.wordOrAlloc a k = .error e) : v.wordLog a k = [] := by
  rw [wordOrAlloc] at h
  rw [wordLog]
  split at h
  · rename_i hz
    rw [if_pos hz]
    cases hb : v.balloc with
    | error e' =>
      rw [ballocLog_error hb]
      rfl
    | ok r => rw [hb] at h; cases h
  · cases h

/-- A block that `bmap` logs is the map, the indirect block, or the block it returns. -/
theorem mem_bmapLog (hok : v.Ok) (ho : v.Owned (v.mapWith i x)) {bn : Nat} (hbn : bn < MAXFILE)
    (h : v.bmap i bn = .ok (b, w)) (hc : c ∈ v.bmapLog i bn) :
    c = v.sb.bmapstart ∨ (ind (w.addrs i) ≠ 0 ∧ c = ind (w.addrs i)) ∨ c = b := by
  rw [bmap] at h
  rw [bmapLog] at hc
  by_cases hd : bn < NDIRECT
  · rw [dif_pos hd] at h hc
    exact (mem_addrLog hok h hc).imp_right .inr
  · have hk := indirect_lt hbn hd
    rw [dif_neg hd, if_pos hk] at h hc
    obtain ⟨⟨a, w'⟩, ha, h⟩ := ok_of_bind h
    rw [ha] at hc
    simp only [after] at hc
    obtain ⟨hg, hb, hb₀, -⟩ := addrOrAlloc_ok hok ho ha
    obtain ⟨hg', -⟩ :=
      wordOrAlloc_ok (k := ⟨bn - NDIRECT, hk⟩) (hg.frame.ok hok) hg.owned hb hb₀ h
    have hind : ind (w.addrs i) = a := by
      rw [← refAt_last w.disk, ← refsWith_self, hg'.grow _ (by rw [hb]; exact hb₀), hb]
    rw [hind]
    rcases mem_append.mp hc with hc | hc
    · exact (mem_addrLog hok ha hc).imp_right fun he => .inl ⟨hb₀, he⟩
    · have := mem_wordLog (hg.frame.ok hok) h hc
      rw [hg.frame.sb] at this
      exact this.imp_right (Or.imp_left fun he => ⟨hb₀, he⟩)

theorem mem_bmapLog_error (hok : v.Ok) (ho : v.Owned (v.mapWith i x)) {bn : Nat}
    (hbn : bn < MAXFILE) (h : v.bmap i bn = .error e) :
    ∃ m, (ind (v.addrs i) ≠ 0 → m = ind (v.addrs i)) ∧
      ∀ c ∈ v.bmapLog i bn, c = v.sb.bmapstart ∨ c = m := by
  rw [bmap] at h
  rw [bmapLog]
  by_cases hd : bn < NDIRECT
  · rw [dif_pos hd] at h ⊢
    rw [addrLog_error h]
    exact ⟨ind (v.addrs i), fun _ => rfl, by simp⟩
  · have hk := indirect_lt hbn hd
    rw [dif_neg hd, if_pos hk] at h ⊢
    cases ha : v.addrOrAlloc i (Fin.last NDIRECT) with
    | error e' =>
      rw [addrLog_error ha]
      exact ⟨ind (v.addrs i), fun _ => rfl, fun _ h => by cases h⟩
    | ok r =>
      obtain ⟨a, w'⟩ := r
      rw [ha] at h
      simp only [bind, Except.bind] at h
      obtain ⟨hg, hb, -, -⟩ := addrOrAlloc_ok hok ho ha
      refine ⟨a, fun h₀ => ?_, fun c hc => ?_⟩
      · have hlast : v.refsWith i x (x, .addr (Fin.last NDIRECT)) = ind (v.addrs i) := refsWith_self _
        rw [← hb, hg.grow _ (by rw [hlast]; exact h₀), hlast]
      · simp only [after, wordLog_error h, append_nil] at hc
        exact mem_addrLog hok ha hc

/-- The number of blocks falls by one with each round. -/
theorem blocks_chunk {off n : Nat} (hn : n ≠ 0) :
    blocks off n = blocks (off + chunk off n) (n - chunk off n) + 1 := by
  by_cases h : n ≤ BSIZE - off % BSIZE
  · rw [show chunk off n = n from Nat.min_eq_left h, Nat.sub_self, blocks, if_neg hn, blocks, if_pos rfl]
    simp only [BSIZE] at h ⊢
    omega
  · rw [show chunk off n = BSIZE - off % BSIZE from Nat.min_eq_right (by omega), blocks, if_neg hn,
      blocks, if_neg (by omega)]
    simp only [BSIZE] at h ⊢
    omega

/-- **What the loop of `writei` logs**: the map, the indirect block, and a block for each
block of the file it writes. -/
theorem mem_writeLoopLog : ∀ (fuel off : Nat) (src : List UInt8) {v : Vol}, v.Ok →
    v.Owned (v.mapWith i x) → src.length ≤ fuel → off + src.length ≤ MAXFILE * BSIZE →
    ∃ (m : Nat) (B : Finset Nat), (ind (v.addrs i) ≠ 0 → m = ind (v.addrs i)) ∧
      B.card ≤ blocks off src.length ∧
      ∀ c ∈ v.writeLoopLog i fuel off src, c = v.sb.bmapstart ∨ c = m ∨ c ∈ B
  | 0, off, src, v, _, _, _, _ => ⟨ind (v.addrs i), ∅, fun _ => rfl, Nat.zero_le _, nofun⟩
  | fuel + 1, off, src, v, hok, ho, hf, hm => by
    rw [writeLoopLog]
    by_cases hs : src = []
    · rw [if_pos hs]
      exact ⟨ind (v.addrs i), ∅, fun _ => rfl, Nat.zero_le _, nofun⟩
    · rw [if_neg hs]
      have hn : src.length ≠ 0 := fun h₀ => hs (length_eq_zero_iff.mp h₀)
      have hpos : 0 < chunk off src.length := chunk_pos hn
      have hle := chunk_le off src.length
      have hbn : off / BSIZE < MAXFILE := by simp only [BSIZE] at *; omega
      cases hb : v.bmap i (off / BSIZE) with
      | error e =>
        obtain ⟨m, hm₀, hlog⟩ := mem_bmapLog_error hok ho hbn hb
        refine ⟨m, ∅, hm₀, Nat.zero_le _, fun c hc => ?_⟩
        simp only [after, append_nil] at hc
        exact (hlog c hc).imp_right .inl
      | ok r =>
        obtain ⟨b, w⟩ := r
        obtain ⟨-, hc⟩ := wrote_round hok ho hs hm hb
        obtain ⟨hg, -⟩ := bmap_ok hok ho hbn hb
        obtain ⟨m, B, hm₀, hB, hlog⟩ := mem_writeLoopLog fuel
          (off + chunk off src.length) (src.drop (chunk off src.length))
          (hc.frame.ok hok) hc.owned (by rw [length_drop]; omega)
          (by rw [length_drop]; omega)
        rw [put_addrs] at hm₀
        refine ⟨m, insert b B, fun h₀ => ?_, ?_, fun c hc' => ?_⟩
        · have hlast : v.refsWith i x (x, .addr (Fin.last NDIRECT)) = ind (v.addrs i) :=
            refsWith_self _
          have hgrow := hg.grow (x, .addr (Fin.last NDIRECT)) (by rw [hlast]; exact h₀)
          rw [refsWith_self, refAt_last, hlast] at hgrow
          rw [hm₀ (by rw [hgrow]; exact h₀), hgrow]
        · rw [blocks_chunk hn, ← length_drop]
          exact (Finset.card_insert_le b B).trans (Nat.add_le_add_right hB 1)
        · rcases mem_append.mp hc' with hc' | hc'
          · rcases mem_bmapLog hok ho hbn hb hc' with he | ⟨h₀, he⟩ | he
            · exact .inl he
            · exact .inr (.inl (he.trans (hm₀ h₀).symm))
            · exact .inr (.inr (he ▸ Finset.mem_insert_self ..))
          · rcases mem_cons.mp hc' with he | hc'
            · exact .inr (.inr (he ▸ Finset.mem_insert_self ..))
            · have := hlog c hc'
              rw [hc.frame.sb] at this
              exact this.imp_right (Or.imp_right fun h => Finset.mem_insert_of_mem h)

/-- **A section of `filewrite` fits the log**: it calls `log_write` on seven blocks at most. -/
theorem writeiLog_card (off : Nat) (src : List UInt8) (hok : v.Ok) (ho : v.Owned (v.mapWith i x))
    (hlen : src.length ≤ WRITEMAX) : (writeiLog i x off src v).toFinset.card ≤ 7 := by
  rw [writeiLog]
  by_cases h₁ : (v.size i).toNat < off ∨ 2 ^ 32 ≤ off + src.length
  · rw [if_pos h₁]
    exact Nat.zero_le _
  by_cases h₂ : MAXFILE * BSIZE < off + src.length
  · rw [if_neg h₁, if_pos h₂]
    exact Nat.zero_le _
  rw [if_neg h₁, if_neg h₂]
  obtain ⟨m, B, -, hB, hlog⟩ := mem_writeLoopLog _ _ _ hok ho (Nat.le_refl _) (Nat.le_of_not_lt h₂)
  have hfour : blocks off src.length ≤ 4 := by
    simp only [blocks, BSIZE]
    rw [show WRITEMAX = 1536 from rfl] at hlen
    split <;> omega
  have hsub : (v.writeLoopLog i src.length off src ++ after (v.writeLoop i src.length off src) fun w =>
      if 0 < src.length ∧ (w.size i).toNat < off + src.length then [w.sb.IBLOCK x] else []).toFinset ⊆
      insert v.sb.bmapstart (insert m (insert (v.sb.IBLOCK x) B)) := by
    intro c hc
    simp only [Finset.mem_insert]
    rcases mem_append.mp (mem_toFinset.mp hc) with hc | hc
    · rcases hlog c hc with h | h | h
      · exact .inl h
      · exact .inr (.inl h)
      · exact .inr (.inr (.inr h))
    · cases hw : v.writeLoop i src.length off src with
      | error e => rw [hw] at hc; cases hc
      | ok w =>
        have hwr := writeLoop_ok hok ho (Nat.le_refl _) (Nat.le_of_not_lt h₂) hw
        rw [hw] at hc
        simp only [after] at hc
        split at hc
        · rw [mem_singleton.mp hc, hwr.frame.sb]
          exact .inr (.inr (.inl rfl))
        · cases hc
  have h₃ := Finset.card_le_card hsub
  have h₄ := Finset.card_insert_le v.sb.bmapstart (insert m (insert (v.sb.IBLOCK x) B))
  have h₅ := Finset.card_insert_le m (insert (v.sb.IBLOCK x) B)
  have h₆ := Finset.card_insert_le (v.sb.IBLOCK x) B
  omega

end Vol

/-! ## Sections -/

/-- A section of `filewrite`, from `begin_op` to `end_op`, with the bytes `src`, and what is
done after it with the answer of `writei`. -/
def inSection {α : Type} (f : FileId) (ip : InodeId) (src : List UInt8) (k : Int → FsProg α) :
    FsProg α := do
  ilock ip
  let fl : File ← cmd (.file f)
  let r : Int ← cmd (.writei ip fl.off src)
  if 0 < r then cmd (.setOff f ((fl.off + r.toNat) % 2 ^ 32))
  iunlock ip
  k r

/-- What the loop does after a section. -/
def nextSection (f : FileId) (ip : InodeId) (n : Nat) (src : List UInt8) (r : Int) : FsProg Bool := do
  if r < 0 then return false
  if r ≠ (src.take WRITEMAX).length then panic .shortFilewrite
  filewriteLoop f ip n (src.drop WRITEMAX)

theorem nextSection_refused (f : FileId) (ip : InodeId) (n : Nat) (src : List UInt8) :
    nextSection f ip n src (-1) = .ret false := by
  rw [nextSection, if_pos (by decide)]
  rfl

theorem nextSection_written (f : FileId) (ip : InodeId) (n : Nat) (src : List UInt8) :
    nextSection f ip n src (src.take WRITEMAX).length = filewriteLoop f ip n (src.drop WRITEMAX) := by
  rw [nextSection, if_neg (by omega)]
  exact if_neg fun hne => hne rfl

variable {src : List UInt8}

/-- The loop of `filewrite` is one section after the other. -/
theorem filewriteLoop_succ (f : FileId) (ip : InodeId) (n : Nat) (hs : src ≠ []) :
    filewriteLoop f ip (n + 1) src =
      inSection f ip (src.take WRITEMAX) (nextSection f ip n src) := by
  rw [filewriteLoop, if_neg hs]
  rfl

variable {P : Type} {n : Nat} {s : State P Vol} {f : FileId} {i : InodeId} {k : Kernel P}

/-- The calls of `log_write` of a section: they are made by its `writei`. -/
def logged : Cmd → State P Vol → List (List Nat)
  | .writei i off src, s =>
    if (s.k.inode i).type = T_DEV then [] else [Vol.writeiLog i (s.k.inode i).inum off src s.d]
  | _, _ => []

theorem ilock_does [DecidableEq P] (env : Env) (p : P) (hr : 0 < (s.k.inode i).ref)
    (hv : (s.k.inode i).valid = true) (hl : (s.k.inode i).lock = none) :
    Does (exec blockStore env p) logged (ilock i) s [] (.ok () (s.setLock i (some p))) := by
  refine .silent rfl rfl ?_
  refine .neg (Int.not_lt.mpr hr) ?_
  refine .silent (t := s.setLock i (some p)) (r := ()) ?_ rfl ?_
  · simp only [exec, hl]
    rfl
  · refine .call ?_
    have hv' : ((s.setLock i (some p)).k.inode i).valid = true := by
      rw [State.inode_setLock]
      exact hv
    simp only [exec, hv', if_true]

theorem iunlock_does [DecidableEq P] (env : Env) (p : P) (hr : 0 < (s.k.inode i).ref)
    (hl : (s.k.inode i).lock = none) :
    Does (exec blockStore env p) logged (iunlock i) (s.setLock i (some p)) [] (.ok () s) := by
  refine .silent (r := true) (t := s.setLock i (some p)) ?_ rfl ?_
  · simp only [exec, State.inode_setLock, Option.isSome_some]
  refine .silent (r := (s.k.inode i).ref) (t := s.setLock i (some p)) ?_ rfl ?_
  · simp only [exec, State.inode_setLock]
  refine .neg (by rw [not_or, Int.not_lt]; exact ⟨by simp, hr⟩) (.call ?_)
  have hback := State.setLock_setLock hl (some p)
  rw [State.setLock] at hback
  exact congrArg (Out.ok ()) hback

/-- `if(r > 0) f->off += r`. -/
def moved (s : State P Vol) (f : FileId) (r : Int) : State P Vol :=
  if 0 < r then s.seek f (.ofNat ((s.k.file f).off + r.toNat)) else s

theorem writei_locked [DecidableEq P] (env : Env) (p : P) (h : Consistent n s i) (off : Nat)
    (src : List UInt8) :
    logged (.writei i off src) (s.setLock i (some p)) =
        [Vol.writeiLog i (s.k.inode i).inum off src s.d] ∧
      exec blockStore env p (.writei i off src) (s.setLock i (some p)) =
        match Vol.writei i (s.k.inode i).inum (s.k.inode i).toAttr off src s.d with
        | .ok (r, v) => .ok r (State.setLock ⟨s.k, v⟩ i (some p))
        | .error e => .halt e := by
  have hip := State.inode_setLock s i (some p)
  constructor
  · simp only [logged, hip, if_neg h.not_dev]
    rfl
  · have hd : (s.setLock i (some p)).d = s.d := rfl
    simp only [exec, hip, hd, if_neg h.not_dev, blockStore]
    cases Vol.writei i (s.k.inode i).inum (s.k.inode i).toAttr off src s.d with
    | ok | error => rfl

theorem inSection_does [DecidableEq P] {α : Type} (env : Env) (p : P) (h : Consistent n s i)
    (hl : (s.k.inode i).lock = none) {k : Int → FsProg α} {r : Int} {v : Vol} {ls : List (List Nat)}
    {o : Out Panic α (State P Vol)}
    (hw : Vol.writei i (s.k.inode i).inum (s.k.inode i).toAttr (s.k.file f).off src s.d = .ok (r, v))
    (hk : Does (exec blockStore env p) logged (k r) (moved ⟨s.k, v⟩ f r) ls o) :
    Does (exec blockStore env p) logged (inSection f i src k) s
      (Vol.writeiLog i (s.k.inode i).inum (s.k.file f).off src s.d :: ls) o := by
  obtain ⟨hlog, hx⟩ := writei_locked env p h (s.k.file f).off src
  rw [hw] at hx
  refine (ilock_does env p h.ready.ref h.ready.valid hl).seq ?_
  refine .silent rfl rfl ?_
  have hcall : Does _ logged _ _ _ _ := .call hx
  rw [hlog] at hcall
  refine hcall.seq ?_
  by_cases hr : 0 < r
  · refine .pos hr (.silent (r := ()) (t := (moved ⟨s.k, v⟩ f r).setLock i (some p)) ?_ rfl ?_)
    · rw [moved, if_pos hr]
      rfl
    · refine (iunlock_does env p ?_ ?_).seq hk
      · rw [moved, if_pos hr]
        exact h.ready.ref
      · rw [moved, if_pos hr]
        exact hl
  · rw [moved, if_neg hr] at hk
    exact .neg hr ((iunlock_does (s := ⟨s.k, v⟩) env p h.ready.ref hl).seq hk)

theorem inSection_halt [DecidableEq P] {α : Type} (env : Env) (p : P) (h : Consistent n s i)
    (hl : (s.k.inode i).lock = none) (k : Int → FsProg α)
    (hw : Vol.writei i (s.k.inode i).inum (s.k.inode i).toAttr (s.k.file f).off src s.d = .error e) :
    Does (exec blockStore env p) logged (inSection f i src k) s
      [Vol.writeiLog i (s.k.inode i).inum (s.k.file f).off src s.d] (.halt e) := by
  obtain ⟨hlog, hx⟩ := writei_locked env p h (s.k.file f).off src
  rw [hw] at hx
  refine (ilock_does env p h.ready.ref h.ready.valid hl).seq ?_
  refine .silent rfl rfl ?_
  have hcall : Does _ logged _ _ _ _ := .call_halt hx
  rw [hlog] at hcall
  exact hcall.seq_halt

/-! ## The sections of a call -/

/-- `f` is open on a regular file that is loaded and that nobody has locked, and the file system
is in order. -/
structure OpenFile (n : Nat) (s : State P Vol) (f : FileId) : Prop where
  rel : Rel n s ⟨s.k, s.d.node⟩
  opened : Opened n ⟨s.k, s.d.node⟩ f

theorem OpenFile.consistent (h : OpenFile n s f) : Consistent n s (s.k.file f).ip :=
  ⟨h.rel, h.opened.ready⟩

theorem moved_ip (s : State P Vol) (f : FileId) (r : Int) :
    ((moved s f r).k.file f).ip = (s.k.file f).ip := by
  rw [moved]
  split
  · show (Function.update s.k.file f _ f).ip = _
    rw [Function.update_self]
  · rfl

theorem OpenFile.moved (h : OpenFile n s f) {v : Vol} (hv : Consistent n ⟨s.k, v⟩ (s.k.file f).ip)
    (r : Int) : OpenFile n (moved ⟨s.k, v⟩ f r) f := by
  have hopen : Opened n ⟨s.k, v.node⟩ f := ⟨hv.ready, h.opened.unlocked, h.opened.type, h.opened.off⟩
  rw [Fs.moved]
  split
  · exact ⟨hv.rel.seek f _, hopen.seek f _⟩
  · exact ⟨hv.rel, hopen⟩

theorem Consistent.writei_outcome (h : Consistent n s i) (off : Nat) (src : List UInt8) :
    (∃ e, Vol.writei i (s.k.inode i).inum (s.k.inode i).toAttr off src s.d = .error e) ∨
    Vol.writei i (s.k.inode i).inum (s.k.inode i).toAttr off src s.d = .ok (-1, s.d) ∨
    ∃ v, Vol.writei i (s.k.inode i).inum (s.k.inode i).toAttr off src s.d = .ok (src.length, v) ∧
      Consistent n ⟨s.k, v⟩ i := by
  obtain ⟨hrefuse, hwrite⟩ := h.writei off src
  by_cases hc : canWrite (s.d.node (s.k.inode i).inum).content off src.length
  · by_cases hs : s.d.Short i (positions off src.length)
    · exact .inl ⟨_, (hwrite hc).2 hs⟩
    · obtain ⟨v, hv, hstored⟩ := (hwrite hc).1 hs
      exact .inr (.inr ⟨v, hv, hstored.consistent⟩)
  · exact .inr (.inl (hrefuse hc))

/-- **Every section of the loop fits the log.** -/
theorem filewriteLoop_logged [DecidableEq P] (env : Env) (p : P) (m : Nat) (h : OpenFile n s f)
    (hi : (s.k.file f).ip = i) :
    ∀ l ∈ observe (exec blockStore env p) logged (filewriteLoop f i m src) s, l.toFinset.card ≤ 7 := by
  induction m generalizing s src with
  | zero => exact fun _ h => by cases h
  | succ m ih =>
    by_cases hs : src = []
    · rw [filewriteLoop, if_pos hs]
      exact fun _ h => by cases h
    subst hi
    rw [filewriteLoop_succ f _ m hs]
    have hc := h.consistent
    have hfirst := Vol.writeiLog_card (s.k.file f).off (src.take WRITEMAX)
      hc.rel.holds.ok hc.owned (length_take_le ..)
    have hcons : ∀ {ls : List (List Nat)}, (∀ l ∈ ls, l.toFinset.card ≤ 7) →
        ∀ l ∈ Vol.writeiLog _ _ _ _ _ :: ls, l.toFinset.card ≤ 7 :=
      fun hls => forall_mem_cons.mpr ⟨hfirst, hls⟩
    rcases hc.writei_outcome (s.k.file f).off (src.take WRITEMAX) with ⟨e, hw⟩ | hw | ⟨v, hw, hv⟩
    · rw [(inSection_halt env p hc h.opened.unlocked _ hw).2]
      exact hcons (by simp)
    · rw [(inSection_does env p hc h.opened.unlocked hw ⟨rfl, rfl⟩).2]
      refine hcons ?_
      rw [nextSection_refused]
      exact fun _ h => by cases h
    · rw [(inSection_does env p hc h.opened.unlocked hw ⟨rfl, rfl⟩).2]
      refine hcons ?_
      rw [nextSection_written]
      exact ih (h.moved hv _) (moved_ip ..)

/-! ## The sections together -/

/-- The open files do not matter. -/
theorem Consistent.congr {k' : Kernel P} {v : Vol} (h : Consistent n ⟨k, v⟩ i)
    (hi : k'.inode = k.inode) (hc : k'.cwd = k.cwd) : Consistent n ⟨k', v⟩ i := by
  obtain ⟨hrel, ⟨⟨huniq, hrange, halive, hcwd⟩, href, hvalid, hreg⟩⟩ := h
  refine ⟨⟨rfl, hrel.ninodes, hrel.holds, ?_⟩, ⟨⟨?_, ?_, ?_, ?_⟩, ?_, ?_, ?_⟩⟩
  · intro j
    rw [hi]
    exact hrel.cached j
  · simp only [hi]
    exact huniq
  · simp only [hi]
    exact hrange
  · simp only [hi]
    exact halive
  · simp only [hi, hc]
    exact hcwd
  · simp only [hi]
    exact href
  · simp only [hi]
    exact hvalid
  · simp only [hi]
    exact hreg

theorem Stored.refl (h : Consistent n s i) :
    Stored n s i (s.d.node (s.k.inode i).inum).content s.d :=
  ⟨h, rfl, fun _ hy => ⟨hy, rfl⟩, fun _ _ _ => rfl⟩

/-- One store after another; in between files may be opened or moved. -/
theorem Stored.trans {c c' : List UInt8} {v v' : Vol} (h : Stored n s i c v)
    (h' : Stored n ⟨k, v⟩ i c' v') (hi : k.inode = s.k.inode) (hc : k.cwd = s.k.cwd) :
    Stored n s i c' v' where
  consistent := h'.consistent.congr hi.symm hc.symm
  content := by
    rw [← hi]
    exact h'.content
  live y hy := by
    obtain ⟨hv, ha⟩ := h.live y hy
    obtain ⟨hv', ha'⟩ := h'.live y hv
    exact ⟨hv', ha'.trans ha⟩
  others y hyx hy := by
    have hne : y ≠ ((⟨k, v⟩ : State P Vol).k.inode i).inum := by
      rw [hi]
      exact hyx
    exact (h'.others y hne (h.live y hy).1).trans (h.others y hyx hy)

/-- Two volumes with the same bytes in the file have the same inodes. -/
theorem Stored.node_eq {c : List UInt8} {v v' : Vol} (h : Stored n s i c v) (h' : Stored n s i c v')
    {y : Nat} (hy : s.d.Live y) : v.node y = v'.node y := by
  by_cases hyx : y = (s.k.inode i).inum
  · subst hyx
    have hattr := (h.live _ hy).2.trans (h'.live _ hy).2.symm
    have hcontent := h.content.trans h'.content.symm
    revert hattr hcontent
    generalize v.node _ = a
    generalize v'.node _ = b
    rintro hattr hcontent
    cases a
    cases b
    cases hattr
    cases hcontent
    rfl
  · rw [h.others y hyx hy, h'.others y hyx hy]

theorem moved_frame (s : State P Vol) (f : FileId) (r : Int) :
    (moved s f r).k.inode = s.k.inode ∧ (moved s f r).k.cwd = s.k.cwd ∧ (moved s f r).d = s.d := by
  rw [moved]
  split
  · exact ⟨rfl, rfl, rfl⟩
  · exact ⟨rfl, rfl, rfl⟩

theorem moved_k (k : Kernel P) (v v' : Vol) (f : FileId) (r : Int) :
    (moved ⟨k, v⟩ f r).k = (moved ⟨k, v'⟩ f r).k := by
  rw [moved, moved]
  split
  · rfl
  · rfl

theorem moved_off {m : Nat} (h : (s.k.file f).off + m < 2 ^ 32) :
    ((moved s f m).k.file f).off = (s.k.file f).off + m := by
  rw [moved]
  split
  · show (Function.update s.k.file f _ f).off = _
    rw [Function.update_self]
    exact Nat.mod_eq_of_lt h
  · obtain rfl : m = 0 := by omega
    rfl

theorem moved_moved {v v' : Vol} {a : Nat} (h : (k.file f).off + a < 2 ^ 32) :
    moved ⟨(moved ⟨k, v⟩ f a).k, v'⟩ f b = moved ⟨k, v'⟩ f ((a + b : Nat) : Int) := by
  have hoff : ((moved ⟨k, v⟩ f a).k.file f).off = (k.file f).off + a := moved_off h
  by_cases ha : a = 0
  · subst ha
    rw [Nat.zero_add]
    rfl
  by_cases hb : b = 0
  · subst hb
    rw [moved, if_neg (by decide), moved, if_pos (by omega), moved, if_pos (by omega)]
    rfl
  · rw [moved, if_pos (by omega), hoff, moved, if_pos (by omega), moved, if_pos (by omega)]
    simp only [State.seek, Kernel.modifyFile, Function.update_idem, Function.update_self, Int.toNat_natCast,
      Nat.add_assoc]

theorem not_short_nil (v : Vol) (i : InodeId) (off : Nat) : ¬ v.Short i (positions off 0) := by
  rw [Vol.Short, show positions off 0 = ∅ from rfl]
  exact Nat.not_lt_zero _

theorem limit_lt {off m : Nat} (h : off + m ≤ MAXFILE * BSIZE) : off + m < 2 ^ 32 :=
  Nat.lt_of_le_of_lt h (by decide)

/-- **The sections write what one `writei` would**, if there are blocks enough, and panic if
there are not. -/
theorem filewriteLoop_effect [DecidableEq P] (env : Env) (p : P) (m : Nat) (src : List UInt8)
    (h : OpenFile n s f) (hi : (s.k.file f).ip = i) (hm : src.length ≤ m)
    (hoff : (s.k.file f).off ≤ (s.d.node (s.k.inode i).inum).content.length)
    (hmax : (s.k.file f).off + src.length ≤ MAXFILE * BSIZE) :
    (¬ s.d.Short i (positions (s.k.file f).off src.length) →
      ∃ v, run (exec blockStore env p) (filewriteLoop f i m src) s =
          .ok true (moved ⟨s.k, v⟩ f src.length) ∧
        Stored n s i (overwrite (s.d.node (s.k.inode i).inum).content (s.k.file f).off src) v) ∧
    (s.d.Short i (positions (s.k.file f).off src.length) →
      run (exec blockStore env p) (filewriteLoop f i m src) s = .halt .balloc) := by
  induction m generalizing s src with
  | zero =>
    obtain rfl : src = [] := length_eq_zero_iff.mp (Nat.le_zero.mp hm)
    refine ⟨fun _ => ⟨s.d, rfl, ?_⟩, fun hs => absurd hs (not_short_nil _ _ _)⟩
    rw [overwrite_nil]
    exact .refl (hi ▸ h.consistent)
  | succ m ih =>
    by_cases hs : src = []
    · subst hs
      refine ⟨fun _ => ⟨s.d, ?_, ?_⟩, fun hs => absurd hs (not_short_nil _ _ _)⟩
      · rw [filewriteLoop, if_pos rfl]
        rfl
      · rw [overwrite_nil]
        exact .refl (hi ▸ h.consistent)
    subst hi
    rw [filewriteLoop_succ f _ m hs]
    have hc := h.consistent
    have hlen : src.length = (src.take WRITEMAX).length + (src.drop WRITEMAX).length := by
      rw [← length_append, take_append_drop]
    have hpos : 0 < (src.take WRITEMAX).length := by
      rw [length_take]
      exact Nat.lt_min.mpr ⟨by decide, length_pos_iff.mpr hs⟩
    have happ : src = src.take WRITEMAX ++ src.drop WRITEMAX := (take_append_drop ..).symm
    generalize hc₁ : src.take WRITEMAX = src₁ at hlen hpos happ
    generalize hc₂ : src.drop WRITEMAX = src₂ at hlen happ
    have hmax₁ : (s.k.file f).off + src₁.length ≤ MAXFILE * BSIZE := by omega
    have hcan : canWrite (s.d.node (s.k.inode (s.k.file f).ip).inum).content (s.k.file f).off
        src₁.length := ⟨hoff, limit_lt hmax₁, hmax₁⟩
    have hL := positions_append (s.k.file f).off src₁.length src₂.length
    rw [← hlen] at hL
    obtain ⟨-, hwrite⟩ := hc.writei (s.k.file f).off src₁
    by_cases hs₁ : s.d.Short (s.k.file f).ip (positions (s.k.file f).off src₁.length)
    · -- the first section panics
      refine ⟨fun hn => absurd (hs₁.mono ?_) hn, fun _ => ?_⟩
      · rw [hL]
        exact Finset.subset_union_left
      · exact (inSection_halt env p hc h.opened.unlocked _ ((hwrite hcan).2 hs₁)).1
    · obtain ⟨v₁, hw, hst⟩ := (hwrite hcan).1 hs₁
      have hrun := (inSection_does env p hc h.opened.unlocked hw ⟨rfl, rfl⟩
        (k := nextSection f (s.k.file f).ip m src)).1
      rw [hrun, ← hc₁, nextSection_written, hc₁, hc₂]
      obtain ⟨hl, hsz, -⟩ := hc.rel.loaded hc.ready.tidy hc.ready.ref hc.ready.valid
      have hoff' : (s.k.file f).off ≤ (s.d.size (s.k.file f).ip).toNat := by
        rw [hsz]
        rwa [Vol.node, length_bytes] at hoff
      obtain ⟨hspent, hfilled⟩ := Vol.writei_spent hc.rel.holds.ok hc.owned hl.1 hoff' hmax₁
        (hL ▸ Finset.subset_union_left) hw
      obtain ⟨hfi, hfc, hfd⟩ := moved_frame ⟨s.k, v₁⟩ f src₁.length
      have hmoff := moved_off (s := ⟨s.k, v₁⟩) (limit_lt hmax₁)
      have hcontent : ((moved ⟨s.k, v₁⟩ f src₁.length).d.node
          ((moved ⟨s.k, v₁⟩ f src₁.length).k.inode (s.k.file f).ip).inum).content =
          overwrite (s.d.node (s.k.inode (s.k.file f).ip).inum).content (s.k.file f).off src₁ := by
        rw [hfi, hfd]
        exact hst.content
      -- the rest runs where the first section has ended
      obtain ⟨hgood, hbad⟩ := ih src₂
        (h.moved hst.consistent _) (moved_ip ..) (by omega)
        (by rw [hmoff, hcontent, length_overwrite _ _ _ hoff]; exact Nat.le_max_right ..)
        (by rw [hmoff]; show (s.k.file f).off + _ + _ ≤ _; omega)
      rw [hcontent, hmoff, overwrite_overwrite _ _ hoff, ← happ, hfd] at hgood
      rw [hmoff, hfd] at hbad
      have hshort : v₁.Short (s.k.file f).ip (positions ((s.k.file f).off + src₁.length) src₂.length) ↔
          s.d.Short (s.k.file f).ip (positions (s.k.file f).off src.length) := by
        rw [← hspent.short, hL, Vol.short_union hfilled]
      refine ⟨fun hn => ?_, fun hs' => hbad (hshort.mpr hs')⟩
      obtain ⟨v₂, hrun₂, hst₂⟩ := hgood (mt hshort.mp hn)
      refine ⟨v₂, ?_, ?_⟩
      · rw [hrun₂, moved_moved (limit_lt hmax₁), ← hlen]
      · have heta : moved ⟨s.k, v₁⟩ f src₁.length = ⟨(moved ⟨s.k, v₁⟩ f src₁.length).k, v₁⟩ :=
          congrArg (State.mk (moved ⟨s.k, v₁⟩ f src₁.length).k) hfd
        rw [heta] at hst₂
        exact hst.trans hst₂ hfi hfc

theorem filewriteLoop_behind [DecidableEq P] (env : Env) (p : P) (src : List UInt8)
    (h : OpenFile n s f)
    (hoff : ¬ (s.k.file f).off ≤ (s.d.node (s.k.inode (s.k.file f).ip).inum).content.length) :
    ∃ b, run (exec blockStore env p) (filewriteLoop f (s.k.file f).ip src.length src) s = .ok b s := by
  have hc := h.consistent
  cases src with
  | nil => exact ⟨true, rfl⟩
  | cons c cs =>
    have hrefused := (hc.writei (s.k.file f).off ((c :: cs).take WRITEMAX)).1 fun hcan => hoff hcan.1
    have hrun := (inSection_does env p hc h.opened.unlocked hrefused ⟨rfl, rfl⟩
      (k := nextSection f (s.k.file f).ip cs.length (c :: cs))).1
    rw [nextSection_refused] at hrun
    refine ⟨false, ?_⟩
    rw [length_cons, filewriteLoop_succ f _ _ (cons_ne_nil c cs), hrun]
    rfl

/-- The call of `filewrite` on an open file: the loop, if the file is writable. -/
theorem filewrite_does [DecidableEq P] (env : Env) (p : P) (h : OpenFile n s f) (src : List UInt8) :
    ((s.k.file f).writable = false →
      Does (exec blockStore env p) logged (filewrite f src) s [] (.ok (-1 : Int) s)) ∧
    ((s.k.file f).writable = true → ∀ l o,
      Does (exec blockStore env p) logged (filewriteLoop f (s.k.file f).ip src.length src) s l o →
      Does (exec blockStore env p) logged (filewrite f src) s l
        (o.bind fun b s' => .ok (if b then (src.length : Int) else -1) s')) := by
  have htype := h.opened.type
  refine ⟨fun hw => ?_, fun hw l o hx => ?_⟩
  · exact .silent rfl rfl (.pos (by rw [hw]; rfl) .ret)
  · refine .silent rfl rfl (.neg (by rw [hw]; nofun) ?_)
    refine .neg (fun hp => absurd (htype.symm.trans hp) nofun) (.pos htype (hx.map fun b => ?_))
    cases b with
    | true | false => rfl

/-- **Each section of a write fits the log, and together they come to one `writei`.**  Whatever
the file, its position and the bytes, every section of `filewrite` calls `log_write` on at most
`MAXOPBLOCKS` different blocks.  If the write stays within the largest file, the call and one
section with all the bytes leave the same tables, the position with them, and the same inodes;
or both panic for want of blocks. -/
theorem filewrite_sections [DecidableEq P] (env : Env) (p : P) (h : OpenFile n s f)
    (src : List UInt8) :
    (∀ l ∈ observe (exec blockStore env p) logged (filewrite f src) s,
      l.toFinset.card ≤ MAXOPBLOCKS) ∧
    ((s.k.file f).writable = true → (s.k.file f).off + src.length ≤ MAXFILE * BSIZE →
      (∃ r r' s₁ s₂, run (exec blockStore env p) (filewrite f src) s = .ok r s₁ ∧
        run (exec blockStore env p) (inSection f (s.k.file f).ip src .ret) s = .ok r' s₂ ∧
        s₁.k = s₂.k ∧ ∀ y, s.d.Live y → s₁.d.node y = s₂.d.node y) ∨
      (run (exec blockStore env p) (filewrite f src) s = .halt .balloc ∧
        run (exec blockStore env p) (inSection f (s.k.file f).ip src .ret) s = .halt .balloc)) := by
  obtain ⟨hread, hwrite⟩ := filewrite_does env p h src
  have hc := h.consistent
  constructor
  · intro l hl
    refine Nat.le_trans ?_ (show 7 ≤ MAXOPBLOCKS by decide)
    cases hw : (s.k.file f).writable with
    | false =>
      rw [(hread hw).2] at hl
      cases hl
    | true =>
      rw [(hwrite hw _ _ ⟨rfl, rfl⟩).2] at hl
      exact filewriteLoop_logged env p src.length h rfl l hl
  · intro hw hmax
    have hrun := (hwrite hw _ _ ⟨rfl, rfl⟩).1
    obtain ⟨hrefuse, hone⟩ := hc.writei (s.k.file f).off src
    by_cases hoff : (s.k.file f).off ≤ (s.d.node (s.k.inode (s.k.file f).ip).inum).content.length
    · have hcan : canWrite (s.d.node (s.k.inode (s.k.file f).ip).inum).content (s.k.file f).off
          src.length := ⟨hoff, limit_lt hmax, hmax⟩
      obtain ⟨hgood, hbad⟩ := filewriteLoop_effect env p src.length src h rfl (Nat.le_refl _) hoff hmax
      by_cases hs : s.d.Short (s.k.file f).ip (positions (s.k.file f).off src.length)
      · refine .inr ⟨?_, (inSection_halt env p hc h.opened.unlocked _ ((hone hcan).2 hs)).1⟩
        rw [hrun, hbad hs]
        rfl
      · obtain ⟨v₁, hrun₁, hst₁⟩ := hgood hs
        obtain ⟨v₂, hw₂, hst₂⟩ := (hone hcan).1 hs
        rw [hrun₁] at hrun
        refine .inl ⟨_, _, _, _, hrun, (inSection_does env p hc h.opened.unlocked hw₂ .ret).1, ?_,
          fun y hy => ?_⟩
        · exact moved_k s.k v₁ v₂ f src.length
        · rw [(moved_frame ⟨s.k, v₁⟩ f _).2.2, (moved_frame ⟨s.k, v₂⟩ f _).2.2]
          exact hst₁.node_eq hst₂ hy
    · -- the position is behind the end: nothing is written
      have hone := (inSection_does env p hc h.opened.unlocked (hrefuse fun hcan => hoff hcan.1) .ret).1
      obtain ⟨b, hloop⟩ := filewriteLoop_behind env p src h hoff
      rw [hloop] at hrun
      exact .inl ⟨_, _, _, _, hrun, hone, rfl, fun _ _ => rfl⟩

/-- Three bytes into the empty file of the small disk: one section, which logs the map, the new
block twice, and the inode. -/
theorem filewrite_sections_three :
    observe (exec blockStore bareEnv ()) logged (filewrite ⟨0, by decide⟩ [1, 2, 3]) seekStart.fs =
      [[3, 4, 4, 2]] ∧
    (∀ l ∈ observe (exec blockStore bareEnv ()) logged (filewrite ⟨0, by decide⟩ [1, 2, 3])
      seekStart.fs, l.toFinset.card ≤ MAXOPBLOCKS) ∧
    ∃ r r' s₁ s₂,
      run (exec blockStore bareEnv ()) (filewrite ⟨0, by decide⟩ [1, 2, 3]) seekStart.fs = .ok r s₁ ∧
      run (exec blockStore bareEnv ()) (inSection ⟨0, by decide⟩ ⟨0, by decide⟩ [1, 2, 3] .ret)
        seekStart.fs = .ok r' s₂ ∧
      s₁.k = s₂.k ∧ s₁.d.node 1 = s₂.d.node 1 := by
  have hopen : OpenFile 2 seekStart.fs ⟨0, by decide⟩ :=
    ⟨seek_agree.rel, seek_agree.opened () ⟨0, by decide⟩ ⟨0, by decide⟩ rfl⟩
  obtain ⟨hlog, heffect⟩ := filewrite_sections bareEnv () hopen [1, 2, 3]
  refine ⟨by decide +kernel, hlog, ?_⟩
  rcases heffect rfl (by decide) with ⟨r, r', s₁, s₂, h₁, h₂, hk, hd⟩ | ⟨hhalt, -⟩
  · exact ⟨r, r', s₁, s₂, h₁, h₂, hk, hd 1 (by decide +kernel)⟩
  · have hno : (match run (exec blockStore bareEnv ()) (filewrite ⟨0, by decide⟩ [1, 2, 3])
        seekStart.fs with
      | .halt _ => false
      | _ => true) = true := by decide +kernel
    rw [hhalt] at hno
    cases hno

end Xv6.Fs
