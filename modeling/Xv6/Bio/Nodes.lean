/-
# `Xv6.Bio.Nodes` — the disk nodes of `ide.c`

`ideread` and `idewrite` are the device functions behind /disk0 … /disk3.  They cut
`n` bytes at the offset of the open file into pieces, one for each block, and move
each piece through a buffer: `bread`, `memmove`, for a write `bwrite`, `brelse`.

Which disk that is comes from the identity of the buffer, and the two functions ask
`bread` for a block of `ip->dev`.  That is the device the *inode* lives on; the number
of the disk is `ip->minor`.  So a node works on the disk it names exactly if the two
agree.  The nodes are inodes of the root file system, so they all work on disk 1.

The functions stop with the state they have left, so that a panic in the middle of
a write still says which blocks have changed.  `iderw` moves the block the buffer
asks for.  The inode lock, which is dropped around the transfer, is left out.
-/
import Xv6.Bio.Logged
import Xv6.Fs.Layout
import Xv6.Lib.Wp

namespace Xv6.Bio.Nodes

open Bytes Wp
open Function (update update_eq_self update_idem update_of_ne update_self)

/-! ## The buffer calls -/

/-- `mem` is the memory the argument `buf` points into. -/
structure State (P : Type) where
  cache : Bcache P
  disk : Key → Block
  mem : Nat → UInt8

/-- How a call ends that does not return. -/
inductive Halt where
  /-- panic "bget: no buffers" -/
  | noBuffers
  /-- `acquiresleep` finds the lock taken -/
  | asleep
  /-- panic "iderw: buf not locked" -/
  | notLocked
  /-- panic "iderw: nothing to do" -/
  | nothingToDo
  /-- panic "iderw: ide disk 1 not present" -/
  | notPresent
  /-- panic "incorrect blockno" of `idestart` -/
  | incorrectBlockno
  /-- panic "bwrite" -/
  | bwrite
  /-- panic "brelse" -/
  | brelse
  /-- `memmove` leaves `b->data` -/
  | outside
  deriving DecidableEq

/-- A kernel function: it returns, or stops in some state. -/
abbrev Op (P : Type) : Type → Type := StateT (State P) (Except (Halt × State P))

variable {P : Type} {data : Block} {s₁ s₂ : State P}

def stop {α : Type} (e : Halt) : Op P α := do
  let s ← get
  throw (e, s)

def State.modify (s : State P) (i : BufId) (f : Buf P → Buf P) : State P :=
  { s with cache := s.cache.modify i f }

def State.write (s : State P) (k : Key) (data : Block) : State P :=
  { s with disk := update s.disk k data }

@[simp] theorem State.modify_cache (s : State P) (i : BufId) (f : Buf P → Buf P) :
    (s.modify i f).cache = s.cache.modify i f := rfl

@[simp] theorem State.write_cache (s : State P) (k : Key) (data : Block) :
    (s.write k data).cache = s.cache := rfl

@[simp] theorem State.modify_same (s : State P) (i : BufId) (f : Buf P → Buf P) :
    (s.modify i f).cache.buf i = f (s.cache.buf i) := Bcache.modify_same ..

/-- `iderw`: a dirty buffer is written, another one is read. -/
def iderw (havedisk1 : Bool) (i : BufId) : Op P Unit := do
  let s ← get
  let b := s.cache.buf i
  if b.lock = none then stop .notLocked
  else if b.valid = true ∧ b.dirty = false then stop .nothingToDo
  else if b.key.1 ≠ 0 ∧ havedisk1 = false then stop .notPresent
  else if FSSIZE ≤ b.key.2 then stop .incorrectBlockno
  else if b.dirty then
    set ((s.write b.key b.data).modify i fun b => { b with dirty := false, valid := true })
  else set (s.modify i fun b => { b with valid := true, data := s.disk b.key })

def acquiresleep (p : P) (i : BufId) : Op P Unit := do
  let s ← get
  if (s.cache.buf i).lock = none then set (s.modify i fun b => { b with lock := some p })
  else stop .asleep

def bread (havedisk1 : Bool) (p : P) (k : Key) : Op P BufId := do
  let s ← get
  match s.cache.bget k with
  | none => stop .noBuffers
  | some (i, c) =>
    set { s with cache := c }
    acquiresleep p i
    let s ← get
    if (s.cache.buf i).valid then pure i
    else do
      iderw havedisk1 i
      pure i

def bwrite (havedisk1 : Bool) (i : BufId) : Op P Unit := do
  let s ← get
  if (s.cache.buf i).lock = none then stop .bwrite
  else do
    set (s.modify i fun b => { b with dirty := true })
    iderw havedisk1 i

def brelse (i : BufId) : Op P Unit := do
  let s ← get
  if (s.cache.buf i).lock = none then stop .brelse
  else set { s with cache := (s.cache.modify i fun b => { b with lock := none }).unref i }

/-! ## The device functions -/

/-- `struct file`, as far as `get_offset` reads it: the number of the inode `ip`
points to, `none` for a null pointer. -/
structure File where
  ip : Option Nat
  off : Nat

/-- What the device functions read of `struct inode`, and `minor`. -/
structure Inode where
  dev : Nat
  inum : Nat
  minor : Nat

/-- `get_offset`: the offset of the first open file of that inode number.  A file
table entry that was never used has a null `ip`, and `ip->inum` is then the word
`null` the running process has at address 4. -/
def getOffset (ftable : List File) (null : Nat) (inum : Nat) : Int :=
  match ftable.find? fun f => f.ip.getD null = inum with
  | some f => (f.off : Int).bmod (2 ^ 32)
  | none => -1

/-- The bytes `f 0, f 1, …` at the addresses from `buf` on. -/
def store (mem : Nat → UInt8) (buf len : Nat) (f : Nat → UInt8) (a : Nat) : UInt8 :=
  if buf ≤ a ∧ a < buf + len then f (a - buf) else mem a

/-- `memmove(buf, b->data + start, len)`. -/
def copyOut (i : BufId) (start len : Int) (buf : Nat) : Op P Unit := do
  let s ← get
  if 0 ≤ start ∧ start + len ≤ BSIZE then
    set { s with mem := store s.mem buf len.toNat fun j => (s.cache.buf i).data.byte (start.toNat + j) }
  else stop .outside

/-- `memmove(b->data + start, buf, len); bwrite(b)`. -/
def copyIn (havedisk1 : Bool) (i : BufId) (start len : Int) (buf : Nat) : Op P Unit := do
  let s ← get
  if 0 ≤ start ∧ start + len ≤ BSIZE then
    set (s.modify i fun b => { b with
      data := b.data.splice start.toNat ((List.range len.toNat).map fun j => s.mem (buf + j)) })
    bwrite havedisk1 i
  else stop .outside

/-- The loop of `ideread` and `idewrite`, which differ in what `move` does with a piece.
Every turn moves a byte, so that `n` turns are enough. -/
def ideLoop (havedisk1 : Bool) (p : P) (move : BufId → Int → Int → Nat → Op P Unit) (dev : Nat)
    (n : Int) : Nat → Nat → Int → Int → Nat → Op P Unit
  | 0, _, _, _, _ => pure ()
  | fuel + 1, blockno, offset, num, buf =>
    if num < n then do
      let b ← bread havedisk1 p (dev, blockno)
      if offset ≠ 0 ∧ num < BSIZE then do
        -- first block; the sum is an `int`
        let len := if (n + offset).bmod (2 ^ 32) < BSIZE then n else BSIZE - offset
        move b offset len buf
        brelse b
        ideLoop havedisk1 p move dev n fuel (blockno + 1) 0 (num + len) (buf + len.toNat)
      else if n - num ≠ 0 ∧ n - num < BSIZE then do
        -- last block
        move b 0 (n - num) buf
        brelse b
        ideLoop havedisk1 p move dev n fuel blockno offset (num + (n - num)) buf
      else do
        -- middle blocks
        move b 0 BSIZE buf
        brelse b
        ideLoop havedisk1 p move dev n fuel (blockno + 1) offset (num + BSIZE) (buf + BSIZE)
    else pure ()

/-- What the two functions share: `offset` is cut into a block number and the rest. -/
def ideTransfer (havedisk1 : Bool) (p : P) (move : BufId → Int → Int → Nat → Op P Unit)
    (offset : Int) (ip : Inode) (buf : Nat) (n : Int) : Op P Int :=
  if n < 0 then pure (-1)
  else do
    ideLoop havedisk1 p move ip.dev n n.toNat (offset.tdiv BSIZE % 2 ^ 32).toNat
      (offset.tmod BSIZE) 0 buf
    pure n

def ideread (havedisk1 : Bool) (p : P) (ftable : List File) (null : Nat) (ip : Inode) (buf : Nat)
    (n : Int) : Op P Int :=
  ideTransfer havedisk1 p copyOut (getOffset ftable null ip.inum) ip buf n

def idewrite (havedisk1 : Bool) (p : P) (ftable : List File) (null : Nat) (ip : Inode) (buf : Nat)
    (n : Int) : Op P Int :=
  ideTransfer havedisk1 p (copyIn havedisk1) (getOffset ftable null ip.inum) ip buf n

/-! ## What cache and disks hold together -/

/-- The cache and the disks hold the contents `lat`: a valid buffer has the bytes of its
block, and so has the disk, unless the buffer is dirty or in use. -/
structure Contents (lat : Key → Block) (c : Bcache P) (d : Key → Block) : Prop where
  shape : ∃ l, Shape c l
  dirty : ∀ i, (c.buf i).dirty = true → (c.buf i).valid = true
  data : ∀ i, (c.buf i).valid = true → (c.buf i).data = lat (c.buf i).key
  disk : ∀ k, d k = lat k ∨ ∃ i, (c.buf i).key = k ∧ (c.buf i).valid = true ∧
    ((c.buf i).dirty = true ∨ (c.buf i).refcnt ≠ 0)

/-- Nobody holds a buffer, and there is one to recycle. -/
def Quiet (c : Bcache P) : Prop :=
  (∀ j, (c.buf j).lock = none) ∧ ∃ j, (c.buf j).dirty = false ∧ (c.buf j).refcnt = 0

/-- The same once buffer `i` is released. -/
def QuietBut (c : Bcache P) (i : BufId) : Prop :=
  (∀ j, j ≠ i → (c.buf j).lock = none) ∧
    ∃ j, (c.buf j).dirty = false ∧ ((c.buf j).refcnt = 0 ∨ j = i ∧ (c.buf j).refcnt = 1)

/-- Buffer `i` is referenced for block `k`. -/
structure Ours (lat : Key → Block) (c : Bcache P) (d : Key → Block) (k : Key) (i : BufId) : Prop where
  contents : Contents lat c d
  key : (c.buf i).key = k
  ref : (c.buf i).refcnt ≠ 0

/-- Unless somebody else references the buffer or it is dirty, the disk has its bytes. -/
def Saved (lat : Key → Block) (c : Bcache P) (d : Key → Block) (k : Key) (i : BufId) : Prop :=
  d k = lat k ∨ (c.buf i).dirty = true ∨ 2 ≤ (c.buf i).refcnt

namespace Contents

variable {lat : Key → Block} {c c' : Bcache P} {d : Key → Block} {k : Key} {i : BufId}

theorem live_of_ref {b : Buf P} (h : b.refcnt ≠ 0) : ¬ b.Dead := fun hd => h hd.2.2

section

variable (h : Contents lat c d)
include h

/-- A valid buffer is the one for its block. -/
theorem eq_of_key {j : BufId} (hj : (c.buf j).valid = true)
    (hi : ¬ (c.buf i).Dead) (hk : (c.buf j).key = (c.buf i).key) : j = i := by
  obtain ⟨l, hs⟩ := h.shape
  exact hs.uniq j i (Buf.live_of_valid hj) hi hk

/-- The disk may differ only behind the back of a buffer that is dirty or in use. -/
theorem disk_eq (hi : ¬ (c.buf i).Dead)
    (hs : (c.buf i).valid = true → (c.buf i).dirty = false ∧ (c.buf i).refcnt = 0) :
    d (c.buf i).key = lat (c.buf i).key := by
  refine (h.disk _).resolve_right fun ⟨j, hk, hv, hd⟩ => ?_
  obtain rfl := h.eq_of_key hv hi hk
  obtain ⟨hd₁, hr⟩ := hs hv
  rcases hd with hd | hd
  · exact Bool.false_ne_true (hd₁.symm.trans hd)
  · exact hd hr

/-- Locks and the ring play no part, and references only by their presence. -/
theorem congr (hs : ∃ l, Shape c' l) {f : Buf P → Buf P} (hcache : c'.buf = (c.modify i f).buf)
    (hf : ∀ b, (f b).key = b.key ∧ (f b).valid = b.valid ∧ (f b).dirty = b.dirty ∧
      (f b).data = b.data)
    (href : ∀ j, (c.buf j).valid = true → (c.buf j).refcnt ≠ 0 → (c'.buf j).refcnt ≠ 0 ∨
      (c.buf j).dirty = true ∨ d (c.buf j).key = lat (c.buf j).key) : Contents lat c' d := by
  have hbuf := fun j => Bcache.modify_contents c i j hf
  rw [← hcache] at hbuf
  refine ⟨hs, fun j => ?_, fun j => ?_, fun k => ?_⟩
  · rw [(hbuf j).2.1, (hbuf j).2.2.1]
    exact h.dirty j
  · rw [(hbuf j).1, (hbuf j).2.1, (hbuf j).2.2.2]
    exact h.data j
  · rcases h.disk k with he | ⟨j, rfl, hv, hd⟩
    · exact .inl he
    · have hj : (c'.buf j).key = (c.buf j).key ∧ (c'.buf j).valid = true :=
        ⟨(hbuf j).1, (hbuf j).2.1.trans hv⟩
      rcases hd with hd | hr
      · exact .inr ⟨j, hj.1, hj.2, .inl ((hbuf j).2.2.1.trans hd)⟩
      · rcases href j hv hr with hr | hd | he
        · exact .inr ⟨j, hj.1, hj.2, .inr hr⟩
        · exact .inr ⟨j, hj.1, hj.2, .inl ((hbuf j).2.2.1.trans hd)⟩
        · exact .inl he

theorem hit {l : List BufId} (hs : Shape c l) (hit : Hit c l k i c') :
    Ours lat c' d k i ∧ ((c'.buf i).valid = true → Saved lat c' d k i) ∧
      (∀ j, (c'.buf j).lock = (c.buf j).lock) ∧ (Quiet c → QuietBut c' i) := by
  have hs' := hs.hit hit
  obtain ⟨rfl, -, rfl⟩ := hit
  have hfield : ∀ {β : Type} (v : Buf P → β), (∀ b, v { b with refcnt := b.refcnt + 1 } = v b) → ∀ j,
      v ((c.modify i fun b => { b with refcnt := b.refcnt + 1 }).buf j) = v (c.buf j) :=
    fun v hv j => Bcache.modify_field v c i j hv
  refine ⟨⟨h.congr ⟨l, hs'⟩ rfl (fun _ => ⟨rfl, rfl, rfl, rfl⟩) fun j _ hr => .inl ?_, ?_, ?_⟩,
    fun hv => ?_, ?_, ?_⟩
  · rw [Bcache.modify_apply]
    split
    · exact Nat.succ_ne_zero _
    · exact hr
  · exact hfield _ (fun _ => rfl) i
  · rw [Bcache.modify_same]
    exact Nat.succ_ne_zero _
  · rw [Bcache.modify_same] at hv
    rw [Saved, Bcache.modify_same]
    by_cases hd : (c.buf i).dirty = true
    · exact .inr (.inl hd)
    · by_cases hr : (c.buf i).refcnt = 0
      · exact .inl (h.disk_eq (Buf.live_of_valid hv) fun _ => ⟨Bool.eq_false_iff.mpr hd, hr⟩)
      · exact .inr (.inr (Nat.succ_le_succ (Nat.pos_of_ne_zero hr)))
  · exact hfield _ fun _ => rfl
  · rintro ⟨hlock, j, hd, hr⟩
    refine ⟨fun m _ => (hfield _ (fun _ => rfl) m).trans (hlock m), j,
      (hfield _ (fun _ => rfl) j).trans hd, ?_⟩
    rcases eq_or_ne j i with rfl | hne
    · rw [Bcache.modify_same]
      exact .inr ⟨rfl, congrArg (· + 1) hr⟩
    · rw [Bcache.modify_other _ _ hne]
      exact .inl hr

theorem miss (miss : Miss c k i c') :
    Ours lat c' d k i ∧ ((c'.buf i).valid = true → Saved lat c' d k i) ∧
      (∀ j, (c'.buf j).lock = (c.buf j).lock) ∧ (Quiet c → QuietBut c' i) := by
  obtain ⟨l, hs⟩ := h.shape
  have hs' := hs.miss miss
  obtain ⟨-, hr, hd, rfl⟩ := miss
  have hlock : ∀ j, ((c.modify i fun b =>
      { b with key := k, valid := false, dirty := false, refcnt := 1 }).buf j).lock = (c.buf j).lock :=
    fun j => Bcache.modify_field (fun b => b.lock) c i j fun _ => rfl
  refine ⟨⟨⟨⟨l, hs'⟩, ?_, ?_, fun k' => ?_⟩, ?_, ?_⟩, fun hv => ?_, hlock,
    fun hq => ⟨fun j _ => (hlock j).trans (hq.1 j), i, ?_⟩⟩
  · exact Bcache.forall_modify (p := fun _ b => b.dirty = true → b.valid = true) nofun
      fun j _ => h.dirty j
  · exact Bcache.forall_modify (p := fun _ b => b.valid = true → b.data = lat b.key) nofun
      fun j _ => h.data j
  · -- the recycled buffer was clean and nobody's
    refine (h.disk k').imp_right fun ⟨j, hk, hv, hj⟩ => ⟨j, ?_⟩
    have hne : j ≠ i := by
      rintro rfl
      rw [hr, hd] at hj
      exact hj.elim Bool.false_ne_true fun h₀ => h₀ rfl
    rw [Bcache.modify_other _ _ hne]
    exact ⟨hk, hv, hj⟩
  · rw [Bcache.modify_same]
  · rw [Bcache.modify_same]
    exact Nat.one_ne_zero
  · rw [Bcache.modify_same] at hv
    cases hv
  · rw [Bcache.modify_same]
    exact ⟨rfl, .inr ⟨rfl, rfl⟩⟩

/-- **`bget`** finds the buffer of the block or recycles one whose bytes the disk has. -/
theorem bget (hb : c.bget k = some (i, c')) :
    Ours lat c' d k i ∧ ((c'.buf i).valid = true → Saved lat c' d k i) ∧
      (∀ j, (c'.buf j).lock = (c.buf j).lock) ∧ (Quiet c → QuietBut c' i) := by
  obtain ⟨l, hs⟩ := h.shape
  rcases hs.bget_cases hb with hit | miss
  · exact h.hit hs hit
  · exact h.miss miss

/-- `bget` fails only if there is no buffer to recycle. -/
theorem not_quiet_of_bget (hb : c.bget k = none) : ¬ Quiet c := by
  rintro ⟨-, j, hd, hr⟩
  obtain ⟨l, hs⟩ := h.shape
  rw [Bcache.bget, hs.tagged.unused_eq] at hb
  cases hc : c.cached k with
  | some i => rw [hc] at hb; cases hb
  | none =>
    rw [hc] at hb
    cases hu : l.reverse.find? fun i => (c.buf i).refcnt == 0 && !(c.buf i).dirty with
    | some i => rw [hu] at hb; cases hb
    | none =>
      have := List.find?_eq_none.mp hu j (List.mem_reverse.mpr (hs.all j))
      rw [hr, hd] at this
      exact this rfl

end

end Contents

namespace Ours

variable {lat : Key → Block} {c : Bcache P} {d : Key → Block} {k : Key} {i : BufId}

section

variable (h : Ours lat c d k i)
include h

theorem live : ¬ (c.buf i).Dead := Contents.live_of_ref h.ref

/-- A buffer in use that is not valid may be read from the disk. -/
theorem disk_eq (hv : (c.buf i).valid = false) : d k = lat k := by
  rw [← h.key]
  exact h.contents.disk_eq h.live fun hv' => absurd (hv.symm.trans hv') Bool.false_ne_true

theorem setLock (o : Option P) : Ours lat (c.modify i fun b => { b with lock := o }) d k i := by
  obtain ⟨l, hs⟩ := h.contents.shape
  have hlive : ¬ ({ c.buf i with lock := o } : Buf P).Dead := h.live
  refine ⟨h.contents.congr ⟨l, hs.modify_live rfl h.live hlive⟩ rfl (fun _ => ⟨rfl, rfl, rfl, rfl⟩)
    fun j _ hr => .inl ?_, ?_, ?_⟩
  · rwa [Bcache.modify_field (f := fun b => { b with lock := o }) Buf.refcnt c i j fun _ => rfl]
  · rw [Bcache.modify_same]
    exact h.key
  · rw [Bcache.modify_same]
    exact h.ref

/-- The bytes of a buffer in use are replaced, and perhaps those on disk. -/
theorem modify {f : Buf P → Buf P} (data' : Block)
    (hkey : (f (c.buf i)).key = k) (hvalid : (f (c.buf i)).valid = true)
    (hdata : (f (c.buf i)).data = data) (href : (f (c.buf i)).refcnt = (c.buf i).refcnt) :
    Contents (update lat k data) (c.modify i f) (update d k data') := by
  obtain rfl := h.key
  obtain ⟨l, hs⟩ := h.contents.shape
  refine ⟨⟨l, hs.modify_live hkey h.live (Buf.live_of_valid hvalid)⟩, ?_, ?_, fun k => ?_⟩
  · exact Bcache.forall_modify (p := fun _ b => b.dirty = true → b.valid = true) (fun _ => hvalid)
      fun j _ => h.contents.dirty j
  · refine Bcache.forall_modify (p := fun _ b => b.valid = true → b.data = update lat _ data b.key)
      (fun _ => ?_) fun j hne hj => ?_
    · rw [hkey, update_self, hdata]
    · rw [update_of_ne fun e => hne (h.contents.eq_of_key hj h.live e)]
      exact h.contents.data j hj
  · rcases eq_or_ne k (c.buf i).key with rfl | hne
    · refine .inr ⟨i, ?_⟩
      rw [Bcache.modify_same]
      exact ⟨hkey, hvalid, .inr (href ▸ h.ref)⟩
    · simp only [update_of_ne hne]
      refine (h.contents.disk k).imp_right fun ⟨j, hk, hj⟩ => ⟨j, ?_⟩
      have hji : j ≠ i := fun e => hne (e ▸ hk).symm
      rw [Bcache.modify_other _ _ hji]
      exact ⟨hk, hj⟩

end

end Ours

theorem modify_modify (c : Bcache P) (i : BufId) (f g : Buf P → Buf P) :
    (c.modify i f).modify i g = c.modify i (g ∘ f) := by
  simp only [Bcache.modify, update_self, update_idem, Function.comp]

/-- `QuietBut` does not look at the lock and the bytes of the buffer. -/
theorem QuietBut.modify {c : Bcache P} {i : BufId} (h : QuietBut c i) {f : Buf P → Buf P}
    (hdirty : (c.buf i).dirty = false → (f (c.buf i)).dirty = false)
    (href : (f (c.buf i)).refcnt = (c.buf i).refcnt) : QuietBut (c.modify i f) i := by
  obtain ⟨hlock, j, hd, hr⟩ := h
  refine ⟨fun m hm => ?_, j, ?_⟩
  · rw [Bcache.modify_other _ _ hm]
    exact hlock m hm
  · rcases eq_or_ne j i with rfl | hne
    · rw [Bcache.modify_same, href]
      exact ⟨hdirty hd, hr⟩
    · rw [Bcache.modify_other _ _ hne]
      exact ⟨hd, hr⟩

/-! ## What the calls do -/

section Calls

variable {lat : Key → Block} {s : State P} {k : Key} {i : BufId} {havedisk1 : Bool} {p : P}

theorem stop_meets {α : Type} {e : Halt} {Q : α → State P → Prop} {E : Halt × State P → Prop}
    (h : E (e, s)) : Meets (stop e) s Q E :=
  of_bind (of_get (of_throw h))

/-- The driver can serve block `k`. -/
def Served (havedisk1 : Bool) (k : Key) : Prop := (k.1 ≠ 0 → havedisk1 = true) ∧ k.2 < FSSIZE

theorem iderw_meets (hlock : (s.cache.buf i).lock ≠ none)
    (hwork : (s.cache.buf i).valid = true → (s.cache.buf i).dirty = true) :
    Meets (iderw havedisk1 i) s
      (fun _ s' => ((s.cache.buf i).dirty = true →
          s' = (s.write (s.cache.buf i).key (s.cache.buf i).data).modify i
            fun b => { b with dirty := false, valid := true }) ∧
        ((s.cache.buf i).dirty = false →
          s' = s.modify i fun b => { b with valid := true, data := s.disk b.key }))
      fun x => x.2 = s ∧ ¬ Served havedisk1 (s.cache.buf i).key := by
  refine of_bind (of_get (of_neg hlock (of_neg (fun h => ?_) (of_ite (fun h => ?_) fun _ =>
    of_ite (fun h => ?_) fun _ => of_ite (fun h => of_set ?_) fun h => of_set ?_))))
  · exact Bool.false_ne_true (h.2.symm.trans (hwork h.1))
  · exact stop_meets ⟨rfl, fun hs => Bool.false_ne_true (h.2.symm.trans (hs.1 h.1))⟩
  · exact stop_meets ⟨rfl, fun hs => Nat.not_lt.mpr h hs.2⟩
  · exact ⟨fun _ => rfl, fun hd => absurd (hd.symm.trans h) Bool.false_ne_true⟩
  · exact ⟨fun hd => absurd hd h, fun _ => rfl⟩

/-- What the process has between `bread` and `brelse`. -/
structure Locked (lat : Key → Block) (s : State P) (k : Key) (i : BufId) : Prop
    extends Ours lat s.cache s.disk k i where
  valid : (s.cache.buf i).valid = true
  lock : (s.cache.buf i).lock ≠ none

section

variable (h : Ours lat s.cache s.disk k i)
include h

section

variable (hlock : (s.cache.buf i).lock ≠ none)
include hlock

theorem Ours.locked {f : Buf P → Buf P} (data' : Block)
    (hsame : ∀ b, (f b).key = b.key ∧ (f b).refcnt = b.refcnt ∧ (f b).lock = b.lock)
    (hvalid : (f (s.cache.buf i)).valid = true) (hdata : (f (s.cache.buf i)).data = data) :
    Locked (update lat k data) ((s.write k data').modify i f) k i := by
  obtain ⟨hkey, href, hl⟩ := hsame (s.cache.buf i)
  refine ⟨⟨h.modify data' (hkey.trans h.key) hvalid hdata href, ?_, ?_⟩, ?_, ?_⟩
  · rw [State.modify_same, State.write_cache, hkey, h.key]
  · rw [State.modify_same, State.write_cache, href]
    exact h.ref
  · rw [State.modify_same]
    exact hvalid
  · rw [State.modify_same, State.write_cache, hl]
    exact hlock

theorem Ours.locked_cache {f : Buf P → Buf P}
    (hsame : ∀ b, (f b).key = b.key ∧ (f b).refcnt = b.refcnt ∧ (f b).lock = b.lock)
    (hvalid : (f (s.cache.buf i)).valid = true) (hdata : (f (s.cache.buf i)).data = data) :
    Locked (update lat k data) (s.modify i f) k i := by
  have hl := h.locked hlock (s.disk k) hsame hvalid hdata
  rwa [State.write, update_eq_self] at hl

/-- The end of `bread`, once the buffer is locked. -/
theorem fetch_meets
    (hs : (s.cache.buf i).valid = true → Saved lat s.cache s.disk k i) :
    Meets (do
        let s ← get
        if (s.cache.buf i).valid then pure i
        else do
          iderw havedisk1 i
          pure i) s
      (fun j s' => (Locked lat s' k j ∧ Saved lat s'.cache s'.disk k j) ∧ s'.disk = s.disk ∧
        s'.mem = s.mem ∧ (QuietBut s.cache i → QuietBut s'.cache j))
      fun x => x.2 = s ∧ ¬ Served havedisk1 k := by
  refine of_bind (of_get (of_ite (fun hv => of_pure ?_) fun hv => ?_))
  · exact ⟨⟨⟨h, hv, hlock⟩, hs hv⟩, rfl, rfl, id⟩
  · have hv := Bool.eq_false_iff.mpr hv
    have hd : (s.cache.buf i).dirty = false :=
      Bool.eq_false_iff.mpr fun hd => Bool.false_ne_true (hv.symm.trans (h.contents.dirty i hd))
    refine call (iderw_meets hlock fun h => absurd (hv.symm.trans h) Bool.false_ne_true)
      (fun x hx => h.key ▸ hx) fun _ s' hs' => of_pure ?_
    obtain rfl := hs'.2 hd
    have hload := h.locked_cache (f := fun b => { b with valid := true, data := s.disk b.key }) hlock
      (fun _ => ⟨rfl, rfl, rfl⟩) rfl (show s.disk (s.cache.buf i).key = lat k by rw [h.key, h.disk_eq hv])
    rw [update_eq_self] at hload
    refine ⟨⟨hload, .inl (h.disk_eq hv)⟩, rfl, rfl, fun hq => ?_⟩
    rw [State.modify_cache]
    exact hq.modify id rfl

end

end

/-- **`bread`** returns a buffer with the bytes of the block. -/
theorem bread_meets (h : Contents lat s.cache s.disk) :
    Meets (bread havedisk1 p k) s
      (fun i s' => (Locked lat s' k i ∧ Saved lat s'.cache s'.disk k i) ∧ s'.disk = s.disk ∧
        s'.mem = s.mem ∧ (Quiet s.cache → QuietBut s'.cache i))
      fun x => Contents lat x.2.cache x.2.disk ∧ x.2.disk = s.disk ∧ x.2.mem = s.mem ∧
        ¬ (Quiet s.cache ∧ Served havedisk1 k) := by
  refine of_bind (of_get ?_)
  cases hb : s.cache.bget k with
  | none => exact stop_meets ⟨h, rfl, rfl, fun hq => h.not_quiet_of_bget hb hq.1⟩
  | some r =>
    obtain ⟨i, c⟩ := r
    obtain ⟨hours, hsaved, hlocks, hquiet⟩ := h.bget hb
    refine of_bind (of_set (of_bind (of_bind (of_get (of_ite (fun _ => of_set ?_) fun hbusy => ?_)))))
    · have hsame := Bcache.modify_same c i fun b => { b with lock := some p }
      refine mono (fetch_meets (s := { s with cache := c.modify i fun b => { b with lock := some p } })
        (hours.setLock (some p)) (by rw [hsame]; exact Option.some_ne_none p) fun hv => ?_)
        (fun j s' hj => ?_) fun x hx => ?_
      · rw [hsame] at hv
        rw [Saved, hsame]
        exact hsaved hv
      · obtain ⟨hj, hdisk, hmem, hq⟩ := hj
        refine ⟨hj, hdisk, hmem, fun hs => hq ?_⟩
        show QuietBut (c.modify i fun b => { b with lock := some p }) i
        exact (hquiet hs).modify id rfl
      · obtain ⟨hx, hserved⟩ := hx
        rw [hx]
        exact ⟨(hours.setLock (some p)).contents, rfl, rfl, fun hq => hserved hq.2⟩
    · exact stop_meets ⟨hours.contents, rfl, rfl, fun hq => hbusy ((hlocks i).trans (hq.1.1 i))⟩

/-- **`bwrite`** puts the bytes of the buffer on disk. -/
theorem bwrite_meets (h : Locked lat s k i) :
    Meets (bwrite havedisk1 i) s
      (fun _ s' => (Locked lat s' k i ∧ Saved lat s'.cache s'.disk k i) ∧
        s'.disk = update s.disk k (lat k) ∧ s'.mem = s.mem ∧
        (QuietBut s.cache i → QuietBut s'.cache i))
      fun x => Contents lat x.2.cache x.2.disk ∧ x.2.disk = s.disk ∧ x.2.mem = s.mem ∧
        ¬ Served havedisk1 k := by
  have hdata : (s.cache.buf i).data = lat k := h.key ▸ h.contents.data i h.valid
  have hflag := h.toOurs.locked_cache (f := fun b => { b with dirty := true }) h.lock
    (fun _ => ⟨rfl, rfl, rfl⟩) h.valid hdata
  rw [update_eq_self] at hflag
  have hsame := s.modify_same i fun b => { b with dirty := true }
  refine of_bind (of_get (of_neg h.lock (of_bind (of_set (mono
    (iderw_meets hflag.lock fun _ => by rw [hsame]) (fun _ s' hs' => ?_) fun x hx => ?_)))))
  · obtain rfl := hs'.1 (by rw [hsame])
    have hclear := hflag.toOurs.locked (f := fun b => { b with dirty := false, valid := true })
      hflag.lock (lat k) (fun _ => ⟨rfl, rfl, rfl⟩) rfl
      (show ((s.modify i fun b => { b with dirty := true }).cache.buf i).data = lat k by
        rw [hsame]; exact hdata)
    rw [update_eq_self] at hclear
    rw [hflag.key, hsame, hdata]
    refine ⟨⟨hclear, .inl (update_self ..)⟩, rfl, rfl, fun hq => ?_⟩
    rw [State.modify_cache, State.write_cache, State.modify_cache, modify_modify]
    exact hq.modify (fun _ => rfl) rfl
  · obtain ⟨hx, hserved⟩ := hx
    rw [hx]
    rw [hflag.key] at hserved
    exact ⟨hflag.contents, rfl, rfl, hserved⟩

theorem brelse_meets (h : Locked lat s k i) (hs : Saved lat s.cache s.disk k i) :
    Meets (brelse i) s
      (fun _ s' => Contents lat s'.cache s'.disk ∧ s'.disk = s.disk ∧ s'.mem = s.mem ∧
        (QuietBut s.cache i → Quiet s'.cache)) fun _ => False := by
  have hfree := h.toOurs.setLock none
  obtain ⟨l, hs₁⟩ := hfree.contents.shape
  have hbuf : ((s.cache.modify i fun b => { b with lock := none }).unref i).buf =
      (s.cache.modify i fun b => { b with lock := none, refcnt := b.refcnt - 1 }).buf := by
    rw [Bcache.unref_buf, modify_modify]
    rfl
  refine of_bind (of_get (of_neg h.lock (of_set ⟨?_, rfl, rfl, ?_⟩)))
  · refine h.contents.congr (hs₁.unref ?_) hbuf (fun _ => ⟨rfl, rfl, rfl, rfl⟩) fun j _ hr => ?_
    · rw [Bcache.modify_same]
      exact h.valid
    · rw [hbuf]
      rcases eq_or_ne j i with rfl | hne
      · rw [Bcache.modify_same, h.key]
        rcases hs with hs | hs | hs
        · exact .inr (.inr hs)
        · exact .inr (.inl hs)
        · exact .inl (Nat.sub_ne_zero_of_lt hs)
      · rw [Bcache.modify_other _ _ hne]
        exact .inl hr
  · rintro ⟨hlock, j, hd, hr⟩
    refine ⟨fun m => ?_, j, ?_, ?_⟩
    · rw [hbuf]
      rcases eq_or_ne m i with rfl | hne
      · rw [Bcache.modify_same]
      · rw [Bcache.modify_other _ _ hne]
        exact hlock m hne
    · rw [hbuf]
      exact (Bcache.modify_field (f := fun b => { b with lock := none, refcnt := b.refcnt - 1 })
        Buf.dirty s.cache i j fun _ => rfl).trans hd
    · rw [hbuf, Bcache.modify_apply]
      split
      · subst j
        show (s.cache.buf i).refcnt - 1 = 0
        omega
      · rename_i hne
        exact hr.resolve_right fun hj => hne hj.1

end Calls

/-! ## The bytes of a disk -/

/-- Byte `q` of disk `m`. -/
def byteAt (lat : Key → Block) (m q : Nat) : UInt8 := (lat (m, q / BSIZE)).byte (q % BSIZE)

/-- Disk `m` gets the bytes `g 0, g 1, …`. -/
def setDisk (lat : Key → Block) (m : Nat) (g : Nat → UInt8) : Key → Block := fun k =>
  if k.1 = m then Buffer.ofFn fun q => g (k.2 * BSIZE + q) else lat k

/-- `n` bytes of disk `m` are replaced, from byte `pos` on. -/
def written (lat : Key → Block) (m pos n : Nat) (f : Nat → UInt8) : Key → Block :=
  setDisk lat m (store (byteAt lat m) pos n f)

section Bytes

variable {lat : Key → Block} {m pos n : Nat} {f : Nat → UInt8}

theorem byteAt_add (b : Nat) {q : Nat} (hq : q < BSIZE) :
    byteAt lat m (b * BSIZE + q) = (lat (m, b)).byte q := by
  rw [byteAt, Nat.mul_comm, Nat.mul_add_div (by decide), Nat.div_eq_of_lt hq, Nat.add_zero,
    Nat.mul_add_mod, Nat.mod_eq_of_lt hq]

theorem setDisk_other {g : Nat → UInt8} {k : Key} (h : k.1 ≠ m) : setDisk lat m g k = lat k := if_neg h

@[simp] theorem byteAt_setDisk (g : Nat → UInt8) : byteAt (setDisk lat m g) m = g := by
  funext q
  rw [byteAt, setDisk, if_pos rfl, Buffer.byte_ofFn (Nat.mod_lt q (by decide)), Nat.div_add_mod']

@[simp] theorem setDisk_setDisk (g g' : Nat → UInt8) :
    setDisk (setDisk lat m g) m g' = setDisk lat m g' := by
  funext k
  simp only [setDisk]
  split
  · rfl
  · rfl

@[simp] theorem setDisk_byteAt : setDisk lat m (byteAt lat m) = lat := by
  funext k
  rcases eq_or_ne k.1 m with rfl | hne
  · rw [setDisk, if_pos rfl]
    exact Buffer.ext fun q hq => by rw [Buffer.byte_ofFn hq, byteAt_add _ hq]
  · exact setDisk_other hne

@[simp] theorem store_zero (mem : Nat → UInt8) : store mem pos 0 f = mem :=
  funext fun a => if_neg (by omega)

theorem store_store (pos : Nat) (f mem : Nat → UInt8) (a b : Nat) :
    store (store mem pos a f) (pos + a) b (fun j => f (a + j)) = store mem pos (a + b) f := by
  funext q
  simp only [store]
  by_cases h₁ : q < pos + a
  · rw [if_neg (by omega)]
    by_cases h₀ : pos ≤ q
    · rw [if_pos ⟨h₀, h₁⟩, if_pos (by omega)]
    · rw [if_neg (by omega), if_neg (by omega)]
  · by_cases h₂ : q < pos + (a + b)
    · rw [if_pos (by omega), if_pos (by omega)]
      congr 1
      omega
    · rw [if_neg (by omega), if_neg (by omega), if_neg (by omega)]

theorem written_written (lat : Key → Block) (m pos : Nat) (f : Nat → UInt8) (a b : Nat) :
    written (written lat m pos a f) m (pos + a) b (fun j => f (a + j)) = written lat m pos (a + b) f := by
  rw [written, written, byteAt_setDisk, setDisk_setDisk, store_store, written]

theorem written_piece {b start len : Nat} (h : start + len ≤ BSIZE) :
    update lat (m, b) ((lat (m, b)).splice start ((List.range len).map f)) =
      written lat m (b * BSIZE + start) len f := by
  have hlen : ((List.range len).map f).length = len := by rw [List.length_map, List.length_range]
  have hbyte : ∀ k : Key, k.1 = m → ∀ q < BSIZE,
      (written lat m (b * BSIZE + start) len f k).byte q =
        if k.2 = b ∧ start ≤ q ∧ q < start + len then f (q - start) else (lat k).byte q := by
    rintro ⟨m, c⟩ rfl q hq
    simp only [written, setDisk, if_true, Buffer.byte_ofFn hq, store, byteAt_add c hq]
    have hc : b * BSIZE + start ≤ c * BSIZE + q ∧ c * BSIZE + q < b * BSIZE + start + len ↔
        c = b ∧ start ≤ q ∧ q < start + len := by
      simp only [BSIZE] at *
      omega
    simp only [hc]
    split
    · rename_i he
      rw [he.1]
      congr 1
      omega
    · rfl
  funext k
  rcases eq_or_ne k (m, b) with rfl | hne
  · rw [update_self]
    refine Buffer.ext fun q hq => ?_
    rw [hbyte _ rfl q hq]
    split
    · rename_i he
      obtain ⟨j, rfl⟩ := Nat.exists_eq_add_of_le he.2.1
      rw [Buffer.byte_splice_of_mem (by rw [hlen]; omega) hq, List.getElem_map, List.getElem_range,
        Nat.add_sub_cancel_left]
    · rename_i he
      exact Buffer.byte_splice_of_not_mem (by rw [hlen]; omega)
  · rw [update_of_ne hne]
    rcases eq_or_ne k.1 m with hk | hk
    · refine Buffer.ext fun q hq => ?_
      rw [hbyte k hk q hq, if_neg fun he => hne (Prod.ext hk he.1)]
    · exact (setDisk_other hk).symm

end Bytes

/-! ## The loop -/

/-- From `s` to `s'` only the blocks in `W` change, on disk and in the contents. -/
def Frame (W : Key → Prop) (lat lat' : Key → Block) (s s' : State P) : Prop :=
  ∀ k, ¬ W k → s'.disk k = s.disk k ∧ lat' k = lat k

theorem Frame.trans {W : Key → Prop} {lat lat₁ lat₂ : Key → Block} {s : State P}
    (h₁ : Frame W lat lat₁ s s₁) (h₂ : Frame W lat₁ lat₂ s₁ s₂) : Frame W lat lat₂ s s₂ :=
  fun k hk => ⟨(h₂ k hk).1.trans (h₁ k hk).1, (h₂ k hk).2.trans (h₁ k hk).2⟩

/-- Contents and memory, on which a transfer of `n` bytes from position `pos` of a disk to or from
the address `buf` has its effect. -/
abbrev Effect := Nat → Nat → Nat → (Key → Block) × (Nat → UInt8) → (Key → Block) × (Nat → UInt8)

/-- `move` has the effect `eff` on a piece of a block of disk `m`, and effects add up. -/
structure Transfers (havedisk1 : Bool) (m : Nat) (W : Key → Prop)
    (move : BufId → Int → Int → Nat → Op P Unit) (eff : Effect) : Prop where
  zero : ∀ pos buf x, eff pos 0 buf x = x
  add : ∀ pos a b buf x, eff (pos + a) b (buf + a) (eff pos a buf x) = eff pos (a + b) buf x
  piece : ∀ {lat : Key → Block} {s : State P} {b : Nat} {i : BufId} {start len buf : Nat},
    Locked lat s (m, b) i → Saved lat s.cache s.disk (m, b) i → start + len ≤ BSIZE →
    Meets (move i start len buf) s
      (fun _ s' => ∃ lat', (lat', s'.mem) = eff (b * BSIZE + start) len buf (lat, s.mem) ∧
        (Locked lat' s' (m, b) i ∧ Saved lat' s'.cache s'.disk (m, b) i) ∧ Frame W lat lat' s s' ∧
        (QuietBut s.cache i → QuietBut s'.cache i))
      fun x => ∃ lat', Contents lat' x.2.cache x.2.disk ∧ Frame W lat lat' s x.2 ∧
        ¬ Served havedisk1 (m, b)

section Loop

variable {havedisk1 : Bool} {p : P} {m : Nat} {W : Key → Prop}
  {move : BufId → Int → Int → Nat → Op P Unit} {eff : Effect} {lat : Key → Block} {s : State P}

/-- What a transfer that returns has done. -/
def Done (W : Key → Prop) (lat : Key → Block) (s : State P)
    (x : (Key → Block) × (Nat → UInt8)) (s' : State P) : Prop :=
  Contents x.1 s'.cache s'.disk ∧ s'.mem = x.2 ∧ Frame W lat x.1 s s' ∧ (Quiet s.cache → Quiet s'.cache)

/-- How a transfer stops that does not return. -/
def Stopped (W : Key → Prop) (lat : Key → Block) (s s' : State P) : Prop :=
  ∃ lat', Contents lat' s'.cache s'.disk ∧ Frame W lat lat' s s'

theorem Done.trans {x y : (Key → Block) × (Nat → UInt8)} (h₁ : Done W lat s x s₁)
    (h₂ : Done W x.1 s₁ y s₂) : Done W lat s y s₂ :=
  ⟨h₂.1, h₂.2.1, h₁.2.2.1.trans h₂.2.2.1, fun h => h₂.2.2.2 (h₁.2.2.2 h)⟩

theorem Done.stopped {x : (Key → Block) × (Nat → UInt8)} (h₁ : Done W lat s x s₁)
    (h₂ : Stopped W x.1 s₁ s₂) : Stopped W lat s s₂ := by
  obtain ⟨lat', hc, hf⟩ := h₂
  exact ⟨lat', hc, h₁.2.2.1.trans hf⟩

/-- The disk is there and has `n` bytes from `pos` on. -/
def Within (havedisk1 : Bool) (m pos n : Nat) : Prop :=
  (m ≠ 0 → havedisk1 = true) ∧ (n ≠ 0 → pos + n ≤ FSSIZE * BSIZE)

/-- `x` transfers `n` bytes. -/
def Moved (havedisk1 : Bool) (m : Nat) (W : Key → Prop) (eff : Effect) (pos n buf : Nat) (x : Op P Unit)
    (lat : Key → Block) (s s₀ : State P) : Prop :=
  Meets x s₀ (fun _ => Done W lat s (eff pos n buf (lat, s.mem)))
    fun r => Stopped W lat s r.2 ∧ ¬ (Quiet s.cache ∧ Within havedisk1 m pos n)

/-- A turn of the loop after `bread`: the piece is moved, the buffer released, and the loop goes on
behind the piece or has nothing left to do. -/
theorem Transfers.turn (ht : Transfers havedisk1 m W move eff) (start len buf : Nat) {b : Nat}
    {i : BufId} (hl : Locked lat s₁ (m, b) i) (hs : Saved lat s₁.cache s₁.disk (m, b) i)
    (hdisk : s₁.disk = s.disk) (hmem : s₁.mem = s.mem) (hq : Quiet s.cache → QuietBut s₁.cache i)
    (hlen : start + len ≤ BSIZE) (hpos : 0 < len) {pos' left buf' : Nat} {rest : Op P Unit}
    (hrest : ∀ {lat'} {s' : State P}, Contents lat' s'.cache s'.disk →
      Moved havedisk1 m W eff pos' left buf' rest lat' s' s')
    (hnext : left = 0 ∨ pos' = b * BSIZE + start + len ∧ buf' = buf + len) :
    Moved havedisk1 m W eff (b * BSIZE + start) (len + left) buf (do
      move i start len buf
      brelse i
      rest) lat s s₁ := by
  have hframe : ∀ {lat'} {s' : State P}, Frame W lat lat' s₁ s' → Frame W lat lat' s s' :=
    fun h k hk => hdisk ▸ h k hk
  refine call (ht.piece hl hs hlen) (fun x hx => ?_) fun _ s₂ h₂ => ?_
  · obtain ⟨lat', hc, hf, hserved⟩ := hx
    refine ⟨⟨lat', hc, hframe hf⟩, fun h => hserved ⟨h.2.1, ?_⟩⟩
    have hw := h.2.2 (Nat.ne_of_gt (Nat.add_pos_left hpos left))
    simp only [BSIZE, FSSIZE] at *
    omega
  · obtain ⟨lat', heff, ⟨hl', hs'⟩, hf, hq'⟩ := h₂
    refine call (brelse_meets hl' hs') (fun _ h => h.elim) fun _ s₃ h₃ => ?_
    obtain ⟨hc, hdisk₃, hmem₃, hq₃⟩ := h₃
    have hd : Done W lat s (lat', s₃.mem) s₃ :=
      ⟨hc, rfl, fun k hk => by rw [hdisk₃]; exact hframe hf k hk, fun h => hq₃ (hq' (hq h))⟩
    have hall : eff pos' left buf' (lat', s₃.mem) = eff (b * BSIZE + start) (len + left) buf (lat, s.mem) := by
      rw [hmem₃, heff, hmem]
      rcases hnext with rfl | ⟨rfl, rfl⟩
      · rw [ht.zero, Nat.add_zero]
      · rw [ht.add]
    refine mono (hrest hc) (fun _ s₄ h => ?_) fun x hx => ⟨hd.stopped hx.1, fun h => hx.2 ⟨hd.2.2.2 h.1, h.2.1, ?_⟩⟩
    · rw [hall] at h
      exact hd.trans h
    · intro hleft
      have hw := h.2.2 (Nat.ne_of_gt (Nat.add_pos_left hpos left))
      omega

/-- **The loop moves exactly the bytes asked for.** -/
theorem Transfers.loop (ht : Transfers havedisk1 m W move eff) {n : Nat} :
    ∀ (fuel b offset num buf : Nat) {lat : Key → Block} {s : State P}, Contents lat s.cache s.disk →
      n ≤ num + fuel → num ≤ n → offset < BSIZE → (offset ≠ 0 → num = 0 ∧ n + offset < 2 ^ 31) →
      Moved havedisk1 m W eff (b * BSIZE + offset) (n - num) buf
        (ideLoop havedisk1 p move m n fuel b offset num buf) lat s s
  | 0, b, offset, num, buf, lat, s, hc, hfuel, hnum, _, _ => by
    rw [ideLoop, Nat.sub_eq_zero_of_le (show n ≤ num from hfuel), Moved, ht.zero]
    exact of_pure ⟨hc, rfl, fun _ _ => ⟨rfl, rfl⟩, id⟩
  | fuel + 1, b, offset, num, buf, lat, s, hc, hfuel, hnum, hoff, hfirst => by
    rw [ideLoop]
    refine of_ite (fun hlt => ?_) fun hge => ?_
    · refine call (bread_meets hc) (fun x hx => ?_) fun i s₁ h₁ => ?_
      · obtain ⟨hx, hdisk, -, hq⟩ := hx
        refine ⟨⟨lat, hx, fun k _ => ⟨congrFun hdisk k, rfl⟩⟩, fun h => hq ⟨h.1, h.2.1, ?_⟩⟩
        have hw := h.2.2 (by omega)
        simp only [BSIZE, FSSIZE] at *
        omega
      · obtain ⟨⟨hl, hs⟩, hdisk, hmem, hq⟩ := h₁
        have h₀ : ¬ ((offset : Int) ≠ 0 ∧ (num : Int) < BSIZE) → offset = 0 := fun h => by
          by_contra hne
          have hz := (hfirst hne).1
          exact h ⟨by omega, by rw [hz]; decide⟩
        refine of_ite (fun h₁ => ?_) fun h₁ => of_ite (fun h₂ => ?_) fun h₂ => ?_
        · -- first block
          obtain ⟨rfl, hover⟩ := hfirst (by omega)
          obtain ⟨len, hlen, hpos, hfit, hend⟩ : ∃ len : Nat,
              (if ((n : Int) + offset).bmod (2 ^ 32) < BSIZE then (n : Int) else BSIZE - offset) = len ∧
              0 < len ∧ offset + len ≤ BSIZE ∧ (len = n ∨ len < n ∧ offset + len = BSIZE) := by
            have hsum : ((n : Int) + offset).bmod (2 ^ 32) = n + offset :=
              Int.bmod_eq_of_le (by omega) (by omega)
            rw [hsum]
            split
            · exact ⟨n, rfl, by omega, by omega, .inl rfl⟩
            · exact ⟨BSIZE - offset, by omega, by omega, by omega, by omega⟩
          simp only [hlen, Int.toNat_natCast]
          have hnext : n - len = 0 ∨ (b + 1) * BSIZE + 0 = b * BSIZE + offset + len ∧
              buf + len = buf + len := by
            rw [Nat.succ_mul]
            omega
          have hturn := ht.turn offset len buf hl hs hdisk hmem hq hfit hpos (fun hc' =>
            ht.loop (n := n) fuel (b + 1) 0 len (buf + len) hc' (by omega) (by omega) (by decide)
              fun h => absurd rfl h) hnext
          rw [show len + (n - len) = n - 0 by omega] at hturn
          rw [show ((0 : Nat) : Int) + len = (len : Int) by omega]
          exact hturn
        · -- last block
          obtain rfl := h₀ h₁
          have hturn := ht.turn 0 (n - num) buf hl hs hdisk hmem hq (by omega) (by omega) (fun hc' =>
            ht.loop (n := n) fuel b 0 n buf hc' (by omega) (Nat.le_refl n) (by decide)
              fun h => absurd rfl h) (.inl (Nat.sub_self n))
          rw [show n - num + (n - n) = n - num by omega, Int.ofNat_sub hnum] at hturn
          rw [show (num : Int) + (n - num) = n by omega]
          exact hturn
        · -- middle blocks
          obtain rfl := h₀ h₁
          have hbig : num + BSIZE ≤ n := by omega
          have hturn := ht.turn 0 BSIZE buf hl hs hdisk hmem hq (Nat.le_of_eq (Nat.zero_add _)) (by decide)
            (fun hc' => ht.loop (n := n) fuel (b + 1) 0 (num + BSIZE) (buf + BSIZE) hc'
              (by simp only [BSIZE]; omega) hbig (by decide) fun h => absurd rfl h)
            (.inr ⟨by rw [Nat.succ_mul, Nat.add_right_comm], rfl⟩)
          rw [show BSIZE + (n - (num + BSIZE)) = n - num by omega, Int.natCast_add] at hturn
          exact hturn
    · rw [Nat.sub_eq_zero_of_le (show n ≤ num by omega), ht.zero]
      exact of_pure ⟨hc, rfl, fun _ _ => ⟨rfl, rfl⟩, id⟩

end Loop

/-! ## The two directions -/

/-- Reading changes the memory at `buf`. -/
def readEffect (m : Nat) : Effect := fun pos n buf x =>
  (x.1, store x.2 buf n fun j => byteAt x.1 m (pos + j))

/-- Writing changes the disk. -/
def writeEffect (m : Nat) : Effect := fun pos n buf x =>
  (written x.1 m pos n fun j => x.2 (buf + j), x.2)

theorem store_congr {mem f g : Nat → UInt8} {buf len : Nat} (h : ∀ j < len, f j = g j) :
    store mem buf len f = store mem buf len g := by
  funext a
  simp only [store]
  split
  · exact h _ (by omega)
  · rfl

theorem copyOut_transfers (havedisk1 : Bool) (m : Nat) :
    Transfers (P := P) havedisk1 m (fun _ => False) copyOut (readEffect m) where
  zero pos buf x := by rw [readEffect, store_zero]
  add pos a b buf x := by
    have h := store_store buf (fun j => byteAt x.1 m (pos + j)) x.2 a b
    simp only [readEffect, Nat.add_assoc] at h ⊢
    rw [h]
  piece {lat s b i start len buf} hl hs hlen := by
    have hmem : store s.mem buf (len : Int).toNat
        (fun j => (s.cache.buf i).data.byte ((start : Int).toNat + j)) =
        store s.mem buf len fun j => byteAt lat m (b * BSIZE + start + j) := by
      refine store_congr fun j hj => ?_
      rw [Nat.add_assoc, byteAt_add _ (by omega), hl.contents.data i hl.valid, hl.key]
      rfl
    refine of_bind (of_get (of_pos ⟨Int.natCast_nonneg _, by omega⟩ (of_set ⟨lat, ?_, ⟨?_, hs⟩,
      fun _ _ => ⟨rfl, rfl⟩, id⟩)))
    · exact congrArg (Prod.mk lat) hmem
    · exact ⟨hl.toOurs, hl.valid, hl.lock⟩

theorem copyIn_transfers (havedisk1 : Bool) (m : Nat) :
    Transfers (P := P) havedisk1 m (fun k => k.1 = m) (copyIn havedisk1) (writeEffect m) where
  zero pos buf x := by rw [writeEffect, written, store_zero, setDisk_byteAt]
  add pos a b buf x := by
    have h := written_written x.1 m pos (fun j => x.2 (buf + j)) a b
    simp only [writeEffect, Nat.add_assoc] at h ⊢
    rw [h]
  piece {lat s b i start len buf} hl hs hlen := by
    have hdata : (s.cache.buf i).data = lat (m, b) := hl.key ▸ hl.contents.data i hl.valid
    have hfill := hl.toOurs.locked_cache (f := fun b => { b with
      data := b.data.splice start ((List.range len).map fun j => s.mem (buf + j)) }) hl.lock
      (fun _ => ⟨rfl, rfl, rfl⟩) hl.valid (by rw [hdata])
    rw [written_piece hlen] at hfill
    refine of_bind (of_get (of_pos ⟨Int.natCast_nonneg _, by omega⟩ (of_bind (of_set (mono
      (bwrite_meets hfill) (fun _ s' h => ?_) fun x hx => ?_)))))
    · obtain ⟨hl', hdisk, hmem, hq⟩ := h
      refine ⟨_, congrArg (Prod.mk _) hmem, hl', fun k hk => ⟨?_, setDisk_other hk⟩, fun h => hq ?_⟩
      · rw [hdisk]
        exact update_of_ne (fun e => hk (congrArg Prod.fst e)) ..
      · rw [State.modify_cache]
        exact h.modify id rfl
    · obtain ⟨hc, hdisk, -, hserved⟩ := hx
      exact ⟨_, hc, fun k hk => ⟨congrFun hdisk k, setDisk_other hk⟩, hserved⟩

/-! ## The device functions -/

theorem getOffset_lt (ftable : List File) (null inum : Nat) : getOffset ftable null inum < 2 ^ 31 := by
  rw [getOffset]
  split
  · exact Int.bmod_lt (by decide)
  · decide

theorem ideTransfer_meets {havedisk1 : Bool} (p : P) {W : Key → Prop}
    {move : BufId → Int → Int → Nat → Op P Unit} {eff : Effect} (ip : Inode) {offset : Int} (buf : Nat)
    {n : Int} {lat : Key → Block} {s : State P} (ht : Transfers havedisk1 ip.dev W move eff)
    (hc : Contents lat s.cache s.disk) (h₀ : 0 ≤ offset) (h₁ : offset < 2 ^ 31)
    (hn : offset % BSIZE + n < 2 ^ 31) :
    Meets (ideTransfer havedisk1 p move offset ip buf n) s
      (fun r s' => r = max n (-1) ∧ Done W lat s (eff offset.toNat n.toNat buf (lat, s.mem)) s')
      fun x => Stopped W lat s x.2 ∧
        ¬ (Quiet s.cache ∧ Within havedisk1 ip.dev offset.toNat n.toNat) := by
  obtain ⟨off, rfl⟩ := Int.eq_ofNat_of_zero_le h₀
  refine of_ite (fun hneg => of_pure ⟨by omega, ?_⟩) fun hpos => ?_
  · rw [show n.toNat = 0 by omega, ht.zero]
    exact ⟨hc, rfl, fun _ _ => ⟨rfl, rfl⟩, id⟩
  · obtain ⟨n, rfl⟩ := Int.eq_ofNat_of_zero_le (Int.not_lt.mp hpos)
    have hloop := ht.loop (p := p) n (off / BSIZE) (off % BSIZE) 0 buf hc (Nat.le_add_left ..)
      (Nat.zero_le n) (Nat.mod_lt off (by decide)) fun _ => ⟨rfl, by omega⟩
    rw [Nat.div_add_mod', Nat.sub_zero] at hloop
    have hblock : ((off : Int).tdiv BSIZE % 2 ^ 32).toNat = off / BSIZE := by
      rw [← Int.ofNat_tdiv]
      simp only [BSIZE]
      omega
    have hrest : (off : Int).tmod BSIZE = (off % BSIZE : Nat) := (Int.ofNat_tmod off BSIZE).symm
    rw [hblock, hrest]
    exact call hloop (fun _ h => h) fun _ s' hd => of_pure ⟨by omega, hd⟩

/-- A machine after `binit`, with empty disks. -/
def freshState : State Unit := ⟨.init Unit, fun _ => Buffer.zero, fun _ => 7⟩

theorem freshState_contents : Contents (fun _ => Buffer.zero) freshState.cache freshState.disk :=
  ⟨Shape.init, nofun, nofun, fun _ => .inl rfl⟩

end Xv6.Bio.Nodes
