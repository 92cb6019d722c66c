/-
# `Xv6.Fs.Seek` — file positions

`lseek` of `proc.c` beside `fileread` and `filewrite`, as calls that come one after the
other.  The model of a position is one number for each `struct file`: a read or a write
starts there and moves it by what it transferred, and `lseek` sets it and returns it.

`lseek` does not check its descriptor.  On one that is not open the `struct file` it
changes lies at address 0, in the memory of the process, and on one that is out of range
the pointer is no element of `ofile`; both cases are kept.  It also returns its argument,
not the position.  `proper` says when neither shows, and then the calls follow the model.
-/
import Mathlib.Data.UInt
import Xv6.Fs.Shared

namespace Xv6.Fs

open Machine Bytes
open Function (update update_eq_self update_idem update_of_ne update_self)

variable {P : Type}

/-! ## The calls -/

def SEEK_SET : Int32 := 0
def SEEK_CURR : Int32 := 1
def SEEK_END : Int32 := 2

/-- The file system, and of each process the words of its memory by address. -/
structure Memory (P δ : Type) where
  fs : State P δ
  mem : P → Nat → UInt32

/-- The place of `off` in a `struct file` at address 0. -/
def NULLOFF : Nat := 0x14

/-- The element of `ofile` for a descriptor in range. -/
def fdOf (fd : Int32) : Option Fd :=
  if h : fd.toInt.toNat < NOFILE then if 0 ≤ fd.toInt then some ⟨fd.toInt.toNat, h⟩ else none
  else none

/-- `f->off = off`. -/
def State.seek {δ : Type} (a : State P δ) (f : FileId) (off : UInt32) : State P δ :=
  ⟨a.k.modifyFile f fun fl => { fl with off := off.toNat }, a.d⟩

def State.setContent (a : State P Table) (x : Nat) (c : List UInt8) : State P Table :=
  ⟨a.k, update a.d x ⟨(a.d x).toAttr, c⟩⟩

def Memory.store [DecidableEq P] {δ : Type} (s : Memory P δ) (p : P) (addr : Nat) (w : UInt32) :
    Memory P δ :=
  ⟨s.fs, update s.mem p (update (s.mem p) addr w)⟩

/-- `lseek`; `none` where it follows a pointer that is none. -/
def lseek [DecidableEq P] (s : Memory P Vol) (p : P) (fd offset origin : Int32) :
    Option (Int32 × Memory P Vol) :=
  match fdOf fd with
  | none => none
  | some fd =>
    match s.fs.k.ofile p fd with
    | some f =>
      let fl := s.fs.k.file f
      if origin = SEEK_SET then some (offset, ⟨s.fs.seek f offset.toUInt32, s.mem⟩)
      else if origin = SEEK_CURR then
        some (offset, ⟨s.fs.seek f (.ofNat fl.off + offset.toUInt32), s.mem⟩)
      else if origin = SEEK_END then
        some (offset, ⟨s.fs.seek f (s.fs.d.size fl.ip + offset.toUInt32), s.mem⟩)
      else some (-1, s)
    | none =>
      if origin = SEEK_SET then some (offset, s.store p NULLOFF offset.toUInt32)
      else if origin = SEEK_CURR then
        some (offset, s.store p NULLOFF (s.mem p NULLOFF + offset.toUInt32))
      else if origin = SEEK_END then none
      else some (-1, s)

/-- `filewrite(f, addr, n)` with the bytes at `addr`.  For a negative `n` neither loop is
entered: the one of `pipewrite` ends in `return n`. -/
def filewriteInt (f : FileId) (n : Int32) (buf : Nat → UInt8) : FsProg Int :=
  if n.toInt < 0 then do
    let fl : File ← cmd (.file f)
    if !fl.writable then return -1
    if fl.type = .pipe then return n.toInt
    else if fl.type = .inode then return -1
    else panic .filewrite
  else filewrite f ((List.range n.toInt.toNat).map buf)

/-- The calls on descriptors. -/
inductive Call (P : Type)
  | lseek (p : P) (fd offset origin : Int32)
  | read (p : P) (fd n : Int32)
  | write (p : P) (fd n : Int32) (buf : Nat → UInt8)

/-- What a call returns; a read also hands over its bytes. -/
inductive Answer
  | int (r : Int)
  | bytes (r : Option (List UInt8))
  deriving DecidableEq

/-- `ofile[fd]`, as `argfd` finds it. -/
def openFile (k : Kernel P) (p : P) (fd : Int32) : Option FileId :=
  (fdOf fd).bind (k.ofile p)

/-- A program of the file system, run by `p`. -/
def perform [DecidableEq P] {α : Type} (env : Env) (s : Memory P Vol) (p : P) (x : FsProg α)
    (r : α → Answer) : Option (Answer × Memory P Vol) :=
  match run (exec blockStore env p) x s.fs with
  | .ok b t => some (r b, ⟨t, s.mem⟩)
  | _ => none

def call [DecidableEq P] (env : Env) (s : Memory P Vol) : Call P → Option (Answer × Memory P Vol)
  | .lseek p fd offset origin =>
    (lseek s p fd offset origin).map fun r => (.int r.1.toInt, r.2)
  | .read p fd n =>
    match openFile s.fs.k p fd with
    | some f => perform env s p (fileread f n) .bytes
    | none => some (.bytes none, s)
  | .write p fd n buf =>
    match openFile s.fs.k p fd with
    | some f => perform env s p (filewriteInt f n buf) .int
    | none => some (.int (-1), s)

/-- The machine; an event is a call with what it returned. -/
def callStep [DecidableEq P] (env : Env) (s : Memory P Vol) (e : Call P × Answer) :
    Option (Memory P Vol) :=
  (call env s e.1).bind fun r => if r.1 = e.2 then some r.2 else none

/-! ## The model of positions -/

/-- The position an origin stands for; none for an unknown one. -/
def base (fl : File) (size : UInt32) (origin : Int32) : Option UInt32 :=
  if origin = SEEK_SET then some 0
  else if origin = SEEK_CURR then some (.ofNat fl.off)
  else if origin = SEEK_END then some size
  else none

namespace Model

/-- The inode a file is open on. -/
def inumOf (a : State P Table) (f : FileId) : Nat := (a.k.inode (a.k.file f).ip).inum

def content (a : State P Table) (f : FileId) : List UInt8 := (a.d (inumOf a f)).content

/-- The call sets the position and returns it. -/
def lseek (m : Memory P Table) (p : P) (fd offset origin : Int32) : Int32 × Memory P Table :=
  match openFile m.fs.k p fd with
  | none => (-1, m)
  | some f =>
    match base (m.fs.k.file f) (.ofNat (content m.fs f).length) origin with
    | none => (-1, m)
    | some b =>
      ((b + offset.toUInt32).toInt32, ⟨m.fs.seek f (b + offset.toUInt32), m.mem⟩)

/-- What a read at the position delivers. -/
def read (a : State P Table) (f : FileId) (n : Int32) : Option (List UInt8) × State P Table :=
  if (a.k.file f).readable then
    match readBytes (content a f) (a.k.file f).off n.toUInt32.toNat with
    | some bs =>
      (some bs, if bs = [] then a else a.seek f (.ofNat ((a.k.file f).off + bs.length)))
    | none => (none, a)
  else (none, a)

/-- One chunk at the position. -/
def writeChunk (a : State P Table) (f : FileId) (src : List UInt8) : State P Table :=
  let off := (a.k.file f).off
  (a.setContent (inumOf a f) (overwrite (content a f) off src)).seek f (.ofNat (off + src.length))

/-- Chunks at the position, as long as the file can hold them. -/
def writeChunks (f : FileId) : Nat → List UInt8 → State P Table → Bool × State P Table
  | 0, src, a => (src = [], a)
  | n + 1, src, a =>
    if src = [] then (true, a)
    else if canWrite (content a f) (a.k.file f).off (src.take WRITEMAX).length then
      writeChunks f n (src.drop WRITEMAX) (writeChunk a f (src.take WRITEMAX))
    else (false, a)

def write (a : State P Table) (f : FileId) (n : Int32) (buf : Nat → UInt8) :
    Int × State P Table :=
  if !(a.k.file f).writable ∨ n.toInt < 0 then (-1, a)
  else
    let src := (List.range n.toInt.toNat).map buf
    let w := writeChunks f src.length src a
    (if w.1 then src.length else -1, w.2)

def call (m : Memory P Table) : Call P → Answer × Memory P Table
  | .lseek p fd offset origin =>
    let r := lseek m p fd offset origin
    (.int r.1.toInt, r.2)
  | .read p fd n =>
    match openFile m.fs.k p fd with
    | some f => (.bytes (read m.fs f n).1, ⟨(read m.fs f n).2, m.mem⟩)
    | none => (.bytes none, m)
  | .write p fd n buf =>
    match openFile m.fs.k p fd with
    | some f => (.int (write m.fs f n buf).1, ⟨(write m.fs f n buf).2, m.mem⟩)
    | none => (.int (-1), m)

def callStep (m : Memory P Table) (e : Call P × Answer) : Option (Memory P Table) :=
  if (call m e.1).1 = e.2 then some (call m e.1).2 else none

end Model

/-! ## The calls follow the model -/

/-- The table of inodes as a protocol for the programs of `p`. -/
abbrev onTable [DecidableEq P] (n : Nat) (env : Env) (p : P) : Protocol Cmd Resp (State P Table) :=
  .ofSpec (exec (tableStore n) env p) (Allowed n)

/-- An inode that is loaded and is a regular file. -/
structure Ready (n : Nat) (a : State P Table) (i : InodeId) : Prop where
  tidy : Tidy n a.k a.d
  ref : 0 < (a.k.inode i).ref
  valid : (a.k.inode i).valid = true
  regular : (a.d (a.k.inode i).inum).type = T_FILE

def State.setLock {δ : Type} (a : State P δ) (i : InodeId) (l : Option P) : State P δ :=
  ⟨a.k.modify i fun ip => { ip with lock := l }, a.d⟩

theorem State.inode_setLock {δ : Type} (a : State P δ) (i : InodeId) (l : Option P) :
    (a.setLock i l).k.inode i = { a.k.inode i with lock := l } :=
  update_self ..

theorem State.inum_setLock (a : State P Table) (i : InodeId) (l : Option P) :
    ((a.setLock i l).k.inode i).inum = (a.k.inode i).inum := by
  rw [State.inode_setLock]

@[simp] theorem State.setLock_file (a : State P Table) (i : InodeId) (l : Option P) :
    (a.setLock i l).k.file = a.k.file := rfl

@[simp] theorem State.setLock_d (a : State P Table) (i : InodeId) (l : Option P) :
    (a.setLock i l).d = a.d := rfl

theorem State.seek_setLock (a : State P Table) (i : InodeId) (l : Option P) (f : FileId)
    (off : UInt32) : (a.setLock i l).seek f off = (a.seek f off).setLock i l := rfl

section

variable {n off : Nat} {env : Env} {p : P} {a : State P Table} {f : FileId} {i : InodeId}
  {Q : Unit → State P Table → Prop}

theorem Ready.type (h : Ready n a i) : (a.k.inode i).type = T_FILE := by
  have := (h.tidy.alive i h.ref h.valid).1
  rw [this]
  exact h.regular

/-- The command asks for no inode, or for `i`. -/
def Cmd.on (i : InodeId) (c : Cmd) : Prop :=
  match c with
  | .load j => j = i
  | .ialloc _ | .panic .bfree => False
  | _ => c.uses = none ∨ c.uses = some i

theorem Ready.allowed (h : Ready n a i) {c : Cmd} (hc : c.on i) : Allowed n c a where
  tidy := h.tidy
  uses j hj := by
    obtain rfl : j = i := by cases c <;> simp_all [Cmd.on, Cmd.uses]
    exact ⟨h.ref, h.valid⟩
  load j hj := by
    subst hj
    obtain rfl : j = i := hc
    exact h.ref
  ialloc t ht := by
    subst ht
    exact hc.elim
  panic hp := by
    subst hp
    exact hc

theorem Ready.setLock (h : Ready n a i) (l : Option P) : Ready n (a.setLock i l) i := by
  refine ⟨h.tidy.setLock i l, ?_, ?_, ?_⟩
  · rw [State.inode_setLock]; exact h.ref
  · rw [State.inode_setLock]; exact h.valid
  · rw [State.inode_setLock]; exact h.regular

theorem Ready.seek (h : Ready n a i) (f : FileId) (off : UInt32) : Ready n (a.seek f off) i :=
  ⟨h.tidy.of_same (fun _ => ⟨rfl, rfl, fun hv => ⟨hv, rfl⟩⟩) rfl, h.ref, h.valid, h.regular⟩

theorem State.setContent_attr (a : State P Table) (x : Nat) (c : List UInt8) (y : Nat) :
    ((a.setContent x c).d y).toAttr = (a.d y).toAttr := by
  show (update a.d x _ y).toAttr = _
  by_cases hy : y = x
  · subst hy
    rw [update_self]
  · rw [update_of_ne hy]

/-- The bytes of files do not matter. -/
theorem Tidy.of_attr {k : Kernel P} {d d' : Table} (h : Tidy n k d)
    (hd : ∀ x, (d' x).toAttr = (d x).toAttr) : Tidy n k d' where
  uniq := h.uniq
  range := h.range
  alive j hj hv := by
    rw [hd]
    exact h.alive j hj hv
  cwd := h.cwd

theorem Ready.setContent (h : Ready n a i) (x : Nat) (c : List UInt8) :
    Ready n (a.setContent x c) i where
  tidy := h.tidy.of_attr (a.setContent_attr x c)
  ref := h.ref
  valid := h.valid
  regular := (congrArg Attr.type (a.setContent_attr x c _)).trans h.regular

theorem State.setLock_setLock {δ : Type} {a : State P δ} (hl : (a.k.inode i).lock = none) (l : Option P) :
    (a.setLock i l).setLock i none = a := by
  have he : { (a.setLock i l).k.inode i with lock := none } = a.k.inode i := by
    rw [State.inode_setLock, ← hl]
  simp only [State.setLock, Kernel.modify, update_self, update_idem] at he ⊢
  rw [he, update_eq_self]

theorem ilock_table [DecidableEq P] (h : Ready n a i) (hl : (a.k.inode i).lock = none)
    (hq : Q () (a.setLock i (some p))) : Obeys (onTable n env p) Q (ilock i) a := by
  refine .seq (.call (h.allowed (.inl rfl)) ?_)
  rintro (r : Int) a₁ hr
  cases hr
  refine .ite (fun hr => absurd hr (Int.not_lt.mpr h.ref)) fun _ => ?_
  refine .seq (.call (h.allowed (.inl rfl)) ?_)
  rintro _ a₂ hr
  simp only [Protocol.ofSpec, exec, hl] at hr
  cases hr
  have h₂ := h.setLock (some p)
  refine .call (h₂.allowed rfl) ?_
  rintro _ a₃ hr
  simp only [Protocol.ofSpec, exec] at hr
  split at hr
  · cases hr
    exact hq
  · rename_i hv
    exact absurd h₂.valid hv

theorem iunlock_table [DecidableEq P] (h : Ready n a i) (hl : (a.k.inode i).lock = none)
    (hq : Q () a) : Obeys (onTable n env p) Q (iunlock i) (a.setLock i (some p)) := by
  have h' := h.setLock (some p)
  refine .seq (.call (h'.allowed (.inl rfl)) ?_)
  rintro (b : Bool) a₁ hb
  cases hb
  refine .seq (.call (h'.allowed (.inl rfl)) ?_)
  rintro (r : Int) a₂ hr
  cases hr
  refine .ite (fun hc => absurd hc ?_) fun _ => ?_
  · rw [not_or, Int.not_lt, State.inode_setLock]
    exact ⟨nofun, h.ref⟩
  refine .call (h'.allowed (.inl rfl)) ?_
  rintro _ a₃ hr
  cases hr
  have hback := State.setLock_setLock hl (some p)
  rw [State.setLock] at hback
  rwa [hback]

theorem setOff_table [DecidableEq P] (h : Ready n a i) (hq : Q () (a.seek f (.ofNat off))) :
    Obeys (onTable n env p) Q (cmd (.setOff f (off % 2 ^ 32))) a := by
  refine .call (h.allowed (.inl rfl)) ?_
  rintro _ a₁ hr
  cases hr
  exact hq

/-- An open file on a regular file that nobody has locked. -/
structure Opened (n : Nat) (a : State P Table) (f : FileId) : Prop where
  ready : Ready n a (a.k.file f).ip
  unlocked : (a.k.inode (a.k.file f).ip).lock = none
  type : (a.k.file f).type = .inode
  off : (a.k.file f).off < 2 ^ 32

theorem readi_table [DecidableEq P] (h : Ready n a i)
    {Q : Option (List UInt8) → State P Table → Prop} {m : Nat}
    (hq : Q (readBytes (a.d (a.k.inode i).inum).content off m) a) :
    Obeys (onTable n env p) Q (cmd (.readi i off m)) a := by
  refine .call (h.allowed (.inr rfl)) ?_
  rintro (r : Option (List UInt8)) a₁ hr
  simp only [Protocol.ofSpec, exec, h.type, if_neg (show T_FILE ≠ T_DEV by decide), tableStore] at hr
  cases hr
  exact hq

theorem fileread_table [DecidableEq P] (h : Opened n a f) (m : Int32) :
    Obeys (onTable n env p) (fun r a' => (r, a') = Model.read a f m) (fileread f m) a := by
  refine .seq (.call (h.ready.allowed (.inl rfl)) ?_)
  rintro (fl : File) a₁ hr
  cases hr
  rw [Model.read]
  refine .ite (fun hr => .ret ?_) fun hr => ?_
  · rw [if_neg (by simpa using hr)]
  rw [if_pos (by simpa using hr)]
  refine .ite (fun ht => absurd (h.type.symm.trans ht) nofun) fun _ => ?_
  refine .ite (fun _ => ?_) fun ht => absurd h.type ht
  refine .seq (ilock_table h.ready h.unlocked ?_)
  have hl := h.ready.setLock (some p)
  refine .seq (.call (hl.allowed (.inl rfl)) ?_)
  rintro (fl : File) a₂ hr
  cases hr
  refine .seq (readi_table hl ?_)
  rw [State.inum_setLock, State.setLock_file, State.setLock_d, Model.content, Model.inumOf]
  generalize readBytes _ _ _ = r
  -- after the section the inode is as before, whether or not the position has moved
  refine .ite (fun hm => ?_) fun hm => ?_
  · cases r with
    | none => exact absurd hm (Nat.lt_irrefl 0)
    | some bs =>
      refine .seq (setOff_table hl ?_)
      refine .seq (iunlock_table (h.ready.seek f _) h.unlocked (.ret ?_))
      show _ = (some bs, if bs = [] then a else _)
      rw [if_neg (show bs ≠ [] from List.length_pos_iff.mp hm)]
      rfl
  · refine .seq (iunlock_table h.ready h.unlocked (.ret ?_))
    cases r with
    | none => rfl
    | some bs =>
      have he : bs = [] := List.length_eq_zero_iff.mp (Nat.eq_zero_of_not_pos hm)
      show _ = (some bs, if bs = [] then a else _)
      rw [if_pos he]


theorem writei_table [DecidableEq P] (h : Ready n a i) {Q : Int → State P Table → Prop}
    {src : List UInt8} (hw : canWrite (a.d (a.k.inode i).inum).content off src.length →
      Q src.length (a.setContent (a.k.inode i).inum
        (overwrite (a.d (a.k.inode i).inum).content off src)))
    (hn : ¬ canWrite (a.d (a.k.inode i).inum).content off src.length → Q (-1) a) :
    Obeys (onTable n env p) Q (cmd (.writei i off src)) a := by
  refine .call (h.allowed (.inr rfl)) ?_
  rintro (r : Int) a₁ hr
  have hattr := (h.tidy.alive i h.ref h.valid).1
  simp only [Protocol.ofSpec, exec, h.type, if_neg (show T_FILE ≠ T_DEV by decide), tableStore] at hr
  by_cases hc : canWrite (a.d (a.k.inode i).inum).content off src.length
  · rw [if_pos hc] at hr
    cases hr
    have hnode : (a.d (a.k.inode i).inum).write (a.k.inode i).toAttr off src =
        ⟨(a.d (a.k.inode i).inum).toAttr, overwrite (a.d (a.k.inode i).inum).content off src⟩ := by
      rw [Node.write, hattr, ite_self]
    rw [hnode]
    exact hw hc
  · rw [if_neg hc] at hr
    cases hr
    exact hn hc


theorem Model.writeChunk_ip (a : State P Table) (f : FileId) (src : List UInt8) :
    ((Model.writeChunk a f src).k.file f).ip = (a.k.file f).ip := by
  show (update a.k.file f _ f).ip = _
  rw [update_self]
  rfl

theorem Opened.seek (h : Opened n a f) (g : FileId) (off : UInt32) : Opened n (a.seek g off) f := by
  by_cases hg : f = g
  · subst hg
    have hf : (a.seek f off).k.file f = { a.k.file f with off := off.toNat } :=
      update_self ..
    refine ⟨?_, ?_, ?_, ?_⟩
    · rw [hf]; exact h.ready.seek f off
    · rw [hf]; exact h.unlocked
    · rw [hf]; exact h.type
    · rw [hf]; exact off.toNat_lt
  · have hf : (a.seek g off).k.file f = a.k.file f := update_of_ne hg ..
    refine ⟨?_, ?_, ?_, ?_⟩
    · rw [hf]; exact h.ready.seek g off
    · rw [hf]; exact h.unlocked
    · rw [hf]; exact h.type
    · rw [hf]; exact h.off

theorem Opened.setContent (h : Opened n a f) (x : Nat) (c : List UInt8) :
    Opened n (a.setContent x c) f :=
  ⟨h.ready.setContent x c, h.unlocked, h.type, h.off⟩

/-- **The loop of `filewrite`**: one chunk after the other at the position. -/
theorem filewriteLoop_table [DecidableEq P] (m : Nat) (src : List UInt8) (h : Opened n a f)
    (hi : (a.k.file f).ip = i) : Obeys (onTable n env p)
      (fun b a' => (b, a') = Model.writeChunks f m src a) (filewriteLoop f i m src) a := by
  induction m generalizing src a with
  | zero => exact .ret rfl
  | succ m ih =>
    subst hi
    rw [filewriteLoop, Model.writeChunks]
    refine .ite (fun he => ?_) fun he => ?_
    · rw [if_pos he]
      exact .ret rfl
    rw [if_neg he]
    have hlen : 0 < (src.take WRITEMAX).length := by
      rw [List.length_take]
      exact Nat.lt_min.mpr ⟨by decide, List.length_pos_iff.mpr he⟩
    refine .seq (ilock_table h.ready h.unlocked ?_)
    have hl := h.ready.setLock (some p)
    refine .seq (.call (hl.allowed (.inl rfl)) ?_)
    rintro (fl : File) a₂ hr
    cases hr
    refine .seq (writei_table hl (fun hc => ?_) fun hc => ?_)
    · rw [State.inum_setLock] at hc ⊢
      rw [if_pos (show canWrite (Model.content a f) (a.k.file f).off _ from hc)]
      refine .ite (fun _ => ?_) fun hpos => absurd (Int.natCast_pos.mpr hlen) hpos
      refine .seq (setOff_table (hl.setContent _ _) ?_)
      have hw := h.setContent (a.k.inode (a.k.file f).ip).inum
        (overwrite (Model.content a f) (a.k.file f).off (src.take WRITEMAX))
      refine .seq (iunlock_table (hw.ready.seek f _) hw.unlocked ?_)
      refine .ite (fun hneg => absurd hneg (by omega)) fun _ => ?_
      refine .ite (fun hne => absurd rfl hne) fun _ => ?_
      exact ih (src.drop WRITEMAX) (hw.seek f
        (.ofNat ((a.k.file f).off + (src.take WRITEMAX).length)))
        (Model.writeChunk_ip a f (src.take WRITEMAX))
    · rw [State.inum_setLock] at hc
      rw [if_neg (show ¬ canWrite (Model.content a f) (a.k.file f).off _ from hc)]
      refine .ite (fun hpos => absurd hpos (by decide)) fun _ => ?_
      refine .seq (iunlock_table h.ready h.unlocked ?_)
      exact .ite (fun _ => .ret rfl) fun hneg => absurd (by decide) hneg

theorem filewriteInt_table [DecidableEq P] (h : Opened n a f) (m : Int32) (buf : Nat → UInt8) :
    Obeys (onTable n env p) (fun r a' => (r, a') = Model.write a f m buf)
      (filewriteInt f m buf) a := by
  rw [filewriteInt, Model.write]
  refine .ite (fun hm => ?_) fun hm => ?_
  · rw [if_pos (.inr hm)]
    refine .seq (.call (h.ready.allowed (.inl rfl)) ?_)
    rintro (fl : File) a₁ hr
    cases hr
    refine .ite (fun _ => .ret rfl) fun _ => ?_
    refine .ite (fun ht => absurd (h.type.symm.trans ht) nofun) fun _ => ?_
    exact .ite (fun _ => .ret rfl) fun ht => absurd h.type ht
  · refine .seq (.call (h.ready.allowed (.inl rfl)) ?_)
    rintro (fl : File) a₁ hr
    cases hr
    refine .ite (fun hw => ?_) fun hw => ?_
    · rw [if_pos (.inl hw)]
      exact .ret rfl
    rw [if_neg (not_or.mpr ⟨hw, hm⟩)]
    refine .ite (fun ht => absurd (h.type.symm.trans ht) nofun) fun _ => ?_
    refine .ite (fun _ => ?_) fun ht => absurd h.type ht
    refine .bind (filewriteLoop_table _ _ h rfl) ?_
    rintro b a₂ hb
    dsimp only
    rw [← hb]
    cases b with
    | true | false => exact .ret rfl


/-! ## Runs -/

/-- A call of the model leaves the descriptors and the open files as they are. -/
structure Kept (n : Nat) (a a' : State P Table) : Prop where
  ofile : a'.k.ofile = a.k.ofile
  opened : ∀ g, Opened n a g → Opened n a' g

theorem Kept.refl (a : State P Table) : Kept n a a := ⟨rfl, fun _ => id⟩

theorem Kept.seek (a : State P Table) (f : FileId) (off : UInt32) : Kept n a (a.seek f off) :=
  ⟨rfl, fun _ h => h.seek f off⟩

theorem Kept.trans {b c : State P Table} (h : Kept n a b) (h' : Kept n b c) : Kept n a c :=
  ⟨h'.ofile.trans h.ofile, fun g hg => h'.opened g (h.opened g hg)⟩

theorem Model.read_kept (a : State P Table) (f : FileId) (m : Int32) :
    Kept n a (Model.read a f m).2 := by
  rw [Model.read]
  split
  · split
    · rename_i bs _
      by_cases hb : bs = []
      · rw [if_pos hb]
        exact .refl a
      · rw [if_neg hb]
        exact .seek a f _
    · exact .refl a
  · exact .refl a

theorem Model.writeChunks_kept (m : Nat) (src : List UInt8) (a : State P Table) (f : FileId) :
    Kept n a (Model.writeChunks f m src a).2 := by
  induction m generalizing src a with
  | zero => exact .refl a
  | succ m ih =>
    rw [Model.writeChunks]
    split
    · exact .refl a
    · split
      · have hc : Kept n a (Model.writeChunk a f (src.take WRITEMAX)) :=
          ⟨rfl, fun _ h => (h.setContent _ _).seek f _⟩
        exact hc.trans (ih ..)
      · exact .refl a

theorem Model.write_kept (a : State P Table) (f : FileId) (m : Int32) (buf : Nat → UInt8) :
    Kept n a (Model.write a f m buf).2 := by
  rw [Model.write]
  split
  · exact .refl a
  · exact Model.writeChunks_kept ..

/-- The two states are of the same files, and every open file is a regular one. -/
structure Agree (n : Nat) (s : Memory P Vol) (m : Memory P Table) : Prop where
  rel : Rel n s.fs m.fs
  mem : s.mem = m.mem
  opened : ∀ p fd f, m.fs.k.ofile p fd = some f → Opened n m.fs f

variable {s : Memory P Vol} {m : Memory P Table} {fd : Int32}

theorem Agree.step (h : Agree n s m) {t : State P Vol} {a' : State P Table} (hr : Rel n t a')
    (hk : Kept n m.fs a') : Agree n ⟨t, s.mem⟩ ⟨a', m.mem⟩ :=
  ⟨hr, h.mem, fun p fd f hf => hk.opened f (h.opened p fd f (by rwa [hk.ofile] at hf))⟩

theorem Agree.openFile (h : Agree n s m) (hf : openFile s.fs.k p fd = some f) :
    Opened n m.fs f := by
  rw [← h.rel.k] at hf
  obtain ⟨fd', -, hf'⟩ := Option.bind_eq_some_iff.mp hf
  exact h.opened p fd' f hf'

theorem Rel.seek {s : State P Vol} (h : Rel n s a) (f : FileId) (off : UInt32) :
    Rel n (s.seek f off) (a.seek f off) := by
  refine ⟨?_, h.ninodes, h.holds, h.cached⟩
  rw [State.seek, State.seek, h.k]

theorem Agree.size (h : Agree n s m) (hf : Opened n m.fs f) :
    s.fs.d.size (s.fs.k.file f).ip = .ofNat (Model.content m.fs f).length := by
  have hk := h.rel.k
  have ht : Tidy n s.fs.k m.fs.d := hk ▸ hf.ready.tidy
  have hr : 0 < (s.fs.k.inode (s.fs.k.file f).ip).ref := hk ▸ hf.ready.ref
  have hv : (s.fs.k.inode (s.fs.k.file f).ip).valid = true := hk ▸ hf.ready.valid
  obtain ⟨hl, hs, -, -⟩ := h.rel.loaded ht hr hv
  rw [Model.content, Model.inumOf, hk]
  rw [h.rel.holds.node _ hl, hs, Vol.node, length_bytes, UInt32.ofNat_toNat]


/-- When `lseek` may be called: the descriptor is in range, and an origin that is known
stands for position 0 of an open file. -/
def proper (s : Memory P Vol) : Call P → Bool
  | .lseek p fd _ origin =>
    match fdOf fd with
    | none => false
    | some fd =>
      match s.fs.k.ofile p fd with
      | some f =>
        (base (s.fs.k.file f) (s.fs.d.size (s.fs.k.file f).ip) origin).getD 0 = 0
      | none => origin ≠ SEEK_SET ∧ origin ≠ SEEK_CURR ∧ origin ≠ SEEK_END
  | _ => true

/-- `lseek` on an open file stores the position that the origin stands for, moved. -/
theorem lseek_open [DecidableEq P] {fd' : Fd} (hfd : fdOf fd = some fd')
    (hf : s.fs.k.ofile p fd' = some f) (offset origin : Int32) :
    lseek s p fd offset origin =
      match base (s.fs.k.file f) (s.fs.d.size (s.fs.k.file f).ip) origin with
      | some b => some (offset, ⟨s.fs.seek f (b + offset.toUInt32), s.mem⟩)
      | none => some (-1, s) := by
  simp only [lseek, hfd, hf, base]
  by_cases h₀ : origin = SEEK_SET
  · simp only [if_pos h₀, UInt32.zero_add]
  · simp only [if_neg h₀]
    by_cases h₁ : origin = SEEK_CURR
    · simp only [if_pos h₁]
    · simp only [if_neg h₁]
      by_cases h₂ : origin = SEEK_END
      · simp only [if_pos h₂]
      · simp only [if_neg h₂]

/-- **`lseek`**: where it may be called it returns, and it does what the model does. -/
theorem lseek_agree [DecidableEq P] (h : Agree n s m) {offset origin : Int32}
    (hp : proper s (.lseek p fd offset origin)) :
    ∃ s', lseek s p fd offset origin = some ((Model.lseek m p fd offset origin).1, s') ∧
      Agree n s' (Model.lseek m p fd offset origin).2 := by
  have hk := h.rel.k
  cases hfd : fdOf fd with
  | none => simp [proper, hfd] at hp
  | some fd' =>
    simp only [proper, hfd] at hp
    rw [Model.lseek, openFile, hfd, Option.bind_some, hk]
    cases hf : s.fs.k.ofile p fd' with
    | none =>
      simp only [hf, decide_eq_true_eq] at hp
      obtain ⟨h₀, h₁, h₂⟩ := hp
      refine ⟨s, ?_, h⟩
      simp only [lseek, hfd, hf, if_neg h₀, if_neg h₁, if_neg h₂]
    | some f =>
      simp only [hf, decide_eq_true_eq] at hp
      rw [lseek_open hfd hf]
      have hopen := h.opened p fd' f (by rw [hk]; exact hf)
      rw [h.size hopen] at hp ⊢
      cases hb : base (s.fs.k.file f) (.ofNat (Model.content m.fs f).length) origin with
      | none => exact ⟨s, by simp only [hb], by simpa only [hb] using h⟩
      | some b =>
        -- the base is 0, so the argument is the position
        rw [hb, Option.getD_some] at hp
        subst hp
        refine ⟨⟨s.fs.seek f (0 + offset.toUInt32), s.mem⟩, ?_, ?_⟩
        · simp only [hb, UInt32.zero_add]
          rfl
        · simp only [hb]
          exact h.step (h.rel.seek f _) (.seek m.fs f _)

theorem perform_cases [DecidableEq P] {α : Type} {x : FsProg α} {r : α → Answer} {ans : Answer}
    {s' : Memory P Vol} (h : perform env s p x r = some (ans, s')) :
    ∃ b t, run (exec blockStore env p) x s.fs = .ok b t ∧ ans = r b ∧ s' = ⟨t, s.mem⟩ := by
  simp only [perform] at h
  split at h
  · rename_i b t hr
    cases h
    exact ⟨b, t, hr, rfl, rfl⟩
  · cases h

/-- **A call does what the model does.** -/
theorem call_agree [DecidableEq P] (env : Env) (h : Agree n s m) {c : Call P} (hp : proper s c)
    {r : Answer} {s' : Memory P Vol} (hc : call env s c = some (r, s')) :
    (Model.call m c).1 = r ∧ Agree n s' (Model.call m c).2 := by
  have hk := h.rel.k
  cases c with
  | lseek p fd offset origin =>
    obtain ⟨t, ht, hagree⟩ := lseek_agree h hp
    simp only [call, ht, Option.map_some] at hc
    cases hc
    exact ⟨rfl, hagree⟩
  | read p fd l =>
    simp only [call] at hc
    simp only [Model.call, hk]
    cases hf : openFile s.fs.k p fd with
    | none =>
      rw [hf] at hc
      cases hc
      exact ⟨rfl, h⟩
    | some f =>
      rw [hf] at hc
      obtain ⟨b, t, hrun, rfl, rfl⟩ := perform_cases hc
      obtain ⟨a', hq, hrel⟩ := (follows env n).run h.rel (fileread_table (h.openFile hf) l) hrun
      dsimp only
      rw [← hq]
      refine ⟨rfl, h.step hrel ?_⟩
      have hkept := Model.read_kept (n := n) m.fs f l
      rwa [← hq] at hkept
  | write p fd l buf =>
    simp only [call] at hc
    simp only [Model.call, hk]
    cases hf : openFile s.fs.k p fd with
    | none =>
      rw [hf] at hc
      cases hc
      exact ⟨rfl, h⟩
    | some f =>
      rw [hf] at hc
      obtain ⟨b, t, hrun, rfl, rfl⟩ := perform_cases hc
      obtain ⟨a', hq, hrel⟩ :=
        (follows env n).run h.rel (filewriteInt_table (h.openFile hf) l buf) hrun
      dsimp only
      rw [← hq]
      refine ⟨rfl, h.step hrel ?_⟩
      have hkept := Model.write_kept (n := n) m.fs f l buf
      rwa [← hq] at hkept

/-- **File positions follow the model.**  In every run whose calls of `lseek` are proper the
answers are the ones of the model, and so are the positions and the files; and a proper call
of `lseek` returns. -/
theorem positions_follow [DecidableEq P] {env : Env} {s₀ : Memory P Vol} {m₀ : Memory P Table}
    (h : Agree n s₀ m₀) {es : List (Call P × Answer)} {s : Memory P Vol}
    (hrun : Trace.Run (callStep env) s₀ es s)
    (hproper : ∀ pre e post t, es = pre ++ e :: post → Trace.Run (callStep env) s₀ pre t →
      proper t e.1) :
    (∃ m, Trace.Run Model.callStep m₀ es m ∧ Agree n s m) ∧
      ∀ p fd offset origin, proper s (.lseek p fd offset origin) →
        ∃ r s', lseek s p fd offset origin = some (r, s') := by
  have hinv : ∃ m, Trace.Run Model.callStep m₀ es m ∧ Agree n s m := by
    refine hrun.guarded_trace
      (I := fun es s => ∃ m, Trace.Run Model.callStep m₀ es m ∧ Agree n s m)
      (G := fun t e => proper t e.1) ⟨m₀, .nil, h⟩ ?_ hproper
    rintro es s ⟨c, r⟩ s' - ⟨m, hm, hagree⟩ hp hs
    obtain ⟨⟨r', t⟩, hc, ht⟩ := Option.bind_eq_some_iff.mp hs
    dsimp only at hc ht hp
    split at ht
    · rename_i hr
      subst hr
      cases ht
      obtain ⟨hans, hagree'⟩ := call_agree env hagree hp hc
      refine ⟨(Model.call m c).2, .snoc (c, r') hm ?_, hagree'⟩
      rw [Model.callStep, if_pos hans]
    · cases ht
  obtain ⟨m, hm, hagree⟩ := hinv
  refine ⟨⟨m, hm, hagree⟩, fun p fd offset origin hp => ?_⟩
  obtain ⟨s', hs', -⟩ := lseek_agree hagree hp
  exact ⟨_, s', hs'⟩

end

/-! ## A small machine -/

/-- One process, which has inode 1 of the small disk open as descriptor 0. -/
def seekKernel : Kernel Unit where
  inode i := if i = ⟨0, ninode_pos⟩ then ⟨⟨T_FILE, 0, 0, 1⟩, 1, 1, none, true⟩
    else ⟨⟨0, 0, 0, 0⟩, 0, 0, none, false⟩
  file _ := ⟨.inode, 1, true, true, ⟨0, ninode_pos⟩, 0⟩
  cwd _ := none
  ofile _ fd := if fd = ⟨0, nofile_pos⟩ then some ⟨0, by decide⟩ else none

def seekStart : Memory Unit Vol := ⟨⟨seekKernel, smallVol⟩, fun _ _ => 0⟩

def seekModel : Memory Unit Table := ⟨⟨seekKernel, smallVol.node⟩, fun _ _ => 0⟩

theorem seekKernel_ref {i : InodeId} (h : 0 < (seekKernel.inode i).ref) : i = ⟨0, by decide⟩ := by
  by_contra hi
  simp only [seekKernel, if_neg hi] at h
  exact absurd h (by decide)

theorem seek_tidy : Tidy 2 seekKernel smallVol.node where
  uniq i j hi hj _ := (seekKernel_ref hi).trans (seekKernel_ref hj).symm
  range i hi := by
    rw [seekKernel_ref hi]
    exact (show 1 < 2 by decide)
  alive i hi _ := by
    rw [seekKernel_ref hi]
    decide +kernel
  cwd _ _ h := nomatch h

theorem seek_agree : Agree 2 seekStart seekModel where
  rel := ⟨rfl, rfl, smallVol_holds, fun i hi _ => by
    rw [seekKernel_ref hi]
    exact ⟨by decide +kernel, by decide +kernel⟩⟩
  mem := rfl
  opened _ _ f _ := ⟨⟨seek_tidy, show 0 < (seekKernel.inode ⟨0, by decide⟩).ref by decide,
    show (seekKernel.inode ⟨0, by decide⟩).valid = true by decide,
    show (smallVol.node 1).type = T_FILE by decide +kernel⟩, rfl, rfl, show 0 < 2 ^ 32 by decide⟩

/-- No device and no pipe. -/
def bareEnv : Env := ⟨fun _ => none, fun _ => none, fun _ => none, fun _ => -1⟩

/-- Write three bytes, go back to the second, read the rest, and ask with an unknown origin. -/
def seeks : List (Call Unit × Answer) :=
  [(.write () 0 3 fun k => .ofNat (k + 1), .int 3), (.lseek () 0 1 SEEK_SET, .int 1),
    (.read () 0 9, .bytes (some [2, 3])), (.lseek () 5 1 7, .int (-1))]

theorem positions_follow_seeks : ∃ s m, Trace.Run (callStep bareEnv) seekStart seeks s ∧
    Trace.Run Model.callStep seekModel seeks m ∧ Agree 2 s m := by
  obtain ⟨s, hrun⟩ : ∃ s, Trace.Run (callStep bareEnv) seekStart seeks s :=
    Trace.exists_run (by decide +kernel)
  have hchecks : Trace.checks (callStep bareEnv) (fun t e => proper t e.1) seekStart seeks = true := by
    decide +kernel
  obtain ⟨⟨m, hm, hagree⟩, -⟩ := positions_follow seek_agree hrun
    fun _ _ _ _ he ht => Trace.of_checks hchecks he ht
  exact ⟨s, m, hrun, hm, hagree⟩

/-- **Positions do not follow the model.**  On a descriptor that is not open `lseek` returns
its argument and stores it in the memory of the process; and on a file at position 3 it
moves to 8 and returns 5. -/
theorem lseek_unchecked :
    (lseek seekStart () 1 5 SEEK_SET).any (fun r => r.1 = 5 ∧ r.2.mem () NULLOFF = 5) = true ∧
    (Model.lseek seekModel () 1 5 SEEK_SET).1 = -1 ∧
    ((call bareEnv seekStart (.write () 0 3 fun k => .ofNat (k + 1))).bind fun r =>
      lseek r.2 () 0 5 SEEK_CURR).any (fun r => r.1 = 5 ∧ (r.2.fs.k.file ⟨0, by decide⟩).off = 8) =
        true ∧
    (Model.lseek (Model.call seekModel (.write () 0 3 fun k => .ofNat (k + 1))).2 () 0 5
      SEEK_CURR).1 = 8 := by
  refine ⟨by decide +kernel, by decide +kernel, by decide +kernel, by decide +kernel⟩

end Xv6.Fs
