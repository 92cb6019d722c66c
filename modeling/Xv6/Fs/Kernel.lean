/-
# `Xv6.Fs.Kernel` — the inode cache, the open files and the commands on them

The in-memory state of the file system (`icache`, `ftable`, and of each process
its current directory and its open files) and the commands the system calls are
made of.  A command is one section of `fs.c` or `file.c` that runs under one
lock: a spin-lock section on `icache` or `ftable`, one `acquiresleep`, or an
access to an inode its caller has locked.  Between two commands any other
process may run; within one, none.

What the inodes hold is kept apart: the machine is given a `Store`, the
functions of `fs.c` below the inode cache.  `Xv6.Fs.Block` is the store of the
source, on the blocks of the disk, and `Xv6.Fs.Table` a table of inodes.
-/
import Xv6.Fs.Layout
import Xv6.Lib.Prog

namespace Xv6.Fs

open Machine
open Function (update)

/-! ## The in-memory state -/

/-- Maximum number of active i-nodes. -/
def NINODE : Nat := 50
/-- Open files per system. -/
def NFILE : Nat := 100
/-- Open files per process. -/
def NOFILE : Nat := 16
theorem ninode_pos : 0 < NINODE := by decide
theorem nofile_pos : 0 < NOFILE := by decide

/-- Maximum major device number. -/
def NDEV : Int16 := 10

def T_DIR : Int16 := 1
def T_FILE : Int16 := 2
def T_DEV : Int16 := 3

/-- An entry of `icache.inode`. -/
abbrev InodeId : Type := Fin NINODE
/-- An entry of `ftable.file`. -/
abbrev FileId : Type := Fin NFILE
abbrev Fd : Type := Fin NOFILE

/-- The copy of the disk inode that an in-memory inode and the disk inode share. -/
structure Attr where
  type : Int16
  major : Int16
  minor : Int16
  nlink : Int16
  deriving DecidableEq

/-- `struct inode`, without `size` and `addrs`, which belong to the store.  There
is one device, so `dev` is left out. -/
structure Inode (P : Type) extends Attr where
  inum : Nat
  ref : Int
  lock : Option P
  valid : Bool
  deriving DecidableEq

inductive FileType
  | none
  | pipe
  | inode
  deriving DecidableEq

/-- `struct file`; a pipe's own state is not the file system's. -/
structure File where
  type : FileType
  ref : Int
  readable : Bool
  writable : Bool
  ip : InodeId
  off : Nat
  deriving DecidableEq

/-- The tables, and what `struct proc` holds of them. -/
structure Kernel (P : Type) where
  inode : InodeId → Inode P
  file : FileId → File
  cwd : P → Option InodeId
  ofile : P → Fd → Option FileId

inductive Panic
  | igetNoInodes | ilock | ilockNoType | iunlock
  | balloc | bfree | ialloc | bmap
  | dirlookupNotDir | dirlookupRead | dirlinkRead | dirlink
  | isdirempty | unlinkNlink | unlinkWritei | createDots | createDirlink
  | fileclose | fileread | filewrite | shortFilewrite
  deriving DecidableEq

/-! ## Commands -/

/-- The two callers of `acquiresleep` on an inode. -/
inductive Caller
  | ilock
  | iput
  deriving DecidableEq

/-- The commands; `ip` is the inode they are about. -/
inductive Cmd
  /-- `iget(ROOTDEV, inum)`. -/
  | iget (inum : Nat)
  /-- `idup(myproc()->cwd)`; a process that has exited has no `cwd` and makes no call. -/
  | idupCwd
  | acquiresleep (ip : InodeId) (by_ : Caller)
  | releasesleep (ip : InodeId)
  /-- The rest of `ilock`: read the inode from disk if necessary. -/
  | load (ip : InodeId)
  /-- `ip->inum`. -/
  | inum (ip : InodeId)
  /-- `ip->ref`. -/
  | ref (ip : InodeId)
  /-- `holdingsleep(&ip->lock)`. -/
  | holdingsleep (ip : InodeId)
  /-- `ip->valid`. -/
  | valid (ip : InodeId)
  /-- `ip->type` and `ip->nlink`. -/
  | attr (ip : InodeId)
  /-- `ip->size`. -/
  | size (ip : InodeId)
  /-- `ip->ref--`. -/
  | decref (ip : InodeId)
  /-- `ip->nlink = n; iupdate(ip)`. -/
  | setNlink (ip : InodeId) (n : Int16)
  /-- `ip->major = major; ip->minor = minor; ip->nlink = 1; iupdate(ip)`. -/
  | setNode (ip : InodeId) (major minor : Int16)
  /-- `itrunc(ip); ip->type = 0; iupdate(ip); ip->valid = 0`. -/
  | ifree (ip : InodeId)
  /-- `ialloc` up to its call of `iget`. -/
  | ialloc (type : Int16)
  | readi (ip : InodeId) (off n : Nat)
  | writei (ip : InodeId) (off : Nat) (src : List UInt8)
  /-- `curproc->cwd`. -/
  | cwd
  /-- `curproc->cwd = ip`. -/
  | setCwd (ip : Option InodeId)
  | filealloc
  | fdalloc (f : FileId)
  /-- `curproc->ofile[fd]`. -/
  | ofile (fd : Fd)
  /-- `curproc->ofile[fd] = 0`. -/
  | clearFd (fd : Fd)
  /-- The section of `fileclose` on the table: the file, if this was its last reference. -/
  | fileput (f : FileId)
  /-- `*f`. -/
  | file (f : FileId)
  /-- The stores of `sys_open` to `f`. -/
  | setFile (f : FileId) (ip : InodeId) (readable writable : Bool)
  /-- `f->off = off`. -/
  | setOff (f : FileId) (off : Nat)
  | piperead (n : Int32)
  | pipewrite (src : List UInt8)
  | panic (m : Panic)

/-- The answer to each command. -/
def Resp : Cmd → Type
  | .iget _ => InodeId
  | .idupCwd => InodeId
  | .inum _ => Nat
  | .ref _ => Int
  | .holdingsleep _ => Bool
  | .valid _ => Bool
  | .attr _ => Attr
  | .size _ => Nat
  | .ialloc _ => Nat
  | .readi _ _ _ => Option (List UInt8)
  | .writei _ _ _ => Int
  | .cwd => InodeId
  | .filealloc => Option FileId
  | .fdalloc _ => Option Fd
  | .ofile _ => Option FileId
  | .fileput _ => Option File
  | .file _ => File
  | .piperead _ => Option (List UInt8)
  | .pipewrite _ => Int
  | .panic _ => Empty
  | _ => Unit

/-! ## Stores -/

/-- What `fs.c` does below the inode cache: the inode `x` is cached in the entry
`i`, whose attributes `a` are the ones in memory. -/
structure Store (δ : Type) where
  /-- The copy of the disk inode in `ilock`. -/
  load : InodeId → Nat → δ → Attr × δ
  size : InodeId → Nat → δ → Nat
  iupdate : InodeId → Nat → Attr → δ → δ
  itrunc : InodeId → Nat → Attr → δ → Except Panic δ
  /-- `ialloc` up to its call of `iget`. -/
  ialloc : Int16 → δ → Except Panic (Nat × δ)
  readi : InodeId → Nat → Nat → Nat → δ → Except Panic (Option (List UInt8) × δ)
  writei : InodeId → Nat → Attr → Nat → List UInt8 → δ → Except Panic (Int × δ)

/-- What the kernel outside the file system answers: the read and write functions
of `devsw`, for a major number that has them, `piperead` and `pipewrite`. -/
structure Env where
  read : Int16 → Option (Nat → Option (List UInt8))
  write : Int16 → Option (List UInt8 → Int)
  piperead : Int32 → Option (List UInt8)
  pipewrite : List UInt8 → Int

/-- `devsw[ip->major].read`, `-1` where there is none. -/
def Env.devRead (env : Env) (major : Int16) (n : Nat) : Option (List UInt8) :=
  if major < 0 ∨ NDEV ≤ major then none else (env.read major).bind fun f => f n

/-- `devsw[ip->major].write`, `-1` where there is none. -/
def Env.devWrite (env : Env) (major : Int16) (src : List UInt8) : Int :=
  if major < 0 ∨ NDEV ≤ major then -1
  else match env.write major with
    | none => -1
    | some f => f src

/-! ## The machine -/

variable {P δ : Type}

/-- The state of the machine: the tables and the store's own state. -/
structure State (P δ : Type) where
  k : Kernel P
  d : δ

namespace Kernel

def modify (k : Kernel P) (i : InodeId) (f : Inode P → Inode P) : Kernel P :=
  { k with inode := update k.inode i (f (k.inode i)) }

def modifyFile (k : Kernel P) (f : FileId) (g : File → File) : Kernel P :=
  { k with file := update k.file f (g (k.file f)) }

/-- The loop of `iget` over the cache: the entry that holds `inum`. -/
def cached (k : Kernel P) (inum : Nat) : Option InodeId :=
  (List.finRange NINODE).find? fun i => decide (0 < (k.inode i).ref ∧ (k.inode i).inum = inum)

/-- The `empty` that `iget` remembers: the first free entry. -/
def empty (k : Kernel P) : Option InodeId :=
  (List.finRange NINODE).find? fun i => decide ((k.inode i).ref = 0)

/-- The loop of `filealloc`. -/
def freeFile (k : Kernel P) : Option FileId :=
  (List.finRange NFILE).find? fun f => decide ((k.file f).ref = 0)

/-- The loop of `fdalloc`. -/
def freeFd (k : Kernel P) (p : P) : Option Fd :=
  (List.finRange NOFILE).find? fun fd => decide (k.ofile p fd = none)

end Kernel

/-- Answer with a change of one entry of `icache`. -/
def State.answer {ρ : Type} (s : State P δ) (r : ρ) (i : InodeId) (f : Inode P → Inode P) :
    Out Panic ρ (State P δ) :=
  .ok r { s with k := s.k.modify i f }

/-- **The machine**: what each command does when process `p` issues it. -/
def exec [DecidableEq P] (S : Store δ) (env : Env) (p : P) :
    (c : Cmd) → State P δ → Out Panic (Resp c) (State P δ)
  | .iget x, s =>
    match s.k.cached x with
    | some i => s.answer i i fun ip => { ip with ref := ip.ref + 1 }
    | none =>
      match s.k.empty with
      | some i => s.answer i i fun ip => { ip with inum := x, ref := 1, valid := false }
      | none => .halt .igetNoInodes
  | .idupCwd, s =>
    match s.k.cwd p with
    | some i => s.answer i i fun ip => { ip with ref := ip.ref + 1 }
    | none => .wait
  | .acquiresleep i _, s =>
    match (s.k.inode i).lock with
    | none => s.answer () i fun ip => { ip with lock := some p }
    | some _ => .wait
  | .releasesleep i, s => s.answer () i fun ip => { ip with lock := none }
  | .load i, s =>
    let ip := s.k.inode i
    if ip.valid then .ok () s
    else
      let r := S.load i ip.inum s.d
      if r.1.type = 0 then .halt .ilockNoType
      else .ok () ⟨s.k.modify i fun ip => { ip with toAttr := r.1, valid := true }, r.2⟩
  | .inum i, s => .ok (s.k.inode i).inum s
  | .ref i, s => .ok (s.k.inode i).ref s
  | .holdingsleep i, s => .ok (s.k.inode i).lock.isSome s
  | .valid i, s => .ok (s.k.inode i).valid s
  | .attr i, s => .ok (s.k.inode i).toAttr s
  | .size i, s => .ok (S.size i (s.k.inode i).inum s.d) s
  | .decref i, s => s.answer () i fun ip => { ip with ref := ip.ref - 1 }
  | .setNlink i n, s =>
    let ip := s.k.inode i
    let a := { ip.toAttr with nlink := n }
    .ok () ⟨s.k.modify i fun ip => { ip with toAttr := a }, S.iupdate i ip.inum a s.d⟩
  | .setNode i major minor, s =>
    let ip := s.k.inode i
    let a := { ip.toAttr with major := major, minor := minor, nlink := 1 }
    .ok () ⟨s.k.modify i fun ip => { ip with toAttr := a }, S.iupdate i ip.inum a s.d⟩
  | .ifree i, s =>
    let ip := s.k.inode i
    match S.itrunc i ip.inum ip.toAttr s.d with
    | .ok d =>
      let a := { ip.toAttr with type := 0 }
      .ok () ⟨s.k.modify i fun ip => { ip with toAttr := a, valid := false },
        S.iupdate i ip.inum a d⟩
    | .error e => .halt e
  | .ialloc t, s =>
    match S.ialloc t s.d with
    | .ok (x, d) => .ok x { s with d := d }
    | .error e => .halt e
  | .readi i off n, s =>
    let ip := s.k.inode i
    if ip.type = T_DEV then .ok (env.devRead ip.major n) s
    else match S.readi i ip.inum off n s.d with
      | .ok (r, d) => .ok r { s with d := d }
      | .error e => .halt e
  | .writei i off src, s =>
    let ip := s.k.inode i
    if ip.type = T_DEV then .ok (env.devWrite ip.major src) s
    else match S.writei i ip.inum ip.toAttr off src s.d with
      | .ok (r, d) => .ok r { s with d := d }
      | .error e => .halt e
  | .cwd, s =>
    match s.k.cwd p with
    | some i => .ok i s
    | none => .wait
  | .setCwd i, s => .ok () { s with k := { s.k with cwd := update s.k.cwd p i } }
  | .filealloc, s =>
    match s.k.freeFile with
    | some f => .ok (some f) { s with k := s.k.modifyFile f fun fl => { fl with ref := 1 } }
    | none => .ok none s
  | .fdalloc f, s =>
    match s.k.freeFd p with
    | some fd =>
      .ok (some fd) { s with k := { s.k with
        ofile := update s.k.ofile p (update (s.k.ofile p) fd (some f)) } }
    | none => .ok none s
  | .ofile fd, s => .ok (s.k.ofile p fd) s
  | .clearFd fd, s =>
    .ok () { s with k := { s.k with
      ofile := update s.k.ofile p (update (s.k.ofile p) fd none) } }
  | .fileput f, s =>
    let fl := s.k.file f
    if fl.ref < 1 then .halt .fileclose
    else if 0 < fl.ref - 1 then
      .ok none { s with k := s.k.modifyFile f fun fl => { fl with ref := fl.ref - 1 } }
    else .ok (some fl) { s with k := s.k.modifyFile f fun fl =>
      { fl with ref := 0, type := .none } }
  | .file f, s => .ok (s.k.file f) s
  | .setFile f i r w, s =>
    .ok () { s with k := s.k.modifyFile f fun fl =>
      { fl with type := .inode, ip := i, off := 0, readable := r, writable := w } }
  | .setOff f off, s =>
    .ok () { s with k := s.k.modifyFile f fun fl => { fl with off := off } }
  | .piperead n, s => .ok (env.piperead n) s
  | .pipewrite src, s => .ok (env.pipewrite src) s
  | .panic m, _ => .halt m

end Xv6.Fs
