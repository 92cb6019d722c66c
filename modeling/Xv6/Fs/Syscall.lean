/-
# `Xv6.Fs.Syscall` — directories, paths and the system calls

`fs.c` above the inode cache, `sysfile.c` and the parts of `file.c` and
`proc.c` that use it, as programs over the commands of `Xv6.Fs.Kernel`.  Each
definition has the name and the order of the source.  `begin_op` and `end_op`
have no counterpart here: they touch no inode.  The arguments are the ones
`argstr` and `argint` have fetched.

Names and paths are the bytes before the terminating NUL.
-/
import Xv6.Fs.Kernel

namespace Xv6.Fs

open Machine Bytes

abbrev FsProg : Type → Type := Prog Cmd Resp

/-- `panic(m)` does not return. -/
def panic {α : Type} (m : Panic) : FsProg α := .op (.panic m) Empty.elim

def cmd (c : Cmd) : FsProg (Resp c) := Prog.call c

/-! ## Inodes -/

def ilock (ip : InodeId) : FsProg Unit := do
  let r : Int ← cmd (.ref ip)
  if r < 1 then panic .ilock
  cmd (.acquiresleep ip .ilock)
  cmd (.load ip)

def iunlock (ip : InodeId) : FsProg Unit := do
  let h : Bool ← cmd (.holdingsleep ip)
  let r : Int ← cmd (.ref ip)
  if !h ∨ r < 1 then panic .iunlock
  cmd (.releasesleep ip)

def iput (ip : InodeId) : FsProg Unit := do
  cmd (.acquiresleep ip .iput)
  let v : Bool ← cmd (.valid ip)
  if v then
    let a : Attr ← cmd (.attr ip)
    if a.nlink = 0 then
      let r : Int ← cmd (.ref ip)
      if r = 1 then
        -- inode has no links and no other references: truncate and free.
        cmd (.ifree ip)
  cmd (.releasesleep ip)
  cmd (.decref ip)

def iunlockput (ip : InodeId) : FsProg Unit := do
  iunlock ip
  iput ip

/-- Allocate an inode; returns it unlocked but allocated and referenced. -/
def ialloc (type : Int16) : FsProg InodeId := do
  let inum : Nat ← cmd (.ialloc type)
  cmd (.iget inum)

/-! ## Directories -/

/-- Bytes of a name in a directory entry. -/
def DIRSIZ : Nat := 14

/-- A name: the bytes before the NUL, at most `DIRSIZ` of them. -/
abbrev Name : Type := List UInt8

def dot : Name := [46]
def dotdot : Name := [46, 46]

/-- `struct dirent`, with the `DIRSIZ` bytes of its name. -/
structure Dirent where
  inum : Nat
  name : List UInt8
  deriving DecidableEq

def DESIZE : Nat := 16

/-- The entry stored in `DESIZE` bytes. -/
def Dirent.ofBytes (bs : List UInt8) : Dirent := ⟨ofLe (bs.take 2), bs.drop 2⟩

/-- The bytes of an entry; `inum` is stored in a `ushort`. -/
def Dirent.bytes (de : Dirent) : List UInt8 := leBytes 2 de.inum ++ de.name

/-- `strncpy(de.name, name, DIRSIZ)`: padded with NULs. -/
def strncpy (name : Name) : List UInt8 :=
  (name ++ List.replicate DIRSIZ 0).take DIRSIZ

/-- `strncmp(s, t, DIRSIZ) == 0`: equal up to the NUL or the end. -/
def namecmp (s t : List UInt8) : Bool :=
  (s.takeWhile (· ≠ 0)).take DIRSIZ == (t.takeWhile (· ≠ 0)).take DIRSIZ

/-- The offsets of `for(off = 0; off < size; off += sizeof(de))`. -/
def offsets (size : Nat) : List Nat :=
  (List.range ((size + 15) / DESIZE)).map (DESIZE * ·)

/-- `readi` of one entry, or the panic of a short read. -/
def readDirent (dp : InodeId) (off : Nat) (m : Panic) : FsProg Dirent := do
  match (← cmd (.readi dp off DESIZE) : Option (List UInt8)) with
  | some bs => if bs.length = DESIZE then return Dirent.ofBytes bs else panic m
  | none => panic m

/-- The loop of `dirlookup`: the entry's inode and its offset. -/
def dirlookupAt (dp : InodeId) (name : Name) : List Nat → FsProg (Option (InodeId × Nat))
  | [] => return none
  | off :: offs => do
    let de ← readDirent dp off .dirlookupRead
    if de.inum = 0 then dirlookupAt dp name offs
    else if namecmp name de.name then
      -- entry matches path element
      let ip : InodeId ← cmd (.iget de.inum)
      return some (ip, off)
    else dirlookupAt dp name offs

def dirlookup (dp : InodeId) (name : Name) : FsProg (Option (InodeId × Nat)) := do
  if (← cmd (.attr dp) : Attr).type ≠ T_DIR then panic .dirlookupNotDir
  let size : Nat ← cmd (.size dp)
  dirlookupAt dp name (offsets size)

/-- The second loop of `dirlink`: an empty entry, or the end. -/
def emptyDirent (dp : InodeId) (size : Nat) : List Nat → FsProg Nat
  | [] => return DESIZE * ((size + 15) / DESIZE)
  | off :: offs => do
    let de ← readDirent dp off .dirlinkRead
    if de.inum = 0 then return off else emptyDirent dp size offs

def dirlink (dp : InodeId) (name : Name) (inum : Nat) : FsProg Int := do
  -- Check that name is not present.
  match (← dirlookup dp name) with
  | some (ip, _) =>
    iput ip
    return -1
  | none =>
    let size : Nat ← cmd (.size dp)
    let off ← emptyDirent dp size (offsets size)
    let r : Int ← cmd (.writei dp off (Dirent.bytes ⟨inum, strncpy name⟩))
    if r ≠ DESIZE then panic .dirlink
    return 0

/-! ## Paths -/

def slash : UInt8 := 47

/-- The next path element, cut to `DIRSIZ`, and the path that follows it. -/
def skipelem (path : List UInt8) : Option (Name × List UInt8) :=
  let s := path.dropWhile (· = slash)
  if s = [] then none
  else some ((s.takeWhile (· ≠ slash)).take DIRSIZ, (s.dropWhile (· ≠ slash)).dropWhile (· = slash))

/-- The elements `skipelem` finds, one after the other, in at most `n` calls. -/
def elemsUpTo : Nat → List UInt8 → List Name
  | 0, _ => []
  | n + 1, path =>
    match skipelem path with
    | none => []
    | some (name, rest) => name :: elemsUpTo n rest

def elems (path : List UInt8) : List Name := elemsUpTo path.length path

/-- The loop of `namex` over the elements of the path: the inode, and the last
`name` that was set. -/
def namexLoop (parent : Bool) : List Name → Name → InodeId → FsProg (Option (InodeId × Name))
  | [], last, ip => do
    if parent then
      iput ip
      return none
    return some (ip, last)
  | name :: rest, _, ip => do
    ilock ip
    if (← cmd (.attr ip) : Attr).type ≠ T_DIR then
      iunlockput ip
      return none
    if parent ∧ rest = [] then
      -- Stop one level early.
      iunlock ip
      return some (ip, name)
    match (← dirlookup ip name) with
    | none =>
      iunlockput ip
      return none
    | some (next, _) =>
      iunlockput ip
      namexLoop parent rest name next

def namex (path : List UInt8) (parent : Bool) : FsProg (Option (InodeId × Name)) := do
  let ip : InodeId ← if path.head? = some slash then cmd (.iget ROOTINO) else cmd .idupCwd
  namexLoop parent (elems path) [] ip

def namei (path : List UInt8) : FsProg (Option InodeId) := do
  return (← namex path false).map Prod.fst

def nameiparent (path : List UInt8) : FsProg (Option (InodeId × Name)) := namex path true

/-! ## System calls -/

/-- The label `bad` of `sys_link`. -/
def linkBad (ip : InodeId) : FsProg Int := do
  ilock ip
  let a : Attr ← cmd (.attr ip)
  cmd (.setNlink ip (a.nlink - 1))
  iunlockput ip
  return -1

def sysLink (old new : List UInt8) : FsProg Int := do
  match (← namei old) with
  | none => return -1
  | some ip =>
    ilock ip
    let a : Attr ← cmd (.attr ip)
    if a.type = T_DIR then
      iunlockput ip
      return -1
    cmd (.setNlink ip (a.nlink + 1))
    iunlock ip
    match (← nameiparent new) with
    | none => linkBad ip
    | some (dp, name) =>
      ilock dp
      let inum : Nat ← cmd (.inum ip)
      if (← dirlink dp name inum) < 0 then
        iunlockput dp
        linkBad ip
      else
        iunlockput dp
        iput ip
        return 0

/-- The loop of `isdirempty`. -/
def isdiremptyAt (dp : InodeId) : List Nat → FsProg Bool
  | [] => return true
  | off :: offs => do
    let de ← readDirent dp off .isdirempty
    if de.inum ≠ 0 then return false else isdiremptyAt dp offs

def isdirempty (dp : InodeId) : FsProg Bool := do
  let size : Nat ← cmd (.size dp)
  isdiremptyAt dp ((offsets size).drop 2)

/-- `sys_unlink` once `dp` and `ip` are locked and the call will succeed. -/
def unlinkEntry (dp ip : InodeId) (off : Nat) (type : Int16) : FsProg Int := do
  let r : Int ← cmd (.writei dp off (List.replicate DESIZE 0))
  if r ≠ DESIZE then panic .unlinkWritei
  if type = T_DIR then
    let d : Attr ← cmd (.attr dp)
    cmd (.setNlink dp (d.nlink - 1))
  iunlockput dp
  let a : Attr ← cmd (.attr ip)
  cmd (.setNlink ip (a.nlink - 1))
  iunlockput ip
  return 0

/-- The label `bad` of `sys_unlink`. -/
def unlinkBad (dp : InodeId) : FsProg Int := do
  iunlockput dp
  return -1

def sysUnlink (path : List UInt8) : FsProg Int := do
  match (← nameiparent path) with
  | none => return -1
  | some (dp, name) =>
    ilock dp
    -- Cannot unlink "." or "..".
    if namecmp name dot || namecmp name dotdot then unlinkBad dp
    else match (← dirlookup dp name) with
      | none => unlinkBad dp
      | some (ip, off) =>
        ilock ip
        let a : Attr ← cmd (.attr ip)
        if a.nlink < 1 then panic .unlinkNlink
        if a.type = T_DIR then
          if (← isdirempty ip) then unlinkEntry dp ip off a.type
          else
            iunlockput ip
            unlinkBad dp
        else unlinkEntry dp ip off a.type

/-- `create` once the name is known to be new. -/
def createNew (dp : InodeId) (name : Name) (type major minor : Int16) : FsProg InodeId := do
  let ip ← ialloc type
  ilock ip
  cmd (.setNode ip major minor)
  let inum : Nat ← cmd (.inum ip)
  if type = T_DIR then
    -- Create . and .. entries.
    let d : Attr ← cmd (.attr dp)
    cmd (.setNlink dp (d.nlink + 1))  -- for ".."
    -- No ip->nlink++ for ".": avoid cyclic ref count.
    if (← dirlink ip dot inum) < 0 then panic .createDots
    let dinum : Nat ← cmd (.inum dp)
    if (← dirlink ip dotdot dinum) < 0 then panic .createDots
  if (← dirlink dp name inum) < 0 then panic .createDirlink
  iunlockput dp
  return ip

/-- Returns the inode locked. -/
def create (path : List UInt8) (type major minor : Int16) : FsProg (Option InodeId) := do
  match (← nameiparent path) with
  | none => return none
  | some (dp, name) =>
    ilock dp
    match (← dirlookup dp name) with
    | some (ip, _) =>
      iunlockput dp
      ilock ip
      if type = T_FILE ∧ (← cmd (.attr ip) : Attr).type = T_FILE then return some ip
      iunlockput ip
      return none
    | none => return some (← createNew dp name type major minor)

def fileclose (f : FileId) : FsProg Unit := do
  match (← cmd (.fileput f) : Option File) with
  | none => return ()
  | some ff => if ff.type = .inode then iput ff.ip

def O_RDONLY : UInt32 := 0x000
def O_WRONLY : UInt32 := 0x001
def O_RDWR : UInt32 := 0x002
def O_CREATE : UInt32 := 0x200

/-- The part of `sys_open` that finds the inode, and returns it locked. -/
def openInode (path : List UInt8) (omode : UInt32) : FsProg (Option InodeId) := do
  if omode &&& O_CREATE ≠ 0 then create path T_FILE 0 0
  else
    match (← namei path) with
    | none => return none
    | some ip =>
      ilock ip
      if (← cmd (.attr ip) : Attr).type = T_DIR ∧ omode ≠ O_RDONLY then
        iunlockput ip
        return none
      return some ip

def sysOpen (path : List UInt8) (omode : UInt32) : FsProg Int := do
  match (← openInode path omode) with
  | none => return -1
  | some ip =>
    match (← cmd .filealloc : Option FileId) with
    | none =>
      iunlockput ip
      return -1
    | some f =>
      match (← cmd (.fdalloc f) : Option Fd) with
      | none =>
        fileclose f
        iunlockput ip
        return -1
      | some fd =>
        iunlock ip
        cmd (.setFile f ip (omode &&& O_WRONLY = 0)
          (omode &&& O_WRONLY ≠ 0 ∨ omode &&& O_RDWR ≠ 0))
        return fd.val

def sysMkdir (path : List UInt8) : FsProg Int := do
  match (← create path T_DIR 0 0) with
  | none => return -1
  | some ip =>
    iunlockput ip
    return 0

def sysMknod (path : List UInt8) (major minor : Int16) : FsProg Int := do
  match (← create path T_DEV major minor) with
  | none => return -1
  | some ip =>
    iunlockput ip
    return 0

def sysChdir (path : List UInt8) : FsProg Int := do
  match (← namei path) with
  | none => return -1
  | some ip =>
    ilock ip
    if (← cmd (.attr ip) : Attr).type ≠ T_DIR then
      iunlockput ip
      return -1
    iunlock ip
    let cwd : InodeId ← cmd .cwd
    iput cwd
    cmd (.setCwd (some ip))
    return 0

def sysClose (fd : Fd) : FsProg Int := do
  match (← cmd (.ofile fd) : Option FileId) with
  | none => return -1
  | some f =>
    cmd (.clearFd fd)
    fileclose f
    return 0

def fileread (f : FileId) (n : Int32) : FsProg (Option (List UInt8)) := do
  let fl : File ← cmd (.file f)
  if !fl.readable then return none
  if fl.type = .pipe then cmd (.piperead n)
  else if fl.type = .inode then
    ilock fl.ip
    let fl : File ← cmd (.file f)
    let r : Option (List UInt8) ← cmd (.readi fl.ip fl.off n.toUInt32.toNat)
    let m := (r.getD []).length
    if 0 < m then cmd (.setOff f ((fl.off + m) % 2 ^ 32))
    iunlock fl.ip
    return r
  else panic .fileread

/-- `max` of `filewrite`. -/
def WRITEMAX : Nat := ((MAXOPBLOCKS - 1 - 1 - 2) / 2) * 512

/-- The loop of `filewrite` on the bytes still to write, in at most `n` rounds:
whether all were written. -/
def filewriteLoop (f : FileId) (ip : InodeId) : Nat → List UInt8 → FsProg Bool
  | 0, src => return src = []
  | n + 1, src =>
    if src = [] then return true
    else do
      let src₁ := src.take WRITEMAX
      ilock ip
      let fl : File ← cmd (.file f)
      let r : Int ← cmd (.writei ip fl.off src₁)
      if 0 < r then cmd (.setOff f ((fl.off + r.toNat) % 2 ^ 32))
      iunlock ip
      if r < 0 then return false
      if r ≠ src₁.length then panic .shortFilewrite
      filewriteLoop f ip n (src.drop WRITEMAX)

def filewrite (f : FileId) (src : List UInt8) : FsProg Int := do
  let fl : File ← cmd (.file f)
  if !fl.writable then return -1
  if fl.type = .pipe then cmd (.pipewrite src)
  else if fl.type = .inode then
    if (← filewriteLoop f fl.ip src.length src) then return src.length else return -1
  else panic .filewrite

def sysWrite (fd : Fd) (src : List UInt8) : FsProg Int := do
  match (← cmd (.ofile fd) : Option FileId) with
  | none => return -1
  | some f => filewrite f src

/-- The loop of `exit` over the open files. -/
def exitFiles : List Fd → FsProg Unit
  | [] => return ()
  | fd :: fds => do
    match (← cmd (.ofile fd) : Option FileId) with
    | none => exitFiles fds
    | some f =>
      fileclose f
      cmd (.clearFd fd)
      exitFiles fds

/-- What `exit` does to the file system. -/
def exit : FsProg Unit := do
  exitFiles (List.finRange NOFILE)
  let cwd : InodeId ← cmd .cwd
  iput cwd
  cmd (.setCwd none)

end Xv6.Fs
