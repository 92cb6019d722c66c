/-
# `Xv6.File.Table` — open files, descriptors and pipe pages

`ftable` of `file.c`, the descriptors of each process, and the pages that hold
pipes, with the calls that move references to files: `sys_open`, `sys_dup`,
`sys_close`, `sys_pipe`, `fork` and `exit`.  The inode a file refers to plays no
part here, so `sys_open` is told whether the path was found.  Other kernel code
takes pages from the free list and gives them back (`grab`, `give`).
-/
import Xv6.Fs.Kernel

namespace Xv6.Files

open Fs (FileType FileId Fd NFILE NOFILE)
open Function (update)

/-- The address of a page. -/
abbrev Page : Type := Nat

/-- `struct file`, without the inode and the offset. -/
structure File where
  type : FileType
  ref : Int
  readable : Bool
  writable : Bool
  pipe : Page
  deriving DecidableEq

/-- `readopen` and `writeopen` of a `struct pipe`. -/
structure Ends where
  readopen : Bool
  writeopen : Bool
  deriving DecidableEq

/-- The states of a process that matter here. -/
inductive ProcState
  | unused
  | embryo
  | live
  | zombie
  deriving DecidableEq

inductive Panic
  | filedup
  | fileclose
  deriving DecidableEq

/-- The tables.  `pipes` are the pages `pipealloc` has taken and `pipeclose` has not
freed, `used` the pages others have. -/
structure State (P : Type) where
  file : FileId → File
  ofile : P × Fd → Option FileId
  proc : P → ProcState
  ends : Page → Ends
  free : List Page
  used : List Page
  pipes : List Page

variable {P : Type}

def State.modify (s : State P) (f : FileId) (g : File → File) : State P :=
  { s with file := update s.file f (g (s.file f)) }

/-! ## `file.c` and `pipe.c` -/

def filealloc (s : State P) : Option (FileId × State P) :=
  ((List.finRange NFILE).find? fun f => decide ((s.file f).ref = 0)).map fun f =>
    (f, s.modify f fun fl => { fl with ref := 1 })

def filedup (s : State P) (f : FileId) : Except Panic (State P) :=
  if (s.file f).ref < 1 then .error .filedup
  else .ok (s.modify f fun fl => { fl with ref := fl.ref + 1 })

/-- `pipeclose`; the page goes back to the free list when both ends are closed. -/
def pipeclose (s : State P) (p : Page) (writable : Bool) : State P :=
  let e := if writable then { s.ends p with writeopen := false }
    else { s.ends p with readopen := false }
  let s₁ := { s with ends := update s.ends p e }
  if e.readopen = false ∧ e.writeopen = false then
    { s₁ with free := p :: s₁.free, pipes := s₁.pipes.erase p }
  else s₁

def fileclose (s : State P) (f : FileId) : Except Panic (State P) :=
  let fl := s.file f
  if fl.ref < 1 then .error .fileclose
  else if 0 < fl.ref - 1 then .ok (s.modify f fun fl => { fl with ref := fl.ref - 1 })
  else
    let s₁ := s.modify f fun fl => { fl with ref := 0, type := .none }
    -- an inode is put, which changes none of these tables
    .ok (if fl.type = .pipe then pipeclose s₁ fl.pipe fl.writable else s₁)

/-- The stores of `pipealloc` once it has two files and the page `p`. -/
def setPipe (s : State P) (f₀ f₁ : FileId) (p : Page) (free : List Page) : State P :=
  { ((s.modify f₀ fun fl =>
        { fl with type := .pipe, readable := true, writable := false, pipe := p }).modify f₁
      fun fl => { fl with type := .pipe, readable := false, writable := true, pipe := p }) with
    ends := update s.ends p ⟨true, true⟩
    free := free
    pipes := p :: s.pipes }

/-- The two files, or nothing. -/
def pipealloc (s : State P) : Except Panic (Option (FileId × FileId) × State P) :=
  match filealloc s with
  | none => .ok (none, s)
  | some (f₀, s) =>
    match filealloc s with
    | none => do
      let s ← fileclose s f₀
      return (none, s)
    | some (f₁, s) =>
      match s.free with
      | [] => do
        let s ← fileclose s f₀
        let s ← fileclose s f₁
        return (none, s)
      | p :: free => .ok (some (f₀, f₁), setPipe s f₀ f₁ p free)

/-! ## System calls -/

section Calls

variable [DecidableEq P]

def State.setFd (s : State P) (p : P) (fd : Fd) (f : Option FileId) : State P :=
  { s with ofile := update s.ofile (p, fd) f }

def fdalloc (s : State P) (p : P) (f : FileId) : Option (Fd × State P) :=
  ((List.finRange NOFILE).find? fun fd => decide (s.ofile (p, fd) = none)).map fun fd =>
    (fd, s.setFd p fd (some f))

/-- `sys_open`, once the inode was found or not. -/
def sysOpen (s : State P) (p : P) (found readable writable : Bool) : Except Panic (State P) :=
  if found then
    match filealloc s with
    | none => .ok s
    | some (f, s) =>
      match fdalloc s p f with
      | none => fileclose s f
      | some (_, s) => .ok (s.modify f fun fl =>
        { fl with type := .inode, readable := readable, writable := writable })
  else .ok s

def sysDup (s : State P) (p : P) (fd : Fd) : Except Panic (State P) :=
  match s.ofile (p, fd) with
  | none => .ok s
  | some f =>
    match fdalloc s p f with
    | none => .ok s
    | some (_, s) => filedup s f

def sysClose (s : State P) (p : P) (fd : Fd) : Except Panic (State P) :=
  match s.ofile (p, fd) with
  | none => .ok s
  | some f => fileclose (s.setFd p fd none) f

def sysPipe (s : State P) (p : P) : Except Panic (State P) := do
  match (← pipealloc s) with
  | (none, s) => return s
  | (some (rf, wf), s) =>
    match fdalloc s p rf with
    | none =>
      let s ← fileclose s rf
      fileclose s wf
    | some (fd₀, s) =>
      match fdalloc s p wf with
      | none =>
        let s ← fileclose (s.setFd p fd₀ none) rf
        fileclose s wf
      | some (_, s) => return s

/-- The loop of `fork` over the descriptors. -/
def dupFiles (p q : P) : List Fd → State P → Except Panic (State P)
  | [], s => .ok s
  | fd :: fds, s =>
    match s.ofile (p, fd) with
    | none => dupFiles p q fds s
    | some f => do
      let s ← filedup s f
      dupFiles p q fds (s.setFd q fd (some f))

/-- `fork` by `p`, with the process `allocproc` has found, if the copy of the memory
has not failed either. -/
def fork (s : State P) (p : P) (child : Option P) : Except Panic (State P) :=
  match child with
  | none => .ok s
  | some q => do
    let s ← dupFiles p q (List.finRange NOFILE)
      { s with proc := update s.proc q .embryo }
    return { s with proc := update s.proc q .live }

/-- The loop of `exit` over the descriptors. -/
def closeFiles (p : P) : List Fd → State P → Except Panic (State P)
  | [], s => .ok s
  | fd :: fds, s =>
    match s.ofile (p, fd) with
    | none => closeFiles p fds s
    | some f => do
      let s ← fileclose s f
      closeFiles p fds (s.setFd p fd none)

def exit (s : State P) (p : P) : Except Panic (State P) := do
  let s ← closeFiles p (List.finRange NOFILE) s
  return { s with proc := update s.proc p .zombie }

/-! ## Runs -/

inductive Event (P : Type)
  | open (p : P) (found readable writable : Bool)
  | dup (p : P) (fd : Fd)
  | close (p : P) (fd : Fd)
  | pipe (p : P)
  | fork (p : P) (child : Option P)
  | exit (p : P)
  /-- `wait` makes the zombie an unused process. -/
  | reap (p : P)
  /-- Other kernel code calls `kalloc`. -/
  | grab
  /-- Other kernel code calls `kfree`. -/
  | give (p : Page)

/-- Which calls can be made: processes that run make calls, `allocproc` finds an
unused process, and what is freed has been allocated. -/
def Event.Legal (s : State P) : Event P → Prop
  | .open p _ _ _ | .dup p _ | .close p _ | .pipe p | .exit p | .fork p none => s.proc p = .live
  | .fork p (some q) => s.proc p = .live ∧ s.proc q = .unused
  | .reap p => s.proc p = .zombie
  | .grab => True
  | .give p => p ∈ s.used

instance (s : State P) : (e : Event P) → Decidable (e.Legal s)
  | .open p _ _ _ | .dup p _ | .close p _ | .pipe p | .exit p | .fork p none =>
    inferInstanceAs (Decidable (s.proc p = .live))
  | .fork p (some q) => inferInstanceAs (Decidable (s.proc p = .live ∧ s.proc q = .unused))
  | .reap p => inferInstanceAs (Decidable (s.proc p = .zombie))
  | .grab => inferInstanceAs (Decidable True)
  | .give p => inferInstanceAs (Decidable (p ∈ s.used))

def State.call (s : State P) : Event P → Except Panic (State P)
  | .open p found r w => sysOpen s p found r w
  | .dup p fd => sysDup s p fd
  | .close p fd => sysClose s p fd
  | .pipe p => sysPipe s p
  | .fork p child => Files.fork s p child
  | .exit p => Files.exit s p
  | .reap p => .ok { s with proc := update s.proc p .unused }
  | .grab =>
    match s.free with
    | [] => .ok s
    | p :: free => .ok { s with free := free, used := p :: s.used }
  | .give p => .ok { s with free := p :: s.free, used := s.used.erase p }

def State.step (s : State P) (e : Event P) : Option (State P) :=
  if e.Legal s then (s.call e).toOption else none

/-- No file is open; the pages of the pool are free, and `init` runs. -/
def State.init (initproc : P) (pool : List Page) : State P where
  file _ := ⟨.none, 0, false, false, 0⟩
  ofile _ := none
  proc := update (fun _ => .unused) initproc .live
  ends _ := ⟨false, false⟩
  free := pool
  used := []
  pipes := []

abbrev Runs (initproc : P) (pool : List Page) : List (Event P) → State P → Prop :=
  Trace.Run State.step (State.init initproc pool)

end Calls

end Xv6.Files
