/-
# `Xv6.Vm.Program` — `exec` of a file

`exec.c` from the bytes of the file and of the arguments to the state of the process.
`Xv6.Vm.Exec` takes what `readi` brings for granted; here the headers are cut out of the file
(`File.image`), the strings and `ustack` are written byte by byte, and around it stand the
calls of the log and of the inode: `begin_op`, `namei`, `ilock`, and at the two places where
`exec` leaves the file, `iunlockput` and `end_op`.

What the segments loop and `pushStack` do to memory is what they do in `Xv6.Vm.Exec`, for the
contents these bytes make (`pushStack_refines`), so that a failure gives every page back.  The
file is a regular one: `exec` of a device is not modelled.  `iput` of the last reference to an
inode without links frees its blocks; only the count is modelled.
-/
import Mathlib.Algebra.Order.BigOperators.Group.List
import Xv6.Vm.Copyout

namespace Xv6.Vm

open Wp List

/-! ## The file -/

/-- A file as `readi` sees it. -/
structure File where
  size : Word
  data : Nat → Byte

namespace File

variable (f : File)

/-- The value of `readi`; nothing for -1. -/
def readi (off n : Word) : Option Word :=
  if f.size < off ∨ off + n < off then none
  else if f.size < off + n then some (f.size - off)
  else some n

/-- The `uint` at an offset. -/
def uint (off : Word) : Word := packWord fun i => f.data (off.toNat + i)

/-- The `ushort` at an offset. -/
def ushort (off : Word) : BitVec 16 := f.data (off.toNat + 1) ++ f.data off.toNat

/-- `struct elfhdr`, if there are `sizeof(elf)` bytes. -/
def elf : Option ElfHdr := if f.readi 0 52 = some 52 then some ⟨f.uint 0, f.ushort 44⟩ else none

def entry : Word := f.uint 24

/-- Where the `i`-th program header is. -/
def phoff (i : Nat) : Word := f.uint 28 + BitVec.ofNat 32 (32 * i)

/-- The `i`-th `struct proghdr`, if there are `sizeof(ph)` bytes. -/
def ph (i : Nat) : Option ProgHdr :=
  if f.readi (f.phoff i) 32 = some 32 then
    some ⟨f.uint (f.phoff i), f.uint (f.phoff i + 8), f.uint (f.phoff i + 16), f.uint (f.phoff i + 20)⟩
  else none

def segOff (i : Nat) : Word := f.uint (f.phoff i + 4)

/-- The bytes `loaduvm` asks for at the offset `pos` of a segment. -/
def want (i : Nat) (pos : Word) : Word :=
  if f.uint (f.phoff i + 16) - pos < PGSIZE then f.uint (f.phoff i + 16) - pos else PGSIZE

/-- **What `exec` reads from the file.** -/
def image : Image where
  elf := f.elf
  ph := f.ph
  text i pos c :=
    ((f.readi (f.segOff i + pos) (f.want i pos)).map fun n =>
      pageWrite 0 n.toNat (fun j => f.data ((f.segOff i + pos).toNat + j)) c).getD c
  whole i pos := decide (f.readi (f.segOff i + pos) (f.want i pos) = some (f.want i pos))

end File

/-! ## The arguments -/

/-- A string of the user, without its terminating zero. -/
structure CStr where
  bytes : List Byte
  nonzero : 0 ∉ bytes
  below : bytes.length < 2 ^ 31

namespace CStr

def strlen (s : CStr) : Word := BitVec.ofNat 32 s.bytes.length

/-- The bytes of the string and its zero. -/
def byte (s : CStr) (i : Nat) : Byte := s.bytes.getD i 0

theorem toNat_strlen (s : CStr) : s.strlen.toNat = s.bytes.length := by
  have := s.below
  rw [strlen, BitVec.toNat_ofNat]
  omega

theorem toNat_size (s : CStr) : (s.strlen + 1).toNat = s.bytes.length + 1 := by
  have := s.below
  rw [BitVec.toNat_add, toNat_strlen]
  show (s.bytes.length + 1) % 2 ^ 32 = _
  omega

end CStr

/-- `sp` after a string. -/
def spAfter (sp : Word) (s : CStr) : Word := (sp - (s.strlen + 1)) &&& ~~~ 3

/-- Where the strings go. -/
def argPtrs : Word → List CStr → List Word
  | _, [] => []
  | sp, s :: ss => spAfter sp s :: argPtrs (spAfter sp s) ss

/-- The words of `ustack`, when `sp` is below the strings. -/
def ustack (sp : Word) (ptrs : List Word) : List Word :=
  0xFFFFFFFF :: BitVec.ofNat 32 ptrs.length ::
    (sp - BitVec.ofNat 32 ((ptrs.length + 1) * 4)) :: ptrs ++ [0]

/-- The bytes of words. -/
def wordsByte (ws : List Word) (i : Nat) : Byte := (ws.getD (i / 4) 0).extractLsb' (8 * (i % 4)) 8

/-- `copyout` where the null pointer can be read. -/
def copyoutAt (cur pgdir va : Word) (p : Nat → Byte) (len : Word) : M Bool :=
  copyoutWith (derefPte cur none) cur pgdir va p len

/-- The loop of `exec` over the arguments; `ptrs` is what it has put in `ustack`. -/
def pushStrings (cur pgdir : Word) : List CStr → List Word → Word → M (Option (List Word × Word))
  | [], ptrs, sp => return some (ptrs, sp)
  | s :: ss, ptrs, sp =>
    if MAXARG ≤ ptrs.length then
      return none
    else do
      if ← copyoutAt cur pgdir (spAfter sp s) s.byte (s.strlen + 1) then
        pushStrings cur pgdir ss (ptrs ++ [spAfter sp s]) (spAfter sp s)
      else
        return none

/-- The rest of `exec` after the loop: `ustack` itself. -/
def copyUstack (cur pgdir sz : Word) : Option (List Word × Word) → M (Option (Word × Word))
  | none => return none
  | some (ptrs, sp) => do
    if ← copyoutAt cur pgdir (sp - ustackLen ptrs.length) (wordsByte (ustack sp ptrs))
        (ustackLen ptrs.length) then
      return some (sz, sp - ustackLen ptrs.length)
    else
      return none

/-- The stack and the arguments: `sz` and `sp` at the end. -/
def pushUstack (L : Link) (cur pgdir sz : Word) (argv : List CStr) : M (Option (Word × Word)) := do
  let sz ← allocuvm L pgdir (PGROUNDUP sz) (PGROUNDUP sz + 2 * PGSIZE)
  if sz = 0 then
    return none
  else
    clearpteu pgdir (sz - 2 * PGSIZE)
    let r ← pushStrings cur pgdir argv [] sz
    copyUstack cur pgdir sz r

/-! ## The same as contents of pages -/

/-- The arguments of `Xv6.Vm.Exec`. -/
def argTexts : Word → List CStr → List Arg
  | _, [] => []
  | sp, s :: ss =>
    ⟨s.strlen, copyText (spAfter sp s) (s.strlen + 1) s.byte⟩ :: argTexts (spAfter sp s) ss

/-- `sp` after the strings. -/
def spEnd (sp : Word) (ss : List CStr) : Word := ss.foldl spAfter sp

section

variable {L : Link} {cur d : Word}

theorem mem_argTexts {a : Arg} {ss : List CStr} : ∀ {sp : Word}, a ∈ argTexts sp ss →
    ∃ s ∈ ss, a.len = s.strlen := by
  induction ss with
  | nil => exact fun ha => nomatch ha
  | cons s ss ih =>
    intro sp ha
    rcases mem_cons.mp ha with rfl | ha
    · exact ⟨s, mem_cons_self, rfl⟩
    · obtain ⟨s', hs', hlen⟩ := ih ha
      exact ⟨s', mem_cons_of_mem _ hs', hlen⟩

theorem pushStrings_eq (ss : List CStr) : ∀ (ptrs : List Word) (sp : Word),
    pushStrings cur d ss ptrs sp =
      (pushArgs cur d (argTexts sp ss) ptrs.length sp >>= fun r =>
        pure (r.map fun e => (ptrs ++ argPtrs sp ss, e.2))) := by
  induction ss with
  | nil =>
    intro ptrs sp
    simp only [pushStrings, argTexts, argPtrs, pushArgs, pure_bind, Option.map_some, append_nil]
  | cons s ss ih =>
    intro ptrs sp
    have hlen : (s.strlen + 1).toNat + 4096 ≤ 2 ^ 32 := by
      have hb := s.below
      rw [s.toNat_size]
      omega
    have hcopy : copyoutAt cur d (spAfter sp s) s.byte (s.strlen + 1) =
        copyout cur d (spAfter sp s) (s.strlen + 1) (copyText (spAfter sp s) (s.strlen + 1) s.byte) :=
      copyoutWith_eq hlen
    rw [pushStrings, argTexts, pushArgs, hcopy]
    by_cases hmax : MAXARG ≤ ptrs.length
    · rw [if_pos hmax, if_pos hmax, pure_bind]
      rfl
    · rw [if_neg hmax, if_neg hmax, bind_assoc]
      refine congrArg _ (funext fun b => ?_)
      cases b with
      | false => exact (pure_bind ..).symm
      | true =>
        rw [ih, length_append, append_assoc]
        rfl

/-- What the arguments are, when the stack ends at `sz`. -/
def argvTexts (sz : Word) (ss : List CStr) : Argv :=
  let sp := spEnd sz ss
  let len := ustackLen (argPtrs sz ss).length
  ⟨argTexts sz ss, copyText (sp - len) len (wordsByte (ustack sp (argPtrs sz ss)))⟩

theorem length_argPtrs (ss : List CStr) : ∀ sp : Word, (argPtrs sp ss).length = ss.length := by
  induction ss with
  | nil => exact fun _ => rfl
  | cons s ss ih => exact fun sp => congrArg (· + 1) (ih _)

/-- Where the loop over the arguments ends, if it does. -/
theorem pushArgs_yields (ss : List CStr) : ∀ (argc : Nat) (sp : Word), argc ≤ MAXARG →
    Yields (pushArgs cur d (argTexts sp ss) argc sp) fun r => ∀ e, r = some e →
      e = (argc + ss.length, spEnd sp ss) ∧ argc + ss.length ≤ MAXARG := by
  induction ss with
  | nil =>
    intro argc sp hargc
    refine .pure fun e he => ?_
    cases he
    exact ⟨rfl, hargc⟩
  | cons s ss ih =>
    intro argc sp hargc
    refine .ite (fun _ => .pure nofun) fun hlt => .bind fun b => ?_
    cases b with
    | false => exact .ite nofun fun _ => .pure nofun
    | true =>
      refine .ite (fun _ => ?_) (absurd rfl)
      have hrest := ih (argc + 1) (spAfter sp s) (Nat.lt_of_not_le hlt)
      rw [Nat.add_right_comm, Nat.add_assoc] at hrest
      exact hrest

/-- The strings and `ustack` on a stack that ends at `sz`. -/
theorem pushTexts_eq (sz : Word) (ss : List CStr) :
    Option.map Prod.fst <$> (pushStrings cur d ss [] sz >>= copyUstack cur d sz) =
      (pushArgs cur d (argvTexts sz ss).args 0 sz >>= fun r => match r with
        | none => pure none
        | some (argc, sp) => do
          if ← copyout cur d (sp - ustackLen argc) (ustackLen argc) (argvTexts sz ss).ustack then
            return some sz
          else
            return none) := by
  rw [pushStrings_eq, bind_assoc, map_bind]
  refine (pushArgs_yields ss 0 sz (Nat.zero_le _)).bind_congr fun r hr => ?_
  rw [pure_bind]
  cases r with
  | none => rfl
  | some e =>
    obtain ⟨rfl, hmax⟩ := hr e rfl
    have hargc : 0 + ss.length = (argPtrs sz ss).length := by rw [length_argPtrs, Nat.zero_add]
    rw [hargc] at hmax
    have hlen : (ustackLen (argPtrs sz ss).length).toNat + 4096 ≤ 2 ^ 32 := by
      have hmax' : (argPtrs sz ss).length ≤ 32 := hmax
      rw [ustackLen, BitVec.toNat_ofNat]
      omega
    have hcopy : copyoutAt cur d (spEnd sz ss - ustackLen (argPtrs sz ss).length)
          (wordsByte (ustack (spEnd sz ss) (argPtrs sz ss))) (ustackLen (argPtrs sz ss).length) =
        copyout cur d (spEnd sz ss - ustackLen (argPtrs sz ss).length)
          (ustackLen (argPtrs sz ss).length) (argvTexts sz ss).ustack := copyoutWith_eq hlen
    rw [hargc]
    show Option.map Prod.fst <$> (copyoutAt cur d (spEnd sz ss - ustackLen (argPtrs sz ss).length)
      (wordsByte (ustack (spEnd sz ss) (argPtrs sz ss))) (ustackLen (argPtrs sz ss).length) >>= _) = _
    rw [hcopy, map_bind]
    refine congrArg _ (funext fun b => ?_)
    cases b with
    | false | true => rfl

/-- **The stack of `exec` is the stack of `Xv6.Vm.Exec`** for contents that depend on where it
ends. -/
theorem pushUstack_refines (L : Link) (cur d sz : Word) (ss : List CStr) (k : Kmem) : ∃ argv : Argv,
    (∀ a ∈ argv.args, ∃ s ∈ ss, a.len = s.strlen) ∧
      (Option.map Prod.fst <$> pushUstack L cur d sz ss) k = pushStack L cur d sz argv k := by
  have hrest : ∀ sz : Word, ∃ argv : { argv : Argv // ∀ a ∈ argv.args, ∃ s ∈ ss, a.len = s.strlen },
      Option.map Prod.fst <$> (if sz = 0 then pure none else do
        clearpteu d (sz - 2 * PGSIZE)
        let r ← pushStrings cur d ss [] sz
        copyUstack cur d sz r) =
      (if sz = 0 then pure none else do
        clearpteu d (sz - 2 * PGSIZE)
        match ← pushArgs cur d argv.1.args 0 sz with
        | none => return none
        | some (argc, sp) =>
          if ← copyout cur d (sp - ustackLen argc) (ustackLen argc) argv.1.ustack then
            return some sz
          else
            return none) := by
    intro sz
    refine ⟨⟨argvTexts sz ss, fun _ => mem_argTexts⟩, ?_⟩
    by_cases hz : sz = 0
    · rw [if_pos hz, if_pos hz]
      rfl
    · rw [if_neg hz, if_neg hz, map_bind]
      exact congrArg _ (funext fun _ => pushTexts_eq sz ss)
  have : Nonempty { argv : Argv // ∀ a ∈ argv.args, ∃ s ∈ ss, a.len = s.strlen } :=
    ⟨argvTexts 0 ss, fun _ => mem_argTexts⟩
  obtain ⟨⟨argv, hargs⟩, hrun⟩ :=
    exists_bind hrest k
  exact ⟨argv, hargs, hrun⟩

/-- The stack leaves an address space that can be freed. -/
theorem pushUstack_leaves {own : Word → Owner} {k : Kmem} {sz : Word} (h : Draft L cur d own k sz.toNat)
    (hsz : sz.toNat ≤ 2 ^ 31) {ss : List CStr} (hss : ∀ s ∈ ss, s.bytes.length + 4 ≤ 0x2000000) :
    Meets (pushUstack L cur d sz ss) k (fun r k' => Leaves L cur d own k (r.map Prod.fst) k')
      fun _ => False := by
  obtain ⟨argv, hargs, hrun⟩ := pushUstack_refines L cur d sz ss k
  refine of_map (congr (pushStack_meets h hsz fun a ha => ?_) hrun)
  obtain ⟨s, hs, hlen⟩ := hargs a ha
  unfold Arg.Short
  rw [hlen, s.toNat_strlen]
  exact hss s hs

end

/-! ## The process, the log and the inode -/

/-- What `exec` sees and changes of the process, of the log and of the inode of the program:
the operations begun and not ended, the references, and whether the process holds the lock. -/
structure Task where
  kmem : Kmem
  pgdir : Word
  sz : Word
  name : List Byte
  eip : Word
  esp : Word
  ops : Int
  ref : Nat
  locked : Bool

/-- How `exec` can stop; `asleep` is a lock that is not given back. -/
inductive Halt
  | stop (e : Stop)
  | ilock
  | iunlock
  | asleep

abbrev X (α : Type) : Type := StateT Task (Except Halt) α

/-- A function that changes memory only. -/
def onMem {α : Type} (x : M α) : X α := fun s =>
  match x s.kmem with
  | .ok (a, k) => .ok (a, { s with kmem := k })
  | .error e => .error (.stop e)

def beginOp : X Unit := modify fun s => { s with ops := s.ops + 1 }

def endOp : X Unit := modify fun s => { s with ops := s.ops - 1 }

/-- `namei`, for a path that leads to `file`. -/
def namei (file : Option File) : X (Option File) :=
  match file with
  | none => return none
  | some f => do
    modify fun s => { s with ref := s.ref + 1 }
    return some f

def ilock : X Unit := do
  let s ← get
  if s.ref < 1 then
    throw .ilock
  else if s.locked = true then
    throw .asleep
  else
    set { s with locked := true }

def iunlockput : X Unit := do
  let s ← get
  if s.locked = false ∨ s.ref < 1 then
    throw .iunlock
  else
    set { s with locked := false, ref := s.ref - 1 }

/-- The part of a path after its last slash. -/
def lastElem (path : CStr) : List Byte := (path.bytes.reverse.takeWhile (· ≠ 0x2F)).reverse

/-- `iunlockput` and `end_op` at `bad`. -/
def leave (ip : Bool) : X Unit :=
  if ip = true then do
    iunlockput
    endOp
  else
    pure ()

section

variable (L : Link)

/-- `freevm` at `bad`. -/
def freeNew (pgdir : Word) : X Unit := if pgdir = 0 then pure () else onMem (freevm L pgdir)

/-- The exit `bad` of `exec`; `ip` says whether the file is still held. -/
def bad (pgdir : Word) (ip : Bool) : X Bool := do
  freeNew L pgdir
  leave ip
  return false

/-- `exec`; false stands for -1. -/
def execFile (path : CStr) (file : Option File) (argv : List CStr) : X Bool := do
  beginOp
  match ← namei file with
  | none => do
    endOp
    return false
  | some f => do
    ilock
    match f.elf with
    | none => bad L 0 true
    | some elf =>
      if elf.magic ≠ ELF_MAGIC then
        bad L 0 true
      else do
        let pgdir ← onMem (setupkvm L)
        if pgdir = 0 then
          bad L 0 true
        else do
          let curproc ← get
          match ← onMem (loadSegments L curproc.pgdir pgdir f.image elf.phnum.toNat 0 0) with
          | none => bad L pgdir true
          | some sz => do
            iunlockput
            endOp
            match ← onMem (pushUstack L curproc.pgdir pgdir sz argv) with
            | none => bad L pgdir false
            | some (sz, sp) => do
              modify fun s => { s with
                name := (lastElem path).take 15, pgdir := pgdir, sz := sz, eip := f.entry, esp := sp }
              onMem (freevm L curproc.pgdir)
              return true

end

section

variable {L : Link} {own : Word → Owner} {s : Task}

theorem onMem_meets {α : Type} {x : M α} {Q : α → Kmem → Prop} (h : Meets x s.kmem Q fun _ => False) :
    Meets (onMem x) s (fun a s' => ∃ k, s' = { s with kmem := k } ∧ Q a k) fun _ => False := by
  obtain ⟨a, k, hrun, hq⟩ := returns h
  unfold Meets onMem
  rw [hrun]
  exact ⟨k, rfl, hq⟩

theorem iunlockput_meets (hl : s.locked = true) (hr : 1 ≤ s.ref) :
    Meets iunlockput s (fun _ s' => s' = { s with locked := false, ref := s.ref - 1 }) fun _ => False := by
  refine of_bind (of_get (of_neg ?_ (of_set rfl)))
  rintro (hc | hc)
  · rw [hl] at hc
    cases hc
  · omega

/-- The file is let go. -/
def Task.left (s : Task) : Task := { s with locked := false, ref := s.ref - 1, ops := s.ops - 1 }

theorem leave_meets (hl : s.locked = true) (hr : 1 ≤ s.ref) :
    Meets (leave true) s (fun _ s' => s' = s.left) fun _ => False := by
  refine of_true (call (iunlockput_meets hl hr) (fun _ => id) ?_)
  rintro _ _ rfl
  exact of_modify rfl

/-- **`bad`** with the file held. -/
theorem bad_held {d : Word} {Q : Kmem → Prop} (hl : s.locked = true) (hr : 1 ≤ s.ref)
    (hmem : Meets (freeNew L d) s (fun _ s' => ∃ k, s' = { s with kmem := k } ∧ Q k) fun _ => False) :
    Meets (bad L d true) s (fun ok s' => ok = false ∧ ∃ k, s' = { s.left with kmem := k } ∧ Q k)
      fun _ => False := by
  refine call hmem (fun _ => id) ?_
  rintro _ _ ⟨k, rfl, hq⟩
  refine call (leave_meets hl hr) (fun _ => id) ?_
  rintro _ _ rfl
  exact of_pure ⟨rfl, k, rfl, hq⟩

/-- **`bad`** after the file was let go. -/
theorem bad_left {d : Word} {Q : Kmem → Prop}
    (hmem : Meets (freeNew L d) s (fun _ s' => ∃ k, s' = { s with kmem := k } ∧ Q k) fun _ => False) :
    Meets (bad L d false) s (fun ok s' => ok = false ∧ ∃ k, s' = { s with kmem := k } ∧ Q k)
      fun _ => False := by
  refine call hmem (fun _ => id) ?_
  intro _ s' hs'
  refine call (of_false (of_pure hs')) (fun _ => id) fun _ _ h => of_pure ⟨rfl, h⟩

/-- Memory as before: every page has its owner, and what was not free is unchanged. -/
def Unchanged (L : Link) (own : Word → Owner) (k k' : Kmem) : Prop :=
  Owns L own k' ∧ ∀ q, own q ≠ .free → k'.mem q = k.mem q

/-- `freevm` of an address space whose pages were all free. -/
theorem freeNew_meets {own₁ : Word → Owner} {k : Kmem} {d : Word} (h : Owns L own k)
    (hfree : own d = .free) (hloc : Local d own k own₁ s.kmem) (h₁ : Owns L own₁ s.kmem)
    (hd₁ : own₁ d = .dir) :
    Meets (freeNew L d) s (fun _ s' => ∃ k', s' = { s with kmem := k' } ∧ Unchanged L own k k')
      fun _ => False := by
  refine of_neg (h.ne_zero hfree nofun) (onMem_meets (mono (freevm_meets h₁ hd₁) ?_ fun _ => id))
  rintro _ k' ⟨own', h', hd', hloc'⟩
  have hall := hloc.trans hloc'
  have hsame : own' = own := hall.restored h hfree h' hd'
  subst hsame
  exact ⟨h', fun q hq => hall.mem q fun hm => hq (h.free_of_mine hfree hm)⟩

/-- The process in the middle of `exec`, with the file held. -/
def Task.held (s : Task) (k : Kmem) : Task :=
  { s with kmem := k, ops := s.ops + 1, ref := s.ref + 1, locked := true }

theorem Task.left_held {k : Kmem} (hlock : s.locked = false) : (s.held k).left = { s with kmem := k } := by
  unfold Task.left Task.held
  rw [hlock, Int.add_sub_cancel, Nat.add_sub_cancel]

/-- `begin_op`, `namei` of a file that exists, and `ilock`. -/
theorem ilock_meets {s₁ : Task} (hs : s₁ = { s with ops := s.ops + 1, ref := s.ref + 1 })
    (hlock : s.locked = false) : Meets ilock s₁ (fun _ s' => s' = s.held s.kmem) fun _ => False := by
  subst hs
  refine of_bind (of_get (of_neg (Nat.not_lt.mpr (Nat.le_add_left 1 _)) (of_neg ?_ (of_set rfl))))
  rw [hlock]
  nofun

/-- What `exec` leaves behind when it succeeds; `k` is memory before the old pages are freed. -/
structure Installed (L : Link) (s : Task) (d sz sp : Word) (own : Word → Owner) (k : Kmem) (s' : Task) :
    Prop where
  pgdir : s'.pgdir = d
  size : s'.sz = sz
  esp : s'.esp = sp
  below : sz.toNat ≤ 2 ^ 31
  draft : Draft L s.pgdir d own k sz.toNat
  freed : ∃ own', Local s.pgdir own k own' s'.kmem ∧ Owns L own' s'.kmem

/-- **`exec` of any file.**  Whatever `pushUstack` guarantees holds of the new address space; a
failure leaves everything as it was. -/
theorem execFile_meets (path : CStr) (file : Option File) {argv : List CStr}
    {T : Word → Option (Word × Word) → Kmem → Prop} (h : Owns L own s.kmem) (hc : own s.pgdir = .dir)
    (hk : Kern L s.kmem.mem s.pgdir) (hlock : s.locked = false)
    (hpush : ∀ {d sz own₁ k₁}, Draft L s.pgdir d own₁ k₁ sz.toNat → sz.toNat ≤ 2 ^ 31 →
      Meets (pushUstack L s.pgdir d sz argv) k₁
        (fun r k' => Leaves L s.pgdir d own₁ k₁ (r.map Prod.fst) k' ∧ T d r k') fun _ => False) :
    Meets (execFile L path file argv) s (fun ok s' =>
      ok = false ∧ (∃ k, s' = { s with kmem := k } ∧ Unchanged L own s.kmem k) ∨
      ok = true ∧ ∃ d sz sp own₁ k₁, T d (some (sz, sp)) k₁ ∧ Installed L s d sz sp own₁ k₁ s')
      fun _ => False := by
  have hheld : ∀ k, (s.held k).locked = true ∧ 1 ≤ (s.held k).ref := fun k => ⟨rfl, Nat.le_add_left 1 _⟩
  -- `bad` with the file held
  have hbad : ∀ {d : Word} {k : Kmem},
      Meets (freeNew L d) (s.held k) (fun _ s' => ∃ k', s' = { s.held k with kmem := k' } ∧
        Unchanged L own s.kmem k') (fun _ => False) →
      Meets (bad L d true) (s.held k) (fun ok s' =>
        ok = false ∧ (∃ k, s' = { s with kmem := k } ∧ Unchanged L own s.kmem k) ∨
        ok = true ∧ ∃ d sz sp own₁ k₁, T d (some (sz, sp)) k₁ ∧ Installed L s d sz sp own₁ k₁ s')
        fun _ => False := by
    intro d k hfree
    refine mono (bad_held (hheld k).1 (hheld k).2 hfree) ?_ fun _ => id
    rintro ok _ ⟨rfl, k', rfl, hq⟩
    refine .inl ⟨rfl, k', ?_, hq⟩
    rw [Task.left_held hlock]
  refine of_bind (of_modify ?_)
  cases file with
  | none =>
    refine of_bind (of_pure (of_bind (of_modify (of_pure (.inl ⟨rfl, s.kmem, ?_, h, fun _ _ => rfl⟩)))))
    rw [Int.add_sub_cancel]
  | some f =>
    refine of_bind (of_bind (of_modify (of_pure (call (ilock_meets rfl hlock) (fun _ => id) ?_))))
    rintro _ _ rfl
    have hnothing : Meets (freeNew L 0) (s.held s.kmem) (fun _ s' => ∃ k',
        s' = { s.held s.kmem with kmem := k' } ∧ Unchanged L own s.kmem k') fun _ => False :=
      of_pos rfl (of_pure ⟨s.kmem, rfl, h, fun _ _ => rfl⟩)
    cases f.elf with
    | none => exact hbad hnothing
    | some elf =>
      refine of_ite (fun _ => hbad hnothing) fun _ => ?_
      refine call (onMem_meets (setupkvm_meets h)) (fun _ => id) ?_
      rintro d _ ⟨k₁, rfl, ⟨rfl, h₁, hmem, -⟩ | ⟨hfree, own₁, h₁, hd₁, hloc₁, hkern, huser, -⟩⟩
      · exact of_pos rfl (hbad (of_pos rfl (of_pure ⟨k₁, rfl, h₁, hmem⟩)))
      refine of_neg (h.ne_zero hfree nofun) (of_bind (of_get ?_))
      have hdraft : Draft L s.pgdir d own₁ k₁ (0 : Word).toNat := .start h hfree hc hk h₁ hd₁ hloc₁ hkern huser
      refine call (onMem_meets (loadSegments_meets f.image _ hdraft (Nat.zero_le _))) (fun _ => id) ?_
      rintro (_ | sz) _ ⟨k₂, rfl, own₂, h₂, hd₂, hloc₂, hr⟩
      · exact hbad (freeNew_meets h hfree (hloc₁.trans hloc₂) h₂ hd₂)
      obtain ⟨hsz, hdraft₂⟩ := hr sz rfl
      refine call (iunlockput_meets rfl (Nat.le_add_left 1 _)) (fun _ => id) ?_
      rintro _ _ rfl
      refine of_bind (of_modify ?_)
      show Meets _ (s.held k₂).left _ _
      rw [Task.left_held hlock]
      refine call (onMem_meets (hpush hdraft₂ hsz)) (fun _ => id) ?_
      rintro (_ | ⟨sz', sp⟩) _ ⟨k₃, rfl, ⟨own₃, h₃, hd₃, hloc₃, hr₃⟩, ht⟩
      · refine mono (bad_left (freeNew_meets h hfree ((hloc₁.trans hloc₂).trans hloc₃) h₃ hd₃)) ?_
          fun _ => id
        rintro ok s' ⟨rfl, k', rfl, hq⟩
        exact .inl ⟨rfl, k', rfl, hq⟩
      · obtain ⟨hsz₃, hdraft₃⟩ := hr₃ sz' rfl
        refine of_bind (of_modify (call (onMem_meets (freevm_meets h₃ hdraft₃.curDir)) (fun _ => id) ?_))
        rintro _ _ ⟨k₄, rfl, own₄, h₄, -, hloc₄⟩
        exact of_pure (.inr ⟨rfl, d, sz', sp, own₃, k₃, ht, rfl, rfl, rfl, hsz₃, hdraft₃, own₄, hloc₄, h₄⟩)

theorem CStr.short_of_sum {argv : List CStr} (h : (argv.map fun a => a.bytes.length + 1).sum < 8192) :
    ∀ a ∈ argv, a.bytes.length + 4 ≤ 0x2000000 := by
  intro a ha
  have hle := le_sum_of_mem (mem_map_of_mem (f := fun a : CStr => a.bytes.length + 1) ha)
  omega

/-- **`exec` is all or nothing**, whatever the file says and however many pages are free.  It
returns, and if it returns -1 the process, the log and the inode are as they were, and so is
memory: the free pages, and what every other page holds. -/
theorem execFile_atomic (h : Owns L own s.kmem) (hc : own s.pgdir = .dir)
    (hk : Kern L s.kmem.mem s.pgdir) (hlock : s.locked = false) (path : CStr) (file : Option File)
    (argv : List CStr) (hsize : (argv.map fun a => a.bytes.length + 1).sum < 8192) :
    ∃ ok s', execFile L path file argv s = .ok (ok, s') ∧
      (ok = false → s' = { s with kmem := s'.kmem } ∧ SameFree s.kmem s'.kmem ∧
        (∀ q, own q ≠ .free → s'.kmem.mem q = s.kmem.mem q) ∧
        ∀ x : Vpn, x.User → Present (view s.kmem.mem s.pgdir x) →
          Same s.kmem.mem s'.kmem.mem s.pgdir x) := by
  have hmeets := execFile_meets (T := fun _ _ _ => True) path file h hc hk hlock fun hdraft hsz =>
    mono (pushUstack_leaves hdraft hsz (CStr.short_of_sum hsize)) (fun _ _ hl => ⟨hl, trivial⟩) fun _ => id
  obtain ⟨ok, s', hrun, ⟨-, k, rfl, h', hmem⟩ | ⟨rfl, -⟩⟩ := returns hmeets
  · refine ⟨ok, _, hrun, fun _ => ⟨rfl, h.sameFree h', hmem, fun x hu hp => ?_⟩⟩
    have hview : view k.mem s.pgdir = view s.kmem.mem s.pgdir :=
      h.view_congr hc (hmem _ (by rw [hc]; nofun)) fun i t ht => hmem t (by rw [ht]; nofun)
    have hframe := h.frame.mpr ⟨hc, hu, target_eq_some.mpr ⟨hp, rfl⟩⟩
    refine ⟨congrFun hview x, ?_⟩
    unfold pageAt
    rw [hview]
    exact hmem _ (by rw [hframe]; nofun)
  · exact ⟨true, s', hrun, nofun⟩

end

/-- The first process calls `exec` on an empty file. -/
theorem execFile_atomic_empty : ∃ own s, Owns smallLink own s.kmem ∧ own s.pgdir = .dir ∧
    Kern smallLink s.kmem.mem s.pgdir ∧ s.locked = false ∧
    ∃ ok s', execFile smallLink ⟨[0x2F], by decide, by decide⟩ (some ⟨0, fun _ => 0⟩)
        [⟨[0x61], by decide, by decide⟩] s = .ok (ok, s') ∧
      (ok = false → s' = { s with kmem := s'.kmem } ∧ SameFree s.kmem s'.kmem) := by
  obtain ⟨own, k, p, h, hc, -, -, -, hk⟩ := exists_sized
  obtain ⟨ok, s', hrun, hfail⟩ := execFile_atomic (s := ⟨k, p.pgdir, p.sz, [], 0, 0, 0, 0, false⟩) h hc hk rfl
    ⟨[0x2F], by decide, by decide⟩ (some ⟨0, fun _ => 0⟩) [⟨[0x61], by decide, by decide⟩] (by decide)
  exact ⟨own, _, h, hc, hk, rfl, ok, s', hrun, fun hok => ⟨(hfail hok).1, (hfail hok).2.1⟩⟩

end Xv6.Vm
