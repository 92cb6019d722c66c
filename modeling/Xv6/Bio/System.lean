/-
# `Xv6.Bio.System` — processes, the buffer cache and the log, interleaved

Any number of processes read blocks, change them and write them back, while one
of them may be inside `commit`.  A process that uses buffers for its own purposes
is free in what it does; its discipline is the one `bio.c` asks for: the data is
touched between `bread` and `brelse` only, and after the last change the buffer
is handed to `bwrite` or `log_write` before `brelse`.  A process inside `commit`
is not free: after each section of `Xv6.Log.Group` it makes the buffer calls the
code makes there, in order (its `script`).

One event is one section under a spin-lock, or a piece of code that runs on a
buffer whose sleep-lock the process holds:

    bget p k         bread: the section of bget under bcache.lock
    acquire p        bread: acquiresleep returns
    load p           bread: iderw if the buffer is not valid; bread returns
    modify p k d     the process changes the block to d
    bwrite p k       bwrite
    logWrite p k     log_write's two panics, read without log.lock
    record p k       log_write's section under log.lock
    release p k      brelse: releasesleep
    unref p          brelse: the section under bcache.lock
    copyToLog, copyHome, fillHead      the memory copies of commit
    log e            the other sections of begin_op, end_op and commit

A transfer by `iderw` moves exactly the requested block and is one event.  The
range checks of the drivers only panic, and a panic ends the run.
-/
import Xv6.Bio.Cache
import Xv6.Log.Commit
import Xv6.Log.Group

namespace Xv6.Bio

open Option
open Function (update)

/-- Where the log lives: `log.dev`, `log.start`, `log.size`. -/
structure Geom where
  dev : Nat
  log : Log

def Geom.head (g : Geom) : Key := (g.dev, g.log.start)

/-- The log block of entry `tail`. -/
def Geom.entry (g : Geom) (tail : Nat) : Key := (g.dev, g.log.start + tail + 1)

/-- The home location of a logged block. -/
def Geom.home (g : Geom) (b : Nat) : Key := (g.dev, b)

/-- What a process is in the middle of. -/
inductive Call where
  | ready
  /-- in `bget`, waiting for the lock of buffer `i` -/
  | acquiring (k : Key) (i : BufId)
  /-- in `bread`, with the lock -/
  | loading (k : Key) (i : BufId)
  /-- in `log_write`, past the checks -/
  | logging (i : BufId)
  /-- in `brelse`, without the lock -/
  | releasing (i : BufId)
deriving DecidableEq

/-- A buffer call, or a memory copy, of `commit`. -/
inductive Act where
  | bread (k : Key)
  | copyToLog (dst src : Key)
  | copyHome (dst src : Key)
  | fillHead (k : Key)
  | bwrite (k : Key)
  | brelse (k : Key)
deriving DecidableEq

/-- One turn of the loop of `write_log`. -/
def writeLogTurn (g : Geom) (tail b : Nat) : List Act :=
  [.bread (g.entry tail), .bread (g.home b), .copyToLog (g.entry tail) (g.home b),
    .bwrite (g.entry tail), .brelse (g.home b), .brelse (g.entry tail)]

/-- One turn of the loop of `install_trans`. -/
def installTurn (g : Geom) (tail b : Nat) : List Act :=
  [.bread (g.entry tail), .bread (g.home b), .copyHome (g.home b) (g.entry tail),
    .bwrite (g.home b), .brelse (g.entry tail), .brelse (g.home b)]

/-- `write_head`. -/
def headTurn (g : Geom) : List Act :=
  [.bread g.head, .fillHead g.head, .bwrite g.head, .brelse g.head]

/-- What `write_head` makes of the header block. -/
def headBlock (block : List Nat) (hb : Block) : Block :=
  (List.range block.length).foldl
    (fun hb i => hb.setWord (i + 1) (UInt32.ofNat (block.getD i 0)))
    (hb.setWord 0 (UInt32.ofNat block.length))

/-- The machine.  `held p` are the buffers `p` has from `bread` and has not
released; `unsaved i` says that buffer `i` was changed and not handed to `bwrite`
or `log_write` since (what the discipline speaks about; the code has no such flag). -/
structure Sys (P : Type) where
  log : Group.State P
  cache : Bcache P
  disk : Key → Block
  held : P → List BufId
  call : P → Call
  script : P → List Act
  unsaved : BufId → Bool
  panicked : Bool

/-- After `binit` and `initlog`, on the disks `d`. -/
def Sys.init (P : Type) (d : Key → Block) : Sys P :=
  ⟨.init P, .init P, d, fun _ => [], fun _ => .ready, fun _ => [], fun _ => false, false⟩

inductive Event (P : Type) where
  | log (e : Group.Event P)
  | bget (p : P) (k : Key)
  | acquire (p : P)
  | load (p : P)
  | modify (p : P) (k : Key) (data : Block)
  | bwrite (p : P) (k : Key)
  | logWrite (p : P) (k : Key)
  | record (p : P) (k : Key)
  | release (p : P) (k : Key)
  | unref (p : P)
  | copyToLog (p : P) (k : Key) (data : Block)
  | copyHome (p : P) (k : Key)
  | fillHead (p : P) (k : Key) (data : Block)

def proc {P : Type} : Group.Event P → P
  | .beginOp p | .logWrite p _ | .record p _ | .endOp p | .commit p | .copyToLog p _
  | .writeHead p | .install p _ | .erase p | .finish p => p

/-- The buffer calls that follow a section of `commit`; `l` is the log before it. -/
def turn {P : Type} (g : Geom) (l : Group.State P) : Group.Event P → List Act
  | .copyToLog p b =>
    match l.pc p with
    | .writeLog tail => writeLogTurn g tail b
    | _ => []
  | .install p b =>
    match l.pc p with
    | .installTrans tail => installTurn g tail b
    | _ => []
  | .writeHead _ | .erase _ => headTurn g
  | .beginOp _ | .logWrite _ _ | .record _ _ | .endOp _ | .commit _ | .finish _ => []

namespace Sys

variable {P : Type} [DecidableEq P]

/-- The buffer for block `k` that `p` holds. -/
def heldBuf (s : Sys P) (p : P) (k : Key) : Option BufId :=
  (s.held p).find? (fun i => (s.cache.buf i).key == k)

/-- `p` is free to make a call of its own: it is in none, and not in `commit`. -/
def Free (s : Sys P) (p : P) : Prop :=
  s.call p = .ready ∧ s.script p = [] ∧ (s.log.pc p = .idle ∨ s.log.pc p = .op)

/-- `p` may make the call `a`: it is free, or `commit` comes to `a` next. -/
def May (s : Sys P) (p : P) (a : Act) : Prop :=
  s.Free p ∨ s.call p = .ready ∧ (s.script p).head? = some a

instance (s : Sys P) (p : P) : Decidable (s.Free p) := inferInstanceAs (Decidable (_ ∧ _ ∧ _))

instance (s : Sys P) (p : P) (a : Act) : Decidable (s.May p a) :=
  inferInstanceAs (Decidable (_ ∨ _ ∧ _))

def goto (s : Sys P) (p : P) (c : Call) : Sys P := { s with call := update s.call p c }

/-- `commit` goes on to its next call (a process outside `commit` has none). -/
def pop (s : Sys P) (p : P) : Sys P :=
  { s with script := update s.script p (s.script p).tail }

def fill (s : Sys P) (i : BufId) (data : Block) : Sys P :=
  { s with
    cache := s.cache.modify i (fun b => { b with data := data })
    unsaved := update s.unsaved i true }

/-- `iderw` for a read, if the buffer needs it: the end of `bread`. -/
def load (s : Sys P) (i : BufId) : Sys P :=
  if (s.cache.buf i).valid then s
  else
    { s with
      cache := s.cache.modify i (fun b => { b with valid := true, data := s.disk b.key }) }

omit [DecidableEq P] in
@[simp] theorem load_fields (s : Sys P) (i : BufId) :
    (s.load i).log = s.log ∧ (s.load i).call = s.call ∧ (s.load i).script = s.script ∧
      (s.load i).held = s.held ∧ (s.load i).disk = s.disk ∧ (s.load i).unsaved = s.unsaved := by
  simp only [load]; split <;> exact ⟨rfl, rfl, rfl, rfl, rfl, rfl⟩

/-- `bwrite`: `B_DIRTY` is set, and `iderw` writes the block and clears it. -/
def write (s : Sys P) (i : BufId) : Sys P :=
  { s with
    cache := s.cache.modify i (fun b => { b with dirty := false, valid := true })
    disk := update s.disk (s.cache.buf i).key (s.cache.buf i).data
    unsaved := update s.unsaved i false }

end Sys

section Step
variable {P : Type} [DecidableEq P]

def act (g : Geom) (s : Sys P) : Event P → Option (Sys P)
  | .log (.logWrite _ _) | .log (.record _ _) => none
  | .log e =>
    if s.call (proc e) = .ready ∧ s.script (proc e) = [] then
      (Group.step g.log.size s.log e).map (fun l =>
        { s with log := l, script := update s.script (proc e) (turn g s.log e) })
    else none
  | .bget p k =>
    if s.May p (.bread k) then
      match s.cache.bget k with
      | some (i, c) => some ({ s with cache := c }.goto p (.acquiring k i))
      | none => some { s with panicked := true }
    else none
  | .acquire p =>
    match s.call p with
    | .acquiring k i =>
      if (s.cache.buf i).lock = none then
        some ({ s with cache := s.cache.modify i (fun b => { b with lock := some p }) }.goto p
          (.loading k i))
      else none
    | _ => none
  | .load p =>
    match s.call p with
    | .loading _ i =>
      some (({ s.load i with held := update s.held p (i :: s.held p) }.goto p
        .ready).pop p)
    | _ => none
  | .modify p k data =>
    if s.Free p then (s.heldBuf p k).map (fun i => s.fill i data) else none
  | .bwrite p k =>
    if s.May p (.bwrite k) then (s.heldBuf p k).map (fun i => (s.write i).pop p) else none
  | .logWrite p k =>
    if s.Free p then
      (s.heldBuf p k).bind (fun i => (Group.step g.log.size s.log (.logWrite p k.2)).map (fun l =>
        { s with log := l }.goto p (.logging i)))
    else none
  | .record p k =>
    match s.call p with
    | .logging i =>
      if (s.cache.buf i).key = k then
        (Group.step g.log.size s.log (.record p k.2)).map (fun l =>
          { s with
            log := l
            cache := s.cache.modify i (fun b => { b with dirty := true })
            unsaved := update s.unsaved i false }.goto p .ready)
      else none
    | _ => none
  | .release p k =>
    if s.May p (.brelse k) then
      (s.heldBuf p k).bind (fun i =>
        -- the discipline binds the processes outside `commit`
        if s.script p = [] ∧ s.unsaved i then none
        else some ({ s with
          cache := s.cache.modify i (fun b => { b with lock := none })
          held := update s.held p ((s.held p).erase i) }.goto p (.releasing i)))
    else none
  | .unref p =>
    match s.call p with
    | .releasing i => some (({ s with cache := s.cache.unref i }.goto p .ready).pop p)
    | _ => none
  | .copyToLog p k data =>
    match s.call p, s.script p with
    | .ready, .copyToLog dst src :: _ =>
      (s.heldBuf p dst).bind (fun i => (s.heldBuf p src).bind (fun j =>
        if k = dst ∧ data = (s.cache.buf j).data then some ((s.fill i data).pop p) else none))
    | _, _ => none
  | .copyHome p k =>
    match s.call p, s.script p with
    | .ready, .copyHome dst src :: _ =>
      (s.heldBuf p dst).bind (fun i => (s.heldBuf p src).bind (fun j =>
        if k = dst then some ((s.fill i (s.cache.buf j).data).pop p) else none))
    | _, _ => none
  | .fillHead p k data =>
    match s.call p, s.script p with
    | .ready, .fillHead dst :: _ =>
      (s.heldBuf p dst).bind (fun i =>
        if k = dst ∧ data = headBlock s.log.block (s.cache.buf i).data then
          some ((s.fill i data).pop p)
        else none)
    | _, _ => none

def step (g : Geom) (s : Sys P) (e : Event P) : Option (Sys P) :=
  if s.panicked ∨ s.log.panicked.isSome then none else act g s e

abbrev Runs (g : Geom) (d : Key → Block) : List (Event P) → Sys P → Prop :=
  Trace.Run (step g) (Sys.init P d)

end Step

/-! ## What a step can do -/

section Moves
variable {P : Type} [DecidableEq P]

/-- `p` holds buffer `i`, and it is the one for block `k`. -/
def Sys.Holds (s : Sys P) (p : P) (k : Key) (i : BufId) : Prop :=
  i ∈ s.held p ∧ (s.cache.buf i).key = k

/-- The moves of the machine, one constructor per branch of `act`. -/
inductive Moves (g : Geom) (s : Sys P) : Event P → Sys P → Prop
  | log {e : Group.Event P} {l : Group.State P}
      (ne : ∀ p b, e ≠ .logWrite p b ∧ e ≠ .record p b)
      (call : s.call (proc e) = .ready) (script : s.script (proc e) = [])
      (step : Group.step g.log.size s.log e = some l) :
      Moves g s (.log e)
        { s with log := l, script := update s.script (proc e) (turn g s.log e) }
  | bget {p : P} {k : Key} {i : BufId} {c : Bcache P} (may : s.May p (.bread k))
      (bget : s.cache.bget k = some (i, c)) :
      Moves g s (.bget p k) ({ s with cache := c }.goto p (.acquiring k i))
  | noBuffers {p : P} {k : Key} : Moves g s (.bget p k) { s with panicked := true }
  | acquire {p : P} {k : Key} {i : BufId} (call : s.call p = .acquiring k i)
      (free : (s.cache.buf i).lock = none) :
      Moves g s (.acquire p)
        ({ s with cache := s.cache.modify i (fun b => { b with lock := some p }) }.goto p
          (.loading k i))
  | load {p : P} {k : Key} {i : BufId} (call : s.call p = .loading k i) :
      Moves g s (.load p)
        (({ s.load i with held := update s.held p (i :: s.held p) }.goto p .ready).pop p)
  | modify {p : P} {k : Key} {i : BufId} {data : Block} (free : s.Free p) (holds : s.Holds p k i) :
      Moves g s (.modify p k data) (s.fill i data)
  | bwrite {p : P} {k : Key} {i : BufId} (may : s.May p (.bwrite k)) (holds : s.Holds p k i) :
      Moves g s (.bwrite p k) ((s.write i).pop p)
  | logWrite {p : P} {k : Key} {i : BufId} {l : Group.State P} (free : s.Free p)
      (holds : s.Holds p k i)
      (step : Group.step g.log.size s.log (.logWrite p k.2) = some l) :
      Moves g s (.logWrite p k) ({ s with log := l }.goto p (.logging i))
  | record {p : P} {k : Key} {i : BufId} {l : Group.State P} (call : s.call p = .logging i)
      (key : (s.cache.buf i).key = k)
      (step : Group.step g.log.size s.log (.record p k.2) = some l) :
      Moves g s (.record p k)
        ({ s with
            log := l
            cache := s.cache.modify i (fun b => { b with dirty := true })
            unsaved := update s.unsaved i false }.goto p .ready)
  | release {p : P} {k : Key} {i : BufId} (may : s.May p (.brelse k)) (holds : s.Holds p k i)
      (saved : s.script p = [] → s.unsaved i = false) :
      Moves g s (.release p k)
        ({ s with
            cache := s.cache.modify i (fun b => { b with lock := none })
            held := update s.held p ((s.held p).erase i) }.goto p (.releasing i))
  | unref {p : P} {i : BufId} (call : s.call p = .releasing i) :
      Moves g s (.unref p) (({ s with cache := s.cache.unref i }.goto p .ready).pop p)
  | copyToLog {p : P} {dst src : Key} {rest : List Act} {i j : BufId} (call : s.call p = .ready)
      (script : s.script p = .copyToLog dst src :: rest) (holds : s.Holds p dst i)
      (holds' : s.Holds p src j) :
      Moves g s (.copyToLog p dst (s.cache.buf j).data)
        ((s.fill i (s.cache.buf j).data).pop p)
  | copyHome {p : P} {dst src : Key} {rest : List Act} {i j : BufId} (call : s.call p = .ready)
      (script : s.script p = .copyHome dst src :: rest) (holds : s.Holds p dst i)
      (holds' : s.Holds p src j) :
      Moves g s (.copyHome p dst) ((s.fill i (s.cache.buf j).data).pop p)
  | fillHead {p : P} {dst : Key} {rest : List Act} {i : BufId} (call : s.call p = .ready)
      (script : s.script p = .fillHead dst :: rest) (holds : s.Holds p dst i) :
      Moves g s (.fillHead p dst (headBlock s.log.block (s.cache.buf i).data))
        ((s.fill i (headBlock s.log.block (s.cache.buf i).data)).pop p)

omit [DecidableEq P] in
theorem Sys.holds_of_heldBuf {s : Sys P} {p : P} {k : Key} {i : BufId}
    (h : s.heldBuf p k = some i) : s.Holds p k i :=
  ⟨List.mem_of_find?_eq_some h, by simpa using List.find?_some h⟩

/-- **Every step is one of the moves.** -/
theorem moves_of_step {g : Geom} {s s' : Sys P} {e : Event P} (h : step g s e = some s') :
    s.panicked = false ∧ s.log.panicked = none ∧ Moves g s e s' := by
  simp only [step] at h
  split at h
  · cases h
  rename_i hp
  simp only [not_or, Bool.not_eq_true, isSome_eq_false_iff, isNone_iff_eq_none] at hp
  refine ⟨hp.1, hp.2, ?_⟩
  cases e with
  | log e =>
    have hlog : (∀ p b, e ≠ .logWrite p b ∧ e ≠ .record p b) →
        (if s.call (proc e) = .ready ∧ s.script (proc e) = [] then
          (Group.step g.log.size s.log e).map (fun l => { s with
            log := l, script := update s.script (proc e) (turn g s.log e) })
        else none) = some s' → Moves g s (.log e) s' := by
      intro hne h
      obtain ⟨hc, h⟩ := ite_none_right_eq_some.mp h
      obtain ⟨l, hl, rfl⟩ := map_eq_some_iff.mp h
      exact .log hne hc.1 hc.2 hl
    cases e <;> first | exact hlog (by simp) h | cases h
  | bget p k =>
    obtain ⟨hm, h⟩ := ite_none_right_eq_some.mp h
    split at h
    · rename_i i c hb
      cases h; exact .bget hm hb
    · cases h; exact .noBuffers
  | acquire p =>
    simp only [act] at h
    split at h
    · rename_i k i hc
      obtain ⟨hf, h⟩ := ite_none_right_eq_some.mp h
      cases h; exact .acquire hc hf
    · cases h
  | load p =>
    simp only [act] at h
    split at h
    · rename_i k i hc; cases h; exact .load hc
    · cases h
  | modify p k data =>
    obtain ⟨hf, h⟩ := ite_none_right_eq_some.mp h
    obtain ⟨i, hi, rfl⟩ := map_eq_some_iff.mp h
    exact .modify hf (Sys.holds_of_heldBuf hi)
  | bwrite p k =>
    obtain ⟨hm, h⟩ := ite_none_right_eq_some.mp h
    obtain ⟨i, hi, rfl⟩ := map_eq_some_iff.mp h
    exact .bwrite hm (Sys.holds_of_heldBuf hi)
  | logWrite p k =>
    obtain ⟨hf, h⟩ := ite_none_right_eq_some.mp h
    obtain ⟨i, hi, h⟩ := bind_eq_some_iff.mp h
    obtain ⟨l, hl, rfl⟩ := map_eq_some_iff.mp h
    exact .logWrite hf (Sys.holds_of_heldBuf hi) hl
  | record p k =>
    simp only [act] at h
    split at h
    · rename_i i hc
      obtain ⟨hk, h⟩ := ite_none_right_eq_some.mp h
      obtain ⟨l, hl, rfl⟩ := map_eq_some_iff.mp h
      exact .record hc hk hl
    · cases h
  | release p k =>
    obtain ⟨hm, h⟩ := ite_none_right_eq_some.mp h
    obtain ⟨i, hi, h⟩ := bind_eq_some_iff.mp h
    obtain ⟨hs, h⟩ := ite_none_left_eq_some.mp h
    cases h
    exact .release hm (Sys.holds_of_heldBuf hi) fun e => by simpa [e] using hs
  | unref p =>
    simp only [act] at h
    split at h
    · rename_i i hc; cases h; exact .unref hc
    · cases h
  | copyToLog p k data =>
    simp only [act] at h
    split at h
    · rename_i dst src rest hc hs
      obtain ⟨i, hi, h⟩ := bind_eq_some_iff.mp h
      obtain ⟨j, hj, h⟩ := bind_eq_some_iff.mp h
      obtain ⟨⟨rfl, rfl⟩, he⟩ := ite_none_right_eq_some.mp h
      cases he
      exact .copyToLog hc hs (Sys.holds_of_heldBuf hi) (Sys.holds_of_heldBuf hj)
    · cases h
  | copyHome p k =>
    simp only [act] at h
    split at h
    · rename_i dst src rest hc hs
      obtain ⟨i, hi, h⟩ := bind_eq_some_iff.mp h
      obtain ⟨j, hj, h⟩ := bind_eq_some_iff.mp h
      obtain ⟨rfl, he⟩ := ite_none_right_eq_some.mp h
      cases he
      exact .copyHome hc hs (Sys.holds_of_heldBuf hi) (Sys.holds_of_heldBuf hj)
    · cases h
  | fillHead p k data =>
    simp only [act] at h
    split at h
    · rename_i dst rest hc hs
      obtain ⟨i, hi, h⟩ := bind_eq_some_iff.mp h
      obtain ⟨⟨rfl, rfl⟩, he⟩ := ite_none_right_eq_some.mp h
      cases he
      exact .fillHead hc hs (Sys.holds_of_heldBuf hi)
    · cases h

end Moves

/-- What an event leaves in a block: a process changed it, or `commit` wrote the
log.  Copying a logged block to its home leaves nothing new. -/
def leaves {P : Type} (lat : Key → Block) : Event P → Key → Block
  | .modify _ k data | .copyToLog _ k data | .fillHead _ k data => update lat k data
  | _ => lat

/-- The bytes most recently left in each block, or the initial contents `d`. -/
def lastLeft {P : Type} (d : Key → Block) (es : List (Event P)) : Key → Block :=
  es.foldl leaves d

end Xv6.Bio
