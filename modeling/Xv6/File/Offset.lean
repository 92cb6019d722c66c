/-
# `Xv6.File.Offset` — how the disk nodes find the offset of a file

`ideread` and `idewrite` are given an inode, not the open file, and `get_offset` looks
for the offset in `ftable`: it takes the first entry whose inode has the same number.
Closed entries keep `ip` and `off`, a file that is a pipe has whatever its entry had
before, and an entry that no inode file ever used has a null `ip`.

The tables of `Xv6.File.Table` get the two fields here, and the inode cache behind
them: `iget` gives an entry without references to another inode.  Which inodes are
disk nodes plays no part, so the results are for every file that is open on an inode.
-/
import Xv6.File.Refs
import Xv6.Lib.Wp

namespace Xv6.Files

open List Option
open Fs (FileId InodeId Fd NFILE NINODE NOFILE)
open Wp (ok_of_bind)
open Function (update update_of_ne update_self)

instance : NeZero NFILE := ⟨by decide⟩
instance : NeZero NINODE := ⟨by decide⟩
instance : NeZero NOFILE := ⟨by decide⟩

/-! ## Inodes and offsets -/

/-- `struct inode`, as far as `iget` and `get_offset` read it. -/
structure Node where
  inum : Nat
  ref : Nat

/-- The tables with the fields `ip` and `off` of each `struct file`; `none` is a null pointer.
`held` are the references to inodes that are in no file: working directories, and
those of calls that follow a path. -/
structure Opened (P : Type) where
  tables : State P
  ip : FileId → Option InodeId
  off : FileId → UInt32
  icache : InodeId → Node
  held : List InodeId

variable {P : Type} {r : Int32} {f : FileId}

def iget (icache : InodeId → Node) (inum : Nat) : Option (InodeId × (InodeId → Node)) :=
  match (List.finRange NINODE).find? fun i => 0 < (icache i).ref ∧ (icache i).inum = inum with
  | some i => some (i, update icache i ⟨inum, (icache i).ref + 1⟩)
  | none =>
    -- panic "iget: no inodes" if no entry is empty
    ((List.finRange NINODE).find? fun i => (icache i).ref = 0).map fun i =>
      (i, update icache i ⟨inum, 1⟩)

def iput (icache : InodeId → Node) (i : InodeId) : InodeId → Node :=
  update icache i { icache i with ref := (icache i).ref - 1 }

/-- `sys_open`, once the path has led to an inode number or to nothing. -/
def openInode [DecidableEq P] (s : Opened P) (p : P) (inum : Option Nat) (readable writable : Bool) :
    Option (Opened P) :=
  match inum with
  | none => some s
  | some inum => do
    let (ip, icache) ← iget s.icache inum
    match filealloc s.tables with
    | none => some { s with icache := iput icache ip }
    | some (f, t) =>
      match fdalloc t p f with
      | none =>
        let t ← (fileclose t f).toOption
        some { s with tables := t, icache := iput icache ip }
      | some (_, t) =>
        some { s with
          tables := t.modify f fun fl =>
            { fl with type := .inode, readable := readable, writable := writable }
          ip := update s.ip f (some ip)
          off := update s.off f 0
          icache := icache }

/-- How many of the files that a call has closed were open on entry `i`. -/
def released (s : Opened P) (t : State P) (i : InodeId) : Nat :=
  ((List.finRange NFILE).filter fun f =>
    (s.tables.file f).type = .inode ∧ (t.file f).type ≠ .inode ∧ s.ip f = some i).length

/-- `get_offset`, from one entry of `ftable` on; `none` where it follows a null pointer. -/
def scan (s : Opened P) (inum : Nat) : List FileId → Option Int32
  | [] => some (-1)
  | f :: fs =>
    match s.ip f with
    | none => none
    | some i => if (s.icache i).inum = inum then some (s.off f).toInt32 else scan s inum fs

def getOffset (s : Opened P) (inum : Nat) : Option Int32 := scan s inum (List.finRange NFILE)

/-! ## Runs -/

inductive Call (P : Type)
  | open (p : P) (inum : Option Nat) (readable writable : Bool)
  /-- A call of `Xv6.File.Table` other than `sys_open`. -/
  | other (e : Event P)
  /-- `fileread` or `filewrite` has transferred `r` bytes. -/
  | moved (p : P) (fd : Fd) (r : UInt32)
  /-- `lseek` has set the offset. -/
  | seek (p : P) (fd : Fd) (off : UInt32)
  /-- Other kernel code calls `iget`. -/
  | hold (inum : Nat)
  /-- Other kernel code calls `iput`. -/
  | drop (i : InodeId)

def Opened.step [DecidableEq P] (s : Opened P) : Call P → Option (Opened P)
  | .open p inum r w => if s.tables.proc p = .live then openInode s p inum r w else none
  | .other (.open _ _ _ _) => none
  | .other e =>
    (s.tables.step e).map fun t => { s with
      tables := t
      icache := fun i => { s.icache i with ref := (s.icache i).ref - released s t i } }
  | .moved p fd r =>
    match s.tables.ofile (p, fd) with
    | some f =>
      if (s.tables.file f).type = .inode then
        some { s with off := update s.off f (s.off f + r) }
      else none
    | none => none
  | .seek p fd off =>
    match s.tables.ofile (p, fd) with
    | some f => some { s with off := update s.off f off }
    | none => none
  | .hold inum => (iget s.icache inum).map fun r => { s with icache := r.2, held := r.1 :: s.held }
  | .drop i =>
    if i ∈ s.held then some { s with icache := iput s.icache i, held := s.held.erase i } else none

/-- No file is open, no entry of `ftable` has ever been used. -/
def Opened.init [DecidableEq P] (initproc : P) (pool : List Page) : Opened P where
  tables := .init initproc pool
  ip _ := none
  off _ := 0
  icache _ := ⟨0, 0⟩
  held := []

abbrev OpenedRuns [DecidableEq P] (initproc : P) (pool : List Page) : List (Call P) → Opened P → Prop :=
  Trace.Run Opened.step (Opened.init initproc pool)

/-! ## Runs of the tables -/

section Tables

variable [DecidableEq P] {s s' : Opened P}

theorem step_other {e : Event P} (h : s.step (.other e) = some s') :
    (∀ p found r w, e ≠ .open p found r w) ∧ s'.ip = s.ip ∧ s.tables.step e = some s'.tables := by
  have hmap : (∀ p found r w, e ≠ .open p found r w) ∧ (s.tables.step e).map (fun t => { s with
      tables := t
      icache := fun i => { s.icache i with ref := (s.icache i).ref - released s t i } }) = some s' := by
    cases e with
    | «open» p found r w => cases h
    | _ => exact ⟨nofun, h⟩
  obtain ⟨t, ht, h⟩ := map_eq_some_iff.mp hmap.2
  cases h
  exact ⟨hmap.1, rfl, ht⟩

end Tables

/-! ## Files that become open on an inode -/

/-- No file becomes one that is open on an inode. -/
def Sheds (s s' : State P) : Prop :=
  ∀ f, (s'.file f).type = .inode → (s.file f).type = .inode

namespace Sheds

variable {s s₁ s₂ : State P}

theorem refl (s : State P) : Sheds s s := fun _ h => h

theorem trans (h₁ : Sheds s s₁) (h₂ : Sheds s₁ s₂) : Sheds s s₂ := fun f h => h₁ f (h₂ f h)

theorem modify (s : State P) (f : FileId) {g : File → File}
    (hg : ∀ fl : File, (g fl).type = .inode → fl.type = .inode) : Sheds s (s.modify f g) := by
  intro k h
  rcases eq_or_ne k f with rfl | hne
  · rw [State.modify_self] at h
    exact hg _ h
  · rwa [State.modify_of_ne hne] at h

theorem of_file (h : s₁.file = s.file) : Sheds s s₁ := fun f hf => by rwa [h] at hf

theorem filealloc (h : filealloc s = some (f, s₁)) : Sheds s s₁ := by
  obtain ⟨g, -, h⟩ := map_eq_some_iff.mp h
  cases h
  exact modify s _ fun _ => id

theorem filedup (h : filedup s f = .ok s₁) : Sheds s s₁ := by
  rw [Files.filedup] at h
  split at h
  · cases h
  · cases h
    exact modify s _ fun _ => id

theorem fileclose (h : fileclose s f = .ok s₁) : Sheds s s₁ := by
  have hclose : Sheds s (s.modify f fun fl => { fl with ref := 0, type := .none }) :=
    modify s f fun _ h => by cases h
  simp only [Files.fileclose] at h
  split at h
  · cases h
  · split at h
    · cases h
      exact modify s _ fun _ => id
    · cases h
      split
      · exact hclose.trans (of_file (pipeclose_keeps ..).1)
      · exact hclose

theorem setPipe (s : State P) (f₀ f₁ : FileId) (q : Page) (free : List Page) :
    Sheds s (setPipe s f₀ f₁ q free) := by
  have h₀ : Sheds s (s.modify f₀ fun fl =>
      { fl with type := .pipe, readable := true, writable := false, pipe := q }) :=
    modify s f₀ fun _ h => by cases h
  have h₁ := h₀.trans (modify _ f₁ (g := fun fl =>
    { fl with type := .pipe, readable := false, writable := true, pipe := q }) fun _ h => by cases h)
  exact h₁.trans (of_file rfl)

theorem pipealloc {r : Option (FileId × FileId)} (h : pipealloc s = .ok (r, s₁)) : Sheds s s₁ := by
  rw [Files.pipealloc] at h
  split at h
  · cases h
    exact refl s
  · rename_i f₀ t₀ h₀
    have hs₀ := filealloc h₀
    split at h
    · obtain ⟨t, ht, h⟩ := ok_of_bind h
      cases h
      exact hs₀.trans (fileclose ht)
    · rename_i f₁ t₁ h₁
      have hs₁ := hs₀.trans (filealloc h₁)
      split at h
      · obtain ⟨t, ht, h⟩ := ok_of_bind h
        obtain ⟨t', ht', h⟩ := ok_of_bind h
        cases h
        exact hs₁.trans ((fileclose ht).trans (fileclose ht'))
      · cases h
        exact hs₁.trans (setPipe t₁ f₀ f₁ _ _)

section Calls

variable [DecidableEq P] {p : P} {fd : Fd}

theorem fdalloc (h : fdalloc s p f = some (fd, s₁)) : Sheds s s₁ := by
  obtain ⟨g, -, h⟩ := map_eq_some_iff.mp h
  cases h
  exact refl s

theorem sysDup (h : sysDup s p fd = .ok s₁) : Sheds s s₁ := by
  rw [Files.sysDup] at h
  split at h
  · cases h
    exact refl s
  · split at h
    · cases h
      exact refl s
    · rename_i hd
      exact (fdalloc hd).trans (filedup h)

theorem sysClose (h : sysClose s p fd = .ok s₁) : Sheds s s₁ := by
  rw [Files.sysClose] at h
  split at h
  · cases h
    exact refl s
  · exact fileclose (s := s.setFd p fd none) h

theorem sysPipe (h : sysPipe s p = .ok s₁) : Sheds s s₁ := by
  obtain ⟨⟨r, t⟩, ht, h⟩ := ok_of_bind h
  refine (pipealloc ht).trans ?_
  match r, h with
  | none, h =>
    cases h
    exact refl _
  | some (rf, wf), h =>
    simp only at h
    split at h
    · obtain ⟨t₁, h₁, h⟩ := ok_of_bind h
      exact (fileclose h₁).trans (fileclose h)
    · rename_i fd₀ t₀ h₀
      refine (fdalloc h₀).trans ?_
      split at h
      · obtain ⟨t₁, h₁, h⟩ := ok_of_bind h
        have hs : Sheds t₀ t₁ := fileclose (s := t₀.setFd p fd₀ none) h₁
        exact hs.trans (fileclose h)
      · rename_i h₁
        cases h
        exact fdalloc h₁

theorem dupFiles {q : P} : ∀ {fds : List Fd} {s : State P}, dupFiles p q fds s = .ok s₁ → Sheds s s₁
  | [], s, h => by
    cases h
    exact refl _
  | fd :: fds, s, h => by
    rw [Files.dupFiles] at h
    split at h
    · exact dupFiles h
    · obtain ⟨t, ht, h⟩ := ok_of_bind h
      have hs : Sheds t s₁ := dupFiles (s := t.setFd q fd _) h
      exact (filedup ht).trans hs

theorem fork {child : Option P} (h : fork s p child = .ok s₁) : Sheds s s₁ := by
  match child, h with
  | none, h =>
    cases h
    exact refl s
  | some q, h =>
    obtain ⟨t, ht, h⟩ := ok_of_bind h
    have hs : Sheds s t := dupFiles (s := { s with proc := update s.proc q .embryo }) ht
    cases h
    exact hs

theorem closeFiles : ∀ {fds : List Fd} {s : State P}, closeFiles p fds s = .ok s₁ → Sheds s s₁
  | [], s, h => by
    cases h
    exact refl _
  | fd :: fds, s, h => by
    rw [Files.closeFiles] at h
    split at h
    · exact closeFiles h
    · obtain ⟨t, ht, h⟩ := ok_of_bind h
      have hs : Sheds t s₁ := closeFiles (s := t.setFd p fd none) h
      exact (fileclose ht).trans hs

theorem exit (h : exit s p = .ok s₁) : Sheds s s₁ := by
  obtain ⟨t, ht, h⟩ := ok_of_bind h
  have hs := closeFiles ht
  cases h
  exact hs

/-- **Only `sys_open` makes a file that is open on an inode.** -/
theorem call {e : Event P} (he : ∀ p found r w, e ≠ .open p found r w) (h : s.call e = .ok s₁) :
    Sheds s s₁ := by
  cases e with
  | «open» p found r w => exact absurd rfl (he p found r w)
  | dup p fd => exact sysDup h
  | close p fd => exact sysClose h
  | pipe p => exact sysPipe h
  | fork p child => exact fork h
  | exit p => exact exit h
  | reap p =>
    cases h
    exact refl s
  | grab =>
    rw [State.call] at h
    split at h
    · cases h
      exact refl s
    · cases h
      exact refl s
  | give p =>
    cases h
    exact refl s

end Calls

end Sheds

/-! ## The search -/

section Search

variable {s : Opened P} {inum : Nat}

/-- The inode of entry `f` has that number. -/
def Opened.Names (s : Opened P) (inum : Nat) (f : FileId) : Prop :=
  ∃ i, s.ip f = some i ∧ (s.icache i).inum = inum

/-- The search passes entry `f`. -/
def Opened.Passes (s : Opened P) (inum : Nat) (f : FileId) : Prop :=
  ∃ i, s.ip f = some i ∧ (s.icache i).inum ≠ inum

theorem Opened.Names.not_passes (h : s.Names inum f) : ¬ s.Passes inum f := by
  rintro ⟨i, hi, hne⟩
  obtain ⟨j, hj, he⟩ := h
  rw [hi] at hj
  cases hj
  exact hne he

/-- Among entries in order, the search ends at the first one it does not pass. -/
theorem scan_eq_some : ∀ {l : List FileId}, l.Pairwise (· < ·) → (∃ f ∈ l, s.Names inum f) →
      (scan s inum l = some r ↔
        ∃ j ∈ l, s.Names inum j ∧ (∀ k ∈ l, k < j → s.Passes inum k) ∧ (s.off j).toInt32 = r)
  | [], _, ⟨_, hf, _⟩ => absurd hf (List.not_mem_nil)
  | g :: l, hl, hf => by
    obtain ⟨hg, hl⟩ := pairwise_cons.mp hl
    -- where entry `g` is not passed, nothing behind it counts
    have first : ∀ {j}, j ∈ g :: l → (∀ k ∈ g :: l, k < j → s.Passes inum k) → ¬ s.Passes inum g → j = g := by
      intro j hj hpass hstop
      rcases mem_cons.mp hj with rfl | hj
      · rfl
      · exact absurd (hpass g mem_cons_self (hg j hj)) hstop
    rw [scan]
    cases hi : s.ip g with
    | none =>
      refine ⟨nofun, fun ⟨j, hj, hn, hpass, _⟩ => ?_⟩
      obtain rfl := first hj hpass fun ⟨i, h, _⟩ => by
        rw [hi] at h
        cases h
      obtain ⟨i, h, -⟩ := hn
      rw [hi] at h
      cases h
    | some i =>
      simp only
      split
      · rename_i he
        have hn : s.Names inum g := ⟨i, hi, he⟩
        constructor
        · intro h
          refine ⟨g, mem_cons_self, hn, fun k hk hlt => ?_, Option.some.inj h⟩
          rcases mem_cons.mp hk with rfl | hk
          · exact absurd hlt (Fin.lt_irrefl _)
          · exact absurd (hg k hk) (Fin.lt_asymm hlt)
        · rintro ⟨j, hj, -, hpass, rfl⟩
          rw [first hj hpass hn.not_passes]
      · rename_i hne
        have hp : s.Passes inum g := ⟨i, hi, hne⟩
        have rest : ∀ {j}, j ∈ g :: l → s.Names inum j → j ∈ l := by
          intro j hj hn
          rcases mem_cons.mp hj with rfl | hj
          · exact absurd hp hn.not_passes
          · exact hj
        obtain ⟨f, hf, hn⟩ := hf
        rw [scan_eq_some hl ⟨f, rest hf hn, hn⟩]
        constructor
        · rintro ⟨j, hj, hn, hpass, hr⟩
          refine ⟨j, mem_cons_of_mem g hj, hn, fun k hk hlt => ?_, hr⟩
          rcases mem_cons.mp hk with rfl | hk
          · exact hp
          · exact hpass k hk hlt
        · rintro ⟨j, hj, hn, hpass, hr⟩
          exact ⟨j, rest hj hn, hn, fun k hk hlt => hpass k (mem_cons_of_mem g hk) hlt, hr⟩

/-- **What `get_offset` returns** for an inode that some entry names: the offset of the first such
entry, unless an entry before it has a null pointer. -/
theorem getOffset_eq_some (hf : s.Names inum f) :
    getOffset s inum = some r ↔
      ∃ j, s.Names inum j ∧ (∀ k < j, s.Passes inum k) ∧ (s.off j).toInt32 = r := by
  rw [getOffset, scan_eq_some (pairwise_lt_finRange NFILE) ⟨f, mem_finRange f, hf⟩]
  simp only [mem_finRange, true_and, true_implies]

end Search

/-! ## Reachable tables -/

section Runs

variable [DecidableEq P] {s s' : Opened P}

/-- A file that is open on an inode has one. -/
def Opened.Linked (s : Opened P) : Prop := ∀ f, (s.tables.file f).type = .inode → (s.ip f).isSome

theorem Opened.Linked.openInode (h : s.Linked) {p : P} {inum : Option Nat} {r w : Bool}
    (ho : openInode s p inum r w = some s') : s'.Linked := by
  cases inum with
  | none =>
    cases ho
    exact h
  | some inum =>
    obtain ⟨⟨ip, icache⟩, -, ho⟩ := bind_eq_some_iff.mp ho
    simp only at ho
    split at ho
    · cases ho
      exact h
    · rename_i f t ht
      split at ho
      · obtain ⟨t', ht', ho⟩ := bind_eq_some_iff.mp ho
        cases ho
        have hclose : Files.fileclose t f = .ok t' := by
          cases hc : Files.fileclose t f with
          | error e => rw [hc] at ht'; cases ht'
          | ok t₁ =>
            rw [hc] at ht'
            cases ht'
            rfl
        exact fun g hg => h g ((Sheds.filealloc ht).trans (Sheds.fileclose hclose) g hg)
      · rename_i fd t' hd
        cases ho
        intro g hg
        rcases eq_or_ne g f with rfl | hne
        · exact isSome_iff_exists.mpr ⟨ip, update_self ..⟩
        · simp only [State.modify_of_ne hne, update_of_ne hne] at hg ⊢
          exact h g ((Sheds.filealloc ht).trans (Sheds.fdalloc hd) g hg)

theorem Opened.Linked.step (h : s.Linked) {c : Call P} (hs : s.step c = some s') : s'.Linked := by
  cases c with
  | «open» p inum r w =>
    rw [Opened.step] at hs
    split at hs
    · exact h.openInode hs
    · cases hs
  | other e =>
    obtain ⟨he, hip, ht⟩ := step_other hs
    rw [State.step] at ht
    split at ht
    · cases hc : s.tables.call e with
      | error x => rw [hc] at ht; cases ht
      | ok t =>
        rw [hc] at ht
        cases ht
        intro f hf
        rw [hip]
        exact h f (Sheds.call he hc f hf)
    · cases ht
  | moved p fd r =>
    rw [Opened.step] at hs
    split at hs
    · split at hs
      · cases hs
        exact h
      · cases hs
    · cases hs
  | seek p fd off =>
    rw [Opened.step] at hs
    split at hs
    · cases hs
      exact h
    · cases hs
  | hold inum =>
    obtain ⟨r, -, hs⟩ := map_eq_some_iff.mp hs
    cases hs
    exact h
  | drop i =>
    rw [Opened.step] at hs
    split at hs
    · cases hs
      exact h
    · cases hs

theorem toInt32_inj {a b : UInt32} : a.toInt32 = b.toInt32 ↔ a = b :=
  ⟨fun h => congrArg Int32.toUInt32 h, fun h => congrArg UInt32.toInt32 h⟩

theorem Opened.Linked.of_run {initproc : P} {pool : List Page} {cs : List (Call P)}
    (h : OpenedRuns initproc pool cs s) : s.Linked := by
  induction h with
  | nil => exact fun _ hf => by cases hf
  | snoc c _ hs ih => exact ih.step hs

/-- **When a disk node is read at the offset of the file.**  In every reachable table, for every file
that is open on an inode, `get_offset` follows no null pointer and returns the offset of the file if
and only if the first entry whose inode is null or has the same number is not null and has the same
offset.  So it does if the files before it are all open, on inodes of other numbers. -/
theorem get_offset_of_file {initproc : P} {pool : List Page} {cs : List (Call P)}
    (h : OpenedRuns initproc pool cs s) {f : FileId} (hf : (s.tables.file f).type = .inode) :
    ∃ i, s.ip f = some i ∧
      (getOffset s (s.icache i).inum = some (s.off f).toInt32 ↔
        ∃ j, s.Names (s.icache i).inum j ∧ (∀ k < j, s.Passes (s.icache i).inum k) ∧
          s.off j = s.off f) ∧
      ((∀ k < f, (s.tables.file k).type = .inode ∧ ¬ s.Names (s.icache i).inum k) →
        getOffset s (s.icache i).inum = some (s.off f).toInt32) := by
  have hlinked := Opened.Linked.of_run h
  obtain ⟨i, hi⟩ := isSome_iff_exists.mp (hlinked f hf)
  have hnames : s.Names (s.icache i).inum f := ⟨i, hi, rfl⟩
  refine ⟨i, hi, ?_, fun hbefore => ?_⟩
  · rw [getOffset_eq_some hnames]
    simp only [toInt32_inj]
  · refine (getOffset_eq_some hnames).mpr ⟨f, hnames, fun k hk => ?_, rfl⟩
    obtain ⟨hopen, hother⟩ := hbefore k hk
    obtain ⟨m, hm⟩ := isSome_iff_exists.mp (hlinked k hopen)
    exact ⟨m, hm, fun he => hother ⟨m, hm, he⟩⟩

/-- The first file of a run, /disk1 read up to byte 512. -/
theorem get_offset_of_file_first :
    ∃ s, OpenedRuns () [] [.open () (some 20) true true, .moved () 0 512] s ∧
      getOffset s 20 = some 512 := by
  obtain ⟨s, hrun, htype, hip, hinum, hoff⟩ : ∃ s, OpenedRuns () []
      [.open () (some 20) true true, .moved () 0 512] s ∧
      (s.tables.file 0).type = .inode ∧ s.ip 0 = some 0 ∧ (s.icache 0).inum = 20 ∧ s.off 0 = 512 :=
    Trace.exists_of_exec (by decide +kernel)
  obtain ⟨i, hi, -, hplain⟩ := get_offset_of_file hrun htype
  have hget := hplain fun k hk => absurd hk (Nat.not_lt_zero _)
  rw [hip] at hi
  cases hi
  rw [hinum, hoff] at hget
  exact ⟨s, hrun, hget⟩

/-- **Three ways to get another offset.**  /disk1 is open twice: the second file is read at the offset
of the first, and still is after the first is closed.  Behind a pipe a null pointer is followed. -/
theorem get_offset_of_other :
    (∃ s, OpenedRuns () [] [.open () (some 20) true true, .moved () 0 512,
        .open () (some 20) true true] s ∧
      s.tables.ofile ((), 1) = some 1 ∧ (s.tables.file 1).type = .inode ∧
      s.ip 1 = some 0 ∧ (s.icache 0).inum = 20 ∧ s.off 1 = 0 ∧ getOffset s 20 = some 512) ∧
    (∃ s, OpenedRuns () [] [.open () (some 20) true true, .moved () 0 512,
        .open () (some 20) true true, .other (.close () 0)] s ∧
      (s.tables.file 0).type = .none ∧
      s.tables.ofile ((), 1) = some 1 ∧ (s.tables.file 1).type = .inode ∧
      s.ip 1 = some 0 ∧ (s.icache 0).inum = 20 ∧ s.off 1 = 0 ∧ getOffset s 20 = some 512) ∧
    ∃ s, OpenedRuns () [4096] [.other (.pipe ()), .open () (some 20) true true] s ∧
      s.tables.ofile ((), 2) = some 2 ∧ (s.tables.file 2).type = .inode ∧
      s.ip 2 = some 0 ∧ (s.icache 0).inum = 20 ∧ getOffset s 20 = none :=
  ⟨Trace.exists_of_exec (by decide +kernel), Trace.exists_of_exec (by decide +kernel),
    Trace.exists_of_exec (by decide +kernel)⟩

end Runs

end Xv6.Files
