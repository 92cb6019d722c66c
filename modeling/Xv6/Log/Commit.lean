/-
# `Xv6.Log.Commit` — commit, recovery, and a power cut at any write

`log.c` writes a transaction in four phases: the cached blocks into the log
(`write_log`), the header (`write_head`, "the true point at which the current
transaction commits"), the blocks to their homes (`install_trans`) and the
cleared header.  After a power cut `recover_from_log` reads the header, replays
`install_trans` and clears the header, and may itself be cut.

Every phase only *issues single-block writes*, so a run of `commit` is its list
of writes and the disk after a power cut is the disk after a prefix of that
list.  Two assumptions about the device are built in: a one-block write is
atomic, and writes reach the disk in the order issued.

The proof needs two facts about a disk, and recovery moves between them:

    Settled D e     the header says n = 0, and outside the log e is D
    Committed e     the header lists the transaction, the log holds its blocks,
                    and e differs from the old disk only in home and log blocks

Every prefix of `write_log` leaves the disk `Settled` at the old contents; the
header write makes it `Committed`; replaying any number of home writes keeps it
so, since a home block may hold anything while the log holds the truth; the
last header write makes it `Settled` at the new contents.
-/
import Xv6.Disk
import Mathlib.Data.List.GetD
import Mathlib.Tactic.IntervalCases

namespace Xv6

open Writes List
open Function (update update_of_ne update_self)

/-! ## The log header -/

/-- `struct logheader` in memory: the first `n` entries of `block`, of which there
are at most `LOGSIZE`. -/
@[ext] structure LogHeader where
  block : List UInt32
  fits : block.length ≤ LOGSIZE

namespace LogHeader

/-- `lh.n`. -/
def n (lh : LogHeader) : Nat := lh.block.length

/-- `lh.n = 0`. -/
def empty : LogHeader := ⟨[], Nat.zero_le _⟩

/-- `lh.block[i]`. -/
def blockAt (lh : LogHeader) (i : Nat) : Nat := (lh.block.getD i 0).toNat

/-- The header laid over the contents of the header block: `n` in word 0, the
entries after it, the rest of the block as it was. -/
def encode (lh : LogHeader) (hb : Block) : Block :=
  (List.range lh.n).foldl (fun hb i => hb.setWord (i + 1) (lh.block.getD i 0))
    (hb.setWord 0 (UInt32.ofNat lh.n))

/-- `n` of the header in a block, a C `int`. -/
def headN (b : Block) : Int := (b.word 0).toInt32.toInt

/-- The header read from a block.  `none` is a header that claims more than
`LOGSIZE` entries, which would overrun `log.lh.block`. -/
def decode (b : Block) : Option LogHeader :=
  if h : (headN b).toNat ≤ LOGSIZE then
    some ⟨(List.range (headN b).toNat).map (fun i => b.word (i + 1)), by simpa using h⟩
  else none

end LogHeader

/-! ## The machine and its programs -/

/-- Where the log is: `log.start`, `log.size`. -/
structure Log where
  start : Nat
  size : Nat

/-- The blocks of the log area, header included. -/
def Log.Inside (l : Log) (b : Nat) : Prop := l.start ≤ b ∧ b < l.start + l.size

instance (l : Log) (b : Nat) : Decidable (l.Inside b) := inferInstanceAs (Decidable (_ ∧ _))

/-- The machine as the log sees it: the disk, the valid buffers, `log.lh`, and
the writes issued so far. -/
structure Mach where
  disk : Disk
  cache : Nat → Option Block
  lh : LogHeader
  issued : List (Nat × Block)

namespace Mach

/-- The contents `bread` returns: the cached ones, else the disk's. -/
def bread (m : Mach) (b : Nat) : Block := (m.cache b).getD (m.disk b)

/-- `bwrite` of buffer `b` holding `data`: written through to the disk. -/
def bwrite (m : Mach) (b : Nat) (data : Block) : Mach :=
  { m with
    disk := update m.disk b data
    cache := update m.cache b (some data)
    issued := m.issued ++ [(b, data)] }

/-- The machine after a reboot: nothing cached, nothing issued. -/
def boot (d : Disk) : Mach := ⟨d, fun _ => none, LogHeader.empty, []⟩

end Mach

section Programs
variable (l : Log)

/-- Copy modified blocks from cache to log. -/
def writeLog (m : Mach) : Mach :=
  (List.range m.lh.n).foldl
    (fun m tail => m.bwrite (l.start + tail + 1) (m.bread (m.lh.blockAt tail))) m

/-- Copy committed blocks from log to their home location. -/
def installTrans (m : Mach) : Mach :=
  (List.range m.lh.n).foldl
    (fun m tail => m.bwrite (m.lh.blockAt tail) (m.bread (l.start + tail + 1))) m

/-- Write the in-memory log header to disk. -/
def writeHead (m : Mach) : Mach :=
  m.bwrite l.start (m.lh.encode (m.bread l.start))

/-- Read the log header from disk into the in-memory log header. -/
def readHead (m : Mach) : Option Mach :=
  (LogHeader.decode (m.bread l.start)).map (fun lh => { m with lh := lh })

def commit (m : Mach) : Mach :=
  if 0 < m.lh.n then
    let m := writeHead l (writeLog l m)
    let m := installTrans l m
    writeHead l { m with lh := LogHeader.empty }
  else m

def recoverFromLog (m : Mach) : Option Mach :=
  (readHead l m).map (fun m =>
    let m := installTrans l m
    writeHead l { m with lh := LogHeader.empty })

/-- `Recovers l d d'`: booting on disk `d`, recovery is cut any number of times,
each time after some of its writes, and then completes, leaving `d'`. -/
inductive Recovers : Disk → Disk → Prop
  | completes {d : Disk} {m : Mach} :
      recoverFromLog l (Mach.boot d) = some m → Recovers d (apply m.issued d)
  | cut {d d' : Disk} {m : Mach} (k : Nat) :
      recoverFromLog l (Mach.boot d) = some m →
      Recovers (apply (m.issued.take k) d) d' → Recovers d d'

end Programs

/-! ## Issuing writes

A phase is a fold of `bwrite`s; `emit` is the same fold over an explicit list.
What `bread` returns and what the disk holds move by the same writes. -/

namespace Mach

/-- Issue a list of writes. -/
def emit (m : Mach) (ws : List (Nat × Block)) : Mach :=
  ws.foldl (fun m w => m.bwrite w.1 w.2) m

@[simp] theorem bread_bwrite (m : Mach) (b : Nat) (data : Block) :
    (m.bwrite b data).bread = update m.bread b data := by
  funext x
  by_cases h : x = b
  · subst h; simp [bread, bwrite]
  · simp [bread, bwrite, update_of_ne h]

theorem emit_append (m : Mach) (ws vs : List (Nat × Block)) :
    m.emit (ws ++ vs) = (m.emit ws).emit vs := foldl_append

@[simp] theorem emit_lh (m : Mach) (ws : List (Nat × Block)) : (m.emit ws).lh = m.lh := by
  induction ws generalizing m with
  | nil => rfl
  | cons w ws ih => exact ih (m.bwrite w.1 w.2)

@[simp] theorem emit_issued (m : Mach) (ws : List (Nat × Block)) :
    (m.emit ws).issued = m.issued ++ ws := by
  induction ws generalizing m with
  | nil => simp [emit]
  | cons w ws ih =>
    have := ih (m.bwrite w.1 w.2)
    simpa [emit, bwrite, append_assoc] using this

@[simp] theorem emit_bread (m : Mach) (ws : List (Nat × Block)) :
    (m.emit ws).bread = apply ws m.bread := by
  induction ws generalizing m with
  | nil => rfl
  | cons w ws ih =>
    have := ih (m.bwrite w.1 w.2)
    rw [bread_bwrite] at this
    exact this

@[simp] theorem boot_bread (d : Disk) : (boot d).bread = d := by
  funext b; rfl

end Mach

/-! ## The header round trip -/

namespace LogHeader

/-- The words `encode` leaves in a header block. -/
theorem word_encode_fold (lh : LogHeader) (hb : Block) {k : Nat} (hk : k ≤ LOGSIZE) (j : Nat) :
    ((List.range k).foldl (fun hb i => hb.setWord (i + 1) (lh.block.getD i 0)) hb).word j
      = if 1 ≤ j ∧ j ≤ k then lh.block.getD (j - 1) 0 else hb.word j := by
  induction k with
  | zero => simp only [range_zero, foldl_nil]; rw [if_neg (by omega)]
  | succ k ih =>
    rw [range_succ, foldl_append, foldl_cons, foldl_nil]
    by_cases hj : k + 1 = j
    · subst hj
      rw [Block.word_setWord_same _ _ (by simp only [LOGSIZE, MAXOPBLOCKS, BSIZE] at *; omega),
        if_pos (by omega), Nat.add_sub_cancel]
    · rw [Block.word_setWord_ne _ _ hj, ih (by omega)]
      by_cases hj' : 1 ≤ j ∧ j ≤ k
      · rw [if_pos hj', if_pos (by omega)]
      · rw [if_neg hj', if_neg (by omega)]

theorem word_zero_encode (lh : LogHeader) (hb : Block) :
    (lh.encode hb).word 0 = UInt32.ofNat lh.n := by
  rw [encode, word_encode_fold lh _ (k := lh.n) lh.fits, if_neg (by omega),
    Block.word_setWord_same _ _ (by simp [BSIZE])]

theorem word_succ_encode (lh : LogHeader) (hb : Block) {i : Nat} (hi : i < lh.n) :
    (lh.encode hb).word (i + 1) = lh.block.getD i 0 := by
  rw [encode, word_encode_fold lh _ (k := lh.n) lh.fits, if_pos (by omega), Nat.add_sub_cancel]

theorem headN_of_word {b : Block} {k : Nat} (hk : k ≤ LOGSIZE)
    (h : b.word 0 = UInt32.ofNat k) : headN b = k := by
  have hk' : k ≤ 30 := hk
  rw [headN, h]
  interval_cases k <;> rfl

/-- **Round trip.**  The header read back is the header written. -/
theorem decode_encode (lh : LogHeader) (hb : Block) : decode (lh.encode hb) = some lh := by
  have hN : headN (lh.encode hb) = lh.n := headN_of_word lh.fits (word_zero_encode lh hb)
  have hN' : (headN (lh.encode hb)).toNat = lh.n := by rw [hN]; rfl
  have hblock : (List.range lh.n).map (fun i => (lh.encode hb).word (i + 1)) = lh.block := by
    apply ext_getElem (by simp [n])
    intro i h₁ h₂
    rw [getElem_map, getElem_range, word_succ_encode lh hb h₂, getD_eq_getElem _ _ h₂]
  have hfits := lh.fits
  unfold decode
  rw [dif_pos (by rw [hN']; exact hfits)]
  refine congrArg some (LogHeader.ext ?_)
  simp only [hN', hblock]

theorem decode_of_headN_zero {b : Block} (h : headN b = 0) : decode b = some empty := by
  unfold decode
  simp [h, empty]

theorem headN_encode_empty (hb : Block) : headN (empty.encode hb) = 0 :=
  headN_of_word (Nat.zero_le _) (word_zero_encode empty hb)

end LogHeader

/-! ## The writes of each phase -/

section Phases
variable (l : Log) (lh : LogHeader) (new : Nat → Block)

/-- The writes of `write_log`: entry `i`'s block into log block `i`. -/
def logWrites : List (Nat × Block) :=
  (List.range lh.n).map (fun i => (l.start + i + 1, new (lh.blockAt i)))

/-- The writes of `install_trans`: each home block gets its new contents. -/
def homeWrites : List (Nat × Block) :=
  (List.range lh.n).map (fun i => (lh.blockAt i, new (lh.blockAt i)))

/-- The home blocks of a header. -/
def LogHeader.Home (b : Nat) : Prop := ∃ i < lh.n, lh.blockAt i = b

variable {l lh new} {b : Nat}

theorem LogHeader.home_iff : lh.Home b ↔ b ∈ lh.block.map UInt32.toNat := by
  constructor
  · rintro ⟨i, hi, rfl⟩
    rw [LogHeader.blockAt, getD_eq_getElem _ _ hi]
    exact mem_map_of_mem (getElem_mem hi)
  · intro h
    obtain ⟨c, hc, rfl⟩ := mem_map.mp h
    obtain ⟨i, hi, rfl⟩ := mem_iff_getElem.mp hc
    exact ⟨i, hi, by rw [LogHeader.blockAt, getD_eq_getElem _ _ hi]⟩

theorem map_fst_homeWrites : (homeWrites lh new).map Prod.fst = lh.block.map UInt32.toNat := by
  apply ext_getElem (by simp [homeWrites, LogHeader.n])
  intro i h₁ h₂
  have hi : i < lh.block.length := by simpa using h₂
  simp [homeWrites, LogHeader.blockAt, List.getElem?_eq_getElem hi]

theorem nodup_homeWrites (hnd : lh.block.Nodup) : ((homeWrites lh new).map Prod.fst).Nodup := by
  rw [map_fst_homeWrites]
  exact hnd.map (fun _ _ h => UInt32.toNat_inj.mp h)

theorem nodup_logWrites : ((logWrites l lh new).map Prod.fst).Nodup := by
  rw [logWrites, map_map]
  exact nodup_range.map (fun i j h => by simpa using h)

theorem apply_homeWrites_home (hnd : lh.block.Nodup) (d : Disk) (hb : lh.Home b) :
    apply (homeWrites lh new) d b = new b := by
  obtain ⟨i, hi, rfl⟩ := hb
  exact apply_of_mem (nodup_homeWrites hnd)
    (mem_map.mpr ⟨i, mem_range.mpr hi, rfl⟩)

theorem apply_homeWrites_other (d : Disk) (hb : ¬ lh.Home b) :
    apply (homeWrites lh new) d b = d b := by
  refine apply_of_not_mem ?_
  rwa [map_fst_homeWrites, ← LogHeader.home_iff]

/-- `write_log` issues `logWrites`: no home block is in the log, so each read
sees the contents cached when the phase began. -/
theorem writeLog_eq (m : Mach) (hlh : m.lh = lh) (hout : ∀ b, lh.Home b → ¬ l.Inside b)
    (hsz : lh.n < l.size) : writeLog l m = m.emit (logWrites l lh m.bread) := by
  have key : ∀ k ≤ lh.n,
      (List.range k).foldl (fun m tail =>
          m.bwrite (l.start + tail + 1) (m.bread (m.lh.blockAt tail))) m
        = m.emit ((List.range k).map (fun i => (l.start + i + 1, m.bread (lh.blockAt i)))) := by
    intro k
    induction k with
    | zero => intro _; rfl
    | succ k ih =>
      intro hk
      rw [range_succ, foldl_append, map_append, Mach.emit_append, ih (by omega)]
      simp only [foldl_cons, foldl_nil, map_cons, map_nil, Mach.emit_lh, Mach.emit_bread, hlh]
      rw [apply_of_not_mem]
      · rfl
      · intro h
        obtain ⟨w, hw, hwb⟩ := mem_map.mp h
        obtain ⟨i, hi, rfl⟩ := mem_map.mp hw
        have hi' := mem_range.mp hi
        have := hout (lh.blockAt k) ⟨k, by omega, rfl⟩
        simp only [Log.Inside] at this hwb
        omega
  rw [writeLog, hlh]
  exact key lh.n le_rfl

/-- `install_trans` issues `homeWrites` when the log holds the new contents. -/
theorem installTrans_eq (m : Mach) (hlh : m.lh = lh) (hout : ∀ b, lh.Home b → ¬ l.Inside b)
    (hsz : lh.n < l.size) (hlog : ∀ i < lh.n, m.bread (l.start + i + 1) = new (lh.blockAt i)) :
    installTrans l m = m.emit (homeWrites lh new) := by
  have key : ∀ k ≤ lh.n,
      (List.range k).foldl (fun m tail =>
          m.bwrite (m.lh.blockAt tail) (m.bread (l.start + tail + 1))) m
        = m.emit ((List.range k).map (fun i => (lh.blockAt i, new (lh.blockAt i)))) := by
    intro k
    induction k with
    | zero => intro _; rfl
    | succ k ih =>
      intro hk
      rw [range_succ, foldl_append, map_append, Mach.emit_append, ih (by omega)]
      simp only [foldl_cons, foldl_nil, map_cons, map_nil, Mach.emit_lh, Mach.emit_bread, hlh]
      rw [apply_of_not_mem, hlog k (by omega)]
      · rfl
      · intro h
        obtain ⟨w, hw, hwb⟩ := mem_map.mp h
        obtain ⟨i, hi, rfl⟩ := mem_map.mp hw
        have hi' := mem_range.mp hi
        have := hout (lh.blockAt i) ⟨i, by omega, rfl⟩
        simp only [Log.Inside] at this hwb
        omega
  rw [installTrans, hlh]
  exact key lh.n le_rfl

end Phases

/-! ## The two disks a power cut can leave -/

section Recovery
variable (l : Log) (lh : LogHeader) (new : Nat → Block)

/-- The log is empty and, outside the log area, the disk is `D`. -/
structure Settled (D e : Disk) : Prop where
  head : LogHeader.headN (e l.start) = 0
  home : ∀ b, ¬ l.Inside b → e b = D b

/-- The transaction is in the log; its home blocks may hold anything. -/
structure Committed (d e : Disk) : Prop where
  head : LogHeader.decode (e l.start) = some lh
  log : ∀ i < lh.n, e (l.start + i + 1) = new (lh.blockAt i)
  other : ∀ b, ¬ l.Inside b → ¬ lh.Home b → e b = d b

variable {l lh new} {D e : Disk}

theorem Log.inside_start (h : 0 < l.size) : l.Inside l.start := by
  simp only [Log.Inside]; omega

/-- Writing inside the log area, header apart, keeps a settled disk settled. -/
theorem Settled.apply_log (h : Settled l D e) {ws : List (Nat × Block)}
    (hws : ∀ w ∈ ws, l.start < w.1 ∧ w.1 < l.start + l.size) : Settled l D (apply ws e) := by
  have hne : ∀ b, ¬ l.Inside b ∨ b = l.start → b ∉ ws.map Prod.fst := by
    intro b hb hmem
    obtain ⟨w, hw, rfl⟩ := mem_map.mp hmem
    have := hws w hw
    rcases hb with hb | hb
    · simp only [Log.Inside] at hb; omega
    · omega
  refine ⟨?_, fun b hb => ?_⟩
  · rw [apply_of_not_mem (hne _ (.inr rfl))]; exact h.head
  · rw [apply_of_not_mem (hne _ (.inl hb))]; exact h.home b hb

/-- Writing an empty header settles the disk at whatever it holds. -/
theorem settled_clear (hsz : 0 < l.size) (h : ∀ b, ¬ l.Inside b → e b = D b) (hb : Block) :
    Settled l D (update e l.start (LogHeader.empty.encode hb)) := by
  refine ⟨?_, fun b hout => ?_⟩
  · rw [update_self]; exact LogHeader.headN_encode_empty hb
  · have hne : b ≠ l.start := by rintro rfl; exact hout (Log.inside_start hsz)
    rw [update_of_ne hne, h b hout]

/-- Home writes keep the transaction in the log. -/
theorem Committed.apply_home {d : Disk} (h : Committed l lh new d e)
    (hout : ∀ b, lh.Home b → ¬ l.Inside b) (hsz : lh.n < l.size) (k : Nat) :
    Committed l lh new d (apply ((homeWrites lh new).take k) e) := by
  have hne : ∀ b, l.Inside b ∨ ¬ lh.Home b →
      b ∉ ((homeWrites lh new).take k).map Prod.fst := by
    intro b hb hmem
    obtain ⟨w, hw, rfl⟩ := mem_map.mp hmem
    obtain ⟨i, hi, rfl⟩ := mem_map.mp (mem_of_mem_take hw)
    have hh : lh.Home (lh.blockAt i) := ⟨i, mem_range.mp hi, rfl⟩
    exact hb.elim (hout _ hh) (fun h => h hh)
  refine ⟨?_, fun i hi => ?_, fun b hb hh => ?_⟩
  · rw [apply_of_not_mem (hne _ (.inl (Log.inside_start (by omega))))]; exact h.head
  · rw [apply_of_not_mem (hne _ (.inl ⟨by omega, by omega⟩))]; exact h.log i hi
  · rw [apply_of_not_mem (hne _ (.inr hh))]; exact h.other b hb hh

/-- All home writes done and the header cleared: settled at the new contents. -/
theorem Committed.clear {d : Disk} (h : Committed l lh new d e) (hnd : lh.block.Nodup)
    (hsz : 0 < l.size) (hb : Block) :
    Settled l (apply (homeWrites lh new) d)
      (update (apply (homeWrites lh new) e) l.start (LogHeader.empty.encode hb)) := by
  refine settled_clear hsz (fun b hout => ?_) hb
  by_cases hh : lh.Home b
  · rw [apply_homeWrites_home hnd _ hh, apply_homeWrites_home hnd _ hh]
  · rw [apply_homeWrites_other _ hh, apply_homeWrites_other _ hh, h.other b hout hh]

/-! ### Recovery -/

/-- On a settled disk recovery writes the cleared header and nothing else. -/
theorem recover_settled (h : Settled l D e) :
    ∃ m hb, recoverFromLog l (Mach.boot e) = some m ∧
      m.issued = [(l.start, LogHeader.empty.encode hb)] := by
  have hd : LogHeader.decode ((Mach.boot e).bread l.start) = some LogHeader.empty := by
    rw [Mach.boot_bread]; exact LogHeader.decode_of_headN_zero h.head
  refine ⟨writeHead l (Mach.boot e), e l.start, ?_, ?_⟩
  · simp only [recoverFromLog, readHead, hd, Option.map_some]
    rfl
  · simp only [writeHead, Mach.bwrite, Mach.boot_bread]
    rfl

/-- On a committed disk recovery replays the home writes and clears the header. -/
theorem recover_committed {d : Disk} (h : Committed l lh new d e)
    (hout : ∀ b, lh.Home b → ¬ l.Inside b) (hsz : lh.n < l.size) :
    ∃ m hb, recoverFromLog l (Mach.boot e) = some m ∧
      m.issued = homeWrites lh new ++ [(l.start, LogHeader.empty.encode hb)] := by
  have hd : LogHeader.decode ((Mach.boot e).bread l.start) = some lh := by
    rw [Mach.boot_bread]; exact h.head
  have hinst : installTrans l ⟨e, fun _ => none, lh, []⟩ =
      Mach.emit ⟨e, fun _ => none, lh, []⟩ (homeWrites lh new) :=
    installTrans_eq _ rfl hout hsz (fun i hi => h.log i hi)
  let m : Mach := Mach.emit ⟨e, fun _ => none, lh, []⟩ (homeWrites lh new)
  refine ⟨writeHead l { m with lh := LogHeader.empty }, m.bread l.start, ?_, ?_⟩
  · rw [recoverFromLog, readHead, hd, Option.map_some, Option.map_some]
    simp only [Mach.boot, hinst]
    rfl
  · simp only [writeHead, Mach.bwrite, m, Mach.emit_issued, nil_append]
    rfl

/-- **Recovery keeps a settled disk settled**, however often it is cut. -/
theorem Recovers.settled {e' : Disk} (hr : Recovers l e e') (hsz : 0 < l.size) (h : Settled l D e) :
    Settled l D e' := by
  induction hr with
  | completes hm =>
    obtain ⟨m, hb, hm', hw⟩ := recover_settled h
    rw [hm] at hm'; cases hm'
    rw [hw]
    exact settled_clear hsz h.home hb
  | cut k hm _ ih =>
    obtain ⟨m, hb, hm', hw⟩ := recover_settled h
    rw [hm] at hm'; cases hm'
    apply ih
    rw [hw]
    cases k with
    | zero => exact h
    | succ k => simpa using settled_clear hsz h.home hb

/-- **Recovery settles a committed disk at the new contents**, however often it
is cut. -/
theorem Recovers.committed {d e' : Disk} (hr : Recovers l e e')
    (hout : ∀ b, lh.Home b → ¬ l.Inside b) (hsz : lh.n < l.size) (hnd : lh.block.Nodup)
    (h : Committed l lh new d e) : Settled l (apply (homeWrites lh new) d) e' := by
  induction hr with
  | completes hm =>
    obtain ⟨m, hb, hm', hw⟩ := recover_committed h hout hsz
    rw [hm] at hm'; cases hm'
    rw [hw, apply_append]
    exact h.clear hnd (by omega) hb
  | cut k hm hr ih =>
    obtain ⟨m, hb, hm', hw⟩ := recover_committed h hout hsz
    rw [hm] at hm'; cases hm'
    rw [hw] at hr ih
    rcases take_append_cases (homeWrites lh new) [(l.start, LogHeader.empty.encode hb)] k with
      ⟨-, hk⟩ | ⟨j, -, hk⟩
    · -- cut among the home writes: the log still has everything
      rw [hk] at ih
      exact ih (h.apply_home hout hsz k)
    · rw [hk, apply_append] at hr ih
      cases j with
      | zero =>
        have := h.apply_home hout hsz (homeWrites lh new).length
        rw [take_length] at this
        exact ih this
      | succ j =>
        have := h.clear hnd (by omega) hb
        simp only [take_succ_cons, take_nil, apply_cons, apply_nil] at hr
        exact hr.settled (by omega) this

/-- Recovery never overruns the header array on these disks, so it can complete. -/
theorem recovers_of_issued {ws : List (Nat × Block)}
    (h : ∃ m, recoverFromLog l (Mach.boot e) = some m ∧ m.issued = ws) :
    ∃ e', Recovers l e e' := by
  obtain ⟨m, hm, -⟩ := h
  exact ⟨_, .completes hm⟩

end Recovery

/-! ## Crash atomicity -/

section Atomicity
variable {l : Log} {lh : LogHeader} {d : Disk} {cache : Nat → Option Block}

/-- The writes of `commit()`, phase by phase. -/
theorem commit_issued {m : Mach} (hlh : m.lh = lh) (h₀ : 0 < lh.n) (hsz : lh.n < l.size)
    (hout : ∀ b, lh.Home b → ¬ l.Inside b) :
    ∃ hb hb', (commit l m).issued = m.issued ++ (logWrites l lh m.bread ++
      ((l.start, lh.encode hb) ::
        (homeWrites lh m.bread ++ [(l.start, LogHeader.empty.encode hb')]))) := by
  have hwl := writeLog_eq m hlh hout hsz
  have hinst : installTrans l (writeHead l (writeLog l m)) =
      (writeHead l (writeLog l m)).emit (homeWrites lh m.bread) := by
    refine installTrans_eq _ (by rw [hwl]; simp [writeHead, Mach.bwrite, hlh]) hout hsz
      (fun i hi => ?_)
    · rw [writeHead, Mach.bread_bwrite, update_of_ne (by omega), hwl, Mach.emit_bread]
      exact apply_of_mem nodup_logWrites
        (mem_map.mpr ⟨i, mem_range.mpr hi, rfl⟩)
  let m₁ : Mach := writeHead l (writeLog l m)
  let m₂ : Mach := m₁.emit (homeWrites lh m.bread)
  have h₁ : m₁.issued = m.issued ++ logWrites l lh m.bread ++
      [(l.start, lh.encode ((writeLog l m).bread l.start))] := by
    simp only [m₁, writeHead, Mach.bwrite, hwl, Mach.emit_issued, Mach.emit_lh, hlh]
  refine ⟨(writeLog l m).bread l.start, m₂.bread l.start, ?_⟩
  have h₂ : (commit l m).issued = m₂.issued ++ [(l.start, LogHeader.empty.encode (m₂.bread l.start))] := by
    rw [commit, if_pos (by rw [hlh]; exact h₀)]
    simp only [hinst]
    rfl
  rw [h₂]
  simp only [m₂, Mach.emit_issued, h₁, append_assoc, cons_append, nil_append]

/-- Where a power cut during `commit()` can leave the disk: before the header
write, settled at the old contents; after it, committed or settled at the new. -/
theorem commit_cut (hhead : LogHeader.headN (d l.start) = 0) (h₀ : 0 < lh.n)
    (hsz : lh.n < l.size) (hnd : lh.block.Nodup) (hout : ∀ b, lh.Home b → ¬ l.Inside b)
    (k : Nat) :
    let m : Mach := ⟨d, cache, lh, []⟩
    let e := apply ((commit l m).issued.take k) d
    (k ≤ lh.n ∧ Settled l d e) ∨
      (lh.n < k ∧ (Committed l lh m.bread d e ∨ Settled l (apply (homeWrites lh m.bread) d) e)) := by
  intro m e
  obtain ⟨hb, hb', hw⟩ := commit_issued (m := m) rfl h₀ hsz hout
  have he : e = apply ((logWrites l lh m.bread ++ ((l.start, lh.encode hb) ::
      (homeWrites lh m.bread ++ [(l.start, LogHeader.empty.encode hb')]))).take k) d := by
    simp only [e, hw]; rfl
  have hlen : (logWrites l lh m.bread).length = lh.n := by simp [logWrites]
  have hold : Settled l d d := ⟨hhead, fun _ _ => rfl⟩
  have hin : ∀ w ∈ logWrites l lh m.bread, l.start < w.1 ∧ w.1 < l.start + l.size := by
    intro w hw
    obtain ⟨i, hi, rfl⟩ := mem_map.mp hw
    have := mem_range.mp hi
    omega
  -- the disk just after the header write
  have hcomm : Committed l lh m.bread d
      (update (apply (logWrites l lh m.bread) d) l.start (lh.encode hb)) := by
    refine ⟨?_, fun i hi => ?_, fun b hb hh => ?_⟩
    · rw [update_self]; exact LogHeader.decode_encode lh hb
    · rw [update_of_ne (by omega)]
      exact apply_of_mem nodup_logWrites
        (mem_map.mpr ⟨i, mem_range.mpr hi, rfl⟩)
    · rw [update_of_ne (by rintro rfl; exact hb (Log.inside_start (by omega)))]
      exact (hold.apply_log hin).home b hb
  rcases take_append_cases (logWrites l lh m.bread) ((l.start, lh.encode hb) ::
      (homeWrites lh m.bread ++ [(l.start, LogHeader.empty.encode hb')])) k with
    ⟨hk, ht⟩ | ⟨j, hk, ht⟩
  · refine .inl ⟨by omega, ?_⟩
    rw [he, ht]
    exact hold.apply_log (fun w hw => hin w (mem_of_mem_take hw))
  · rw [ht, apply_append] at he
    cases j with
    | zero =>
      refine .inl ⟨by omega, ?_⟩
      rw [he]
      exact hold.apply_log hin
    | succ j =>
      refine .inr ⟨by omega, ?_⟩
      rw [take_succ_cons, apply_cons] at he
      rw [he]
      rcases take_append_cases (homeWrites lh m.bread)
          [(l.start, LogHeader.empty.encode hb')] j with ⟨-, hj⟩ | ⟨i, -, hj⟩
      · rw [hj]
        exact .inl (hcomm.apply_home hout hsz j)
      · rw [hj, apply_append]
        cases i with
        | zero =>
          have := hcomm.apply_home hout hsz (homeWrites lh m.bread).length
          rw [take_length] at this
          exact .inl this
        | succ i =>
          right
          simpa using hcomm.clear hnd (by omega) hb'

/-- **Crash atomicity of commit and recovery.**  The disk's log is empty, `lh`
lists distinct home blocks outside the log area that fit the log, `cache` holds
any contents for them.  Stop `commit()` after any `k` of its writes, then
recover, cut any number of times: if the first `write_head` was among the `k`
writes every home block has its new contents, otherwise every one has its old;
nothing else outside the log area changed, and the header says `n = 0`.
Recovery can always complete. -/
theorem commit_crash_atomic (l : Log) (lh : LogHeader) (d : Disk) (cache : Nat → Option Block)
    (hhead : LogHeader.headN (d l.start) = 0) (h₀ : 0 < lh.n) (hsz : lh.n < l.size)
    (hnd : lh.block.Nodup) (hout : ∀ b ∈ lh.block, ¬ l.Inside b.toNat) (k : Nat) :
    let m : Mach := ⟨d, cache, lh, []⟩
    let e := apply ((commit l m).issued.take k) d
    (∃ d', Recovers l e d') ∧
    ∀ d', Recovers l e d' →
      (∀ b ∈ lh.block, d' b.toNat =
        if (writeHead l (writeLog l m)).issued.length ≤ k then m.bread b.toNat else d b.toNat) ∧
      (∀ b, ¬ l.Inside b → b ∉ lh.block.map UInt32.toNat → d' b = d b) ∧
      LogHeader.headN (d' l.start) = 0 := by
  intro m e
  have hout' : ∀ b, lh.Home b → ¬ l.Inside b := by
    intro b hb
    obtain ⟨c, hc, rfl⟩ := mem_map.mp (LogHeader.home_iff.mp hb)
    exact hout c hc
  have hfirst : (writeHead l (writeLog l m)).issued.length = lh.n + 1 := by
    rw [writeLog_eq m rfl hout' hsz]
    simp [writeHead, Mach.bwrite, m, logWrites]
  have hhome : ∀ b ∈ lh.block, lh.Home b.toNat := fun b hb =>
    LogHeader.home_iff.mpr (mem_map_of_mem hb)
  -- what a settled disk says about home blocks and the rest
  have hnew : ∀ d', Settled l (apply (homeWrites lh m.bread) d) d' →
      (∀ b ∈ lh.block, d' b.toNat = m.bread b.toNat) ∧
      (∀ b, ¬ l.Inside b → b ∉ lh.block.map UInt32.toNat → d' b = d b) ∧
      LogHeader.headN (d' l.start) = 0 := by
    intro d' h
    refine ⟨fun b hb => ?_, fun b hb hh => ?_, h.head⟩
    · rw [h.home _ (hout b hb), apply_homeWrites_home hnd _ (hhome b hb)]
    · rw [h.home b hb, apply_homeWrites_other]
      rwa [LogHeader.home_iff]
  rcases @commit_cut l lh d cache hhead h₀ hsz hnd hout' k with ⟨hk, hs⟩ | ⟨hk, hc | hs⟩
  · refine ⟨?_, fun d' hr => ?_⟩
    · obtain ⟨m', hb, hm, hw⟩ := recover_settled hs
      exact recovers_of_issued ⟨m', hm, hw⟩
    · have h := hr.settled (by omega) hs
      refine ⟨fun b hb => ?_, fun b hb _ => h.home b hb, h.head⟩
      rw [if_neg (by omega), h.home _ (hout b hb)]
  · refine ⟨?_, fun d' hr => ?_⟩
    · obtain ⟨m', hb, hm, hw⟩ := recover_committed hc hout' hsz
      exact recovers_of_issued ⟨m', hm, hw⟩
    · simp only [show (writeHead l (writeLog l m)).issued.length ≤ k by omega, if_true]
      exact hnew d' (hr.committed hout' hsz hnd hc)
  · refine ⟨?_, fun d' hr => ?_⟩
    · obtain ⟨m', hb, hm, hw⟩ := recover_settled hs
      exact recovers_of_issued ⟨m', hm, hw⟩
    · simp only [show (writeHead l (writeLog l m)).issued.length ≤ k by omega, if_true]
      exact hnew d' (hr.settled (by omega) hs)

/-- Two blocks, block 50 cached with new contents: a cut after the header write
and one home write still ends with both blocks new. -/
theorem commit_crash_atomic_two_blocks :
    let l : Log := ⟨2, LOGSIZE⟩
    let d : Disk := fun _ => Bytes.Buffer.zero
    let new : Block := Bytes.Buffer.ofFn (fun _ => 1)
    let m : Mach := ⟨d, update (fun _ => none) 50 (some new), ⟨[50, 51], by decide⟩, []⟩
    (∃ d', Recovers l (apply ((commit l m).issued.take 4) d) d') ∧
      ∀ d', Recovers l (apply ((commit l m).issued.take 4) d) d' → d' 50 = new := by
  intro l d new m
  have hout : ∀ b ∈ ([50, 51] : List UInt32), ¬ l.Inside b.toNat := by
    intro b hb
    rcases mem_pair.mp hb with rfl | rfl <;> decide
  have h := commit_crash_atomic l ⟨[50, 51], by decide⟩ d m.cache (by decide +kernel)
    (by decide) (by decide) (by decide) hout 4
  refine ⟨h.1, fun d' hr => ?_⟩
  have h50 := (h.2 d' hr).1 50 (by simp)
  rwa [if_pos (by decide +kernel)] at h50

end Atomicity

end Xv6
