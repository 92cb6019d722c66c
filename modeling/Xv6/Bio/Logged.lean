/-
# `Xv6.Bio.Logged` — logged blocks stay cached until they are installed

A block that was log_written is dirty in the cache and old on the disk until
`install_trans` comes to it.  `log_write` "replaces bwrite()": the statement needs
processes that do not `bwrite` a logged block themselves, leave the log area
alone, and log blocks of the log's device only (`Polite`).

    Area      logged blocks are outside the log area, which has room for them
    Saved     commit has written what it is about to release
    Copied    what write_log has copied is what the home block still holds
    Pinned    a logged block that is not installed has a dirty buffer

The last section puts these together with `Xv6.Bio.Coherence`.
-/
import Xv6.Bio.Coherence

namespace Xv6.Bio

open List
open Function (update update_apply update_eq_self update_of_ne update_self)

variable {P : Type} [DecidableEq P]

/-- What a process does that uses the log as intended: it changes no block of the
log area, does not `bwrite` a block that is logged, and log_writes blocks of the
log's device outside the log area, as long as the area has room. -/
def Polite (g : Geom) (s : Sys P) : Event P → Prop
  | .modify _ k _ => ¬ (k.1 = g.dev ∧ g.log.Inside k.2)
  | .bwrite p k => s.script p = [] → k.1 = g.dev → k.2 ∉ s.log.block
  | .logWrite _ k => k.1 = g.dev ∧ ¬ g.log.Inside k.2
  | .record _ k => k.2 ∈ s.log.block ∨ s.log.block.length + 1 < g.log.size
  | _ => True

instance (g : Geom) (s : Sys P) : (e : Event P) → Decidable (Polite g s e)
  | .modify _ k _ => inferInstanceAs (Decidable (¬ (k.1 = g.dev ∧ g.log.Inside k.2)))
  | .bwrite p k => inferInstanceAs (Decidable (s.script p = [] → k.1 = g.dev → k.2 ∉ s.log.block))
  | .logWrite _ k => inferInstanceAs (Decidable (k.1 = g.dev ∧ ¬ g.log.Inside k.2))
  | .record _ k =>
    inferInstanceAs (Decidable (k.2 ∈ s.log.block ∨ s.log.block.length + 1 < g.log.size))
  | .log _ | .bget _ _ | .acquire _ | .load _ | .release _ _ | .unref _ | .copyToLog _ _ _
  | .copyHome _ _ | .fillHead _ _ _ => .isTrue trivial

/-- One event of a machine whose processes are polite. -/
def politeStep (g : Geom) (s : Sys P) (e : Event P) : Option (Sys P) :=
  if Polite g s e then step g s e else none

/-- Runs of polite processes on the disks `d`. -/
abbrev PoliteRuns (g : Geom) (d : Key → Block) : List (Event P) → Sys P → Prop :=
  Trace.Run (politeStep g) (Sys.init P d)

variable {g : Geom} {s s' : Sys P} {e : Event P} {c : Group.Pc} {a : Act} {rest : List Act}
  {l : Group.State P} {k : Key} {b t : Nat} {i : BufId} {p : P}

/-! ## The calls of a turn -/

/-- What is known of `commit` when it comes to a call. -/
def AtCall (g : Geom) (block : List Nat) (c : Group.Pc) (rest : List Act) : Act → Prop
  | .copyToLog dst src => ∃ t, c = .writeLog (t + 1) ∧ dst = g.entry t ∧
      src = g.home (block.getD t 0) ∧ rest = [.bwrite dst, .brelse src, .brelse dst]
  | .copyHome dst src => ∃ t, c = .installTrans (t + 1) ∧ dst = g.home (block.getD t 0) ∧
      src = g.entry t ∧ rest = [.bwrite dst, .brelse src, .brelse dst]
  | .fillHead k => (c = .installTrans 0 ∨ c = .finish) ∧ k = g.head ∧ rest = [.bwrite k, .brelse k]
  | .bwrite k => (∃ t, c = .writeLog (t + 1) ∧ k = g.entry t) ∨
      (∃ t, c = .installTrans (t + 1) ∧ k = g.home (block.getD t 0)) ∨
      (c = .installTrans 0 ∨ c = .finish) ∧ k = g.head
  | .brelse _ => ∀ a ∈ rest, ∃ k, a = .brelse k
  | .bread _ => True

omit [DecidableEq P] in
theorem atCall {block : List Nat} (h : a :: rest <:+ turnOf g block c) :
    AtCall g block c rest a := by
  cases c with
  | writeLog n =>
    cases n with
    | zero => simp [turnOf] at h
    | succ t =>
      simp only [turnOf, writeLogTurn, suffix_cons_iff, List.cons.injEq, suffix_nil,
        reduceCtorEq, or_false] at h
      rcases h with ⟨rfl, rfl⟩ | ⟨rfl, rfl⟩ | ⟨rfl, rfl⟩ | ⟨rfl, rfl⟩ | ⟨rfl, rfl⟩ | ⟨rfl, rfl⟩ <;>
        simp [AtCall, -Prod.exists]
  | installTrans n =>
    cases n with
    | zero =>
      simp only [turnOf, headTurn, suffix_cons_iff, List.cons.injEq, suffix_nil,
        reduceCtorEq, or_false] at h
      rcases h with ⟨rfl, rfl⟩ | ⟨rfl, rfl⟩ | ⟨rfl, rfl⟩ | ⟨rfl, rfl⟩ <;> simp [AtCall]
    | succ t =>
      simp only [turnOf, installTurn, suffix_cons_iff, List.cons.injEq, suffix_nil,
        reduceCtorEq, or_false] at h
      rcases h with ⟨rfl, rfl⟩ | ⟨rfl, rfl⟩ | ⟨rfl, rfl⟩ | ⟨rfl, rfl⟩ | ⟨rfl, rfl⟩ | ⟨rfl, rfl⟩ <;>
        simp [AtCall, -Prod.exists]
  | finish =>
    simp only [turnOf, headTurn, suffix_cons_iff, List.cons.injEq, suffix_nil,
      reduceCtorEq, or_false] at h
    rcases h with ⟨rfl, rfl⟩ | ⟨rfl, rfl⟩ | ⟨rfl, rfl⟩ | ⟨rfl, rfl⟩ <;> simp [AtCall]
  | idle | op | checked | commit => simp [turnOf] at h

omit [DecidableEq P] in
/-- What every turn releases it has read first. -/
theorem bread_of_brelse {e : Group.Event P} (h : .brelse k ∈ turn g l e) :
    .bread k ∈ turn g l e := by
  cases e with
  | copyToLog p b =>
    simp only [turn] at h ⊢
    split at h
    · simp only [writeLogTurn, mem_cons, reduceCtorEq, Act.brelse.injEq, not_mem_nil,
        or_false, false_or] at h
      rcases h with rfl | rfl <;> simp_all [writeLogTurn]
    · cases h
  | install p b =>
    simp only [turn] at h ⊢
    split at h
    · simp only [installTurn, mem_cons, reduceCtorEq, Act.brelse.injEq, not_mem_nil,
        or_false, false_or] at h
      rcases h with rfl | rfl <;> simp_all [installTurn]
    · cases h
  | writeHead | erase => simpa [turn, headTurn] using h
  | beginOp | logWrite | record | endOp | commit | finish => cases h

/-! ## The log area -/

/-- What a move may do to a buffer that it does not recycle: the identity stays, `B_DIRTY` stays but
for a `bwrite`, and a holder is not replaced. -/
structure Stays (e : Event P) (b b' : Buf P) : Prop where
  key : b'.key = b.key
  dirty : b.dirty = true → b'.dirty = true ∨ ∃ p, e = .bwrite p b.key
  lock : b.lock ≠ none → b'.lock = b.lock ∨ b'.lock = none

omit [DecidableEq P] in
theorem Stays.of_eq {b b' : Buf P}
    (h : b'.key = b.key ∧ b'.dirty = b.dirty ∧ b'.lock = b.lock) : Stays e b b' :=
  ⟨h.1, fun hd => .inl (h.2.1.trans hd), fun _ => .inl h.2.2⟩

/-- A recycled buffer was clean and nobody's. -/
theorem buf_moves [Fintype P] (hl : Locks s.cache s.held s.call) (hm : Moves g s e s') (i : BufId) :
    (s.cache.buf i).refcnt = 0 ∧ (s.cache.buf i).dirty = false ∨
      Stays e (s.cache.buf i) (s'.cache.buf i) := by
  -- only buffer `j` changes
  have self : ∀ (j : BufId) (f : Buf P → Buf P), s'.cache.buf = (s.cache.modify j f).buf →
      (i = j → Stays e (s.cache.buf j) (f (s.cache.buf j))) →
      Stays e (s.cache.buf i) (s'.cache.buf i) := by
    intro j f hbuf h
    rw [hbuf, Bcache.modify_apply]
    split
    · rename_i hij; exact hij ▸ h hij
    · exact .of_eq ⟨rfl, rfl, rfl⟩
  cases hm with
  | log | noBuffers | logWrite => exact .inr (.of_eq ⟨rfl, rfl, rfl⟩)
  | @bget p k j c may bget =>
    obtain ⟨l, hs⟩ := hl.shape
    rcases hs.bget_cases bget with ⟨-, -, rfl⟩ | ⟨-, hzero, hclean, rfl⟩
    · exact .inr (self j _ rfl fun _ => .of_eq ⟨rfl, rfl, rfl⟩)
    · rcases eq_or_ne i j with rfl | hij
      · exact .inl ⟨hzero, hclean⟩
      · exact .inr (self j _ rfl fun h => absurd h hij)
  | @acquire p k j call free =>
    exact .inr (self j _ rfl fun _ => ⟨rfl, .inl, fun h => absurd free h⟩)
  | @load p k j call =>
    refine .inr (self j (Buf.loaded s.disk) (by simp [Sys.goto, Sys.pop, Sys.load_cache]) fun _ => ?_)
    obtain ⟨hk, hlk, -, hd, -⟩ := Buf.loaded_fields s.disk (s.cache.buf j)
    exact .of_eq ⟨hk, hd, hlk⟩
  | @bwrite p k j may holds =>
    exact .inr (self j _ rfl fun _ => ⟨rfl, fun _ => .inr ⟨p, by rw [holds.2]⟩, fun _ => .inl rfl⟩)
  | @record p k j l call key step =>
    exact .inr (self j _ rfl fun _ => ⟨rfl, fun _ => .inl rfl, fun _ => .inl rfl⟩)
  | @release p k j may holds saved =>
    exact .inr (self j _ rfl fun _ => ⟨rfl, .inl, fun _ => .inr rfl⟩)
  | @unref p j call =>
    exact .inr (self j _ (Bcache.unref_buf s.cache j) fun _ => .of_eq ⟨rfl, rfl, rfl⟩)
  | @modify p k j | @copyToLog p dst src rest j | @copyHome p dst src rest j | @fillHead p dst rest j =>
    exact .inr (self j _ rfl fun _ => .of_eq ⟨rfl, rfl, rfl⟩)

theorem key_kept [Fintype P] (hl : Locks s.cache s.held s.call) (hm : Moves g s e s')
    (hi : 0 < (s.cache.buf i).refcnt ∨ (s.cache.buf i).dirty = true) :
    (s'.cache.buf i).key = (s.cache.buf i).key := by
  rcases buf_moves hl hm i with ⟨hzero, hclean⟩ | hstays
  · rw [hzero, hclean] at hi
    simp at hi
  · exact hstays.key

/-- Logged blocks are outside the log area, and the area has room for them. -/
structure Area (g : Geom) (s : Sys P) : Prop where
  outside : ∀ b ∈ s.log.block, ¬ g.log.Inside b
  fits : s.log.block = [] ∨ s.log.block.length < g.log.size
  tails : ∀ p n, s.log.pc p = .writeLog n ∨ s.log.pc p = .installTrans n →
    s.log.block ≠ [] ∧ n ≤ s.log.block.length
  logging : ∀ p i, s.call p = .logging i →
    (s.cache.buf i).key.1 = g.dev ∧ ¬ g.log.Inside (s.cache.buf i).key.2

namespace Area

omit [DecidableEq P] in
theorem inside_entry (h : Area g s) (ht : t < s.log.block.length) : g.log.Inside (g.entry t).2 := by
  have hf : s.log.block.length < g.log.size :=
    h.fits.resolve_left fun e => by rw [e] at ht; exact absurd ht (Nat.not_lt_zero t)
  simp only [Log.Inside, Geom.entry]
  omega

omit [DecidableEq P] in
theorem inside_head (h : Area g s) (hne : s.log.block ≠ []) : g.log.Inside g.head.2 := by
  have hf := h.fits.resolve_left hne
  simp only [Log.Inside, Geom.head]
  omega

omit [DecidableEq P] in
/-- A block of the log area is not the home of a logged block. -/
theorem home_ne (h : Area g s) (hb : b ∈ s.log.block) (hk : g.log.Inside k.2) : g.home b ≠ k := by
  rintro rfl
  exact h.outside b hb hk

/-- A section of `begin_op`, `end_op` or `commit` keeps the tails within the entries. -/
theorem tails_step (h : Area g s) {ges : List (Group.Event P)}
    (hr : Group.Runs g.log.size ges s.log) {e : Group.Event P}
    (hs : Group.step g.log.size s.log e = some l) (p : P) (n : Nat)
    (hp : l.pc p = .writeLog n ∨ l.pc p = .installTrans n) : l.block ≠ [] ∧ n ≤ l.block.length := by
  rcases eq_or_ne p (proc e) with rfl | hne
  · cases (Group.acts_of_step hs).2 with
    | tooBig pc | outside pc | endPanic pc => rw [proc, pc] at hp; simp at hp
    | commit pc logged =>
      simp only [proc, Group.State.goto, update_self, Group.Pc.writeLog.injEq, reduceCtorEq,
        or_false] at hp
      exact ⟨logged, hp ▸ Nat.zero_le _⟩
    | copyToLog pc entry =>
      simp only [proc, Group.State.goto, update_self, Group.Pc.writeLog.injEq, reduceCtorEq,
        or_false] at hp
      exact ⟨(h.tails _ _ (.inl pc)).1, hp ▸ (List.getElem?_eq_some_iff.mp entry).1⟩
    | writeHead pc past =>
      simp only [proc, Group.State.goto, update_self, Group.Pc.installTrans.injEq,
        reduceCtorEq, false_or] at hp
      exact ⟨(h.tails _ _ (.inl pc)).1, hp ▸ Nat.zero_le _⟩
    | install pc entry =>
      simp only [proc, Group.State.goto, update_self, Group.Pc.installTrans.injEq,
        reduceCtorEq, false_or] at hp
      exact ⟨(h.tails _ _ (.inr pc)).1, hp ▸ (List.getElem?_eq_some_iff.mp entry).1⟩
    | _ => simp [proc, Group.State.goto] at hp
  · rw [Group.step_pc_other hs hne] at hp
    have hc : (s.log.pc p).inCommit = true := by rcases hp with hp | hp <;> rw [hp] <;> rfl
    rw [(hr.step_block_or hs hne).resolve_right (by rw [hc]; simp)]
    exact h.tails p n hp

/-- The entries after a section other than `log_write`'s. -/
theorem block_step {e : Group.Event P} {l' : Group.State P} {size : Nat}
    (hs : Group.step size l e = some l') (hne : ∀ p b, e ≠ .record p b) :
    l'.block = l.block ∨ l'.block = [] := by
  rcases Group.step_block hs with hb | ⟨p, b, he, -⟩ | ⟨p, t, -, -, -, hb⟩
  · exact .inl hb
  · exact absurd he (hne p b)
  · exact .inr hb

theorem moves [Fintype P] (h : Area g s) (hl : Locks s.cache s.held s.call) (hsc : Scripts g s)
    (hm : Moves g s e s') (hpol : Polite g s e) : Area g s' := by
  obtain ⟨ges, hr⟩ := hsc.runs
  -- a process that was in `log_write` before is there with the same buffer
  have hlogging : ∀ p i, s.call p = .logging i →
      (s'.cache.buf i).key.1 = g.dev ∧ ¬ g.log.Inside (s'.cache.buf i).key.2 := by
    intro p i hp
    have hi := (hl.procs p).logging i hp
    rw [key_kept hl hm (.inl (hl.refcnt_pos (refsOf_pos_of_mem hi)))]
    exact h.logging p i hp
  have quiet : s'.log = s.log → (∀ p i, s'.call p = .logging i → s.call p = .logging i) →
      Area g s' := by
    intro hlog hcall
    exact ⟨hlog ▸ h.outside, hlog ▸ h.fits, hlog ▸ h.tails,
      fun p i hp => hlogging p i (hcall p i hp)⟩
  -- a move of `p` to a call other than `log_write`
  have moved : ∀ (p : P) (c : Call), (∀ i, c ≠ .logging i) → ∀ q i,
      update s.call p c q = .logging i → s.call q = .logging i := by
    intro p c hc q i hq
    rcases eq_or_ne q p with rfl | hne
    · rw [update_self] at hq; exact absurd hq (hc i)
    · rwa [update_of_ne hne] at hq
  cases hm with
  | @log e l ne call script step =>
    refine ⟨fun b hb => ?_, ?_, h.tails_step hr step, hlogging⟩
    · rcases block_step step fun p b => (ne p b).2 with hb' | hb' <;> rw [hb'] at hb
      · exact h.outside b hb
      · cases hb
    · rcases block_step step fun p b => (ne p b).2 with hb' | hb'
      · rw [hb']; exact h.fits
      · exact .inl hb'
  | @bget p | @acquire p | @release p | @unref p => exact quiet rfl (moved p _ (by simp))
  | noBuffers | modify | bwrite | copyToLog | copyHome | fillHead => exact quiet rfl fun _ _ hp => hp
  | @load p k i call =>
    refine quiet (by simp [Sys.goto, Sys.pop]) fun q j hq => moved p .ready (by simp) q j ?_
    simpa [Sys.goto, Sys.pop] using hq
  | @logWrite p k i l free holds step =>
    have hb := Group.logWrite_block step
    refine ⟨?_, ?_, h.tails_step hr step, fun q j hq => ?_⟩
    · simpa [Sys.goto, hb] using h.outside
    · simpa [Sys.goto, hb] using h.fits
    · rcases eq_or_ne q p with rfl | hne
      · simp only [Sys.goto, update_self, Call.logging.injEq] at hq
        subst hq
        show (s.cache.buf i).key.1 = g.dev ∧ ¬ g.log.Inside (s.cache.buf i).key.2
        rw [holds.2]; exact hpol
      · simp only [Sys.goto, update_of_ne hne] at hq
        exact hlogging q j hq
  | @record p k i l call key step =>
    have hb := (Group.record_effect step).2.2
    refine ⟨fun b hb' => ?_, ?_, h.tails_step hr step, fun q j hq => ?_⟩
    · simp only [Sys.goto, hb] at hb'
      rcases Group.mem_absorb.mp hb' with hb' | rfl
      · exact h.outside b hb'
      · rw [← key]; exact (h.logging p i call).2
    · show l.block = [] ∨ l.block.length < g.log.size
      rw [hb, Group.absorb_eq]
      rcases hpol with hin | hroom
      · rw [if_pos hin]; exact h.fits
      · split
        · exact h.fits
        · right; rw [length_append]; exact hroom
    · exact hlogging q j (moved p .ready (by simp) q j hq)

end Area

/-! ## What commit releases is saved -/

/-- A buffer `commit` will release is still to be read, still to be written, or saved. -/
def Saved (s : Sys P) : Prop :=
  ∀ p k, .brelse k ∈ s.script p → .bread k ∈ s.script p ∨ .bwrite k ∈ s.script p ∨
    ∀ i, s.Holds p k i → s.unsaved i = false

omit [DecidableEq P] in
/-- A buffer somebody is reading is nobody's unfinished work. -/
theorem saved_of_loading [Fintype P] {lat : Key → Block} (hco : Coherent lat s)
    (hl : Locks s.cache s.held s.call) (hp : s.call p = .loading k i) : s.unsaved i = false := by
  by_contra hu
  obtain ⟨q, hq⟩ := hco.unsaved i (by simpa using hu)
  have hlock := ((hl.procs p).lock i).mpr (.inr ⟨k, hp⟩)
  have hqp : q = p := Option.some.inj ((hl.lock_of_held hq).symm.trans hlock)
  exact (hl.procs p).loading k i hp (hqp ▸ hq)

omit [DecidableEq P] in
/-- Other processes do not disturb what `p` has saved. -/
theorem Saved.other (h : Saved s) (p : P) (hscript : ∀ q, q ≠ p → s'.script q = s.script q)
    (hother : ∀ q, q ≠ p → ∀ k i, s'.Holds q k i →
      s.Holds q k i ∧ (s.unsaved i = false → s'.unsaved i = false))
    (self : ∀ k, .brelse k ∈ s'.script p → .bread k ∈ s'.script p ∨ .bwrite k ∈ s'.script p ∨
      ∀ i, s'.Holds p k i → s'.unsaved i = false) : Saved s' := by
  intro q k hk
  rcases eq_or_ne q p with rfl | hq
  · exact self k hk
  · rw [hscript q hq] at hk ⊢
    refine (h q k hk).imp_right fun h' => h'.imp_right fun h'' i hi => ?_
    obtain ⟨hi', hu⟩ := hother q hq k i hi
    exact hu (h'' i hi')

/-- `p` is done with a call: the buffers it reads or writes there are saved, and one that is not
will be written. -/
theorem Saved.pop (h : Saved s) (p : P) (hscript : s'.script = update s.script p (s.script p).tail)
    (hother : ∀ q, q ≠ p → ∀ k i, s'.Holds q k i →
      s.Holds q k i ∧ (s.unsaved i = false → s'.unsaved i = false))
    (self : ∀ a rest k i, s.script p = a :: rest → s'.Holds p k i →
      s'.unsaved i = false ∨ .bwrite k ∈ rest ∨
        (a ≠ .bread k ∧ a ≠ .bwrite k ∧ s.Holds p k i ∧ s'.unsaved i = s.unsaved i)) : Saved s' := by
  refine h.other p (fun q hq => by rw [hscript, update_of_ne hq]) hother fun k hk => ?_
  rw [hscript, update_self] at hk ⊢
  have hold := h p k (mem_of_mem_tail hk)
  cases hs : s.script p with
  | nil => rw [hs] at hk; cases hk
  | cons a rest =>
    rw [hs, mem_cons, mem_cons] at hold
    by_cases hw : .bwrite k ∈ rest
    · exact .inr (.inl hw)
    by_cases hr : .bread k ∈ rest
    · exact .inl hr
    refine .inr (.inr fun i hi => ?_)
    rcases self a rest k i hs hi with hu | hw' | ⟨ha, ha', hi', hu⟩
    · exact hu
    · exact absurd hw' hw
    · rcases hold with h' | h' | h'
      · exact (h'.elim (fun e => ha e.symm) hr).elim
      · exact (h'.elim (fun e => ha' e.symm) hw).elim
      · exact hu.trans (h' i hi')

/-- A copy into buffer `i` for `dst`, which `commit` writes afterwards. -/
theorem Saved.copy [Fintype P] (h : Saved s) (hl : Locks s.cache s.held s.call) {dst : Key}
    (hscript : s.script p = a :: rest) (hne : ∀ k, a ≠ .bread k ∧ a ≠ .bwrite k)
    (hw : .bwrite dst ∈ rest) (hi : s.Holds p dst i) (data : Block) :
    Saved ((s.fill i data).pop p) := by
  have hbuf : ∀ q k j, ((s.fill i data).pop p).Holds q k j → s.Holds q k j := by
    rintro q k j ⟨hj, hk⟩
    refine ⟨hj, ?_⟩
    rw [← hk]
    exact (Bcache.modify_field Buf.key s.cache i j (f := fun b => { b with data := data })
      fun _ => rfl).symm
  refine h.pop p rfl (fun q hq k j hj => ⟨hbuf q k j hj, fun hu => ?_⟩) fun a' rest' k j hs hj => ?_
  · exact (update_of_ne (fun e => hq (hl.holder_unique (e ▸ hj.1) hi.1)) ..).trans hu
  · cases hscript.symm.trans hs
    rcases eq_or_ne k dst with rfl | hkd
    · exact .inr (.inl hw)
    · have hj' := hbuf p k j hj
      refine .inr (.inr ⟨(hne k).1, (hne k).2, hj', update_of_ne ?_ ..⟩)
      rintro rfl
      exact hkd (hj'.2.symm.trans hi.2)

omit [DecidableEq P] in
theorem Saved.mono (h : Saved s) (hscript : s'.script = s.script)
    (hheld : ∀ q k i, s'.Holds q k i → s.Holds q k i)
    (hunsaved : ∀ q i, i ∈ s.held q → s.script q ≠ [] → s.unsaved i = false →
      s'.unsaved i = false) : Saved s' := by
  intro q k hk
  rw [hscript] at hk ⊢
  refine (h q k hk).imp_right fun h' => h'.imp_right fun h'' i hi => ?_
  have hi' := hheld q k i hi
  exact hunsaved q i hi'.1 (ne_nil_of_mem hk) (h'' i hi')

omit [DecidableEq P] in
theorem head_of_script {l : List Act} {b : Act} (h : l = [] ∨ ∃ rest, l = a :: rest)
    (hb : l = b :: rest) : b = a := by
  rcases h with rfl | ⟨_, rfl⟩
  · cases hb
  · cases hb; rfl

theorem Saved.moves [Fintype P] {lat : Key → Block}
    (h : Saved s) (hco : Coherent lat s) (hl : Locks s.cache s.held s.call) (hsc : Scripts g s)
    (hm : Moves g s e s') : Saved s' := by
  -- a buffer held before and after is for the same block
  have hkey : ∀ {q : P} {k : Key} {i : BufId}, i ∈ s.held q → (s'.cache.buf i).key = k →
      s.Holds q k i := fun {q k i} hi hk => ⟨hi, by
    rw [← hk, key_kept hl hm (.inl (hl.refcnt_pos (refsOf_pos_of_mem hi)))]⟩
  have hclear : ∀ i j, s.unsaved j = false → update s.unsaved i false j = false := by
    intro i j hj
    rw [update_apply]
    split
    · rfl
    · exact hj
  cases hm with
  | @log e l ne call script step =>
    refine h.other (proc e) (fun q hq => ?_) (fun _ _ _ _ hi => ⟨hi, id⟩) fun k hk => ?_
    · simp [update_of_ne hq]
    · simp only [update_self] at hk ⊢
      exact .inl (bread_of_brelse hk)
  | bget | acquire | logWrite =>
    exact h.mono rfl (fun _ _ _ hi => hkey hi.1 hi.2) fun _ _ _ _ hu => hu
  | noBuffers => exact h
  | @load p k i call =>
    have hsaved := saved_of_loading hco hl call
    have hik : (s.cache.buf i).key = k := (hl.procs p).waits k i (.inr call)
    have hlive : ¬ (s.cache.buf i).Dead :=
      hl.live (p := p) (refsOf_pos_of_call (by simp [call, Call.refs]))
    simp only [Sys.goto, Sys.pop, Sys.load_fields] at hkey ⊢
    refine h.pop p rfl (fun q hq k' j hj => ⟨hkey ?_ hj.2, id⟩) fun a rest k' j hs hj => ?_
    · simpa [update_of_ne hq] using hj.1
    · -- the buffer just read is saved; what was to be read otherwise still is
      rcases eq_or_ne j i with rfl | hji
      · exact .inl hsaved
      have hj' : s.Holds p k' j := hkey (by simpa [hji] using hj.1) hj.2
      obtain rfl := head_of_script (hsc.reading p k i (.inr call)) hs
      refine .inr (.inr ⟨fun e => hji ?_, by simp, hj', rfl⟩)
      exact hl.eq_of_key (hl.live_of_held hj'.1) hlive
        (hj'.2.trans ((Act.bread.inj e).symm.trans hik.symm))
  | @modify p k i data free holds =>
    refine h.mono rfl (fun _ _ _ hi => hkey hi.1 hi.2) fun q j hj hq hu => ?_
    have hji : j ≠ i := by
      rintro rfl; exact hq (hl.holder_unique hj holds.1 ▸ free.2.1)
    simpa [Sys.fill, update_of_ne hji] using hu
  | @bwrite p k i may holds =>
    refine h.pop p rfl (fun q _ k' j hj => ⟨hkey hj.1 hj.2, hclear i j⟩) fun a rest k' j hs hj => ?_
    rcases eq_or_ne j i with rfl | hji
    · exact .inl (update_self ..)
    have hj' := hkey hj.1 hj.2
    obtain rfl := head_of_script (Scripts.script_of_may may) hs
    refine .inr (.inr ⟨by simp, fun e => hji ?_, hj', update_of_ne hji ..⟩)
    exact hl.eq_of_key (hl.live_of_held hj'.1) (hl.live_of_held holds.1)
      (hj'.2.trans ((Act.bwrite.inj e).symm.trans holds.2.symm))
  | @record p k i l call key step =>
    exact h.mono rfl (fun _ _ _ hi => hkey hi.1 hi.2) fun _ j _ _ => hclear i j
  | @release p k i may holds saved =>
    refine h.mono rfl (fun q _ j hj => hkey ?_ hj.2) fun _ _ _ _ hu => hu
    have hj := hj.1
    simp only [Sys.goto, update_apply] at hj
    split at hj
    · rename_i e; rw [e]; exact mem_of_mem_erase hj
    · exact hj
  | @unref p i call =>
    refine h.pop p rfl (fun q _ k' j hj => ⟨hkey hj.1 hj.2, id⟩) fun a rest k' j hs hj => ?_
    obtain ⟨k, rfl⟩ : ∃ k, a = .brelse k := by
      rcases hsc.releasing p i call with hnil | ⟨k, _, hs'⟩
      · cases hnil.symm.trans hs
      · cases hs'.symm.trans hs; exact ⟨k, rfl⟩
    exact .inr (.inr ⟨by simp, by simp, hkey hj.1 hj.2, rfl⟩)
  | copyToLog call script holds | copyHome call script holds =>
    obtain ⟨t, -, -, -, hrest⟩ := atCall (script ▸ hsc.suffix _)
    exact h.copy hl script (by simp) (by simp [hrest]) holds _
  | fillHead call script holds =>
    obtain ⟨-, -, hrest⟩ := atCall (script ▸ hsc.suffix _)
    exact h.copy hl script (by simp) (by simp [hrest]) holds _

/-! ## Pending blocks stay in their buffers -/

/-- A logged block that is not installed has a dirty buffer. -/
def Pinned (g : Geom) (s : Sys P) : Prop :=
  ∀ b, s.log.Pending b → ∃ i, (s.cache.buf i).key = g.home b ∧ (s.cache.buf i).dirty = true

/-- Nobody `bwrite`s a pending block: a polite process does not, and `commit`
writes log blocks, the header, or a block it has come to install. -/
theorem bwrite_ne_home (ha : Area g s) (hsc : Scripts g s) (may : s.May p (.bwrite k))
    (hpol : Polite g s (.bwrite p k)) (hb : s.log.Pending b) : k ≠ g.home b := by
  rcases Scripts.script_of_may may with hnil | ⟨rest, hs⟩
  · rintro rfl; exact hpol hnil rfl hb.1
  have hat := atCall (hs ▸ hsc.suffix p)
  rcases hat with ⟨t, hpc, rfl⟩ | ⟨t, hpc, rfl⟩ | ⟨-, rfl⟩
  · exact (ha.home_ne hb.1 (ha.inside_entry (ha.tails p _ (.inl hpc)).2)).symm
  · have hlt : t < s.log.block.length := (ha.tails p _ (.inr hpc)).2
    intro e
    refine hb.2 p _ hpc ?_
    rw [← (Prod.mk.inj e).2, getD_eq_getElem?_getD, List.getElem?_eq_getElem hlt]
    exact mem_take_iff_getElem.mpr ⟨t, by omega, rfl⟩
  · exact (ha.home_ne hb.1 (ha.inside_head (ne_nil_of_mem hb.1))).symm

/-- **A step leaves a pending block alone**: its home on disk, and its dirty buffer. -/
theorem pending_kept [Fintype P] (ha : Area g s) (hl : Locks s.cache s.held s.call)
    (hsc : Scripts g s) (hm : Moves g s e s') (hpol : Polite g s e) (hb : s.log.Pending b) :
    s'.disk (g.home b) = s.disk (g.home b) ∧
    ∀ i, (s.cache.buf i).key = g.home b → (s.cache.buf i).dirty = true →
      (s'.cache.buf i).key = g.home b ∧ (s'.cache.buf i).dirty = true := by
  have hne : ∀ p, e ≠ .bwrite p (g.home b) := by
    rintro p rfl
    cases hm with
    | bwrite may holds => exact bwrite_ne_home ha hsc may hpol hb rfl
  refine ⟨?_, fun i hk hd => ?_⟩
  · cases hm with
    | @bwrite p k j may holds =>
      exact update_of_ne (fun hk => hne p (by rw [hk, holds.2])) ..
    | load call => simp [Sys.goto, Sys.pop]
    | _ => rfl
  · rcases buf_moves hl hm i with ⟨-, hclean⟩ | hstays
    · rw [hclean] at hd; cases hd
    · refine ⟨hstays.key.trans hk, (hstays.dirty hd).resolve_right ?_⟩
      rintro ⟨p, he⟩
      exact hne p (by rw [he, hk])

/-- The section of the log an event is, if any. -/
def Event.section? : Event P → Option (Group.Event P)
  | .log e => some e
  | .logWrite p k => some (.logWrite p k.2)
  | .record p k => some (.record p k.2)
  | _ => none

theorem log_moves (hm : Moves g s e s') :
    e.section? = none ∧ s'.log = s.log ∨
      ∃ ge, e.section? = some ge ∧ Group.step g.log.size s.log ge = some s'.log := by
  cases hm with
  | log _ _ _ step | logWrite _ _ step | record _ _ step => exact .inr ⟨_, rfl, step⟩
  | load call => exact .inl ⟨rfl, by simp [Sys.goto, Sys.pop]⟩
  | _ => exact .inl ⟨rfl, rfl⟩

theorem Pinned.moves [Fintype P] (h : Pinned g s)
    (ha : Area g s) (hl : Locks s.cache s.held s.call) (hsc : Scripts g s) (hm : Moves g s e s')
    (hpol : Polite g s e) : Pinned g s' := by
  intro b hb
  obtain ⟨ges, hr⟩ := hsc.runs
  have old : s.log.Pending b →
      ∃ i, (s'.cache.buf i).key = g.home b ∧ (s'.cache.buf i).dirty = true := fun hb => by
    obtain ⟨i, hk, hd⟩ := h b hb
    exact ⟨i, (pending_kept ha hl hsc hm hpol hb).2 i hk hd⟩
  rcases log_moves hm with ⟨-, hlog⟩ | ⟨ge, hge, hstep⟩
  · exact old (hlog ▸ hb)
  · rcases hr.pending_of_step hstep hb with hb' | ⟨p, rfl⟩
    · exact old hb'
    · -- the block has just been logged: its buffer is the one in `log_write`
      cases hm with
      | @log e l ne call script step =>
        simp only [Event.section?, Option.some.injEq] at hge
        exact absurd hge (ne p b).2
      | @logWrite p k i l free holds step => simp [Event.section?] at hge
      | @record q k i l call key step =>
        simp only [Event.section?, Option.some.injEq, Group.Event.record.injEq] at hge
        obtain ⟨rfl, rfl⟩ := hge
        refine ⟨i, ?_, by simp [Sys.goto]⟩
        have hdev := (ha.logging q i call).1
        simp only [Sys.goto, Bcache.modify_same]
        rw [key] at hdev ⊢
        exact Prod.ext hdev rfl
      | _ => simp [Event.section?] at hge

/-! ## What install_trans copies is there already -/

/-- The copy of entry `t` into the log has been made. -/
def CopyDone (t : Nat) (script : List Act) : Group.Pc → Prop
  | .writeLog n => t + 1 < n ∨ t + 1 = n ∧ ∀ dst src, .copyToLog dst src ∉ script
  | .installTrans _ => True
  | .idle | .op | .checked _ | .commit | .finish => False

/-- A process other than `p` is in the middle of changing the block. -/
def Busy (s : Sys P) (p : P) (k : Key) : Prop :=
  ∃ i, (s.cache.buf i).key = k ∧ s.unsaved i = true ∧ (s.cache.buf i).lock ≠ some p

/-- A block that `write_log` has copied still holds what was copied, or somebody is
in the middle of changing it (and can not finish before the commit has). -/
def Copied (g : Geom) (lat : Key → Block) (s : Sys P) : Prop :=
  ∀ p t b, CopyDone t (s.script p) (s.log.pc p) → s.log.block[t]? = some b →
    lat (g.entry t) = lat (g.home b) ∨ Busy s p (g.home b)

omit [DecidableEq P] in
theorem CopyDone.inCommit {script : List Act} (h : CopyDone t script c) : c.inCommit = true := by
  cases c with
  | writeLog | installTrans | finish => rfl
  | idle | op | checked | commit => exact h.elim

omit [DecidableEq P] in
theorem CopyDone.cons {script : List Act} (h : CopyDone t script c)
    (ha : ∀ dst src, a ≠ .copyToLog dst src) : CopyDone t (a :: script) c := by
  cases c with
  | writeLog n =>
    refine h.imp_right fun ⟨e, hn⟩ => ⟨e, fun dst src hm => ?_⟩
    rcases mem_cons.mp hm with e' | hm
    · exact ha dst src e'.symm
    · exact hn dst src hm
  | installTrans n => trivial
  | idle | op | checked | commit | finish => exact h.elim

/-- A process inside `commit` is the one that has calls left to make. -/
theorem eq_of_script (hsc : Scripts g s) {q : P} (hp : (s.log.pc p).inCommit = true)
    (hq : s.script q ≠ []) : q = p := by
  obtain ⟨ges, hr⟩ := hsc.runs
  by_contra hne
  have hidle := hr.alone hp hne
  have := hsc.suffix q
  rw [hidle] at this
  exact hq (suffix_nil.mp this)

omit [DecidableEq P] in
theorem ne_of_free {q : P} (hp : (s.log.pc p).inCommit = true) (hq : s.Free q) : q ≠ p := by
  rintro rfl
  rcases hq.2.2 with h | h <;> rw [h] at hp <;> cases hp

/-- While `p` commits, a change of a logged block that somebody has begun stays begun. -/
theorem Busy.kept [Fintype P] {lat : Key → Block} (h : Busy s p (g.home b)) (hco : Coherent lat s)
    (hl : Locks s.cache s.held s.call) (hsc : Scripts g s) (hm : Moves g s e s')
    (hpol : Polite g s e) (hp : (s.log.pc p).inCommit = true) (hb : b ∈ s.log.block) :
    Busy s' p (g.home b) := by
  obtain ⟨ges, hr⟩ := hsc.runs
  obtain ⟨i, hk, hu, hlock⟩ := h
  obtain ⟨q, hq⟩ := hco.unsaved i hu
  have hheld := hl.lock_of_held hq
  have hpos := hl.refcnt_pos (refsOf_pos_of_mem hq)
  have hstays := (buf_moves hl hm i).resolve_left fun h => hpos.ne' h.1
  refine ⟨i, hstays.key.trans hk, ?_, ?_⟩
  · have hfill : ∀ j, update s.unsaved j true i = true := by
      intro j
      rw [update_apply]
      split
      · rfl
      · exact hu
    cases hm with
    | @bwrite r k j may holds =>
      -- not a polite process, and not `p`, which does not hold the buffer
      have hij : i ≠ j := by
        rintro rfl
        rcases Scripts.script_of_may may with hnil | ⟨rest, hs⟩
        · have hk' : k = g.home b := holds.2.symm.trans hk
          exact hpol hnil (by rw [hk']; rfl) (by rw [hk']; exact hb)
        · have hrp := eq_of_script hsc hp (ne_nil_of_mem (hs ▸ mem_cons_self))
          exact hlock (hrp ▸ hl.lock_of_held holds.1)
      exact (update_of_ne hij ..).trans hu
    | @record r k j l call key step =>
      -- nobody is in `log_write` during a commit
      have hpc := (Group.record_effect step).1
      have hrp : r ≠ p := by rintro rfl; rw [hpc] at hp; cases hp
      rw [hr.alone hp hrp] at hpc
      cases hpc
    | load call => simpa [Sys.goto, Sys.pop] using hu
    | modify | copyToLog | copyHome | fillHead => exact hfill _
    | _ => exact hu
  · rcases hstays.lock (by rw [hheld]; simp) with h | h <;> rw [h]
    · exact hlock
    · simp

/-- The copies made before a section of the log. -/
theorem copyDone_of_step (hsc : Scripts g s) {e : Group.Event P} (hscript : s.script (proc e) = [])
    (hstep : Group.step g.log.size s.log e = some l)
    (hdone : CopyDone t (update s.script (proc e) (turn g s.log e) p) (l.pc p))
    (hb : l.block[t]? = some b) :
    CopyDone t (s.script p) (s.log.pc p) ∧ s.log.block[t]? = some b := by
  obtain ⟨ges, hr⟩ := hsc.runs
  have ht : t < l.block.length := (List.getElem?_eq_some_iff.mp hb).1
  rcases eq_or_ne p (proc e) with rfl | hne
  · rw [update_self] at hdone
    rw [hscript]
    cases (Group.acts_of_step hstep).2 with
    | tooBig pc | outside pc | endPanic pc => rw [proc, pc] at hdone; exact hdone.elim
    | erase pc past => cases ht
    | install pc entry => exact ⟨by rw [proc, pc]; trivial, hb⟩
    | @writeHead p n pc past =>
      refine ⟨?_, hb⟩
      rw [proc, pc]
      rcases Nat.lt_or_eq_of_le (Nat.succ_le_of_lt (Nat.lt_of_lt_of_le ht past)) with hlt | heq
      · exact .inl hlt
      · exact .inr ⟨heq, by simp⟩
    | @copyToLog p c n pc entry =>
      simp only [proc, Group.State.goto, update_self] at hdone
      refine ⟨?_, hb⟩
      rw [proc, pc]
      rcases hdone with hd | ⟨-, hd⟩
      · rcases Nat.lt_or_eq_of_le (Nat.succ_le_of_lt (Nat.lt_of_succ_lt_succ hd)) with hlt | heq
        · exact .inl hlt
        · exact .inr ⟨heq, by simp⟩
      · -- this turn's copy is still to come
        refine absurd ?_ (hd (g.entry n) (g.home c))
        simp [turn, pc, writeLogTurn]
    | commit pc logged =>
      simp only [proc, Group.State.goto, update_self] at hdone
      rcases hdone with hd | ⟨hd, -⟩ <;> omega
    | _ =>
      simp only [proc, Group.State.goto, update_self] at hdone
      exact hdone.elim
  · rw [update_of_ne hne, Group.step_pc_other hstep hne] at hdone
    refine ⟨hdone, ?_⟩
    rwa [(hr.step_block_or hstep hne).resolve_right (by rw [hdone.inCommit]; simp)] at hb

theorem Copied.moves [Fintype P] {lat : Key → Block}
    (h : Copied g lat s) (hco : Coherent lat s) (ha : Area g s)
    (hl : Locks s.cache s.held s.call) (hsc : Scripts g s) (hm : Moves g s e s')
    (hpol : Polite g s e) : Copied g (leaves lat e) s' := by
  intro p t b hdone hb
  have old : CopyDone t (s.script p) (s.log.pc p) → s.log.block[t]? = some b →
      lat (g.entry t) = lat (g.home b) ∨ Busy s' p (g.home b) := fun hd hb' =>
    (h p t b hd hb').imp_right fun hbusy =>
      hbusy.kept hco hl hsc hm hpol hd.inCommit (mem_of_getElem? hb')
  -- a process that finishes a call other than the copy
  have popped : ∀ r, (∀ rest dst src, s.script r ≠ .copyToLog dst src :: rest) →
      CopyDone t (update s.script r (s.script r).tail p) (s.log.pc p) →
      CopyDone t (s.script p) (s.log.pc p) := by
    intro r hr hd
    rcases eq_or_ne p r with rfl | hne
    · rw [update_self] at hd
      cases hs : s.script p with
      | nil => rw [hs] at hd; exact hd
      | cons a rest =>
        rw [hs] at hd
        exact hd.cons fun dst src e => hr rest dst src (e ▸ hs)
    · rwa [update_of_ne hne] at hd
  cases hm with
  | @log e l ne call script step =>
    obtain ⟨hd, hb'⟩ := copyDone_of_step hsc script step hdone hb
    exact old hd hb'
  | bget | noBuffers | acquire | release => exact old hdone hb
  | @load r k i call =>
    simp only [Sys.goto, Sys.pop, Sys.load_fields] at hdone hb
    refine old (popped r (fun rest dst src hs => ?_) hdone) hb
    rcases hsc.reading r k i (.inr call) with h' | ⟨_, h'⟩ <;> rw [h'] at hs <;> cases hs
  | @modify r k i data free holds =>
    have hin : (s.log.pc p).inCommit = true := CopyDone.inCommit hdone
    simp only [leaves]
    rcases eq_or_ne k (g.home b) with rfl | hk
    · -- the block is being changed now, and not by `p`
      refine .inr ⟨i, ?_, ?_, ?_⟩
      · simpa [Sys.fill] using holds.2
      · simp [Sys.fill]
      · have hrp := ne_of_free hin free
        simpa [Sys.fill, hl.lock_of_held holds.1] using hrp
    · have hentry : g.entry t ≠ k := by
        rintro rfl
        exact hpol ⟨rfl, ha.inside_entry (List.getElem?_eq_some_iff.mp hb).1⟩
      rw [update_of_ne hentry, update_of_ne hk.symm]
      exact old hdone hb
  | @bwrite r k i may holds =>
    refine old (popped r (fun rest dst src hs => ?_) hdone) hb
    rcases Scripts.script_of_may may with h' | ⟨_, h'⟩ <;> rw [h'] at hs <;> cases hs
  | @logWrite r k i l free holds step =>
    obtain ⟨hd, hb'⟩ := copyDone_of_step (e := .logWrite r k.2) hsc free.2.1 step
      (by show CopyDone t (update s.script r [] p) (l.pc p)
          rw [← free.2.1, update_eq_self]; exact hdone) hb
    exact old hd hb'
  | @record r k i l call key step =>
    have hs := hsc.logging r i call
    obtain ⟨hd, hb'⟩ := copyDone_of_step (e := .record r k.2) hsc hs step
      (by show CopyDone t (update s.script r [] p) (l.pc p)
          rw [← hs, update_eq_self]; exact hdone) hb
    exact old hd hb'
  | @unref r i call =>
    refine old (popped r (fun rest dst src hs => ?_) hdone) hb
    rcases hsc.releasing r i call with h' | ⟨_, _, h'⟩ <;> rw [h'] at hs <;> cases hs
  | @copyToLog r dst src rest i j call script holds holds' =>
    have hrp : r = p := eq_of_script hsc (CopyDone.inCommit hdone) (by rw [script]; simp)
    subst hrp
    obtain ⟨n, hpc, rfl, rfl, -⟩ := atCall (script ▸ hsc.suffix r)
    have hbm : b ∈ s.log.block := mem_of_getElem? hb
    have hn : n < s.log.block.length := (ha.tails r _ (.inl hpc)).2
    have hhome : g.home b ≠ g.entry n := ha.home_ne hbm (ha.inside_entry hn)
    simp only [leaves]
    rw [update_of_ne hhome]
    rcases eq_or_ne t n with rfl | htn
    · -- the copy is made now, from a buffer that has the block's bytes
      left
      have hbt : s.log.block.getD t 0 = b := by
        exact congrArg (·.getD 0) hb
      rw [update_self, hco.data j ((hl.procs r).valid j (.inl holds'.1)), holds'.2, hbt]
    · have hentry : g.entry t ≠ g.entry n := fun e => htn (by simpa [Geom.entry] using e)
      rw [update_of_ne hentry]
      refine old ?_ hb
      have hdone' : CopyDone t rest (.writeLog (n + 1)) := by
        simpa [Sys.pop, Sys.fill, script, hpc] using hdone
      rw [hpc]
      rcases hdone' with hd | ⟨hd, -⟩
      · exact .inl hd
      · omega
  | @copyHome r dst src rest i j call script holds holds' =>
    refine old (popped r (fun rest' dst' src' hs => ?_) hdone) hb
    rw [script] at hs; cases hs
  | @fillHead r dst rest i call script holds =>
    obtain ⟨-, rfl, -⟩ := atCall (script ▸ hsc.suffix r)
    have hbm : b ∈ s.log.block := mem_of_getElem? hb
    have hhome : g.home b ≠ g.head := ha.home_ne hbm (ha.inside_head (ne_nil_of_mem hbm))
    have hentry : g.entry t ≠ g.head := fun e => by simp [Geom.entry, Geom.head] at e; omega
    simp only [leaves]
    rw [update_of_ne hhome, update_of_ne hentry]
    refine old (popped r (fun rest' dst' src' hs => ?_) hdone) hb
    rw [script] at hs; cases hs

/-! ## Runs -/

section Runs
variable [Fintype P]

/-- What holds in every state of a run, `lat` being what was last left in each block. -/
structure Inv (g : Geom) (lat : Key → Block) (s : Sys P) : Prop where
  locks : Locks s.cache s.held s.call
  scripts : Scripts g s
  coherent : Coherent lat s
  area : Area g s
  saved : Saved s
  pinned : Pinned g s
  copied : Copied g lat s

namespace Inv

variable {g : Geom} {lat : Key → Block} {s s' : Sys P} {e : Event P}

theorem init (g : Geom) (d : Key → Block) : Inv g d (Sys.init P d) where
  locks := Locks.init
  scripts := Scripts.init d
  coherent := ⟨by simp [Sys.init, Bcache.init], fun _ => .inl rfl, by simp [Sys.init]⟩
  area := ⟨by simp [Sys.init, Group.State.init], .inl rfl, by simp [Sys.init, Group.State.init],
    by simp [Sys.init]⟩
  saved := by intro p k hk; cases hk
  pinned := by intro b hb; cases hb.1
  copied := by intro p t b hd; exact hd.elim

theorem step (h : Inv g lat s) (hm : Moves g s e s') (hpol : Polite g s e) :
    Inv g (leaves lat e) s' where
  locks := h.locks.moves hm
  scripts := h.scripts.move hm
  coherent := by
    refine h.coherent.moves h.locks hm (fun p dst src rest i hs hi => ?_)
      fun p k rest i hs hi => ?_
    · -- `install_trans` holds the home block, so nobody is changing it
      obtain ⟨t, hpc, rfl, rfl, -⟩ := atCall (hs ▸ h.scripts.suffix p)
      have hlt : t < s.log.block.length := (h.area.tails p _ (.inr hpc)).2
      have hget : s.log.block[t]? = some (s.log.block.getD t 0) := by
        rw [getD_eq_getElem?_getD, List.getElem?_eq_getElem hlt]; rfl
      refine (h.copied p t _ (by rw [hpc]; trivial) hget).resolve_right fun ⟨j, hk, hu, hlock⟩ => ?_
      obtain ⟨q, hq⟩ := h.coherent.unsaved j hu
      have hji : j = i := h.locks.eq_of_key (h.locks.live_of_held hq) (h.locks.live_of_held hi.1)
        (hk.trans hi.2.symm)
      exact hlock (hji ▸ h.locks.lock_of_held hi.1)
    · -- after the first `brelse` of a turn nothing is read or written
      have hrest : ∀ a ∈ s.script p, ∃ k, a = .brelse k := by
        intro a ha
        rw [hs] at ha
        rcases mem_cons.mp ha with rfl | ha
        · exact ⟨k, rfl⟩
        · have hat := atCall (hs ▸ h.scripts.suffix p)
          exact hat a ha
      rcases h.saved p k (hs ▸ mem_cons_self) with h' | h' | h'
      · obtain ⟨_, e⟩ := hrest _ h'; cases e
      · obtain ⟨_, e⟩ := hrest _ h'; cases e
      · exact h' i hi
  area := h.area.moves h.locks h.scripts hm hpol
  saved := h.saved.moves h.coherent h.locks h.scripts hm
  pinned := h.pinned.moves h.area h.locks h.scripts hm hpol
  copied := h.copied.moves h.coherent h.area h.locks h.scripts hm hpol

end Inv

omit [DecidableEq P] [Fintype P] in
theorem lastLeft_snoc (d : Key → Block) (es : List (Event P)) (e : Event P) :
    lastLeft d (es ++ [e]) = leaves (lastLeft d es) e := by
  rw [lastLeft, foldl_append]; rfl

omit [Fintype P] in
theorem moves_of_politeStep (h : politeStep g s e = some s') : Polite g s e ∧ Moves g s e s' := by
  simp only [politeStep] at h
  split at h
  · rename_i hp; exact ⟨hp, (moves_of_step h).2.2⟩
  · cases h

theorem PoliteRuns.inv {d : Key → Block} {es : List (Event P)}
    (h : PoliteRuns g d es s) : Inv g (lastLeft d es) s := by
  refine Trace.Run.invariant (I := fun es s => Inv g (lastLeft d es) s) (Inv.init g d) ?_ h
  intro es s e s' hi hs
  obtain ⟨hpol, hm⟩ := moves_of_politeStep hs
  rw [lastLeft_snoc]
  exact hi.step hm hpol

/-- From a state where `b` is pending, until its commit comes to install it, its home
stays as it is and its dirty buffer keeps its identity. -/
theorem pinned_until_install {d : Key → Block} (hb : s.log.Pending b)
    (hk : (s.cache.buf i).key = g.home b) (hd : (s.cache.buf i).dirty = true)
    {es fs : List (Event P)} {t : Sys P} (hs : PoliteRuns g d es s)
    (hr : Trace.Run (politeStep g) s fs t) (hno : ∀ q, .log (.install q b) ∉ fs) :
    t.log.Pending b ∧ t.disk (g.home b) = s.disk (g.home b) ∧
      (t.cache.buf i).key = g.home b ∧ (t.cache.buf i).dirty = true := by
  induction hr with
  | nil => exact ⟨hb, rfl, hk, hd⟩
  | @snoc fs u u' e hfs hu ih =>
    obtain ⟨hb', hdisk, hk', hd'⟩ := ih fun q hq => hno q (mem_append_left _ hq)
    obtain ⟨hpol, hm⟩ := moves_of_politeStep hu
    have hi := PoliteRuns.inv (hs.append hfs)
    obtain ⟨hdisk', hbuf⟩ := pending_kept hi.area hi.locks hi.scripts hm hpol hb'
    obtain ⟨hk'', hd''⟩ := hbuf i hk' hd'
    refine ⟨?_, hdisk'.trans hdisk, hk'', hd''⟩
    obtain ⟨ges, hges⟩ := hi.scripts.runs
    rcases log_moves hm with ⟨-, hlog⟩ | ⟨ge, hge, hstep⟩
    · exact hlog ▸ hb'
    · refine hges.pending_step hb' hstep fun q e' => hno q ?_
      subst e'
      cases e with
      | log e =>
        simp only [Event.section?, Option.some.injEq] at hge
        exact hge ▸ mem_append_right _ mem_cons_self
      | _ => simp [Event.section?] at hge

/-- **Buffer cache coherence.**  In every run of any number of processes that follow
the discipline and are polite, with commits in between and whatever is evicted:

* a `bread` of block `k` that returns hands out a buffer for `k` with the bytes most
  recently left in `k`, or the initial ones;
* once a block has been log_written, and until its commit comes to install it, its
  home on disk does not change and its buffer is not recycled. -/
theorem buffer_cache_coherent (g : Geom) (d : Key → Block) (es : List (Event P)) (s : Sys P)
    (hrun : PoliteRuns g d es s) :
    (∀ p k i s', s.call p = .loading k i → politeStep g s (.load p) = some s' →
      i ∈ s'.held p ∧ (s'.cache.buf i).key = k ∧ (s'.cache.buf i).data = lastLeft d es k) ∧
    (∀ pre p k post, es = pre ++ .record p k :: post → (∀ q, .log (.install q k.2) ∉ post) →
      ∃ t, PoliteRuns g d (pre ++ [.record p k]) t ∧ s.disk k = t.disk k ∧
        ∃ i, (t.cache.buf i).key = k ∧ (s.cache.buf i).key = k ∧ (s.cache.buf i).dirty = true) := by
  refine ⟨fun p k i s' hcall hstep => ?_, fun pre p k post hes hno => ?_⟩
  · have hi := hrun.inv
    have hi' := PoliteRuns.inv (.snoc (.load p) hrun hstep)
    obtain ⟨-, hm⟩ := moves_of_politeStep hstep
    rw [lastLeft_snoc] at hi'
    change Inv g (lastLeft d es) s' at hi'
    cases hm with
    | @load p k' i' call =>
      rw [hcall] at call
      cases call
      simp only [Sys.goto, Sys.pop, Sys.load_cache, update_self] at hi' ⊢
      have hkey : ((s.cache.modify i (Buf.loaded s.disk)).buf i).key = k := by
        rw [Bcache.modify_same, (Buf.loaded_fields _ _).1]
        exact (hi.locks.procs p).waits k i (.inr hcall)
      refine ⟨mem_cons_self, hkey, ?_⟩
      have hv : ((s.cache.modify i (Buf.loaded s.disk)).buf i).valid = true := by
        rw [Bcache.modify_same]; exact (Buf.loaded_fields _ _).2.2.2.2
      have hdata := hi'.coherent.data i hv
      rw [hkey] at hdata
      exact hdata
  · obtain ⟨u, t, hu, hstep, hpost⟩ := hrun.split hes
    have ht : PoliteRuns g d (pre ++ [.record p k]) t := .snoc _ hu hstep
    have hi := PoliteRuns.inv hu
    obtain ⟨hpol, hm⟩ := moves_of_politeStep hstep
    obtain ⟨ges, hges⟩ := hi.scripts.runs
    cases hm with
    | @record p k i l call key step =>
      have hhome : k = g.home k.2 :=
        Prod.ext (by have := (hi.area.logging p i call).1; rwa [key] at this) rfl
      obtain ⟨-, hpc, hblock⟩ := Group.record_effect step
      have hpend : l.Pending k.2 := by
        refine ⟨by rw [hblock]; exact Group.mem_absorb.mpr (.inr rfl), fun q n hq => ?_⟩
        -- no commit runs while `p` is in its operation
        have hpq : p ≠ q := by rintro rfl; rw [hpc] at hq; cases hq
        have := Group.Runs.alone (.snoc _ hges step) (p := q) (by rw [hq]; rfl) hpq
        rw [hpc] at this; cases this
      have hkey : ((u.cache.modify i (fun b => { b with dirty := true })).buf i).key = k := by
        rw [Bcache.modify_same]; exact key
      obtain ⟨-, hdisk, hkey', hdirty⟩ := pinned_until_install (i := i) hpend (hkey.trans hhome)
        (by simp [Sys.goto]) ht hpost hno
      rw [← hhome] at hdisk hkey'
      exact ⟨_, ht, hdisk, i, hkey, hkey', hdirty⟩

end Runs

/-- One process, a log at blocks 2 to 31 of device 1, and empty disks. -/
def smallGeom : Geom := ⟨1, ⟨2, LOGSIZE⟩⟩

/-- Block 40 is read, changed and log_written inside an operation. -/
def logOne : List (Event Unit) :=
  [.log (.beginOp ()), .bget () (1, 40), .acquire (), .load (),
    .modify () (1, 40) (Bytes.Buffer.ofFn fun _ => 1), .logWrite () (1, 40)]

/-- Block 40 is logged, released and read again. -/
theorem buffer_cache_coherent_reread :
    ∃ (s s' : Sys Unit) (i : BufId),
      PoliteRuns smallGeom (fun _ => Bytes.Buffer.zero)
        (logOne ++ [.record () (1, 40), .release () (1, 40), .unref (), .bget () (1, 40),
          .acquire ()]) s ∧
      politeStep smallGeom s (.load ()) = some s' ∧
      (s'.cache.buf i).data = Bytes.Buffer.ofFn fun _ => 1 := by
  obtain ⟨s, hrun, hcall, hload⟩ : ∃ s, PoliteRuns smallGeom (fun _ => Bytes.Buffer.zero)
      (logOne ++ [.record () (1, 40), .release () (1, 40), .unref (), .bget () (1, 40),
        .acquire ()]) s ∧ s.call () = .loading (1, 40) ⟨0, by decide⟩ ∧
      (politeStep smallGeom s (.load ())).isSome = true := Trace.exists_of_exec (by decide +kernel)
  obtain ⟨s', hs'⟩ := Option.isSome_iff_exists.mp hload
  exact ⟨s, s', ⟨0, by decide⟩, hrun, hs',
    ((buffer_cache_coherent smallGeom _ _ s hrun).1 () (1, 40) _ s' hcall hs').2.2⟩

/-! ## Why the log must not be bypassed -/

/-- **A process that also `bwrite`s the block it has logged** keeps to the discipline
of `bread` and `brelse`, and changes the home location before any commit. -/
theorem bwrite_of_logged_block :
    ∃ (t s : Sys Unit),
      Runs smallGeom (fun _ => Bytes.Buffer.zero) (logOne ++ [.record () (1, 40)]) t ∧
      Runs smallGeom (fun _ => Bytes.Buffer.zero)
        (logOne ++ .record () (1, 40) :: [.bwrite () (1, 40)]) s ∧
      40 ∈ s.log.block ∧ s.disk (1, 40) ≠ t.disk (1, 40) := by
  obtain ⟨t, htr, ht⟩ : ∃ t, Runs smallGeom (fun _ => Bytes.Buffer.zero)
      (logOne ++ [.record () (1, 40)]) t ∧ (t.disk (1, 40)).byte 0 = 0 :=
    Trace.exists_of_exec (by decide +kernel)
  refine ⟨t, (Trace.exists_of_exec (Q := fun s => 40 ∈ s.log.block ∧ (s.disk (1, 40)).byte 0 = 1)
    (by decide +kernel)).imp fun s ⟨hsr, hmem, hs⟩ => ⟨htr, hsr, hmem, fun e => ?_⟩⟩
  rw [e, ht] at hs
  cases hs

end Xv6.Bio
