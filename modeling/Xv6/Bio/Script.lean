/-
# `Xv6.Bio.Script` — where commit is in its buffer calls

The process inside `commit` alternates between sections of `Xv6.Log.Group` and
the buffer calls that follow them.  `Scripts` says that what it has left to do is
an end of the current turn's calls, and that a call it is inside is the first of
them; both follow from the way `act` hands out turns and pops calls.
-/
import Xv6.Bio.Locks

namespace Xv6.Group

open Function (update update_of_ne update_self)

variable {P : Type} [DecidableEq P] {size b : Nat} {s s' : State P} {e : Event P} {q : P}
  {es : List (Event P)}

/-! ## The log, one event at a time -/

theorem step_pc_other (h : step size s e = some s') (hq : q ≠ Bio.proc e) : s'.pc q = s.pc q := by
  cases (acts_of_step h).2 with
  | tooBig | outside | endPanic => rfl
  | _ => exact update_of_ne hq ..

theorem logWrite_block {p : P} (h : step size s (.logWrite p b) = some s') :
    s'.block = s.block := by
  cases (acts_of_step h).2 <;> rfl

theorem record_effect {p : P} (h : step size s (.record p b) = some s') :
    s.pc p = .checked b ∧ s'.pc p = .op ∧ s'.block = absorb s.block b := by
  cases (acts_of_step h).2 with
  | record pc => exact ⟨pc, update_self .., rfl⟩

/-- The entries change when a block is recorded and when the log is erased. -/
theorem step_block (h : step size s e = some s') :
    s'.block = s.block ∨
      (∃ p b, e = .record p b ∧ s.pc p = .checked b ∧ s'.block = absorb s.block b) ∨
      ∃ p t, e = .erase p ∧ s.pc p = .installTrans t ∧ s.block.length ≤ t ∧ s'.block = [] := by
  cases (acts_of_step h).2 with
  | record pc => exact .inr (.inl ⟨_, _, rfl, pc, rfl⟩)
  | erase pc past => exact .inr (.inr ⟨_, _, rfl, pc, past, rfl⟩)
  | _ => exact .inl rfl

/-- While a process is inside `commit` every other one is outside any operation. -/
theorem Runs.alone (h : Runs size es s) {p : P} (hp : (s.pc p).inCommit = true) (hq : q ≠ p) :
    s.pc q = .idle := by
  obtain ⟨-, hothers, hopen, -⟩ := h.inv.phase_of_inCommit hp
  have hout : (s.pc q).inOp = false := by
    by_contra hin
    have h₁ := h.inv.inOp q
    have h₂ := opCount_le_openCount (hist es).ops q
    rw [if_pos (by simpa using hin)] at h₁
    omega
  have hcom := hothers q hq
  cases hpc : s.pc q <;> simp_all

/-- Nobody else is inside `commit` when the entries change. -/
theorem Runs.step_block_or (hr : Runs size es s) (h : step size s e = some s')
    (hq : q ≠ Bio.proc e) : s'.block = s.block ∨ (s.pc q).inCommit = false := by
  rcases step_block h with hb | ⟨p, b, rfl, hp, -⟩ | ⟨p, t, rfl, hp, -⟩
  · exact .inl hb
  · refine .inr (by_contra fun hc => ?_)
    have hidle := hr.alone (by simpa using hc) (Ne.symm hq)
    rw [Bio.proc, hp] at hidle
    cases hidle
  · rw [hr.alone (by rw [Bio.proc, hp]; rfl) hq]
    exact .inr rfl

/-- How a process has come to a turn of `install_trans`. -/
theorem Runs.installing (hr : Runs size es s) (h : step size s e = some s') {n : Nat}
    (hn : s'.pc q = .installTrans n) :
    s'.block = s.block ∧ (s.pc q = .installTrans n ∨ n = 0 ∨
      ∃ c t, e = .install q c ∧ s.pc q = .installTrans t ∧ s.block[t]? = some c ∧ n = t + 1) := by
  rcases eq_or_ne q (Bio.proc e) with rfl | hq
  · cases (acts_of_step h).2 with
    | tooBig pc | outside pc | endPanic pc => cases pc.symm.trans hn
    | writeHead pc past =>
      simp only [Bio.proc, State.goto, update_self, Pc.installTrans.injEq] at hn
      exact ⟨rfl, .inr (.inl hn.symm)⟩
    | install pc entry =>
      simp only [Bio.proc, State.goto, update_self, Pc.installTrans.injEq] at hn
      exact ⟨rfl, .inr (.inr ⟨_, _, rfl, pc, entry, hn.symm⟩)⟩
    | _ => simp [Bio.proc, State.goto] at hn
  · rw [step_pc_other h hq] at hn
    exact ⟨(hr.step_block_or h hq).resolve_right (by rw [hn]; simp), .inl hn⟩

/-- Where a turn of `install_trans` leads. -/
theorem Runs.installed (hr : Runs size es s) (h : step size s e = some s') {n : Nat}
    (hn : s.pc q = .installTrans n) :
    s'.block = [] ∨
      s'.block = s.block ∧ (s'.pc q = .installTrans n ∨ s'.pc q = .installTrans (n + 1)) := by
  rcases eq_or_ne q (Bio.proc e) with rfl | hq
  · cases (acts_of_step h).2 with
    | install pc entry =>
      cases hn.symm.trans pc
      exact .inr ⟨rfl, .inr (update_self ..)⟩
    | erase pc past => exact .inl rfl
    | beginOp pc | tooBig pc | outside pc | logWrite pc | record pc | endPanic pc | endLast pc
    | endOpen pc | commit pc | commitNone pc | copyToLog pc | writeHead pc | finish pc =>
      cases hn.symm.trans pc
  · refine .inr ⟨(hr.step_block_or h hq).resolve_right (by rw [hn]; simp), .inl ?_⟩
    rw [step_pc_other h hq, hn]

/-- Logged, and the running commit has not come to install it. -/
def State.Pending (s : State P) (b : Nat) : Prop :=
  b ∈ s.block ∧ ∀ p n, s.pc p = .installTrans n → b ∉ s.block.take n

/-- A logged block stays pending until the commit comes to it. -/
theorem Runs.pending_step (hr : Runs size es s) (hb : s.Pending b) (h : step size s e = some s')
    (hne : ∀ p, e ≠ .install p b) : s'.Pending b := by
  obtain ⟨hmem, htail⟩ := hb
  refine ⟨?_, fun q n hn => ?_⟩
  · rcases step_block h with hb | ⟨p, c, rfl, -, hb⟩ | ⟨p, t, rfl, hp, hlen, -⟩
    · exact hb ▸ hmem
    · rw [hb]; exact mem_absorb.mpr (.inl hmem)
    · exact absurd (by rwa [List.take_of_length_le hlen]) (htail p t hp)
  · obtain ⟨hb, hold | rfl | ⟨c, t, rfl, h₀, hc, rfl⟩⟩ := hr.installing h hn <;> rw [hb]
    · exact htail q n hold
    · simp
    · rw [List.take_add_one, hc, List.mem_append]
      rintro (hin | hin)
      · exact htail q t h₀ hin
      · simp only [Option.toList_some, List.mem_singleton] at hin
        exact hne q (hin ▸ rfl)

/-- A pending block was pending before, unless it has just been logged. -/
theorem Runs.pending_of_step (hr : Runs size es s) (h : step size s e = some s')
    (hb : s'.Pending b) : s.Pending b ∨ ∃ p, e = .record p b := by
  obtain ⟨hmem, htail⟩ := hb
  by_cases hrec : ∃ p, e = .record p b
  · exact .inr hrec
  refine .inl ⟨?_, fun q n hn hin => ?_⟩
  · rcases step_block h with hb | ⟨p, c, rfl, -, hb⟩ | ⟨p, t, rfl, -, -, hb⟩ <;> rw [hb] at hmem
    · exact hmem
    · exact (mem_absorb.mp hmem).resolve_right fun e => hrec ⟨p, e ▸ rfl⟩
    · cases hmem
  · rcases hr.installed h hn with hb | ⟨hb, hn' | hn'⟩
    · rw [hb] at hmem; cases hmem
    · exact htail q n hn' (hb ▸ hin)
    · refine htail q _ hn' ?_
      rw [hb, List.take_add_one]
      exact List.mem_append_left _ hin

end Xv6.Group

namespace Xv6.Bio

open Function (update update_eq_self update_of_ne update_self)

variable {P : Type} [DecidableEq P]

/-- The calls of the turn a process inside `commit` is in. -/
def turnOf (g : Geom) (block : List Nat) : Group.Pc → List Act
  | .writeLog (tail + 1) => writeLogTurn g tail (block.getD tail 0)
  | .installTrans (tail + 1) => installTurn g tail (block.getD tail 0)
  | .installTrans 0 | .finish => headTurn g
  | .writeLog 0 | .idle | .op | .checked _ | .commit => []

theorem turn_suffix {g : Geom} {s s' : Group.State P} {e : Group.Event P}
    (h : Group.step g.log.size s e = some s') :
    turn g s e <:+ turnOf g s'.block (s'.pc (proc e)) := by
  cases (Group.acts_of_step h).2 with
  | copyToLog pc entry | install pc entry =>
    simp [turn, pc, proc, Group.State.goto, turnOf, List.getD_eq_getElem?_getD, entry]
  | writeHead pc past | erase pc past => simp [turn, proc, Group.State.goto, turnOf]
  | _ => exact List.nil_suffix

/-- Only a process inside `commit` has a turn. -/
theorem inCommit_of_turnOf {g : Geom} {block : List Nat} {c : Group.Pc}
    (h : turnOf g block c ≠ []) : c.inCommit = true := by
  cases c <;> simp_all [turnOf]

/-- What `commit` has left to do is an end of its turn, and a call it is inside is
the first of it. -/
structure Scripts (g : Geom) (s : Sys P) : Prop where
  runs : ∃ es, Group.Runs g.log.size es s.log
  suffix : ∀ p, s.script p <:+ turnOf g s.log.block (s.log.pc p)
  reading : ∀ p k i, s.call p = .acquiring k i ∨ s.call p = .loading k i →
    s.script p = [] ∨ ∃ rest, s.script p = .bread k :: rest
  releasing : ∀ p i, s.call p = .releasing i →
    s.script p = [] ∨ ∃ k rest, s.script p = .brelse k :: rest
  logging : ∀ p i, s.call p = .logging i → s.script p = []

namespace Scripts

variable {g : Geom} {s s' : Sys P} {e : Event P}

theorem init (d : Key → Block) : Scripts g (Sys.init P d) where
  runs := ⟨[], .nil⟩
  suffix := fun _ => List.nil_suffix
  reading := by simp [Sys.init]
  releasing := by simp [Sys.init]
  logging := by simp [Sys.init]

omit [DecidableEq P] in
/-- A process that is free has nothing left to do; one in `commit` is at its next call. -/
theorem script_of_may {p : P} {a : Act} (h : s.May p a) :
    s.script p = [] ∨ ∃ rest, s.script p = a :: rest := by
  rcases h with ⟨-, hs, -⟩ | ⟨-, hs⟩
  · exact .inl hs
  · exact .inr (List.head?_eq_some_iff.mp hs)

section

variable (h : Scripts g s)
include h

/-- `p` moves without the log: it keeps or pops its calls. -/
theorem local_move (p : P) (hlog : s'.log = s.log)
    (hcall : ∀ q, q ≠ p → s'.call q = s.call q) (hscript : ∀ q, q ≠ p → s'.script q = s.script q)
    (hp : s'.script p <:+ s.script p)
    (hread : ∀ k i, s'.call p = .acquiring k i ∨ s'.call p = .loading k i →
      s'.script p = [] ∨ ∃ rest, s'.script p = .bread k :: rest)
    (hrel : ∀ i, s'.call p = .releasing i →
      s'.script p = [] ∨ ∃ k rest, s'.script p = .brelse k :: rest)
    (hlogging : ∀ i, s'.call p = .logging i → s'.script p = []) : Scripts g s' := by
  refine ⟨hlog ▸ h.runs, fun q => ?_, fun q => ?_, fun q => ?_, fun q => ?_⟩
  all_goals rcases eq_or_ne q p with rfl | hq
  · rw [hlog]; exact hp.trans (h.suffix q)
  · rw [hlog, hscript q hq]; exact h.suffix q
  · exact hread
  · rw [hcall q hq, hscript q hq]; exact h.reading q
  · exact hrel
  · rw [hcall q hq, hscript q hq]; exact h.releasing q
  · exact hlogging
  · rw [hcall q hq, hscript q hq]; exact h.logging q

theorem log_move {e : Group.Event P} (hstep : Group.step g.log.size s.log e = some s'.log)
    (hcall : ∀ q, q ≠ proc e → s'.call q = s.call q)
    (hscript : s'.script = update s.script (proc e) (turn g s.log e))
    (hp : s'.call (proc e) = .ready ∨ ∃ i, s'.call (proc e) = .logging i ∧ turn g s.log e = []) :
    Scripts g s' := by
  obtain ⟨es, hes⟩ := h.runs
  have hself : s'.script (proc e) = turn g s.log e := by rw [hscript, update_self]
  have hother : ∀ q, q ≠ proc e → s'.script q = s.script q := fun q hq => by
    rw [hscript, update_of_ne hq]
  refine ⟨⟨_, .snoc e hes hstep⟩, fun q => ?_, fun q k i hq => ?_, fun q i hq => ?_, fun q i hq => ?_⟩
  all_goals rcases eq_or_ne q (proc e) with rfl | hne
  · rw [hself]; exact turn_suffix hstep
  · rw [hother q hne, Group.step_pc_other hstep hne]
    rcases hes.step_block_or hstep hne with hb | hc
    · rw [hb]; exact h.suffix q
    · -- outside `commit` there are no calls to compare
      have hnil : ∀ block, turnOf g block (s.log.pc q) = [] := fun block =>
        by_contra fun hn => by rw [inCommit_of_turnOf hn] at hc; cases hc
      have := h.suffix q
      rwa [hnil] at this ⊢
  · rcases hp with hp | ⟨j, hp, -⟩ <;> rw [hp] at hq <;> simp at hq
  · rw [hcall q hne] at hq; rw [hother q hne]; exact h.reading q k i hq
  · rcases hp with hp | ⟨j, hp, -⟩ <;> rw [hp] at hq <;> simp at hq
  · rw [hcall q hne] at hq; rw [hother q hne]; exact h.releasing q i hq
  · rcases hp with hp | ⟨j, hp, ht⟩
    · rw [hp] at hq; cases hq
    · rw [hself]; exact ht
  · rw [hcall q hne] at hq; rw [hother q hne]; exact h.logging q i hq

theorem pop_move (p : P) (hlog : s'.log = s.log) (hcall : s'.call = update s.call p .ready)
    (hscript : s'.script = update s.script p (s.script p).tail) : Scripts g s' := by
  have hready : s'.call p = .ready := by rw [hcall, update_self]
  refine h.local_move p hlog (fun q hq => ?_) (fun q hq => ?_) ?_ ?_ ?_ ?_
  · rw [hcall, update_of_ne hq]
  · rw [hscript, update_of_ne hq]
  · rw [hscript, update_self]; exact List.tail_suffix _
  all_goals simp [hready]

theorem pop_ready (p : P) (hp : s.call p = .ready) (hlog : s'.log = s.log)
    (hcall : s'.call = s.call)
    (hscript : s'.script = update s.script p (s.script p).tail) : Scripts g s' :=
  h.pop_move p hlog (by rw [hcall, ← hp, update_eq_self]) hscript

/-- `p` goes on to the call `c`, with what it has left to do. -/
theorem goto_move (p : P) {c : Call} (hlog : s'.log = s.log)
    (hcall : s'.call = update s.call p c) (hscript : s'.script = s.script)
    (hread : ∀ k i, c = .acquiring k i ∨ c = .loading k i →
      s.script p = [] ∨ ∃ rest, s.script p = .bread k :: rest)
    (hrel : ∀ i, c = .releasing i → s.script p = [] ∨ ∃ k rest, s.script p = .brelse k :: rest)
    (hlogging : ∀ i, c ≠ .logging i) : Scripts g s' := by
  have hself : s'.call p = c := by rw [hcall, update_self]
  refine h.local_move p hlog (fun q hq => ?_) (fun q _ => ?_) ?_ ?_ ?_ ?_
  · rw [hcall, update_of_ne hq]
  · rw [hscript]
  · rw [hscript]
  · rw [hself, hscript]; exact hread
  · rw [hself, hscript]; exact hrel
  · rw [hself]; exact fun i hi => absurd hi (hlogging i)

/-- **Every move keeps the scripts.** -/
theorem move (hm : Moves g s e s') : Scripts g s' := by
  cases hm with
  | log ne call script step => exact h.log_move step (fun _ _ => rfl) rfl (.inl call)
  | @bget p k i c may bget =>
    refine h.goto_move p rfl rfl rfl ?_ nofun nofun
    rintro k' j (e | e) <;> cases e
    exact script_of_may may
  | noBuffers | modify => exact ⟨h.runs, h.suffix, h.reading, h.releasing, h.logging⟩
  | @acquire p k i call free =>
    refine h.goto_move p rfl rfl rfl ?_ nofun nofun
    rintro k' j (e | e) <;> cases e
    exact h.reading p k i (.inl call)
  | @load p k i call =>
    exact h.pop_move p (by simp [Sys.goto, Sys.pop]) (by simp [Sys.goto, Sys.pop])
      (by simp [Sys.goto, Sys.pop])
  | bwrite may holds => exact h.pop_ready _ may.ready rfl rfl rfl
  | @logWrite p k i l free holds step =>
    refine h.log_move step (fun q hq => ?_) ?_ (.inr ⟨i, ?_, rfl⟩)
    · exact update_of_ne hq ..
    · show s.script = update s.script p []
      rw [← free.2.1, update_eq_self]
    · exact update_self ..
  | @record p k i l call key step =>
    refine h.log_move step (fun q hq => ?_) ?_ (.inl ?_)
    · exact update_of_ne hq ..
    · show s.script = update s.script p []
      rw [← h.logging p i call, update_eq_self]
    · exact update_self ..
  | @release p k i may holds saved =>
    exact h.goto_move p rfl rfl rfl nofun
      (fun _ _ => (script_of_may may).imp_right fun ⟨r, e⟩ => ⟨k, r, e⟩) nofun
  | @unref p i call => exact h.pop_move p rfl rfl rfl
  | copyToLog call | copyHome call | fillHead call => exact h.pop_ready _ call rfl rfl rfl

end

end Scripts

end Xv6.Bio
