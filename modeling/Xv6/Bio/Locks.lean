/-
# `Xv6.Bio.Locks` — references and locks of buffers

What the cache knows about its users: `refcnt` counts the processes that hold a
buffer or are on their way in or out, the sleep-lock names the one that holds it,
and a referenced buffer keeps its identity.  `Locks` says so, and each section of
`bread`, `bwrite`, `log_write` and `brelse` keeps it.
-/
import Xv6.Bio.System
import Mathlib.Algebra.Order.BigOperators.Group.Finset

namespace Xv6.Bio

open Finset
open Function (update update_eq_self update_of_ne update_self)

/-- The reference a process has while it is inside a call. -/
def Call.refs : Call → BufId → Nat
  | .acquiring _ i, j | .loading _ i, j | .releasing i, j => if i = j then 1 else 0
  | .ready, _ | .logging _, _ => 0

/-- The references of a process that holds the buffers `h` and is in the call `d`. -/
def refsOf (h : List BufId) (d : Call) (i : BufId) : Nat := h.count i + d.refs i

variable {P : Type} {h : List BufId} {d : Call} {c' : Bcache P} {s : Sys P}

/-- The cache agrees with process `p`, which holds `h` and is in the call `d`. -/
structure ProcOk (c : Bcache P) (p : P) (h : List BufId) (d : Call) : Prop where
  nodup : h.Nodup
  lock : ∀ i, (c.buf i).lock = some p ↔ i ∈ h ∨ ∃ k, d = .loading k i
  loading : ∀ k i, d = .loading k i → i ∉ h
  waits : ∀ k i, d = .acquiring k i ∨ d = .loading k i → (c.buf i).key = k
  valid : ∀ i, i ∈ h ∨ d = .releasing i → (c.buf i).valid = true
  logging : ∀ i, d = .logging i → i ∈ h

/-- The cache agrees with what the processes are doing. -/
structure Locks [Fintype P] (c : Bcache P) (held : P → List BufId) (call : P → Call) : Prop where
  shape : ∃ l, Shape c l
  dirty : ∀ i, (c.buf i).dirty = true → (c.buf i).valid = true
  refs : ∀ i, (c.buf i).refcnt = ∑ p, refsOf (held p) (call p) i
  procs : ∀ p, ProcOk c p (held p) (call p)

theorem refsOf_pos_of_mem {i : BufId} (hi : i ∈ h) :
    0 < refsOf h d i := Nat.add_pos_left (List.count_pos_iff.mpr hi) _

theorem refsOf_pos_of_call {i : BufId} (hi : d.refs i = 1) :
    0 < refsOf h d i := by rw [refsOf, hi]; exact Nat.succ_pos _

/-- A process sees the locks it has, and the identity and validity of the buffers
it references. -/
theorem ProcOk.congr {c : Bcache P} {p : P} (hok : ProcOk c p h d)
    (hlock : ∀ i, (c'.buf i).lock = some p ↔ (c.buf i).lock = some p)
    (hbuf : ∀ i, 0 < refsOf h d i →
      (c'.buf i).key = (c.buf i).key ∧ ((c.buf i).valid = true → (c'.buf i).valid = true)) :
    ProcOk c' p h d where
  nodup := hok.nodup
  lock := fun i => (hlock i).trans (hok.lock i)
  loading := hok.loading
  waits := by
    intro k i hw
    have href : d.refs i = 1 := by rcases hw with rfl | rfl <;> simp [Call.refs]
    rw [(hbuf i (refsOf_pos_of_call href)).1]
    exact hok.waits k i hw
  valid := by
    intro i hi
    refine (hbuf i ?_).2 (hok.valid i hi)
    rcases hi with hi | rfl
    · exact refsOf_pos_of_mem hi
    · exact refsOf_pos_of_call (by simp [Call.refs])
  logging := hok.logging

section
variable [Fintype P] [DecidableEq P]

theorem sum_move {f f' : P → Nat} (p : P) (h : ∀ q, q ≠ p → f' q = f q) :
    ∑ q, f' q + f p = ∑ q, f q + f' p := by
  have hrest : ∑ q ∈ Finset.univ.erase p, f' q = ∑ q ∈ Finset.univ.erase p, f q :=
    sum_congr rfl fun q hq => h q (ne_of_mem_erase hq)
  rw [← add_sum_erase _ f' (mem_univ p), ← add_sum_erase _ f (mem_univ p),
    hrest]
  ring

end

namespace Locks

variable [Fintype P] {c : Bcache P} {held : P → List BufId} {call : P → Call} {p : P} {i : BufId}

theorem init : Locks (Bcache.init P) (fun _ => []) (fun _ => .ready) where
  shape := Shape.init
  dirty := by simp [Bcache.init]
  refs := by intro i; simp [refsOf, Call.refs, Bcache.init]
  procs := by intro p; constructor <;> simp [Bcache.init]

theorem refcnt_pos (h : Locks c held call) (hp : 0 < refsOf (held p) (call p) i) :
    0 < (c.buf i).refcnt := by
  rw [h.refs i]
  exact lt_of_lt_of_le hp (single_le_sum
    (f := fun p => refsOf (held p) (call p) i) (fun _ _ => Nat.zero_le _) (mem_univ p))

theorem live (h : Locks c held call) (hp : 0 < refsOf (held p) (call p) i) :
    ¬ (c.buf i).Dead := fun hd => (h.refcnt_pos hp).ne' hd.2.2

theorem live_of_held (h : Locks c held call) (hi : i ∈ held p) : ¬ (c.buf i).Dead :=
  h.live (refsOf_pos_of_mem hi)

theorem eq_of_key (h : Locks c held call) {j : BufId} (hi : ¬ (c.buf i).Dead)
    (hj : ¬ (c.buf j).Dead) (hk : (c.buf i).key = (c.buf j).key) : i = j :=
  let ⟨_, hs⟩ := h.shape
  hs.uniq i j hi hj hk

theorem lock_of_held (h : Locks c held call) (hi : i ∈ held p) : (c.buf i).lock = some p :=
  ((h.procs p).lock i).mpr (.inl hi)

theorem holder_unique (h : Locks c held call) {q : P} (hi : i ∈ held p) (hq : i ∈ held q) : p = q :=
  Option.some.inj ((h.lock_of_held hi).symm.trans (h.lock_of_held hq))

variable [DecidableEq P] {d' : Call} {k : Key}

/-- **One process moves.** -/
theorem move (h : Locks c held call) {h' : List BufId} (shape : ∃ l, Shape c' l)
    (dirty : ∀ i, (c'.buf i).dirty = true → (c'.buf i).valid = true)
    (refs : ∀ i, (c'.buf i).refcnt + refsOf (held p) (call p) i = (c.buf i).refcnt + refsOf h' d' i)
    (self : ProcOk c' p h' d')
    (others : ∀ q, q ≠ p → ∀ i, ((c'.buf i).lock = some q ↔ (c.buf i).lock = some q) ∧
      (0 < refsOf (held q) (call q) i →
        (c'.buf i).key = (c.buf i).key ∧ ((c.buf i).valid = true → (c'.buf i).valid = true))) :
    Locks c' (update held p h') (update call p d') := by
  refine ⟨shape, dirty, fun i => ?_, fun q => ?_⟩
  · have hsum := @sum_move P _ _ (fun q => refsOf (held q) (call q) i)
      (fun q => refsOf (update held p h' q) (update call p d' q) i) p
      (fun q hq => by rw [update_of_ne hq, update_of_ne hq])
    simp only [update_self] at hsum
    have := refs i
    have := h.refs i
    omega
  · rcases eq_or_ne q p with rfl | hq
    · rw [update_self, update_self]; exact self
    · rw [update_of_ne hq, update_of_ne hq]
      exact (h.procs q).congr (fun i => (others q hq i).1) fun i => (others q hq i).2

variable {f : Buf P → Buf P}

theorem move_modify (h : Locks c held call) {h' : List BufId} (shape : ∃ l, Shape (c.modify i f) l)
    (dirty : (f (c.buf i)).dirty = true → (f (c.buf i)).valid = true)
    (refs : (f (c.buf i)).refcnt + refsOf (held p) (call p) i = (c.buf i).refcnt + refsOf h' d' i)
    (rest : ∀ j, j ≠ i → refsOf h' d' j = refsOf (held p) (call p) j)
    (self : ProcOk (c.modify i f) p h' d')
    (lock : ∀ q, q ≠ p → ((f (c.buf i)).lock = some q ↔ (c.buf i).lock = some q))
    (others : 0 < (c.buf i).refcnt → (f (c.buf i)).key = (c.buf i).key ∧
      ((c.buf i).valid = true → (f (c.buf i)).valid = true)) :
    Locks (c.modify i f) (update held p h') (update call p d') := by
  refine h.move shape (fun j => ?_) (fun j => ?_) self fun q hq j => ?_
  all_goals rcases eq_or_ne j i with rfl | hj
  · rw [Bcache.modify_same]; exact dirty
  · rw [Bcache.modify_other _ _ hj]; exact h.dirty j
  · rw [Bcache.modify_same]; exact refs
  · rw [Bcache.modify_other _ _ hj, rest j hj]
  · rw [Bcache.modify_same]; exact ⟨lock q hq, fun hr => others (h.refcnt_pos hr)⟩
  · rw [Bcache.modify_other _ _ hj]; exact ⟨Iff.rfl, fun _ => ⟨rfl, id⟩⟩

theorem bget (h : Locks c held call) (hp : call p = .ready) (hb : c.bget k = some (i, c')) :
    Locks c' held (update call p (.acquiring k i)) := by
  obtain ⟨l, hs⟩ := h.shape
  obtain ⟨hnodup, hlock, -, -, hvalid, hlog⟩ := h.procs p
  rw [← update_eq_self p held]
  rcases hs.bget_cases hb with hit | miss
  · have hs' := hs.hit hit
    obtain ⟨hk, -, rfl⟩ := hit
    refine h.move_modify ⟨l, hs'⟩ (h.dirty i) ?_ ?_ ?_ (fun _ _ => Iff.rfl) fun _ => ⟨rfl, id⟩
    · simp only [refsOf, hp, Call.refs, if_true]; omega
    · intro j hj; simp [refsOf, hp, Call.refs, hj.symm]
    · constructor <;> grind [Bcache.modify_apply]
  · have hs' := hs.miss miss
    obtain ⟨hk, hzero, hclean, rfl⟩ := miss
    -- a recycled buffer is nobody's
    have hfree : i ∉ held p := fun hi =>
      (h.refcnt_pos (refsOf_pos_of_mem hi)).ne' hzero
    refine h.move_modify ⟨l, hs'⟩ nofun ?_ ?_ ?_ (fun _ _ => Iff.rfl) fun hpos =>
      absurd hzero hpos.ne'
    · simp only [refsOf, hp, Call.refs, if_true]; omega
    · intro j hj; simp [refsOf, hp, Call.refs, hj.symm]
    · constructor <;> grind [Bcache.modify_apply]

theorem acquire (h : Locks c held call) (hp : call p = .acquiring k i)
    (hfree : (c.buf i).lock = none) :
    Locks (c.modify i (fun b => { b with lock := some p })) held
      (update call p (.loading k i)) := by
  obtain ⟨l, hs⟩ := h.shape
  obtain ⟨hnodup, hlock, -, hwaits, hvalid, -⟩ := h.procs p
  have hlive : ¬ (c.buf i).Dead := h.live (p := p) (refsOf_pos_of_call (by simp [hp, Call.refs]))
  rw [← update_eq_self p held]
  refine h.move_modify ⟨l, hs.modify_live rfl hlive hlive⟩ (h.dirty i) ?_ ?_ ?_ ?_ fun _ => ⟨rfl, id⟩
  · simp [refsOf, hp, Call.refs]
  · intro j _; simp [refsOf, hp, Call.refs]
  · constructor <;> grind [Bcache.modify_apply]
  · intro q hq
    rw [hfree]
    exact ⟨fun e => absurd (Option.some.inj e).symm hq, nofun⟩

theorem load (h : Locks c held call) (hp : call p = .loading k i)
    (hkey : (f (c.buf i)).key = (c.buf i).key) (hlock' : (f (c.buf i)).lock = (c.buf i).lock)
    (href : (f (c.buf i)).refcnt = (c.buf i).refcnt) (hv : (f (c.buf i)).valid = true) :
    Locks (c.modify i f) (update held p (i :: held p)) (update call p .ready) := by
  obtain ⟨l, hs⟩ := h.shape
  obtain ⟨hnodup, hlock, hload, -, hvalid, -⟩ := h.procs p
  have hlive : ¬ (c.buf i).Dead := h.live (p := p) (refsOf_pos_of_call (by simp [hp, Call.refs]))
  have hlive' : ¬ (f (c.buf i)).Dead := fun hd => by rw [Buf.Dead, hv] at hd; cases hd.1
  refine h.move_modify ⟨l, hs.modify_live hkey hlive hlive'⟩ (fun _ => hv) ?_ ?_ ?_
    (fun q _ => by rw [hlock']) fun _ => ⟨hkey, fun _ => hv⟩
  · simp only [refsOf, hp, Call.refs, href, List.count_cons_self, if_true]
  · intro j hj; simp [refsOf, hp, Call.refs, hj.symm]
  · constructor <;> grind [Bcache.modify_apply]

/-- The holder changes data or flags, and goes from one call to another that both
reference nothing. -/
theorem touch (h : Locks c held call) (hi : i ∈ held p)
    (hcall : call p = .ready ∨ ∃ j, call p = .logging j)
    (hcall' : d' = .ready ∨ ∃ j, j ∈ held p ∧ d' = .logging j)
    (hkey : (f (c.buf i)).key = (c.buf i).key) (hlock' : (f (c.buf i)).lock = (c.buf i).lock)
    (href : (f (c.buf i)).refcnt = (c.buf i).refcnt) (hv : (f (c.buf i)).valid = true) :
    Locks (c.modify i f) held (update call p d') := by
  obtain ⟨l, hs⟩ := h.shape
  obtain ⟨hnodup, hlock, hload, -, hvalid, -⟩ := h.procs p
  have hlive' : ¬ (f (c.buf i)).Dead := fun hd => by rw [Buf.Dead, hv] at hd; cases hd.1
  have hrefs : ∀ j, (call p).refs j = 0 ∧ d'.refs j = 0 := by
    intro j
    constructor
    · rcases hcall with e | ⟨_, e⟩ <;> rw [e] <;> rfl
    · rcases hcall' with rfl | ⟨_, _, rfl⟩ <;> rfl
  rw [← update_eq_self p held]
  refine h.move_modify ⟨l, hs.modify_live hkey (h.live_of_held hi) hlive'⟩ (fun _ => hv) ?_ ?_ ?_
    (fun q _ => by rw [hlock']) fun _ => ⟨hkey, fun _ => hv⟩
  · simp [refsOf, hrefs, href]
  · intro j _; simp [refsOf, hrefs]
  · constructor <;> grind [Bcache.modify_apply]

/-- The holder, in no call, changes data or flags. -/
theorem touch_ready (h : Locks c held call) (hi : i ∈ held p) (hp : call p = .ready)
    (hkey : (f (c.buf i)).key = (c.buf i).key) (hlock : (f (c.buf i)).lock = (c.buf i).lock)
    (href : (f (c.buf i)).refcnt = (c.buf i).refcnt)
    (hv : (c.buf i).valid = true → (f (c.buf i)).valid = true) :
    Locks (c.modify i f) held call := by
  have := h.touch hi (.inl hp) (.inl rfl) hkey hlock href (hv ((h.procs p).valid i (.inl hi)))
  rwa [← hp, update_eq_self] at this

theorem release (h : Locks c held call) (hp : call p = .ready) (hi : i ∈ held p) :
    Locks (c.modify i (fun b => { b with lock := none }))
      (update held p ((held p).erase i)) (update call p (.releasing i)) := by
  obtain ⟨l, hs⟩ := h.shape
  obtain ⟨hnodup, hlock, -, -, hvalid, -⟩ := h.procs p
  have hcount : (held p).count i = 1 := List.count_eq_one_of_mem hnodup hi
  have hlive := h.live_of_held hi
  refine h.move_modify ⟨l, hs.modify_live rfl hlive hlive⟩ (h.dirty i) ?_ ?_ ?_ ?_ fun _ => ⟨rfl, id⟩
  · simp [refsOf, hp, Call.refs, hcount]
  · intro j hj
    simp [refsOf, hp, Call.refs, hj.symm, List.count_erase_of_ne hj]
  · have := hnodup.erase i
    constructor <;> grind [Bcache.modify_apply]
  · intro q hq
    rw [h.lock_of_held hi]
    exact ⟨nofun, fun e => absurd (Option.some.inj e).symm hq⟩

/-- The end of `brelse` gives the reference back. -/
theorem unref (h : Locks c held call) (hp : call p = .releasing i) :
    Locks (c.unref i) held (update call p .ready) := by
  obtain ⟨l, hs⟩ := h.shape
  obtain ⟨hnodup, hlock, -, -, hvalid, -⟩ := h.procs p
  have hpos : 0 < (c.buf i).refcnt :=
    h.refcnt_pos (p := p) (refsOf_pos_of_call (by simp [hp, Call.refs]))
  have hbuf : ∀ j, (c.unref i).buf j =
      if j = i then { c.buf i with refcnt := (c.buf i).refcnt - 1 } else c.buf j := by
    intro j; rw [Bcache.unref_buf, Bcache.modify_apply]
  rw [← update_eq_self p held]
  refine h.move (hs.unref (hvalid i (.inr hp))) ?_ ?_ ?_ ?_
  · intro j; rw [hbuf]; split
    · rename_i hj; rw [← hj]; exact h.dirty j
    · exact h.dirty j
  · intro j; rw [hbuf, hp]; split
    · rename_i hj; subst hj; simp only [refsOf, Call.refs, if_true]; omega
    · rename_i hj; simp [refsOf, Call.refs, Ne.symm hj]
  · constructor <;> grind
  · intro q _ j; rw [hbuf]; split
    · rename_i hj; subst hj; exact ⟨Iff.rfl, fun _ => ⟨rfl, id⟩⟩
    · exact ⟨Iff.rfl, fun _ => ⟨rfl, id⟩⟩

end Locks

/-- What `bread` returns: the buffer, read from disk if need be. -/
def Buf.loaded (disk : Key → Block) (b : Buf P) : Buf P :=
  if b.valid then b else { b with valid := true, data := disk b.key }

theorem Sys.load_cache (s : Sys P) (i : BufId) :
    (s.load i).cache = s.cache.modify i (Buf.loaded s.disk) := by
  simp only [Sys.load, Bcache.modify, Buf.loaded]
  split
  · rw [update_eq_self]
  · rfl

theorem Buf.loaded_fields (disk : Key → Block) (b : Buf P) :
    (b.loaded disk).key = b.key ∧ (b.loaded disk).lock = b.lock ∧
      (b.loaded disk).refcnt = b.refcnt ∧ (b.loaded disk).dirty = b.dirty ∧
      (b.loaded disk).valid = true := by
  simp only [Buf.loaded]
  split <;> simp_all

theorem Locks.fill [Fintype P] [DecidableEq P] {p : P} {i : BufId} (h : Locks s.cache s.held s.call)
    (hi : i ∈ s.held p) (hp : s.call p = .ready) (data : Block) :
    Locks (s.fill i data).cache s.held s.call :=
  h.touch_ready hi hp (f := fun b => { b with data := data }) rfl rfl rfl id

theorem Sys.May.ready {p : P} {a : Act} (h : s.May p a) : s.call p = .ready :=
  h.elim And.left And.left

/-- **Every move keeps references and locks.** -/
theorem Locks.moves [Fintype P] [DecidableEq P] {g : Geom} {s' : Sys P} {e : Event P}
    (h : Locks s.cache s.held s.call) (hm : Moves g s e s') :
    Locks s'.cache s'.held s'.call := by
  cases hm with
  | log ne call script step => exact h
  | bget may bget => exact h.bget may.ready bget
  | noBuffers => exact h
  | @acquire p k i call free => exact h.acquire call free
  | @load p k i call =>
    obtain ⟨hkey, hlock, href, -, hv⟩ := Buf.loaded_fields s.disk (s.cache.buf i)
    show Locks (s.load i).cache _ (update (s.load i).call p .ready)
    rw [Sys.load_cache, (s.load_fields i).2.1]
    exact h.load call hkey hlock href hv
  | modify free holds => exact h.fill holds.1 free.1 _
  | bwrite may holds =>
    exact h.touch_ready holds.1 may.ready (f := fun b => { b with dirty := false, valid := true }) rfl
      rfl rfl fun _ => rfl
  | @logWrite p k i l free holds step =>
    have := h.touch holds.1 (f := id) (.inl free.1) (.inr ⟨i, holds.1, rfl⟩) rfl rfl
      rfl ((h.procs p).valid i (.inl holds.1))
    rwa [Bcache.modify, id, update_eq_self] at this
  | @record p k i l call key step =>
    have hi : i ∈ s.held p := (h.procs p).logging i call
    exact h.touch hi (f := fun b => { b with dirty := true }) (.inr ⟨i, call⟩) (.inl rfl) rfl rfl
      rfl ((h.procs p).valid i (.inl hi))
  | release may holds saved => exact h.release may.ready holds.1
  | @unref p i call => exact h.unref call
  | copyToLog call script holds | copyHome call script holds | fillHead call script holds =>
    exact h.fill holds.1 call _

end Xv6.Bio
