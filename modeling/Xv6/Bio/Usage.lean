/-
# `Xv6.Bio.Usage` — the structure of the cache, whatever its users do

Processes call `bget`, `bwrite`, `log_write` and `brelse` as they like, on the
buffers they hold: nothing is assumed about what they read, change or write back
(`Xv6.Bio.System` has the discipline of the callers, and the data).  An event is a
section under `bcache.lock`, or code that runs with the buffer's sleep-lock held.
The owner of a sleep-lock is in the buffer, so a process needs no list of the
buffers it holds.
-/
import Xv6.Bio.Cache
import Xv6.Lib.Trace
import Xv6.Lib.Refs

namespace Xv6.Bio.Usage

open Function (update update_of_ne update_self)

/-- What a process is in the middle of. -/
inductive Phase where
  | ready
  /-- in `bget`, waiting for the lock of buffer `i` -/
  | waiting (i : BufId)
  /-- in `brelse`, past `releasesleep` -/
  | releasing (i : BufId)
deriving DecidableEq

structure Sys (P : Type) where
  cache : Bcache P
  phase : P → Phase

def Sys.init (P : Type) : Sys P := ⟨.init P, fun _ => .ready⟩

inductive Event (P : Type) where
  /-- `bget`, under `bcache.lock` -/
  | bget (p : P) (k : Key)
  /-- `acquiresleep` returns, and with it `bget` -/
  | acquire (p : P)
  /-- `iderw` in `bread`; `data` is what the disk has -/
  | read (p : P) (i : BufId) (data : Block)
  | bwrite (p : P) (i : BufId)
  | logWrite (p : P) (i : BufId)
  /-- `brelse`, up to `releasesleep` -/
  | brelse (p : P) (i : BufId)
  /-- `brelse`, under `bcache.lock` -/
  | unref (p : P)

variable {P : Type} [DecidableEq P]

/-- `p` is in no call and holds buffer `i`. -/
def Sys.Holds (s : Sys P) (p : P) (i : BufId) : Prop :=
  s.phase p = .ready ∧ (s.cache.buf i).lock = some p

instance (s : Sys P) (p : P) (i : BufId) : Decidable (s.Holds p i) :=
  inferInstanceAs (Decidable (_ ∧ _))

def Sys.goto (s : Sys P) (p : P) (ph : Phase) : Sys P :=
  { s with phase := update s.phase p ph }

def Sys.modify (s : Sys P) (i : BufId) (f : Buf P → Buf P) : Sys P :=
  { s with cache := s.cache.modify i f }

/-- `bread` calls `iderw` if the buffer is not valid; `iderw` writes if it is dirty. -/
def fetch (data : Block) (b : Buf P) : Buf P :=
  if b.valid then b
  else if b.dirty then { b with dirty := false, valid := true }
  else { b with valid := true, data := data }

/-- One event.  A call that panics ends the run. -/
def step (s : Sys P) : Event P → Option (Sys P)
  | .bget p k =>
    if s.phase p = .ready then
      (s.cache.bget k).map fun (i, c) => { s with cache := c }.goto p (.waiting i)
    else none
  | .acquire p =>
    match s.phase p with
    | .waiting i =>
      if (s.cache.buf i).lock = none then
        some ((s.modify i fun b => { b with lock := some p }).goto p .ready)
      else none
    | _ => none
  | .read p i data =>
    if s.Holds p i then
      some (s.modify i (fetch data))
    else none
  | .bwrite p i =>
    -- `B_DIRTY` is set, and `iderw` clears it and sets `B_VALID`
    if s.Holds p i then some (s.modify i fun b => { b with dirty := false, valid := true })
    else none
  | .logWrite p i =>
    if s.Holds p i then some (s.modify i fun b => { b with dirty := true }) else none
  | .brelse p i =>
    if s.Holds p i then
      some ((s.modify i fun b => { b with lock := none }).goto p (.releasing i))
    else none
  | .unref p =>
    match s.phase p with
    | .releasing i => some ({ s with cache := s.cache.unref i }.goto p .ready)
    | _ => none

abbrev Runs : List (Event P) → Sys P → Prop := Trace.Run step (Sys.init P)

/-! ## References -/

/-- The reference a process has inside a call. -/
def Phase.refs : Phase → BufId → Nat
  | .ready, _ => 0
  | .waiting i, j | .releasing i, j => if i = j then 1 else 0

def Sys.refs (s : Sys P) (p : P) (i : BufId) : Nat :=
  (if (s.cache.buf i).lock = some p then 1 else 0) + (s.phase p).refs i

theorem releasing_of_update {ph : P → Phase} {p q : P} {d : Phase} {j : BufId}
    (hq : update ph p d q = .releasing j) (hd : d ≠ .releasing j) :
    ph q = .releasing j := by
  rcases eq_or_ne q p with rfl | hqp
  · rw [update_self] at hq
    exact absurd hq hd
  · rwa [update_of_ne hqp] at hq

structure Inv [Fintype P] (s : Sys P) : Prop where
  tagged : ∃ l, Tagged s.cache l fun i => ¬ (s.cache.buf i).Dead
  refs : ∀ i, (s.cache.buf i).refcnt = Refs.total s.refs i
  left : ∀ p i, s.phase p = .releasing i → (s.cache.buf i).lock ≠ some p

namespace Inv

variable [Fintype P] {s : Sys P} {p : P} {i : BufId}

theorem init : Inv (Sys.init P) where
  tagged := by
    obtain ⟨l, hl⟩ := Tagged.init P
    exact ⟨l, hl.congr rfl (fun _ => rfl) fun i => ⟨fun h => h ⟨rfl, rfl, rfl⟩, False.elim⟩⟩
  refs i := by
    refine (Nat.eq_zero_of_not_pos fun hpos => ?_).symm
    obtain ⟨p, hp⟩ := Refs.total_pos_iff.mp hpos
    cases hp
  left := nofun

section

variable (h : Inv s)
include h

theorem refcnt_pos (hp : 0 < s.refs p i) : 0 < (s.cache.buf i).refcnt := by
  rw [h.refs]
  exact lt_of_lt_of_le hp (Refs.le_total s.refs p i)

theorem modify {f : Buf P → Buf P} (hi : 0 < (s.cache.buf i).refcnt)
    (hkey : (f (s.cache.buf i)).key = (s.cache.buf i).key)
    (hlock : (f (s.cache.buf i)).lock = (s.cache.buf i).lock)
    (href : (f (s.cache.buf i)).refcnt = (s.cache.buf i).refcnt) : Inv (s.modify i f) := by
  have hfield : ∀ {β : Type} (v : Buf P → β), v (f (s.cache.buf i)) = v (s.cache.buf i) →
      ∀ j, v ((s.cache.modify i f).buf j) = v (s.cache.buf j) := by
    intro β v hv j
    rw [Bcache.modify_apply]
    split
    · rename_i e; rw [e, hv]
    · rfl
  have hdead : ∀ j, ((s.cache.modify i f).buf j).Dead ↔ (s.cache.buf j).Dead := by
    intro j
    rw [Bcache.modify_apply]
    split
    · rename_i e
      subst e
      refine iff_of_false (fun hd => ?_) fun hd => hi.ne' hd.2.2
      exact hi.ne' (href.symm.trans hd.2.2)
    · exact Iff.rfl
  have hrefs : (s.modify i f).refs = s.refs := by
    funext p j
    simp only [Sys.refs, Sys.modify, hfield Buf.lock hlock]
  obtain ⟨l, hl⟩ := h.tagged
  refine ⟨⟨l, hl.congr rfl (hfield Buf.key hkey) fun j => not_congr (hdead j)⟩, fun j => ?_,
    fun p j hp => ?_⟩
  · rw [hrefs, ← h.refs]
    exact hfield Buf.refcnt href j
  · show ((s.cache.modify i f).buf j).lock ≠ some p
    rw [hfield Buf.lock hlock]
    exact h.left p j hp

/-- A lock changes hands as its owner goes from one phase to another; the references
stay. -/
theorem relock {o : Option P} {ph : Phase}
    (hrefs : ((s.modify i fun b => { b with lock := o }).goto p ph).refs = s.refs)
    (hleft : ∀ q j, update s.phase p ph q = .releasing j →
      ((s.cache.modify i fun b => { b with lock := o }).buf j).lock ≠ some q) :
    Inv ((s.modify i fun b => { b with lock := o }).goto p ph) := by
  have hfield : ∀ {β : Type} (v : Buf P → β), (∀ b, v { b with lock := o } = v b) → ∀ j,
      v ((s.cache.modify i fun b => { b with lock := o }).buf j) = v (s.cache.buf j) :=
    fun v hv j => Bcache.modify_field v s.cache i j hv
  obtain ⟨l, hl⟩ := h.tagged
  refine ⟨⟨l, hl.congr rfl (hfield Buf.key fun _ => rfl) fun j => ?_⟩, fun j => ?_, hleft⟩
  · have : ((s.cache.modify i fun b => { b with lock := o }).buf j).Dead = (s.cache.buf j).Dead :=
      hfield Buf.Dead (fun _ => rfl) j
    exact not_congr (Iff.of_eq this)
  · rw [hrefs, ← h.refs]
    exact hfield Buf.refcnt (fun _ => rfl) j

/-! ### What each section does -/

theorem bget (hp : s.phase p = .ready) {k : Key} {c : Bcache P}
    (hb : s.cache.bget k = some (i, c)) : Inv ({ s with cache := c }.goto p (.waiting i)) := by
  obtain ⟨l, hl⟩ := h.tagged
  have hother : ∀ j, j ≠ i → c.buf j = s.cache.buf j := by
    intro j hj
    rcases hl.bget_cases hb with ⟨-, -, rfl⟩ | ⟨-, -, -, rfl⟩ <;> rw [Bcache.modify_other _ _ hj]
  have hlock : ∀ j, (c.buf j).lock = (s.cache.buf j).lock := by
    intro j
    rcases hl.bget_cases hb with ⟨-, -, rfl⟩ | ⟨-, -, -, rfl⟩ <;>
      exact Bcache.modify_field Buf.lock s.cache i j fun _ => rfl
  have href : (c.buf i).refcnt = (s.cache.buf i).refcnt + 1 := by
    rcases hl.bget_cases hb with ⟨-, -, rfl⟩ | ⟨-, hzero, -, rfl⟩
    · rw [Bcache.modify_same]
    · rw [Bcache.modify_same, hzero]
  have hlive : ¬ (c.buf i).Dead := fun hd => Nat.succ_ne_zero _ (href.symm.trans hd.2.2)
  have htag : Tagged c l fun j => j = i ∨ ¬ (s.cache.buf j).Dead := by
    rcases hl.bget_cases hb with hit | miss
    · exact hl.hit hit
    · exact hl.miss miss
  refine ⟨⟨l, htag.congr rfl (fun _ => rfl) fun j => ?_⟩, fun j => ?_, fun q j hq => ?_⟩
  · show ¬ (c.buf j).Dead ↔ _
    rcases eq_or_ne j i with rfl | hj
    · exact iff_of_true hlive (.inl rfl)
    · rw [hother j hj]
      exact ⟨.inr, fun h => h.resolve_left hj⟩
  · have hrefs : (({ s with cache := c } : Sys P).goto p (.waiting i)).refs =
        update s.refs p (fun j => s.refs p j + if i = j then 1 else 0) := by
      funext q j
      rcases eq_or_ne q p with rfl | hq
      · simp only [Sys.refs, Sys.goto, update_self, hlock, hp, Phase.refs]
        omega
      · simp only [Sys.refs, Sys.goto, update_of_ne hq, hlock]
    have htot := Refs.total_update s.refs p (fun j => s.refs p j + if i = j then 1 else 0) j
    have hc := h.refs j
    rw [hrefs]
    show (c.buf j).refcnt = _
    rcases eq_or_ne j i with rfl | hj
    · rw [if_pos rfl] at htot
      omega
    · rw [if_neg hj.symm] at htot
      rw [hother j hj]
      omega
  · show (c.buf j).lock ≠ some q
    rw [hlock]
    exact h.left q j (releasing_of_update hq nofun)

theorem acquire (hp : s.phase p = .waiting i) (hfree : (s.cache.buf i).lock = none) :
    Inv ((s.modify i fun b => { b with lock := some p }).goto p .ready) := by
  refine h.relock ?_ fun q j hq => ?_
  · funext q j
    rcases eq_or_ne q p with rfl | hqp <;> rcases eq_or_ne j i with rfl | hj
    · simp [Sys.refs, Sys.goto, Sys.modify, Phase.refs, hp, hfree]
    · simp [Sys.refs, Sys.goto, Sys.modify, Phase.refs, hp, Bcache.modify_other _ _ hj, hj.symm]
    · simp [Sys.refs, Sys.goto, Sys.modify, hfree, hqp, hqp.symm]
    · simp [Sys.refs, Sys.goto, Sys.modify, Bcache.modify_other _ _ hj, hqp]
  · rcases eq_or_ne j i with rfl | hj
    · rw [Bcache.modify_same]
      rintro ⟨⟩
      rw [update_self] at hq
      cases hq
    · rw [Bcache.modify_other _ _ hj]
      exact h.left q j (releasing_of_update hq nofun)

theorem brelse (hp : s.Holds p i) :
    Inv ((s.modify i fun b => { b with lock := none }).goto p (.releasing i)) := by
  obtain ⟨hready, hlock⟩ := hp
  refine h.relock ?_ fun q j hq => ?_
  · funext q j
    rcases eq_or_ne q p with rfl | hqp <;> rcases eq_or_ne j i with rfl | hj
    · simp [Sys.refs, Sys.goto, Sys.modify, Phase.refs, hready, hlock]
    · simp [Sys.refs, Sys.goto, Sys.modify, Phase.refs, hready, Bcache.modify_other _ _ hj, hj.symm]
    · simp [Sys.refs, Sys.goto, Sys.modify, hlock, hqp, hqp.symm]
    · simp [Sys.refs, Sys.goto, Sys.modify, Bcache.modify_other _ _ hj, hqp]
  · rcases eq_or_ne j i with rfl | hj
    · rw [Bcache.modify_same]
      exact nofun
    · rw [Bcache.modify_other _ _ hj]
      exact h.left q j (releasing_of_update hq fun he => hj (Phase.releasing.inj he).symm)

/-- A buffer that was never read is dead again once nobody references it, but it
keeps its place: no live buffer has its identity. -/
theorem unref (hp : s.phase p = .releasing i) :
    Inv ({ s with cache := s.cache.unref i }.goto p .ready) := by
  have hpos : 0 < (s.cache.buf i).refcnt :=
    h.refcnt_pos (p := p) (by simp [Sys.refs, hp, Phase.refs])
  have hbuf : ∀ j, (s.cache.unref i).buf j =
      if j = i then { s.cache.buf i with refcnt := (s.cache.buf i).refcnt - 1 }
      else s.cache.buf j := by
    intro j; rw [Bcache.unref_buf, Bcache.modify_apply]
  have hlock : ∀ j, ((s.cache.unref i).buf j).lock = (s.cache.buf j).lock := by
    intro j
    rw [hbuf]
    split
    · rename_i e; rw [e]
    · rfl
  obtain ⟨l, hl⟩ := h.tagged
  have hlive : ¬ (s.cache.buf i).Dead := fun hd => hpos.ne' hd.2.2
  obtain ⟨l', hl'⟩ := hl.unref hlive
  have hsub : ∀ j, ¬ ((s.cache.unref i).buf j).Dead → ¬ (s.cache.buf j).Dead := by
    intro j hj hd
    rw [hbuf] at hj
    split at hj
    · rename_i e; exact hlive (e ▸ hd)
    · exact hj hd
  refine ⟨⟨l', hl'.ring, hl'.all, fun j m hj hm => hl'.uniq j m (hsub j hj) (hsub m hm), ?_⟩,
    fun j => ?_, fun q j hq => ?_⟩
  · refine (List.pairwise_iff_getElem.mpr fun a b ha hb hab hna hTb => ?_)
    by_cases hTa : ¬ (s.cache.buf l'[a]).Dead
    · intro hk
      have heq := hl'.uniq _ _ hTa (hsub _ hTb) hk
      exact hab.ne (hl'.nodup.getElem_inj_iff.mp heq)
    · exact List.pairwise_iff_getElem.mp hl'.order a b ha hb hab hTa (hsub _ hTb)
  · have hrefs : s.refs = update
        (({ s with cache := s.cache.unref i } : Sys P).goto p .ready).refs p (s.refs p) := by
      funext q j
      rcases eq_or_ne q p with rfl | hq
      · rw [update_self]
      · simp only [Sys.refs, Sys.goto, update_of_ne hq, hlock]
    have hself : s.refs p j =
        (({ s with cache := s.cache.unref i } : Sys P).goto p .ready).refs p j +
          if i = j then 1 else 0 := by
      simp only [Sys.refs, Sys.goto, update_self, hlock, hp, Phase.refs]
      omega
    have htot := Refs.total_update
      (({ s with cache := s.cache.unref i } : Sys P).goto p .ready).refs p (s.refs p) j
    rw [← hrefs, ← h.refs] at htot
    show ((s.cache.unref i).buf j).refcnt = _
    rw [hbuf]
    rcases eq_or_ne j i with rfl | hj
    · rw [if_pos rfl] at hself ⊢
      show (s.cache.buf j).refcnt - 1 = _
      omega
    · rw [if_neg hj.symm] at hself
      rw [if_neg hj]
      omega
  · show ((s.cache.unref i).buf j).lock ≠ some q
    rw [hlock]
    exact h.left q j (releasing_of_update hq nofun)

theorem refcnt_pos_of_holds (hp : s.Holds p i) : 0 < (s.cache.buf i).refcnt :=
  h.refcnt_pos (p := p) (by simp [Sys.refs, hp.2])

/-- **Every event keeps the structure.** -/
theorem step {e : Event P} {s' : Sys P} (hs : Usage.step s e = some s') : Inv s' := by
  cases e with
  | bget p k =>
    simp only [Usage.step] at hs
    split at hs
    · obtain ⟨⟨i, c⟩, hb, rfl⟩ := Option.map_eq_some_iff.mp hs
      exact h.bget ‹_› hb
    · cases hs
  | acquire p =>
    simp only [Usage.step] at hs
    split at hs
    · split at hs
      · cases hs; exact h.acquire ‹_› ‹_›
      · cases hs
    · cases hs
  | read p i data =>
    simp only [Usage.step] at hs
    split at hs
    · cases hs
      refine h.modify (h.refcnt_pos_of_holds ‹_›) ?_ ?_ ?_ <;>
        (rw [fetch]; split_ifs <;> rfl)
    · cases hs
  | bwrite | logWrite =>
    simp only [Usage.step] at hs
    split at hs
    · cases hs; exact h.modify (h.refcnt_pos_of_holds ‹_›) rfl rfl rfl
    · cases hs
  | brelse p i =>
    simp only [Usage.step] at hs
    split at hs
    · cases hs; exact h.brelse ‹_›
    · cases hs
  | unref p =>
    simp only [Usage.step] at hs
    split at hs
    · cases hs; exact h.unref ‹_›
    · cases hs

end

theorem of_run {es : List (Event P)} (h : Runs es s) : Inv s :=
  Trace.Run.invariant (I := fun _ s => Inv s) init (fun _ _ _ _ h hs => h.step hs) h

end Inv

/-! ## The structure -/

/-- The processes that have buffer `i`, from when `acquiresleep` returns to the end of
`brelse`. -/
def Sys.holders [Fintype P] (s : Sys P) (i : BufId) : Finset P :=
  Finset.univ.filter fun p => (s.cache.buf i).lock = some p ∨ s.phase p = .releasing i

/-- The processes that wait for the lock of buffer `i`. -/
def Sys.waiters [Fintype P] (s : Sys P) (i : BufId) : Finset P :=
  Finset.univ.filter fun p => s.phase p = .waiting i

theorem Inv.refcnt_eq [Fintype P] {s : Sys P} (h : Inv s) (i : BufId) :
    (s.cache.buf i).refcnt = (s.holders i).card + (s.waiters i).card := by
  rw [h.refs, Refs.total, Sys.holders, Sys.waiters, Finset.card_filter, Finset.card_filter,
    ← Finset.sum_add_distrib]
  refine Finset.sum_congr rfl fun p _ => ?_
  have hleft := h.left p i
  cases hp : s.phase p with
  | ready | waiting => simp [Sys.refs, hp, Phase.refs]
  | releasing j =>
    by_cases hj : j = i
    · subst hj
      simp [Sys.refs, hp, Phase.refs, hleft hp]
    · simp [Sys.refs, hp, Phase.refs, hj]

/-- **The structure of the buffer cache.**  After any run: the pointers form a circle
through the head with each buffer on it once, `next` and `prev` undo each other; no
two buffers with a reference or a flag have the same identity; and `refcnt` counts
the processes that have the buffer or wait for it, so `brelse` finds it positive.
(A process that asks again for a buffer it has counts twice: it waits for itself.) -/
theorem buffer_cache_structure [Fintype P] {es : List (Event P)} {s : Sys P} (h : Runs es s) :
    (∀ n, s.cache.links.prev (s.cache.links.next n) = n ∧
      s.cache.links.next (s.cache.links.prev n) = n) ∧
    (∃ l : List BufId, l.Nodup ∧ (∀ i, i ∈ l) ∧
      (none :: (l.map some ++ [none])).IsChain fun a b => s.cache.links.next a = b) ∧
    (∀ i j, (0 < (s.cache.buf i).refcnt ∨ (s.cache.buf i).valid ∨ (s.cache.buf i).dirty) →
      (0 < (s.cache.buf j).refcnt ∨ (s.cache.buf j).valid ∨ (s.cache.buf j).dirty) →
      (s.cache.buf i).key = (s.cache.buf j).key → i = j) ∧
    (∀ i, (s.cache.buf i).refcnt = (s.holders i).card + (s.waiters i).card) ∧
    (∀ p i, s.phase p = .releasing i → 0 < (s.cache.buf i).refcnt) := by
  have hI := Inv.of_run h
  obtain ⟨l, hl⟩ := hI.tagged
  have hlive : ∀ i, (0 < (s.cache.buf i).refcnt ∨ (s.cache.buf i).valid ∨ (s.cache.buf i).dirty) →
      ¬ (s.cache.buf i).Dead := by
    rintro i hi ⟨hv, hd, hr⟩
    rw [hv, hd, hr] at hi
    simp at hi
  refine ⟨fun n => hl.ring.inverse ?_, ⟨l, hl.nodup, hl.all, ?_⟩,
    fun i j hi hj => hl.uniq i j (hlive i hi) (hlive j hj), hI.refcnt_eq, fun p i hp => ?_⟩
  · cases n with
    | none => exact List.mem_cons_self
    | some i => exact List.mem_cons_of_mem _ (List.mem_map_of_mem (hl.all i))
  · exact hl.ring.chain.imp fun _ _ hj => hj.1
  · exact hI.refcnt_pos (p := p) (by simp [Sys.refs, hp, Phase.refs])

/-- The buffer `binit` has linked in first, so the first to be recycled. -/
def firstBuf : BufId := ⟨0, by decide⟩

/-- Two processes want one block, and a third uses block (0, 0). -/
def threeUsers : List (Event (Fin 3)) :=
  [.bget 0 (1, 5), .bget 1 (1, 5), .acquire 0, .bget 2 (0, 0), .logWrite 0 firstBuf,
    .brelse 0 firstBuf, .acquire 1]

theorem buffer_cache_structure_three_users : ∃ s : Sys (Fin 3), Runs threeUsers s ∧
    (s.cache.buf firstBuf).refcnt = 2 ∧
    (s.cache.buf firstBuf).refcnt = (s.holders firstBuf).card + (s.waiters firstBuf).card :=
  Trace.exists_of_exec_imp (Q := fun s => (s.cache.buf firstBuf).refcnt = 2) (by decide +kernel)
    fun _ hrun href => ⟨href, (buffer_cache_structure hrun).2.2.2.1 firstBuf⟩

end Xv6.Bio.Usage
