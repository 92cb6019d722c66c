/-
# `Xv6.Vm.System` — sequences of calls on any number of address spaces

The machine: `main` runs `kinit1` and later `kinit2`; in between and afterwards the rest
of the kernel calls `kalloc`, `kfree`, `setupkvm`, `allocuvm`, `deallocuvm`, `copyuvm`,
`clearpteu` and `freevm`, in any order, with any sizes and addresses, on address spaces it
has and pages it holds.  Whoever holds a page, or has it mapped in the user half of an
address space, may write into it.  A call that panics ends the run.

The source does not check the size given to `deallocuvm`.  Above `KERNBASE` the entries of
the kernel's own map are in its way: it frees the page behind them, whoever owns it.  So the
theorem is about the runs that keep the size below, as every caller in the source does; the
counterexample frees a page directory through its own address.
-/
import Xv6.Lib.Trace
import Xv6.Vm.Grow

namespace Xv6.Vm

open Wp List Option
open Function (update update_of_ne update_self)

/-! ## The machine -/

/-- How far `main` has come with the allocator. -/
inductive Stage
  | start
  | early
  | ready
  deriving DecidableEq

/-- The machine: memory, the address spaces there are, and the pages `kalloc` has handed out
to its callers. -/
structure Sys where
  kmem : Kmem
  spaces : List Word
  raw : List Word
  stage : Stage

inductive Event
  | kinit1
  | kinit2
  | kalloc
  | kfree (v : Word)
  | setupkvm
  | allocuvm (pgdir oldsz newsz : Word)
  | deallocuvm (pgdir oldsz newsz : Word)
  | copyuvm (pgdir sz : Word)
  | clearpteu (pgdir uva : Word)
  | freevm (pgdir : Word)
  | hold (v : Word) (c : Page)
  | user (pgdir : Word) (x : Vpn) (c : Page)

namespace Sys

/-- Call a function of the kernel; a panic ends the run. -/
def call {α : Type} (s : Sys) (x : M α) (f : Sys → α → Sys) : Option Sys :=
  match x s.kmem with
  | .ok (a, k) => some (f { s with kmem := k } a)
  | .error _ => none

/-- A new address space, if there is one. -/
def addSpace (s : Sys) (d : Word) : Sys := if d = 0 then s else { s with spaces := d :: s.spaces }

/-- A new page in hand, if there is one. -/
def addRaw (s : Sys) (p : Word) : Sys := if p = 0 then s else { s with raw := p :: s.raw }

end Sys

section

variable (L : Link)

def step (s : Sys) : Event → Option Sys
  | .kinit1 =>
    if s.stage = .start then s.call (kinit1 L) fun s _ => { s with stage := .early } else none
  | .kinit2 =>
    if s.stage = .early then s.call (kinit2 L) fun s _ => { s with stage := .ready } else none
  | .kalloc => s.call kalloc Sys.addRaw
  | .kfree v =>
    if v ∈ s.raw then s.call (kfree L v) fun s _ => { s with raw := s.raw.filter (· ≠ v) }
    else none
  | .setupkvm => s.call (setupkvm L) Sys.addSpace
  | .allocuvm d oldsz newsz =>
    if d ∈ s.spaces then s.call (allocuvm L d oldsz newsz) fun s _ => s else none
  | .deallocuvm d oldsz newsz =>
    if d ∈ s.spaces then s.call (deallocuvm L d oldsz newsz) fun s _ => s else none
  | .copyuvm d sz => if d ∈ s.spaces then s.call (copyuvm L d sz) Sys.addSpace else none
  | .clearpteu d uva => if d ∈ s.spaces then s.call (clearpteu d uva) fun s _ => s else none
  | .freevm d =>
    if d ∈ s.spaces then s.call (freevm L d) fun s _ => { s with spaces := s.spaces.filter (· ≠ d) }
    else none
  | .hold v c => if v ∈ s.raw then s.call (fill v c) fun s _ => s else none
  | .user d x c =>
    if d ∈ s.spaces ∧ x.User then
      match target (view s.kmem.mem d x) with
      | some v => s.call (fill v c) fun s _ => s
      | none => none
    else none

/-- The machine when `main` starts: the free list is empty, memory holds anything. -/
def init (m : Word → Page) : Sys := ⟨⟨m, 0⟩, [], [], .start⟩

/-- From any contents of memory the events lead to the state. -/
def Runs (m : Word → Page) (es : List Event) (s : Sys) : Prop := Trace.Run (step L) (init m) es s

end

/-- A size given to `deallocuvm` is not in the kernel half. -/
def Event.Below : Event → Prop
  | .deallocuvm _ oldsz _ => oldsz ≤ KERNBASE
  | _ => True

instance : (e : Event) → Decidable e.Below
  | .deallocuvm _ oldsz _ => inferInstanceAs (Decidable (oldsz ≤ KERNBASE))
  | .kinit1 | .kinit2 | .kalloc | .kfree _ | .setupkvm | .allocuvm _ _ _ | .copyuvm _ _
  | .clearpteu _ _ | .freevm _ | .hold _ _ | .user _ _ _ => .isTrue trivial

/-- The page or the address space a call changes or frees. -/
def Event.on : Event → Option Word
  | .kfree v => some v
  | .allocuvm d _ _ => some d
  | .deallocuvm d _ _ => some d
  | .clearpteu d _ => some d
  | .freevm d => some d
  | _ => none

/-! ## What is claimed -/

/-- A place where a page may be. -/
inductive Place
  | free (n : Nat)
  | dir (d : Word)
  | table (d : Word) (i : Idx)
  | frame (d : Word) (x : Vpn)
  deriving DecidableEq

/-- The page is at the place, if `l` is the free list. -/
def Occurs (s : Sys) (l : List Word) : Place → Word → Prop
  | .free n, p => l[n]? = some p
  | .dir d, p => d ∈ s.spaces ∧ p = d
  | .table d i, p => d ∈ s.spaces ∧ tableAt s.kmem.mem d i = some p
  | .frame d x, p => d ∈ s.spaces ∧ x.User ∧ target (view s.kmem.mem d x) = some p

/-- What the paging hardware makes of an address. -/
def translate (m : Word → Page) (d va : Word) : Option (Word × Word) := resolve (view m d (vpn va)) va

/-- **Ownership and isolation**: no page is at two places of the free list, the page
directories, the page tables and the user halves; an entry with `PTE_U` is in the user half;
the kernel half translates as `kmap` says. -/
structure Isolated (L : Link) (s : Sys) : Prop where
  once : ∃ l, Linked s.kmem.mem s.kmem.freelist l ∧
    ∀ p x y, Occurs s l x p → Occurs s l y p → x = y
  user : ∀ d ∈ s.spaces, ∀ va, view s.kmem.mem d (vpn va) &&& PTE_U ≠ 0 → va < KERNBASE
  kernel : ∀ d ∈ s.spaces, ∀ va, KERNBASE ≤ va →
    translate s.kmem.mem d va = kmapAt L.kmap va ∧
      ∀ pa f, translate s.kmem.mem d va = some (pa, f) → f &&& PTE_U = 0

/-! ## The invariant -/

/-- The pages the allocator knows of at a stage. -/
def Stage.Ok (own : Word → Owner) : Stage → Prop
  | .start => ∀ q, own q = .other
  | .early => ∀ q, own q ≠ .other → q.toNat < 0x80400000
  | .ready => True

/-- **The invariant**: `own` is exact, the directories are the address spaces, and the kernel
half of each of them is what `kmap` says. -/
structure Inv (L : Link) (own : Word → Owner) (s : Sys) : Prop where
  owns : Owns L own s.kmem
  dirs : ∀ d, d ∈ s.spaces ↔ own d = .dir
  raws : ∀ p ∈ s.raw, own p = .raw
  kern : ∀ d ∈ s.spaces, Kern L s.kmem.mem d
  stage : s.stage.Ok own

section

variable {L : Link} {own own' : Word → Owner} {k k' : Kmem} {d e v : Word} {s s' : Sys} {st : Stage}
  {c : Page}

/-- An operation on one address space does not make or unmake other directories. -/
theorem Loose.dir_iff {p : Word} (h : Loose d p own k own' k') (he : e ≠ d) :
    own' e = .dir ↔ own e = .dir := by
  rcases h.hands e with hq | ⟨hm, hm'⟩ | ⟨-, hm, hr⟩
  · rw [hq]
  · constructor
    · intro hd
      rw [hd] at hm'
      exact absurd hm' (not_mine_dir he)
    · intro hd
      rw [hd] at hm
      exact absurd hm (not_mine_dir he)
  · rw [hr]
    refine ⟨nofun, fun hd => ?_⟩
    rw [hd] at hm
    exact absurd hm (not_mine_dir he)

theorem Local.dir_iff (h : Local d own k own' k') (he : e ≠ d) : own' e = .dir ↔ own e = .dir :=
  (Loose.of_local (p := d) h).dir_iff he

/-- It does not bring in pages from outside. -/
theorem Local.other (h : Local d own k own' k') (hd : own d ≠ .other) {q : Word}
    (hq : own' q ≠ .other) : own q ≠ .other := by
  intro ho
  rcases h.hands q with he | ⟨hm | hm | ⟨_, hm⟩ | ⟨_, hm⟩, -⟩
  · exact hq (he.trans ho)
  · exact hd (hm ▸ ho)
  all_goals rw [ho] at hm; cases hm

theorem Stage.Ok.mono (h : st.Ok own) (ho : ∀ q, own' q ≠ .other → own q ≠ .other) :
    st.Ok own' := by
  cases st with
  | start => exact fun q => by_contra fun hq => ho q hq (h q)
  | early => exact fun q hq => h q (ho q hq)
  | ready => trivial

/-- **What a call leaves alone**: the address spaces and the pages in hand other than the
one it is on. -/
structure Keeps (v : Option Word) (s s' : Sys) : Prop where
  spaces : ∀ d ∈ s.spaces, v ≠ some d → d ∈ s'.spaces
  view : ∀ d ∈ s.spaces, v ≠ some d → view s'.kmem.mem d = view s.kmem.mem d
  raw : ∀ p ∈ s.raw, v ≠ some p → p ∈ s'.raw

theorem Keeps.refl {v : Option Word} : Keeps v s s := ⟨fun _ h _ => h, fun _ _ _ => rfl, fun _ h _ => h⟩

namespace Inv

section

variable (h : Inv L own s)
include h

theorem view_local (hd : own d = .dir) (hloc : Local d own s.kmem own' k')
    (he : e ∈ s.spaces) (hed : e ≠ d) : view k'.mem e = view s.kmem.mem e :=
  hloc.view h.owns (.inl hd) ((h.dirs e).mp he) hed

/-- All address spaces keep their view if no directory and no page table is written. -/
theorem view_plain (hm : ∀ q, (own q).Entries → k'.mem q = s.kmem.mem q)
    (he : e ∈ s.spaces) : view k'.mem e = view s.kmem.mem e := by
  have hd : own e = .dir := (h.dirs e).mp he
  exact h.owns.view_congr hd (hm e (by rw [hd]; trivial)) fun i t ht => hm t (by rw [ht]; trivial)

/-- What an operation on the address space `d` leaves alone. -/
theorem rest (hd : own d = .dir) (hloc : Local d own s.kmem own' k') :
    (∀ p ∈ s.raw, own' p = .raw) ∧ (∀ e ∈ s.spaces, e ≠ d → Kern L k'.mem e) ∧ s.stage.Ok own' := by
  refine ⟨fun p hp => ?_, fun e he hed x hx => ?_, h.stage.mono fun q => hloc.other ?_⟩
  · have hraw := h.raws p hp
    exact hloc.keep_raw hraw (ne_of_owner hraw hd nofun)
  · rw [h.view_local hd hloc he hed]
    exact h.kern e he x hx
  · rw [hd]
    nofun

theorem change (hd : d ∈ s.spaces) (ho : Owns L own' k') (hd' : own' d = .dir)
    (hloc : Local d own s.kmem own' k') (hk : Kern L k'.mem d) :
    Inv L own' { s with kmem := k' } := by
  have hdir : own d = .dir := (h.dirs d).mp hd
  obtain ⟨hraw, hkern, hstage⟩ := h.rest hdir hloc
  refine ⟨ho, fun e => ?_, hraw, fun e he => ?_, hstage⟩
  · rw [h.dirs e]
    rcases eq_or_ne e d with rfl | he
    · exact ⟨fun _ => hd', fun _ => hdir⟩
    · exact (hloc.dir_iff he).symm
  · rcases eq_or_ne e d with rfl | hed
    · exact hk
    · exact hkern e he hed

theorem dropSpace (hd : d ∈ s.spaces) (ho : Owns L own' k')
    (hd' : own' d = .free) (hloc : Local d own s.kmem own' k') :
    Inv L own' { s with kmem := k', spaces := s.spaces.filter (· ≠ d) } := by
  obtain ⟨hraw, hkern, hstage⟩ := h.rest ((h.dirs d).mp hd) hloc
  have hmem : ∀ e, e ∈ s.spaces.filter (· ≠ d) ↔ e ∈ s.spaces ∧ e ≠ d := by
    intro e
    rw [mem_filter, decide_eq_true_iff]
  refine ⟨ho, fun e => ?_, hraw, fun e he => ?_, hstage⟩
  · rw [hmem, h.dirs e]
    rcases eq_or_ne e d with rfl | he
    · rw [hd']
      exact ⟨fun hc => absurd rfl hc.2, nofun⟩
    · rw [hloc.dir_iff he]
      exact ⟨And.left, fun hc => ⟨hc, he⟩⟩
  · exact hkern e ((hmem e).mp he).1 ((hmem e).mp he).2

end

variable {raw : List Word}

section

variable (h : Inv L own s)
include h

theorem plain (ho : Owns L own' k') (hdir : ∀ e, own' e = .dir ↔ own e = .dir)
    (hm : ∀ q, (own q).Entries → k'.mem q = s.kmem.mem q) (hraw : ∀ p ∈ raw, own' p = .raw)
    (hst : st.Ok own') : Inv L own' ⟨k', s.spaces, raw, st⟩ := by
  refine ⟨ho, fun e => ?_, hraw, fun e he x hx => ?_, hst⟩
  · rw [h.dirs e, hdir e]
  · rw [h.view_plain hm he]
    exact h.kern e he x hx

theorem keeps_change (hd : d ∈ s.spaces) (hloc : Local d own s.kmem own' k') :
    Keeps (some d) s { s with kmem := k' } :=
  ⟨fun _ he _ => he, fun _ he hne => h.view_local ((h.dirs d).mp hd) hloc he fun e => hne (e ▸ rfl),
    fun _ hp _ => hp⟩

theorem keeps_dropSpace (hd : d ∈ s.spaces) (hloc : Local d own s.kmem own' k') :
    Keeps (some d) s { s with kmem := k', spaces := s.spaces.filter (· ≠ d) } := by
  refine ⟨fun e he hne => mem_filter.mpr ⟨he, decide_eq_true fun hc => hne (hc ▸ rfl)⟩, fun e he hne => ?_,
    fun _ hp _ => hp⟩
  exact h.view_local ((h.dirs d).mp hd) hloc he fun hc => hne (hc ▸ rfl)

theorem keeps_plain (hm : ∀ q, (own q).Entries → k'.mem q = s.kmem.mem q)
    {v : Option Word} (hraw : ∀ p ∈ s.raw, v ≠ some p → p ∈ raw) (st : Stage) :
    Keeps v s ⟨k', s.spaces, raw, st⟩ :=
  ⟨fun _ he _ => he, fun _ he _ => h.view_plain hm he, hraw⟩

/-- **A call that uses free pages only.** -/
theorem fresh (ho : Owns L own' k') (hf : Fresh own s.kmem own' k')
    {spaces : List Word} (hdirs : ∀ d, d ∈ spaces ↔ own' d = .dir)
    (hraw : ∀ p ∈ raw, p ∈ s.raw ∨ own' p = .raw) (hkeep : ∀ p ∈ s.raw, p ∈ raw)
    (hkern : ∀ d ∈ spaces, d ∈ s.spaces ∨ Kern L k'.mem d) :
    Inv L own' ⟨k', spaces, raw, s.stage⟩ ∧ Keeps none s ⟨k', spaces, raw, s.stage⟩ := by
  have hm : ∀ q, (own q).Entries → k'.mem q = s.kmem.mem q := by
    intro q hq
    refine hf.mem q fun he => ?_
    rw [he] at hq
    exact hq
  refine ⟨⟨ho, hdirs, fun p hp => ?_, fun d hd => ?_, h.stage.mono fun q hq hother => ?_⟩,
    fun d hd _ => (hdirs d).mpr ?_, fun d hd _ => h.view_plain hm hd, fun p hp _ => hkeep p hp⟩
  · rcases hraw p hp with hp | hp
    · have hraw := h.raws p hp
      rw [hf.hands p (by rw [hraw]; nofun), hraw]
    · exact hp
  · rcases hkern d hd with hd | hk
    · intro x hx
      rw [h.view_plain hm hd]
      exact h.kern d hd x hx
    · exact hk
  · rw [hf.hands q (by rw [hother]; nofun)] at hq
    exact hq hother
  · have hdir := (h.dirs d).mp hd
    rw [hf.hands d (by rw [hdir]; nofun), hdir]

theorem addSpace (hfree : own d = .free) (ho : Owns L own' k')
    (hd' : own' d = .dir) (hloc : Local d own s.kmem own' k') (hk : Kern L k'.mem d) :
    Inv L own' (Sys.addSpace { s with kmem := k' } d) ∧
      Keeps none s (Sys.addSpace { s with kmem := k' } d) := by
  have hne : d ≠ 0 := ho.ne_zero hd' nofun
  rw [Sys.addSpace, if_neg hne]
  refine h.fresh ho (Fresh.refl.space h.owns hfree (.of_local (p := d) hloc)) (fun e => ?_)
    (fun _ => .inl) (fun _ => id) fun e he => ?_
  · rw [mem_cons, h.dirs e]
    rcases eq_or_ne e d with rfl | he
    · exact ⟨fun _ => hd', fun _ => .inl rfl⟩
    · rw [hloc.dir_iff he]
      exact ⟨fun hc => hc.resolve_left he, .inr⟩
  · rcases mem_cons.mp he with rfl | he
    · exact .inr hk
    · exact .inl he

end

end Inv

/-! ## The calls -/

/-- What a call that returned is known to do. -/
theorem Sys.of_call {α : Type} {x : M α} {f : Sys → α → Sys} {Q : α → Kmem → Prop} {E : Stop → Prop}
    (h : s.call x f = some s') (hx : Meets x s.kmem Q E) :
    ∃ a k, Q a k ∧ s' = f { s with kmem := k } a := by
  unfold Sys.call at h
  cases hr : x s.kmem with
  | ok p =>
    rw [hr] at h
    exact ⟨p.1, p.2, Wp.ok hx hr, (Option.some.inj h).symm⟩
  | error e =>
    rw [hr] at h
    cases h

/-- The loop of `freerange` over pages the allocator does not know of: it puts them all on
the list, or it stops at one that `kfree` does not take. -/
theorem freerangeLoop_meets {vend : Word} (hend : vend.toNat < 2 ^ 32 - 4096) (n : Nat) :
    ∀ {own : Word → Owner} {k : Kmem} {p : Word}, Owns L own k → p.toNat % 4096 = 0 →
    p.toNat < 2 ^ 32 - 4096 → vend.toNat ≤ p.toNat + 4096 * n →
    (∀ q, p.toNat ≤ q.toNat → q.toNat < vend.toNat → own q = .other) →
    Meets (freerangeLoop L vend (n + 1) p) k (fun _ k' => ∃ own', Owns L own' k' ∧ ∀ q,
      own' q = own q ∧ k'.mem q = k.mem q ∧
        (p.toNat ≤ q.toNat → q.toNat % 4096 = 0 → vend.toNat < q.toNat + 4096) ∨
      own q = .other ∧ own' q = .free ∧ q.toNat + 4096 ≤ vend.toNat)
      fun _ => ∃ q : Word, p.toNat ≤ q.toNat ∧ q.toNat % 4096 = 0 ∧ q.toNat + 4096 ≤ vend.toNat ∧
        ¬ Pool L q := by
  have hnext : ∀ {p : Word}, p.toNat < 2 ^ 32 - 4096 → (p + PGSIZE).toNat = p.toNat + 4096 := by
    intro p hp
    rw [BitVec.toNat_add]
    show (p.toNat + 4096) % 2 ^ 32 = _
    omega
  have hstop : ∀ {own : Word → Owner} {k : Kmem} {p : Word}, Owns L own k → p.toNat < 2 ^ 32 - 4096 →
      ¬ p + PGSIZE ≤ vend → ∃ own', Owns L own' k ∧ ∀ q, own' q = own q ∧ k.mem q = k.mem q ∧
        (p.toNat ≤ q.toNat → q.toNat % 4096 = 0 → vend.toNat < q.toNat + 4096) ∨
      own q = .other ∧ own' q = .free ∧ q.toNat + 4096 ≤ vend.toNat := by
    intro own k p h hp hge
    have hge' : ¬ (p + PGSIZE).toNat ≤ vend.toNat := hge
    rw [hnext hp] at hge'
    exact ⟨own, h, fun q => .inl ⟨rfl, rfl, fun hq _ => by omega⟩⟩
  induction n with
  | zero =>
    intro own k p h hp hlt hn hother
    refine of_ite (fun hle => ?_) fun hge => of_pure (hstop h hlt hge)
    have hle' : (p + PGSIZE).toNat ≤ vend.toNat := hle
    rw [hnext hlt] at hle'
    omega
  | succ n ih =>
    intro own k p h hp hlt hn hother
    refine of_ite (fun hle => ?_) fun hge => of_pure (hstop h hlt hge)
    have hle' : (p + PGSIZE).toNat ≤ vend.toNat := hle
    rw [hnext hlt] at hle'
    by_cases hpool : Pool L p
    swap
    · refine of_bind (of_ite (fun hc => absurd hc hpool) fun _ => of_throw ?_)
      exact ⟨p, le_rfl, hp, hle', hpool⟩
    refine call (kfree_meets hpool) (fun _ => False.elim) ?_
    rintro _ k₁ rfl
    have hp₀ : own p = .other := hother p le_rfl (by omega)
    have hnext' := hnext hlt
    refine mono (ih (h.release (.inr hp₀) hpool) (by omega) (by omega) (by omega) ?_) ?_ ?_
    · intro q hq hq'
      rw [update_of_ne]
      · exact hother q (by omega) hq'
      · rintro rfl
        omega
    · rintro _ k' ⟨own', h', hown'⟩
      refine ⟨own', h', fun q => ?_⟩
      rcases eq_or_ne q p with rfl | hqp
      · rcases hown' q with ⟨hq, -, -⟩ | ⟨hq, -, -⟩
        · rw [update_self] at hq
          exact .inr ⟨hp₀, hq, hle'⟩
        · rw [update_self] at hq
          cases hq
      · have hq := hown' q
        rw [update_of_ne hqp, Kmem.freed_of_ne hqp, hnext'] at hq
        have hne : q.toNat ≠ p.toNat := fun e => hqp (BitVec.toNat_inj.mp e)
        exact hq.imp (fun hq => ⟨hq.1, hq.2.1, fun h₁ h₂ => hq.2.2 (by omega) h₂⟩) id
    · rintro _ ⟨q, hq, hq'⟩
      exact ⟨q, by omega, hq'⟩

section

variable (h : Inv L own s)
include h

/-- `freerange` keeps the invariant: the new pages are free. -/
theorem Inv.freerange {vstart vend : Word} (hend : vend.toNat < 2 ^ 32 - 4096)
    (hstart : vstart.toNat < 2 ^ 32 - 8192)
    (hother : ∀ q, vstart.toNat ≤ q.toNat → q.toNat < vend.toNat → own q = .other)
    (hst : ∀ own', (∀ q, own' q = own q ∨ q.toNat + 4096 ≤ vend.toNat) → st.Ok own')
    (hs : s.call (Vm.freerange L vstart vend) (fun s _ => { s with stage := st }) = some s') :
    ∃ own', Inv L own' s' ∧ Keeps none s s' := by
  have hup := toNat_PGROUNDUP (a := vstart) (by omega)
  obtain ⟨_, k', ⟨own', ho, hown⟩, rfl⟩ := Sys.of_call hs (freerangeLoop_meets hend (2 ^ 20) h.owns
    (by omega) (by omega) (by omega) fun q hq => hother q (by omega))
  have hkeep : ∀ q, own q ≠ .other → own' q = own q ∧ k'.mem q = s.kmem.mem q := by
    intro q hq
    rcases hown q with hq' | hq'
    · exact ⟨hq'.1, hq'.2.1⟩
    · exact absurd hq'.1 hq
  have hentries : ∀ q, (own q).Entries → k'.mem q = s.kmem.mem q := by
    intro q hq
    refine (hkeep q fun ho => ?_).2
    rw [ho] at hq
    exact hq
  refine ⟨own', h.plain ho (fun e => ?_) hentries (fun p hp => ?_)
    (hst own' fun q => (hown q).imp And.left fun hq => hq.2.2),
    h.keeps_plain hentries (fun _ hp _ => hp) _⟩
  · rcases hown e with hq | hq
    · rw [hq.1]
    · rw [hq.1, hq.2.1]
      exact ⟨nofun, nofun⟩
  · have hraw := h.raws p hp
    rw [(hkeep p (by rw [hraw]; nofun)).1, hraw]

/-- A write into a page in hand or into a user page keeps the invariant. -/
theorem Inv.write (hv : own v = .raw ∨ ∃ d x, own v = .frame d x)
    (hs : s.call (fill v c) (fun s _ => s) = some s') : Inv L own s' ∧ Keeps none s s' := by
  have hne : ¬ (own v).Entries ∧ own v ≠ .free := by
    rcases hv with hv | ⟨d, x, hv⟩ <;> rw [hv] <;> exact ⟨id, nofun⟩
  cases Option.some.inj hs
  have hm : ∀ q, (own q).Entries → (s.kmem.setPage v c).mem q = s.kmem.mem q := by
    intro q hq
    refine Kmem.setPage_of_ne ?_
    rintro rfl
    exact hne.1 hq
  exact ⟨h.plain (h.owns.scribble c hne) (fun _ => Iff.rfl) hm h.raws h.stage,
    h.keeps_plain hm (fun _ hp _ => hp) _⟩

theorem Inv.kfree (hraw : own v = .raw) :
    Inv L (update own v .free)
        { s with kmem := s.kmem.freed v, raw := s.raw.filter (· ≠ v) } ∧
      Keeps (some v) s { s with kmem := s.kmem.freed v, raw := s.raw.filter (· ≠ v) } := by
  have hm : ∀ q, (own q).Entries → (s.kmem.freed v).mem q = s.kmem.mem q := by
    intro q hq
    refine Kmem.freed_of_ne ?_
    rintro rfl
    rw [hraw] at hq
    exact hq
  refine ⟨h.plain (h.owns.release (.inl hraw) (h.owns.pool_of hraw nofun))
    (fun e => Owns.update_eq_iff (by rw [hraw]; nofun) nofun) hm (fun p hp => ?_)
    (h.stage.mono fun q hq => ?_), h.keeps_plain hm (fun p hp hne => ?_) _⟩
  · obtain ⟨hp, hpv⟩ := mem_filter.mp hp
    rw [update_of_ne (of_decide_eq_true hpv)]
    exact h.raws p hp
  · rcases eq_or_ne q v with rfl | hqv
    · rw [hraw]
      nofun
    · rwa [update_of_ne hqv] at hq
  · exact mem_filter.mpr ⟨hp, decide_eq_true fun hc => hne (hc ▸ rfl)⟩

theorem Inv.hold (hs : Vm.step L s (.hold v c) = some s') : Inv L own s' ∧ Keeps none s s' := by
  obtain ⟨hv, hs⟩ := ite_none_right_eq_some.mp hs
  exact h.write (.inl (h.raws v hv)) hs

theorem Inv.user {x : Vpn} (hs : Vm.step L s (.user d x c) = some s') :
    Inv L own s' ∧ Keeps none s s' := by
  obtain ⟨⟨hd, hx⟩, hs⟩ := ite_none_right_eq_some.mp hs
  cases ht : target (view s.kmem.mem d x) with
  | none =>
    rw [ht] at hs
    cases hs
  | some v =>
    rw [ht] at hs
    exact h.write (.inr ⟨d, x, h.owns.frame.mpr ⟨(h.dirs d).mp hd, hx, ht⟩⟩) hs

/-- **A call keeps the invariant**, unless it is a `deallocuvm` above the user half. -/
theorem Inv.step {e : Event} (hb : e.Below) (hs : step L s e = some s') :
    ∃ own', Inv L own' s' ∧ Keeps e.on s s' := by
  cases e with
  | kinit1 =>
    obtain ⟨hst, hs⟩ := ite_none_right_eq_some.mp hs
    have hall := h.stage
    rw [hst] at hall
    have hkend : L.kend.toNat ≤ 0x8E000000 := L.kend_le
    refine h.freerange (by decide) (by omega) (fun q _ _ => hall q) (fun own' hown => ?_) hs
    show Stage.Ok own' .early
    intro q hq
    rcases hown q with he | hlt
    · exact absurd (he.trans (hall q)) hq
    · have hlt' : q.toNat + 4096 ≤ 0x80400000 := hlt
      omega
  | kinit2 =>
    obtain ⟨hst, hs⟩ := ite_none_right_eq_some.mp hs
    have hall := h.stage
    rw [hst] at hall
    refine h.freerange (by decide) (by decide) (fun q hq _ => ?_)
      (fun _ _ => show Stage.Ok _ .ready from trivial) hs
    by_contra hc
    exact absurd (hall q hc) (Nat.not_lt.mpr hq)
  | kalloc =>
    obtain ⟨r, k', hr | ⟨hfree, hmem, ho⟩, rfl⟩ := Sys.of_call hs (kalloc_meets h.owns)
    · obtain ⟨rfl, rfl, -⟩ := hr
      exact ⟨own, h, .refl⟩
    · have hne : r ≠ 0 := h.owns.ne_zero hfree nofun
      rw [Sys.addRaw, if_neg hne]
      refine ⟨_, h.fresh ho (Fresh.refl.update hfree _ fun q _ => by rw [hmem]) (fun d => ?_)
        (fun p hp => ?_) (fun _ => mem_cons_of_mem _) fun _ => .inl⟩
      · have hkeep : update own r .raw d = .dir ↔ own d = .dir :=
          Owns.update_eq_iff (by rw [hfree]; nofun) nofun
        rw [h.dirs d, hkeep]
      · rcases mem_cons.mp hp with rfl | hp
        · exact .inr (update_self ..)
        · exact .inl hp
  | kfree v =>
    obtain ⟨hv, hs⟩ := ite_none_right_eq_some.mp hs
    have hraw := h.raws v hv
    obtain ⟨_, k', rfl, rfl⟩ :=
      Sys.of_call hs (kfree_meets (h.owns.pool_of hraw nofun))
    exact ⟨_, h.kfree hraw⟩
  | setupkvm =>
    obtain ⟨r, k', hr | ⟨hfree, own', ho, hd', hloc, hk, -⟩, rfl⟩ :=
      Sys.of_call hs (setupkvm_meets h.owns)
    · obtain ⟨rfl, ho, hmem, -⟩ := hr
      exact ⟨own, h.fresh ho ⟨fun _ _ => rfl, hmem⟩ h.dirs (fun _ => .inl) (fun _ => id) fun _ => .inl⟩
    · exact ⟨own', h.addSpace hfree ho hd' hloc hk⟩
  | allocuvm d oldsz newsz =>
    obtain ⟨hd, hs⟩ := ite_none_right_eq_some.mp hs
    obtain ⟨r, k', ⟨own', ho, hd', hloc, hr⟩, rfl⟩ :=
      Sys.of_call hs (allocuvm_meets h.owns ((h.dirs d).mp hd) oldsz newsz)
    refine ⟨own', h.change hd ho hd' hloc ?_, h.keeps_change hd hloc⟩
    rcases hr with ⟨-, htrim, -⟩ | ⟨-, -, rfl⟩ | ⟨-, hnew, -, hfill, -⟩
    · exact (h.kern d hd).of_outside le_rfl htrim.outside
    · exact h.kern d hd
    · exact (h.kern d hd).of_outside (Nat.le_of_lt hnew) fun x hx => (hfill x).2 hx
  | deallocuvm d oldsz newsz =>
    obtain ⟨hd, hs⟩ := ite_none_right_eq_some.mp hs
    obtain ⟨r, k', ⟨-, -, rfl⟩ | ⟨-, -, own', ho, hd', hrel, hclear⟩, rfl⟩ :=
      Sys.of_call hs (deallocuvm_meets h.owns ((h.dirs d).mp hd) hb)
    · exact ⟨own, h, .refl⟩
    · exact ⟨own', h.change hd ho hd' hrel.toLocal
        ((h.kern d hd).of_outside hb fun x hx => (hclear x).2 hx), h.keeps_change hd hrel.toLocal⟩
  | copyuvm d sz =>
    obtain ⟨hd, hs⟩ := ite_none_right_eq_some.mp hs
    obtain ⟨r, k', hr | ⟨hfree, -, own', ho, hd', hloc, hk, -⟩, rfl⟩ :=
      Sys.of_call hs (copyuvm_meets h.owns ((h.dirs d).mp hd))
    · obtain ⟨rfl, own', p, ho, hown, hmem, -⟩ := hr
      refine ⟨own', h.fresh ho ⟨fun q hq => (hown q).resolve_right fun hc => hq hc.2.1, hmem⟩
        (fun d => ?_) (fun _ => .inl) (fun _ => id) fun _ => .inl⟩
      rw [h.dirs d]
      rcases hown d with he | ⟨-, he, he'⟩
      · rw [he]
      · rw [he, he']
        exact ⟨nofun, nofun⟩
    · exact ⟨own', h.addSpace hfree ho hd' hloc hk⟩
  | clearpteu d uva =>
    obtain ⟨hd, hs⟩ := ite_none_right_eq_some.mp hs
    have hdir := (h.dirs d).mp hd
    obtain ⟨_, k', ⟨ho, hloc, hview⟩, rfl⟩ := Sys.of_call hs (clearpteu_meets h.owns hdir uva)
    refine ⟨own, h.change hd ho hdir hloc fun x hx => ?_, h.keeps_change hd hloc⟩
    rw [hview]
    rcases eq_or_ne x (vpn uva) with rfl | hne
    · rw [update_self, h.kern d hd _ hx]
      exact and_not_of_and (kmapWord_user L.kmap_ok _)
    · rw [update_of_ne hne]
      exact h.kern d hd x hx
  | freevm d =>
    obtain ⟨hd, hs⟩ := ite_none_right_eq_some.mp hs
    obtain ⟨_, k', ⟨own', ho, hd', hloc⟩, rfl⟩ :=
      Sys.of_call hs (freevm_meets h.owns ((h.dirs d).mp hd))
    exact ⟨own', h.dropSpace hd ho hd' hloc, h.keeps_dropSpace hd hloc⟩
  | hold v c => exact ⟨own, h.hold hs⟩
  | user d x c => exact ⟨own, h.user hs⟩

end

/-! ## The theorem -/

/-- The owner a place stands for. -/
def Place.owner : Place → Owner
  | .free _ => .free
  | .dir _ => .dir
  | .table d i => .table d i
  | .frame d x => .frame d x

/-- What is at a place is owned by it. -/
theorem Inv.owner (h : Inv L own s) {l : List Word} (hl : ∀ p, p ∈ l ↔ own p = .free) {p : Word} :
    ∀ {x : Place}, Occurs s l x p → own p = x.owner
  | .free _, hx => (hl p).mp (List.mem_of_getElem? hx)
  | .dir _, hx => (h.dirs p).mp (hx.2 ▸ hx.1)
  | .table d _, hx => h.owns.table.mpr ⟨(h.dirs d).mp hx.1, hx.2⟩
  | .frame d _, hx => h.owns.frame.mpr ⟨(h.dirs d).mp hx.1, hx.2⟩

theorem Inv.isolated (h : Inv L own s) : Isolated L s := by
  have hword : ∀ d ∈ s.spaces, ∀ va, KERNBASE ≤ va →
      view s.kmem.mem d (vpn va) = kmapWord L.kmap (vpn va) := by
    intro d hd va hva
    refine h.kern d hd _ fun hu => ?_
    have hlt : va.toNat < KERNBASE.toNat := user_vpn.mp hu
    exact absurd hva (Nat.not_le.mpr hlt)
  refine ⟨?_, fun d hd va hu => ?_, fun d hd va hva => ⟨?_, fun pa f hf => ?_⟩⟩
  · obtain ⟨l, hl, hnd, hmem⟩ := h.owns.list
    refine ⟨l, hl, fun p x y hx hy => ?_⟩
    have howner : x.owner = y.owner := (h.owner hmem hx).symm.trans (h.owner hmem hy)
    cases x <;> cases y <;> cases howner
    · rename_i n n'
      have hlt : n < l.length := (List.getElem?_eq_some_iff.mp hx).1
      rw [(List.getElem?_inj hlt hnd).mp (hx.trans hy.symm)]
    · rw [← hx.2, hy.2]
    · rfl
    · rfl
  · by_contra hge
    rw [hword d hd va (Nat.le_of_not_lt hge)] at hu
    exact hu (kmapWord_user L.kmap_ok _)
  · rw [translate, hword d hd va hva]
    exact resolve_kmapWord L.kmap_ok va
  · rw [translate, hword d hd va hva, resolve] at hf
    split_ifs at hf
    obtain ⟨-, rfl⟩ := Prod.mk.inj (Option.some.inj hf)
    rw [PTE_FLAGS, BitVec.and_assoc]
    exact kmapWord_user L.kmap_ok _

theorem inv_init (m : Word → Page) : Inv L (fun _ => .other) (init m) := by
  refine ⟨⟨⟨[], .nil, nodup_nil, fun p => ⟨nofun, nofun⟩⟩, ⟨nofun, nofun⟩, ⟨nofun, nofun⟩,
    fun hp => absurd rfl hp⟩, fun d => ⟨nofun, nofun⟩, nofun, nofun, fun q => rfl⟩

theorem inv_of_run {m : Word → Page} {es : List Event} (h : Runs L m es s)
    (hb : ∀ e ∈ es, e.Below) : ∃ own, Inv L own s := by
  refine h.invariant (I := fun es s => (∀ e ∈ es, e.Below) → ∃ own, Inv L own s)
    (fun _ => ⟨_, inv_init m⟩) (fun es s e s' ih hs hb => ?_) hb
  obtain ⟨own, h⟩ := ih fun f hf => hb f (mem_append_left _ hf)
  obtain ⟨own', h', -⟩ := h.step (hb e (mem_append_right _ mem_cons_self)) hs
  exact ⟨own', h'⟩

/-! ## Runs there are -/

/-- The memory above 4 MB is free. -/
def Plenty (own : Word → Owner) : Prop :=
  ∀ q : Word, q.toNat % 4096 = 0 → 0x80400000 ≤ q.toNat → q.toNat < 0x8E000000 → own q = .free

/-- Then there are many free pages. -/
theorem Plenty.not_scarce (h : Plenty own) {n : Nat} (hn : n < 56320) : ¬ Scarce own n := by
  rintro ⟨f, hinj, hlt⟩
  have hpage : ∀ j < 56320, (BitVec.ofNat 32 (0x80400000 + 4096 * j)).toNat = 0x80400000 + 4096 * j := by
    intro j hj
    rw [BitVec.toNat_ofNat]
    omega
  have hfree : ∀ j < 56320, own (BitVec.ofNat 32 (0x80400000 + 4096 * j)) = .free := by
    intro j hj
    have hj' := hpage j hj
    exact h _ (by omega) (by omega) (by omega)
  have hcard := Finset.card_le_card_of_injOn
    (fun j => f (BitVec.ofNat 32 (0x80400000 + 4096 * j)))
    (fun j hj => by
      rw [Finset.coe_range, Set.mem_Iio]
      exact hlt _ (hfree j (Finset.mem_range.mp hj)))
    (fun i hi j hj he => by
      have hi' := Finset.mem_range.mp hi
      have hj' := Finset.mem_range.mp hj
      have := congrArg BitVec.toNat (hinj (hfree i hi') (hfree j hj') he)
      rw [hpage i hi', hpage j hj'] at this
      omega)
  rw [Finset.card_range, Finset.card_range] at hcard
  omega

theorem Sys.call_of_meets {α : Type} {x : M α} {f : Sys → α → Sys} {Q : α → Kmem → Prop}
    (h : Meets x s.kmem Q fun _ => False) :
    ∃ a k, Q a k ∧ s.call x f = some (f { s with kmem := k } a) := by
  obtain ⟨a, k, hx, hQ⟩ := Wp.returns h
  exact ⟨a, k, hQ, by rw [Sys.call, hx]⟩

/-- Which pages are free is up to memory alone. -/
theorem Owns.free_iff (h : Owns L own k) (h' : Owns L own' k) {q : Word} :
    own q = .free ↔ own' q = .free := by
  obtain ⟨l, hl, -, hmem⟩ := h.list
  obtain ⟨l', hl', -, hmem'⟩ := h'.list
  rw [← hmem, ← hmem', hl.unique hl']

theorem freerange_returns (h : Owns L own k) (vstart vend : Word)
    (hend : vend.toNat < 2 ^ 32 - 4096) (hstart : vstart.toNat < 2 ^ 32 - 8192)
    (hother : ∀ q, vstart.toNat ≤ q.toNat → q.toNat < vend.toNat → own q = .other)
    (hpool : ∀ q : Word, vstart.toNat ≤ q.toNat → q.toNat % 4096 = 0 →
      q.toNat + 4096 ≤ vend.toNat → Pool L q) :
    Meets (freerange L vstart vend) k (fun _ k' => ∃ own', Owns L own' k' ∧
      (∀ q, own' q = own q ∨ own' q = .free ∧ q.toNat + 4096 ≤ vend.toNat) ∧
      ∀ q : Word, vstart.toNat ≤ q.toNat → q.toNat % 4096 = 0 → q.toNat + 4096 ≤ vend.toNat →
        own' q = .free) fun _ => False := by
  have hup := toNat_PGROUNDUP (a := vstart) (by omega)
  refine mono (freerangeLoop_meets hend (2 ^ 20) h (by omega) (by omega) (by omega)
    fun q hq => hother q (by omega)) ?_ ?_
  · rintro _ k' ⟨own', ho, hown⟩
    refine ⟨own', ho, fun q => (hown q).imp And.left And.right, fun q hq hmod hlt => ?_⟩
    rcases hown q with ⟨-, -, hge⟩ | ⟨-, hfree, -⟩
    · have := hge (by omega) hmod
      omega
    · exact hfree
  · rintro _ ⟨q, hq, hmod, hlt, hno⟩
    exact hno (hpool q (by omega) hmod hlt)

/-- With a kernel that ends below 4 MB, `main` gets through `kinit1` and `kinit2`, and then
all the memory above is free. -/
theorem exists_boot (L : Link) (hL : L.kend.toNat ≤ 0x80400000) (m : Word → Page) :
    ∃ own s, Runs L m [.kinit1, .kinit2] s ∧ Inv L own s ∧ Plenty own ∧ s.spaces = [] := by
  have hpool : ∀ q : Word, L.kend.toNat ≤ q.toNat → q.toNat % 4096 = 0 →
      q.toNat + 4096 ≤ 0x8E000000 → Pool L q := by
    intro q hq hmod hlt
    have hlo := L.data_lo
    have hord : L.data.toNat ≤ L.kend.toNat := L.ordered
    refine ⟨BitVec.toNat_inj.mp ?_, Nat.not_lt.mpr hq, Nat.not_le.mpr ?_⟩
    · rw [BitVec.toNat_umod]
      exact hmod
    · show (V2P q).toNat < 0xE000000
      rw [V2P, BitVec.toNat_sub]
      show (2 ^ 32 - 0x80000000 + q.toNat) % 2 ^ 32 < _
      omega
  have hmid : (P2V (4 * 1024 * 1024)).toNat = 0x80400000 := rfl
  have htop : (P2V PHYSTOP).toNat = 0x8E000000 := rfl
  have hmeets₁ : Meets (kinit1 L) (init m).kmem _ _ :=
    freerange_returns (inv_init m).owns L.kend (P2V (4 * 1024 * 1024)) (by omega) (by omega)
      (fun _ _ _ => rfl) fun q hq hmod hlt => hpool q hq hmod (by omega)
  obtain ⟨_, k₁, ⟨own₁, ho₁, hown₁, -⟩, hs₁⟩ :=
    Sys.call_of_meets hmeets₁
  have hother : ∀ q : Word, 0x80400000 ≤ q.toNat → own₁ q = .other := by
    intro q hq
    rcases hown₁ q with he | ⟨-, hlt⟩
    · exact he
    · omega
  have hmeets₂ : Meets (kinit2 L) (⟨k₁, [], [], .early⟩ : Sys).kmem _ _ :=
    freerange_returns ho₁ (P2V (4 * 1024 * 1024)) (P2V PHYSTOP) (by omega) (by omega)
      (fun q hq _ => hother q (by omega)) fun q hq hmod hlt => hpool q (by omega) hmod (by omega)
  obtain ⟨_, k₂, ⟨own₂, ho₂, -, hfree₂⟩, hs₂⟩ :=
    Sys.call_of_meets hmeets₂
  have hstep₁ : step L (init m) .kinit1 = some ⟨k₁, [], [], .early⟩ := by
    rw [step, if_pos (show (init m).stage = .start from rfl)]
    exact hs₁
  have hstep₂ : step L ⟨k₁, [], [], .early⟩ .kinit2 = some ⟨k₂, [], [], .ready⟩ := by
    rw [step, if_pos rfl]
    exact hs₂
  have hrun : Runs L m ([] ++ [.kinit1] ++ [.kinit2]) ⟨k₂, [], [], .ready⟩ :=
    .snoc _ (.snoc _ .nil hstep₁) hstep₂
  obtain ⟨own, hinv⟩ := inv_of_run hrun (by simp [Event.Below])
  refine ⟨own, _, hrun, hinv, fun q hmod hlo hhi => ?_, rfl⟩
  exact (ho₂.free_iff hinv.owns).mp (hfree₂ q (by omega) hmod (by omega))

/-- There, `setupkvm` finds the pages it needs. -/
theorem exists_space (L : Link) (hL : L.kend.toNat ≤ 0x80400000) (m : Word → Page) :
    ∃ own s d, Runs L m [.kinit1, .kinit2, .setupkvm] s ∧ Inv L own s ∧ d ∈ s.spaces := by
  obtain ⟨own, s, hrun, hinv, hplenty, hspaces⟩ := exists_boot L hL m
  obtain ⟨d, k, hpost, hs⟩ := Sys.call_of_meets (setupkvm_meets hinv.owns)
  have hrun' : Runs L m ([.kinit1, .kinit2] ++ [.setupkvm]) _ := .snoc _ hrun hs
  rcases hpost with ⟨-, -, -, hfew⟩ | ⟨hfree, -⟩
  · exact absurd (Scarce.of_freePages hfew.le) (hplenty.not_scarce (by omega))
  have hpool : Pool L d := hinv.owns.pool_of hfree nofun
  obtain ⟨own', hinv'⟩ := inv_of_run hrun' (by simp [Event.Below])
  refine ⟨own', _, d, hrun', hinv', ?_⟩
  rw [Sys.addSpace, if_neg hpool.ne_zero]
  exact mem_cons_self

/-- **`deallocuvm` on the kernel half** takes the pages of the kernel map for the process's:
asked for the page of the directory, it frees the directory. -/
theorem deallocuvm_self (h : Owns L own k) (hd : own d = .dir) (hk : Kern L k.mem d) :
    Meets (deallocuvm L d (d + PGSIZE) d) k (fun _ k' => k'.freelist = d) fun _ => False := by
  have hp : Pool L d := h.pool_of hd nofun
  have hhi := hp.hi
  have hnext : (d + PGSIZE).toNat = d.toNat + 4096 := by
    rw [BitVec.toNat_add]
    show (d.toNat + 4096) % 2 ^ 32 = _
    omega
  have hup : PGROUNDUP d = d := by
    refine BitVec.toNat_inj.mp ?_
    rw [toNat_PGROUNDUP (by omega)]
    have := hp.aligned
    omega
  have hlt : d < d + PGSIZE := by
    show d.toNat < (d + PGSIZE).toNat
    omega
  refine of_ite (fun hc => absurd hlt (Nat.not_lt.mpr hc)) fun _ => ?_
  rw [hup]
  refine call ?_ (fun _ => id) fun _ _ hq => of_pure hq
  unfold turns
  refine of_ite (fun _ => ?_) (absurd hlt)
  refine call (walk_meets h hd d) (fun _ => id) ?_
  have hself := target_eq_some.mp (hk.pool hp)
  rintro r k₁ ⟨rfl, ⟨rfl, hnone⟩ | ⟨t, rfl, ht⟩⟩
  · rw [view_of_none hnone] at hself
    exact absurd hself.1 not_present_zero
  have hentry : k₁.mem t (PTX d) = view k₁.mem d (vpn d) := (h.view_eq ht _).symm
  refine load_bind ?_
  rw [hentry]
  refine of_ite (fun _ => ?_) (absurd hself.1)
  refine of_ite (fun hz => ?_) fun _ => ?_
  · rw [hz] at hself
    have := congrArg BitVec.toNat hself.2
    have := hp.data_le
    have := L.data_lo
    have : (P2V 0).toNat = 0x80000000 := rfl
    omega
  rw [hself.2]
  refine call (kfree_meets hp) (fun _ => id) ?_
  rintro _ k₂ rfl
  exact store_bind (of_ite (fun hc => absurd hc (Nat.lt_irrefl _)) fun _ => of_pure rfl)

end

/-- A kernel of one page of data. -/
def smallLink : Link where
  data := 0x80101000
  kend := 0x80102000
  aligned := rfl
  after_text := by decide
  in_memory := by decide
  ordered := by decide
  kend_le := by decide

/-! ## Ownership and isolation -/

/-- **Page ownership and isolation.**  In every run that keeps the sizes given to `deallocuvm`
out of the kernel half, every page is at one place at most, `PTE_U` is only in the user
half, and the kernel half of every address space is what `kmap` says. -/
theorem page_ownership (L : Link) (m : Word → Page) (es : List Event) (s : Sys)
    (h : Runs L m es s) (hb : ∀ e ∈ es, e.Below) : Isolated L s := by
  obtain ⟨own, hinv⟩ := inv_of_run h hb
  exact hinv.isolated

/-- Such a run: `main` sets up the allocator and a process gets its kernel map. -/
theorem page_ownership_setupkvm : ∃ s d,
    Runs smallLink (fun _ => zeros) [.kinit1, .kinit2, .setupkvm] s ∧ d ∈ s.spaces ∧
      Isolated smallLink s := by
  obtain ⟨own, s, d, hrun, -, hd⟩ := exists_space smallLink (by decide) fun _ => zeros
  exact ⟨s, d, hrun, hd, page_ownership _ _ _ _ hrun (by simp [Event.Below])⟩

/-- **The bound on the size matters**: then `deallocuvm` of the directory's own page leaves
the directory in use and on the free list. -/
theorem deallocuvm_frees_directory : ∃ m d s,
    Runs smallLink m [.kinit1, .kinit2, .setupkvm, .deallocuvm d (d + PGSIZE) d] s ∧
      ¬ Isolated smallLink s := by
  obtain ⟨own, s, d, hrun, hinv, hd⟩ := exists_space smallLink (by decide) fun _ => zeros
  have hdir := (hinv.dirs d).mp hd
  have hne : d ≠ 0 := hinv.owns.ne_zero hdir nofun
  obtain ⟨_, k, hlist, hs⟩ := Sys.call_of_meets (f := fun s _ => s)
    (deallocuvm_self hinv.owns hdir (hinv.kern d hd))
  refine ⟨_, d, _, .snoc _ hrun ((if_pos hd).trans hs), fun hiso => ?_⟩
  obtain ⟨l, hl, honce⟩ := hiso.once
  have hfree : l[0]? = some d := by
    rw [show (Kmem.freelist _) = d from hlist] at hl
    cases hl with
    | nil => exact absurd rfl hne
    | cons => rfl
  exact nomatch honce d (.free 0) (.dir d) hfree ⟨hd, rfl⟩

end Xv6.Vm
