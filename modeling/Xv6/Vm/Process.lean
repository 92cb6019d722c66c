/-
# `Xv6.Vm.Process` — processes and their memory

The part of `proc.c` that takes and gives back pages: `allocproc`, `userinit`, `fork`,
`growproc` (behind `sbrk`), `exec`, `exit` and `wait`, with `inituvm` of `vm.c`.  A call is
one step.  Scheduling, files and names are not modelled, so a process is `live` whether it
sleeps or runs; the page-fault handler and `mmap` are not modelled either.

Next to the processes the machine has the rest of the kernel: `Event.kernel` is any call of
`Xv6.Vm.System` on pages and address spaces that are not `taken` by a process.  It stands
for pipes, and for other processes that are in the middle of `fork` or `exec`.

`allocproc` asks `kalloc` for a kernel stack and for a page for the table of `mmap`
(`mmt`).  Nothing ever frees the second.
-/
import Xv6.Vm.Exec
import Xv6.Vm.System

namespace Xv6.Vm

open Wp
open Function (update update_of_ne update_self)

def NPROC : Nat := 64

abbrev Slot : Type := Fin NPROC

/-- `p->state`; `live` is `SLEEPING`, `RUNNABLE` or `RUNNING`. -/
inductive ProcState
  | unused
  | embryo
  | live
  | zombie
  deriving DecidableEq

/-- The fields of `struct proc` that matter here. -/
structure Proc where
  state : ProcState
  sz : Word
  pgdir : Word
  kstack : Word
  mmt : Word
  parent : Option Slot

/-! ## The code -/

/-- `allocproc`, once it has found the entry `np`. -/
def allocproc (np : Proc) : M Proc := do
  let kstack ← kalloc
  if kstack = 0 then
    return { np with kstack := kstack, state := .unused }
  else
    let mmt ← kalloc
    return { np with kstack := kstack, mmt := mmt, state := .embryo }

/-- `inituvm`, with the size and the page of the initial program.  A null page is a page
fault in the kernel; a `mappages` that fails goes unnoticed. -/
def inituvm (pgdir size : Word) (init : Page) : M Unit :=
  if PGSIZE ≤ size then
    throw (.panic .inituvm)
  else do
    let mem ← kalloc
    if mem = 0 then
      throw .forever
    else
      fill mem zeros
      let _ ← mappages pgdir 0 PGSIZE (V2P mem) (PTE_W ||| PTE_U)
      fill mem init

section

variable (L : Link)

/-- `userinit`, once `allocproc` has found the entry `p`. -/
def userinit (p : Proc) (size : Word) (init : Page) : M Proc := do
  let p ← allocproc p
  if p.state = .unused then
    throw .forever
  else
    let d ← setupkvm L
    if d = 0 then
      throw (.panic .userinit)
    else
      inituvm d size init
      return { p with pgdir := d, sz := PGSIZE, state := .live }

/-- `growproc`, and whether it returned 0. -/
def growproc (p : Proc) (n : Word) : M (Proc × Bool) :=
  if 0 < n.toInt then do
    let sz ← allocuvm L p.pgdir p.sz (p.sz + n)
    if sz = 0 then
      return (p, false)
    else
      return ({ p with sz := sz }, true)
  else if n.toInt < 0 then do
    let sz ← deallocuvm L p.pgdir p.sz (p.sz + n)
    if sz = 0 then
      return (p, false)
    else
      return ({ p with sz := sz }, true)
  else
    return (p, true)

/-- `fork` by the process `curproc` of the entry `cur`, once `allocproc` has found `np`. -/
def fork (cur : Slot) (curproc np : Proc) : M Proc := do
  let np ← allocproc np
  if np.state = .unused then
    return np
  else
    let d ← copyuvm L curproc.pgdir curproc.sz
    if d = 0 then
      kfree L np.kstack
      return { np with pgdir := d, kstack := 0, state := .unused }
    else
      return { np with pgdir := d, sz := curproc.sz, parent := some cur, state := .live }

/-- What `wait` does to the zombie it has found. -/
def reap (p : Proc) : M Proc := do
  kfree L p.kstack
  freevm L p.pgdir
  return { p with kstack := 0, parent := none, state := .unused }

end

/-! ## The machine -/

/-- The machine with its processes.  `taken` are the pages and the directories that belong to
processes, now or for ever. -/
structure Host where
  sys : Sys
  taken : List Word
  proc : Slot → Proc
  initproc : Option Slot

inductive Call
  | kernel (e : Event)
  | userinit (size : Word) (init : Page)
  | fork (p : Slot)
  | sbrk (p : Slot) (n : Word)
  | exec (p : Slot) (file : Option Image) (argv : Argv)
  | exit (p : Slot)
  | wait (p : Slot)

/-- The strings of an `exec` are not too long. -/
def Call.Short : Call → Prop
  | .exec _ _ argv => ∀ a ∈ argv.args, a.Short
  | _ => True

namespace Host

def call {α : Type} (s : Host) (x : M α) (f : α → Kmem → Host) : Option Host :=
  match x s.sys.kmem with
  | .ok (a, k) => some (f a k)
  | .error _ => none

/-- The first entry that is not in use. -/
def free (s : Host) : Option Slot :=
  (List.finRange NPROC).find? fun c => decide ((s.proc c).state = .unused)

/-- The first child that has exited. -/
def zombie (s : Host) (p : Slot) : Option Slot :=
  (List.finRange NPROC).find? fun c =>
    decide ((s.proc c).parent = some p ∧ (s.proc c).state = .zombie)

def put (s : Host) (k : Kmem) (p : Slot) (np : Proc) : Host :=
  ⟨{ s.sys with kmem := k }, s.taken, update s.proc p np, s.initproc⟩

/-- A process and its pages come in. -/
def attach (s : Host) (k : Kmem) (c : Slot) (np : Proc) : Host :=
  ⟨⟨k, np.pgdir :: s.sys.spaces, np.mmt :: np.kstack :: s.sys.raw, s.sys.stage⟩,
    np.pgdir :: np.mmt :: np.kstack :: s.taken, update s.proc c np, s.initproc⟩

def setInit (s : Host) (p : Slot) : Host := ⟨s.sys, s.taken, s.proc, some p⟩

/-- A process goes over to another address space. -/
def replace (s : Host) (k : Kmem) (p : Slot) (d sz : Word) : Host :=
  let old := (s.proc p).pgdir
  ⟨{ s.sys with kmem := k, spaces := (d :: s.sys.spaces).filter (· ≠ old) },
    d :: s.taken.filter (· ≠ old), update s.proc p { s.proc p with pgdir := d, sz := sz }, s.initproc⟩

/-- A process is gone; its table for `mmap` stays taken. -/
def detach (s : Host) (k : Kmem) (c : Slot) (np : Proc) : Host :=
  let p := s.proc c
  ⟨{ s.sys with
      kmem := k
      spaces := s.sys.spaces.filter (· ≠ p.pgdir)
      raw := s.sys.raw.filter (· ≠ p.kstack) },
    s.taken.filter fun v => v ≠ p.pgdir ∧ v ≠ p.kstack, update s.proc c np, s.initproc⟩

/-- `exit`: the children go to `initproc`. -/
def exit (s : Host) (p : Slot) : Host :=
  { s with proc := fun c =>
      if c = p then { s.proc c with state := .zombie }
      else if (s.proc c).parent = some p then { s.proc c with parent := s.initproc }
      else s.proc c }

section

variable (L : Link)

def step (s : Host) : Call → Option Host
  | .kernel e =>
    if e.Below ∧ e.on.all (fun v => decide (v ∉ s.taken)) = true then
      (Vm.step L s.sys e).map fun sys => { s with sys := sys }
    else none
  | .userinit size init =>
    match s.initproc, s.free with
    | none, some c =>
      s.call (userinit L (s.proc c) size init) fun np k => (s.attach k c np).setInit c
    | _, _ => none
  | .fork p =>
    if (s.proc p).state = .live then
      match s.free with
      | none => some s
      | some c =>
        s.call (fork L p (s.proc p) (s.proc c)) fun np k =>
          if np.state = .live then s.attach k c np else s.put k c np
    else none
  | .sbrk p n =>
    if (s.proc p).state = .live then
      s.call (growproc L (s.proc p) n) fun r k => s.put k p r.1
    else none
  | .exec p file argv =>
    if (s.proc p).state = .live then
      s.call (exec L (s.proc p).pgdir file argv) fun r k =>
        match r with
        | some (d, sz) => s.replace k p d sz
        | none => { s with sys := { s.sys with kmem := k } }
    else none
  | .exit p =>
    if (s.proc p).state = .live ∧ s.initproc ≠ some p then some (s.exit p) else none
  | .wait p =>
    if (s.proc p).state = .live then
      match s.zombie p with
      | none => some s
      | some c => s.call (reap L (s.proc c)) fun np k => s.detach k c np
    else none

/-- The machine before the first process. -/
def empty (sys : Sys) : Host := ⟨sys, [], fun _ => ⟨.unused, 0, 0, 0, 0, none⟩, none⟩

/-- The machine when `main` starts. -/
def init (m : Word → Page) : Host := empty (Vm.init m)

def Runs (m : Word → Page) (es : List Call) (s : Host) : Prop := Trace.Run (step L) (init m) es s

end

end Host

/-! ## Calls that use free pages only -/

section

variable {L : Link} {own own' own₁ own₂ : Word → Owner} {k k' k₁ k₂ : Kmem} {d p : Word}

theorem Scarce.of_update {n : Nat} {o : Owner} (h : Scarce (update own p o) n) :
    Scarce own (n + 1) := by
  obtain ⟨f, hinj, hlt⟩ := h
  have hfree : ∀ q, own q = .free → q ≠ p → update own p o q = .free := by
    intro q hq hqp
    rw [update_of_ne hqp, hq]
  refine ⟨fun q => if q = p then n else f q, fun q hq q' hq' he => ?_, fun q hq => ?_⟩
  · replace he : (if q = p then n else f q) = if q' = p then n else f q' := he
    split_ifs at he with h₁ h₂ h₂
    · rw [h₁, h₂]
    · exact absurd he (hlt q' (hfree q' hq' h₂)).ne'
    · exact absurd he (hlt q (hfree q hq h₁)).ne
    · exact hinj (hfree q hq h₁) (hfree q' hq' h₂) he
  · show (if q = p then n else f q) < n + 1
    split_ifs with h₁
    · exact Nat.lt_succ_self n
    · exact Nat.lt_succ_of_lt (hlt q (hfree q hq h₁))

/-- What `allocproc` leaves: the two pages are in hand, or there was only one. -/
structure Equipped (L : Link) (own : Word → Owner) (k : Kmem) (kstack mmt : Word)
    (own' : Word → Owner) (k' : Kmem) : Prop where
  owns : Owns L own' k'
  mem : k'.mem = k.mem
  stackFree : own kstack = .free
  stack : own' kstack = .raw
  hands : ∀ q, own' q = own q ∨ own q = .free ∧ (q = kstack ∨ q = mmt) ∧ own' q = .raw
  mmt : NoFree own' ∨ own mmt = .free ∧ own' mmt = .raw ∧ mmt ≠ kstack
  scarce : ∀ n, Scarce own' n → Scarce own (n + 2)

namespace Equipped

variable {kstack mmt : Word}

theorem fresh (h : Equipped L own k kstack mmt own' k') : Fresh own k own' k' := by
  refine ⟨fun q hq => ?_, fun q _ => by rw [h.mem]⟩
  rcases h.hands q with he | ⟨hf, -⟩
  · exact he
  · exact absurd hf hq

theorem dirs (h : Equipped L own k kstack mmt own' k') (e : Word) : own' e = .dir ↔ own e = .dir := by
  rcases h.hands e with he | ⟨hf, -, hr⟩
  · rw [he]
  · rw [hf, hr]
    exact ⟨nofun, nofun⟩

end Equipped

theorem allocproc_meets (h : Owns L own k) (np : Proc) : Meets (allocproc np) k (fun r k' =>
    r.state = .unused ∧ k' = k ∧ NoFree own ∨
    ∃ kstack mmt own', r = { np with kstack := kstack, mmt := mmt, state := .embryo } ∧
      Equipped L own k kstack mmt own' k') fun _ => False := by
  refine call (kalloc_meets h) (fun _ => id) ?_
  rintro kstack k₁ (⟨rfl, rfl, hno⟩ | ⟨hfree, hmem, h₁⟩)
  · exact of_ite (fun _ => of_pure (.inl ⟨rfl, rfl, hno⟩)) (absurd rfl)
  refine of_neg (h.ne_zero hfree nofun) ?_
  have hself : update own kstack .raw kstack = .raw := update_self ..
  have hhands : ∀ q, update own kstack .raw q = own q ∨
      own q = .free ∧ q = kstack ∧ update own kstack .raw q = .raw := by
    intro q
    rcases eq_or_ne q kstack with rfl | hq
    · exact .inr ⟨hfree, rfl, hself⟩
    · exact .inl (update_of_ne hq ..)
  refine call (kalloc_meets h₁) (fun _ => id) ?_
  rintro mmt k₂ (⟨rfl, rfl, hno⟩ | ⟨hfree₂, hmem₂, h₂⟩)
  · refine of_pure (.inr ⟨kstack, 0, _, rfl, h₁, hmem, hfree, hself, fun q => ?_, .inl hno, fun n hn => ?_⟩)
    · exact (hhands q).imp id fun hq => ⟨hq.1, .inl hq.2.1, hq.2.2⟩
    · exact hn.of_update.mono (by omega)
  · have hne : kstack ≠ mmt := ne_of_owner hself hfree₂ nofun
    have hmmt : own mmt = .free := by rwa [update_of_ne hne.symm] at hfree₂
    refine of_pure (.inr ⟨kstack, mmt, _, rfl, h₂, hmem₂.trans hmem, hfree, ?_, fun q => ?_,
      .inr ⟨hmmt, update_self .., hne.symm⟩, fun n hn => hn.of_update.of_update⟩)
    · rw [update_of_ne hne, hself]
    · rcases eq_or_ne q mmt with rfl | hq
      · exact .inr ⟨hmmt, .inr rfl, update_self ..⟩
      · rw [update_of_ne hq]
        exact (hhands q).imp id fun hq => ⟨hq.1, .inl hq.2.1, hq.2.2⟩

/-- **A new process**: its directory, its kernel stack and its table for `mmap` were free, and
the rest of its pages too. -/
structure Born (L : Link) (own : Word → Owner) (k : Kmem) (np : Proc) (own' : Word → Owner)
    (k' : Kmem) : Prop where
  state : np.state = .live
  owns : Owns L own' k'
  fresh : Fresh own k own' k'
  dirs : ∀ e, own' e = .dir ↔ own e = .dir ∨ e = np.pgdir
  dirFree : own np.pgdir = .free
  stackFree : own np.kstack = .free
  stack : own' np.kstack = .raw
  mmtFree : own np.mmt = .free
  mmt : own' np.mmt = .raw
  apart : np.mmt ≠ np.kstack
  kern : Kern L k'.mem np.pgdir
  size : np.sz.toNat ≤ 2 ^ 31
  high : ∀ x : Vpn, x.User → np.sz.toNat ≤ x.num * 4096 → ¬ Present (view k'.mem np.pgdir x)

/-- The pages of `np` were free, and no others have changed hands. -/
def Only (own own' : Word → Owner) (np : Proc) : Prop :=
  ∀ q, own' q = own q ∨ own q = .free ∧
    ((q = np.kstack ∨ q = np.mmt) ∧ own' q = .raw ∨ Mine np.pgdir q (own' q))

section

variable (h : Owns L own k)
include h

/-- **`fork`** makes a process, or it fails for lack of pages; it stops the machine if a page
of the parent below its size is not mapped. -/
theorem fork_meets {cur : Slot} {curproc np : Proc}
    (hc : own curproc.pgdir = .dir) (hsz : curproc.sz.toNat ≤ 2 ^ 31) :
    Meets (fork L cur curproc np) k (fun r k' =>
      r.state = .unused ∧ Scarce own (1029 + curproc.sz.toNat / 4096) ∧
        (∃ own', Owns L own' k' ∧ Fresh own k own' k' ∧ ∀ e, own' e = .dir ↔ own e = .dir) ∨
      ∃ own', Born L own k r own' k' ∧ Only own own' r ∧ r.parent = some cur)
      fun _ => ∃ x : Vpn, x.In 0 curproc.sz.toNat ∧ ¬ Present (view k.mem curproc.pgdir x) := by
  refine call (allocproc_meets h np) (fun _ => False.elim) ?_
  rintro r k₁ (⟨hr, rfl, hno⟩ | ⟨kstack, mmt, own₁, rfl, he⟩)
  · exact of_ite (fun _ => of_pure (.inl ⟨hr, hno.scarce.mono (Nat.zero_le _), own, h, .refl,
      fun _ => Iff.rfl⟩)) (absurd hr)
  refine of_ite nofun fun _ => ?_
  refine call (copyuvm_meets he.owns ((he.dirs _).mpr hc)) (fun _ hx => he.mem ▸ hx hsz) ?_
  rintro d k₂ (⟨rfl, own₂, p, h₂, hown, hmem, hscarce⟩ |
    ⟨hfree, -, own₂, h₂, hd₂, hloc, hkern, hpres⟩)
  · refine of_ite (fun _ => ?_) (absurd rfl)
    have hfresh : Fresh own₁ k₁ own₂ k₂ :=
      ⟨fun q hq => (hown q).resolve_right fun hc => hq hc.2.1, hmem⟩
    have hstack : own₂ kstack = .raw := by rw [hfresh.hands _ (by rw [he.stack]; nofun), he.stack]
    have hpool : Pool L kstack := h.pool_of he.stackFree nofun
    refine call (kfree_meets hpool) (fun _ => False.elim) ?_
    rintro _ k₃ rfl
    have hdirs : ∀ e, update own₂ kstack .free e = .dir ↔ own e = .dir := by
      intro e
      have hkeep : update own₂ kstack .free e = .dir ↔ own₂ e = .dir :=
        Owns.update_eq_iff (by rw [hstack]; nofun) nofun
      rw [hkeep, ← he.dirs]
      rcases hown e with ho | ⟨-, ho, ho'⟩
      · rw [ho]
      · rw [ho, ho']
        exact ⟨nofun, nofun⟩
    exact of_pure (.inl ⟨rfl, (he.scarce _ hscarce).mono (by omega), _,
      h₂.release (.inl hstack) hpool,
      (he.fresh.trans hfresh).update he.stackFree _ fun q hq => Kmem.freed_of_ne hq, hdirs⟩)
  · have hdfree : own d = .free := he.fresh.free hfree
    refine of_neg (h.ne_zero hdfree nofun) ?_
    obtain ⟨hmmt, hmmt', hne⟩ := he.mmt.resolve_left fun hno => hno d hfree
    have hraw : ∀ {q}, own₁ q = .raw → own₂ q = .raw := by
      intro q hq
      exact hloc.keep_raw hq (ne_of_owner hq hfree nofun)
    refine of_pure (.inr ⟨own₂, ⟨rfl, h₂, he.fresh.space h hdfree (.of_local (p := d) hloc), fun e => ?_, hdfree,
      he.stackFree, hraw he.stack, hmmt, hraw hmmt', hne, hkern, hsz, fun x hx hge hp => ?_⟩, fun q => ?_, rfl⟩)
    · rcases eq_or_ne e d with rfl | hed
      · exact ⟨fun _ => .inr rfl, fun _ => hd₂⟩
      · rw [hloc.dir_iff hed, he.dirs]
        exact ⟨.inl, fun hc => hc.resolve_right hed⟩
    · have hin := (hpres x hx).mp hp
      exact absurd hin.2 (Nat.not_lt.mpr hge)
    · rcases hloc.hands q with ho | ⟨hm, hm'⟩
      · rcases he.hands q with hq | ⟨hq, hq', hq''⟩
        · exact .inl (ho.trans hq)
        · exact .inr ⟨hq, .inl ⟨hq', ho.trans hq''⟩⟩
      · refine .inr ⟨?_, .inr hm'⟩
        by_contra hne
        rw [he.fresh.hands q hne] at hm
        exact hne (h.free_of_mine hdfree hm)

/-- **`inituvm`** maps the first page of a directory, or it loses the page for it. -/
theorem inituvm_meets (hd : own d = .dir) (size : Word) (init : Page)
    (habs : ¬ Present (view k.mem d (vpn 0))) :
    Meets (inituvm d size init) k (fun _ k' => ∃ own' p, Owns L own' k' ∧ own' d = .dir ∧ p ≠ d ∧
      Loose d p own k own' k' ∧ (∀ x, x ≠ vpn 0 → view k'.mem d x = view k.mem d x) ∧
      (Present (view k'.mem d (vpn 0)) ∨ NoFree own'))
      fun _ => PGSIZE ≤ size ∨ NoFree own := by
  refine of_ite (fun hsize => of_throw (.inl hsize)) fun _ => ?_
  refine call (kalloc_meets h) (fun _ => False.elim) ?_
  rintro p k₁ (⟨rfl, rfl, hno⟩ | ⟨hfree, hmem, h₁⟩)
  · exact of_ite (fun _ => of_throw (.inr hno)) (absurd rfl)
  have hpool : Pool L p := h.pool_of hfree nofun
  refine of_ite (fun hz => absurd hz hpool.ne_zero) fun _ => fill_bind ?_
  have hne : p ≠ d := ne_of_owner hfree hd nofun
  have hu : (vpn 0).User := by decide
  have hhand := InHand.of_kalloc h hd hfree hmem h₁ zeros
  refine call (mappages_user hfree hhand rfl hu (by decide)) (fun _ hp => absurd hp habs) ?_
  rintro ok k₂ hok
  -- the last write is into a frame of `d`, or into the page that is lost
  have hwrite : ∀ {own₂}, Owns L own₂ k₂ → own₂ d = .dir →
      (own₂ p = .raw ∨ own₂ p = .frame d (vpn 0)) → Owns L own₂ (k₂.setPage p init) ∧
      view (k₂.setPage p init).mem d = view k₂.mem d := by
    intro own₂ h₂ hd₂ hp
    have hent : ¬ (own₂ p).Entries ∧ own₂ p ≠ .free := by
      rcases hp with hp | hp <;> rw [hp] <;> exact ⟨id, nofun⟩
    refine ⟨h₂.scribble init hent, h₂.view_congr hd₂ (Kmem.setPage_of_ne hne.symm) fun i t ht => ?_⟩
    refine Kmem.setPage_of_ne ?_
    rintro rfl
    rw [ht] at hent
    exact hent.1 trivial
  rcases hok with ⟨-, own₂, hd₂, h₂, hput⟩ | ⟨-, rfl, hno, -⟩
  · obtain ⟨h₃, hview₃⟩ := hwrite h₂ hd₂ (.inr hput.frame)
    refine of_modify ⟨own₂, p, h₃, hd₂, hne, ⟨fun q => (hput.hands q).imp id .inl, fun q hq => ?_⟩,
      fun x hx => ?_, .inl ?_⟩
    · rw [Kmem.setPage_of_ne, hput.mem q hq]
      rintro rfl
      rw [hfree] at hq
      exact hq mine_free
    · rw [hview₃, hput.view, update_of_ne hx]
    · rw [hview₃, hput.view, update_self]
      exact present_or _
  · obtain ⟨h₃, hview₃⟩ := hwrite hhand.owns hhand.dir (.inl (update_self ..))
    refine of_modify ⟨_, p, h₃, hhand.dir, hne, Local.refl.lost hfree fun q hq => ?_, fun x _ => ?_,
      .inr hno⟩
    · rw [Kmem.setPage_of_ne hq, hhand.mem q hq]
    · rw [hview₃, hhand.view]

/-- **`userinit`** makes the first process, unless there are too few pages. -/
theorem userinit_meets (np : Proc) (size : Word) (init : Page) :
    Meets (userinit L np size init) k (fun r k' => ∃ own', Born L own k r own' k' ∧ r.sz = PGSIZE ∧
      (∀ n, Scarce own' n → Scarce own (1029 + n)) ∧
      (Present (view k'.mem r.pgdir (vpn 0)) ∨ Scarce own 1029))
      fun _ => PGSIZE ≤ size ∨ Scarce own 1029 := by
  refine call (allocproc_meets h np) (fun _ => False.elim) ?_
  rintro r k₁ (⟨hr, rfl, hno⟩ | ⟨kstack, mmt, own₁, rfl, he⟩)
  · exact of_ite (fun _ => of_throw (.inr (hno.scarce.mono (Nat.zero_le _)))) (absurd hr)
  refine of_ite nofun fun _ => ?_
  refine call (setupkvm_meets he.owns) (fun _ => False.elim) ?_
  rintro d k₂ (⟨rfl, -, -, hfew⟩ | ⟨hfree, own₂, h₂, hd₂, hloc, hkern, huser, -⟩)
  · exact of_ite (fun _ => of_throw (.inr ((he.scarce _ (.of_freePages hfew.le)).mono (by omega))))
      (absurd rfl)
  have hdfree : own d = .free := he.fresh.free hfree
  refine of_neg (h.ne_zero hdfree nofun) ?_
  have hempty : ∀ x : Vpn, x.User → ¬ Present (view k₂.mem d x) := by
    intro x hx
    rw [huser x hx]
    exact not_present_zero
  refine call (inituvm_meets h₂ hd₂ size init (hempty _ (by decide))) ?_ ?_
  · rintro _ (hsize | hno)
    · exact .inl hsize
    · have hs := (Loose.of_local (p := d) hloc).scarce (n := 0) h₂ hno.scarce hd₂
        fun x hx hp => absurd hp (hempty x hx)
      exact .inr ((he.scarce _ hs).mono (by omega))
  rintro _ k₃ ⟨own₃, p, h₃, hd₃, hpd, hloose, hview, hpres⟩
  have hall : Loose d p own₁ k₁ own₃ k₃ := hloose.before hloc
  have hraw : ∀ {q}, own₁ q = .raw → own₃ q = .raw := by
    intro q hq
    rw [hall.keep (by rw [hq]; exact not_mine_raw (ne_of_owner hq hfree nofun)), hq]
  have hscarce : ∀ n, Scarce own₃ n → Scarce own (1029 + n) := by
    intro n hn
    refine (he.scarce _ (hall.scarce (n := 1) h₃ hn hd₃ fun x hx hp => ?_)).mono (by omega)
    by_contra hge
    have hx0 : x ≠ vpn 0 := by
      rintro rfl
      exact hge (by decide)
    rw [hview x hx0] at hp
    exact hempty x hx hp
  obtain ⟨hmmt, hmmt', hne⟩ := he.mmt.resolve_left fun hno => hno d hfree
  refine of_pure ⟨own₃, ⟨rfl, h₃, he.fresh.space h hdfree hall, fun e => ?_, hdfree, he.stackFree,
    hraw he.stack, hmmt, hraw hmmt', hne, fun x hx => ?_,
    (by decide : PGSIZE.toNat ≤ 2 ^ 31), fun x hx hge => ?_⟩, rfl, hscarce, ?_⟩
  · rcases eq_or_ne e d with rfl | hed
    · exact ⟨fun _ => .inr rfl, fun _ => hd₃⟩
    · rw [hall.dir_iff hed, he.dirs]
      exact ⟨.inl, fun hc => hc.resolve_right hed⟩
  · rw [hview x fun hc => hx (hc ▸ by decide)]
    exact hkern x hx
  · have hge' : 4096 ≤ x.num * 4096 := hge
    rw [hview x]
    · exact hempty x hx
    · rintro rfl
      have h0 : (vpn 0).num = 0 := rfl
      omega
  · exact hpres.imp id fun hno => hscarce 0 hno.scarce

/-- **`growproc`** never stops the machine; it changes the address space of the process and
its size, and no page is mapped at the size or above. -/
theorem growproc_meets {p : Proc} (hd : own p.pgdir = .dir)
    (hkern : Kern L k.mem p.pgdir) (hsz : p.sz.toNat ≤ 2 ^ 31)
    (hhigh : ∀ x : Vpn, x.User → p.sz.toNat ≤ x.num * 4096 → ¬ Present (view k.mem p.pgdir x))
    (n : Word) :
    Meets (growproc L p n) k (fun r k' => ∃ own' sz, r.1 = { p with sz := sz } ∧ Owns L own' k' ∧
      own' p.pgdir = .dir ∧ Local p.pgdir own k own' k' ∧ Kern L k'.mem p.pgdir ∧
      sz.toNat ≤ 2 ^ 31 ∧
      ∀ x : Vpn, x.User → sz.toNat ≤ x.num * 4096 → ¬ Present (view k'.mem p.pgdir x))
      fun _ => False := by
  have hup : ∀ {a : Word}, a.toNat ≤ 2 ^ 31 → (PGROUNDUP a).toNat = (a.toNat + 4095) / 4096 * 4096 :=
    fun ha => toNat_PGROUNDUP (by omega)
  refine of_ite (fun _ => ?_) fun _ => of_ite (fun _ => ?_) fun _ => ?_
  · refine call (allocuvm_meets h hd p.sz (p.sz + n)) ?_ ?_
    · rintro _ ⟨hlt, x, hin, hp⟩
      have hlt' : (p.sz + n).toNat < 2 ^ 31 := hlt
      have hin₁ := hin.1
      have hin₂ := hin.2
      rw [hup hsz] at hin₁
      refine hhigh x ?_ (by omega) hp
      unfold Vpn.num at hin₂
      unfold Vpn.User
      omega
    rintro r k' ⟨own', h', hd', hloc, ⟨rfl, htrim, -⟩ | ⟨-, rfl, rfl⟩ | ⟨hle, hlt, rfl, hfill, -⟩⟩
    · refine of_ite (fun _ => of_pure ⟨own', p.sz, rfl, h', hd', hloc,
        hkern.of_outside le_rfl htrim.outside, hsz, fun x hx hge => ?_⟩) (absurd rfl)
      rcases htrim x with hv | ⟨-, hv⟩
      · rw [hv]
        exact hhigh x hx hge
      · exact hv
    · exact of_ite (fun _ => of_pure ⟨own', p.sz, rfl, h', hd', hloc, hkern, hsz, hhigh⟩)
        fun _ => of_pure ⟨own', p.sz, rfl, h', hd', hloc, hkern, hsz, hhigh⟩
    · have hlt' : (p.sz + n).toNat < 2 ^ 31 := hlt
      have hle' : p.sz.toNat ≤ (p.sz + n).toNat := hle
      have hkern' := hkern.of_outside hlt'.le fun x hx => (hfill x).2 hx
      have hhigh' : ∀ x : Vpn, x.User → (p.sz + n).toNat ≤ x.num * 4096 →
          ¬ Present (view k'.mem p.pgdir x) := by
        intro x hx hge
        rw [(hfill x).2 fun hin => absurd hin.2 (Nat.not_lt.mpr hge)]
        exact hhigh x hx (hle'.trans hge)
      refine of_ite (fun hz => of_pure ⟨own', p.sz, rfl, h', hd', hloc, hkern', hsz, ?_⟩) fun _ =>
        of_pure ⟨own', _, rfl, h', hd', hloc, hkern', hlt'.le, hhigh'⟩
      intro x hx hge
      refine hhigh' x hx ?_
      rw [hz]
      exact Nat.zero_le _
  · refine call (deallocuvm_meets h hd hsz) (fun _ => id) ?_
    rintro r k' (⟨-, rfl, rfl⟩ | ⟨hlt, rfl, own', h', hd', hrel, hclear⟩)
    · exact of_ite (fun _ => of_pure ⟨own, p.sz, rfl, h, hd, .refl, hkern, hsz, hhigh⟩)
        fun _ => of_pure ⟨own, p.sz, rfl, h, hd, .refl, hkern, hsz, hhigh⟩
    · have hlt' : (p.sz + n).toNat < p.sz.toNat := hlt
      have hkern' := hkern.of_outside hsz fun x hx => (hclear x).2 hx
      have hhigh' : ∀ x : Vpn, x.User → (p.sz + n).toNat ≤ x.num * 4096 →
          ¬ Present (view k'.mem p.pgdir x) := by
        intro x hx hge
        by_cases hin : x.In (PGROUNDUP (p.sz + n)).toNat p.sz.toNat
        · exact (hclear x).1 hin
        · rw [(hclear x).2 hin]
          refine hhigh x hx ?_
          unfold Vpn.In at hin
          rw [hup (by omega)] at hin
          omega
      refine of_ite (fun hz => of_pure ⟨own', p.sz, rfl, h', hd', hrel.toLocal, hkern', hsz, ?_⟩)
        fun _ => of_pure ⟨own', _, rfl, h', hd', hrel.toLocal, hkern', by omega, hhigh'⟩
      exact fun x hx hge => hhigh' x hx (hlt'.le.trans hge)
  · exact of_pure ⟨own, p.sz, rfl, h, hd, .refl, hkern, hsz, hhigh⟩

/-- **`wait`** gives back the kernel stack and the address space. -/
theorem reap_meets {p : Proc} (hd : own p.pgdir = .dir) (hs : own p.kstack = .raw) :
    Meets (reap L p) k (fun r k' => r = { p with kstack := 0, parent := none, state := .unused } ∧
      ∃ own', Owns L own' k' ∧ own' p.pgdir = .free ∧
        Local p.pgdir (update own p.kstack .free) (k.freed p.kstack) own' k')
      fun _ => False := by
  have hpool : Pool L p.kstack := h.pool_of hs nofun
  have hne : p.pgdir ≠ p.kstack := ne_of_owner hd hs nofun
  refine call (kfree_meets hpool) (fun _ => id) ?_
  rintro _ k₁ rfl
  refine call (freevm_meets (h.release (.inl hs) hpool) ?_) (fun _ => id) ?_
  · rw [update_of_ne hne, hd]
  rintro _ k' ⟨own', h', hd', hloc⟩
  exact of_pure ⟨rfl, own', h', hd', hloc⟩

end

end

end Xv6.Vm
