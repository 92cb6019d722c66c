/-
# `Xv6.Vm.Args` — the arguments of a system call

`fetchint`, `fetchstr`, `argint`, `argptr` and `argstr` of `syscall.c`.  The kernel reads
user memory through the page directory of the process, so an address that passes a check
and is not below `sz` would be read in the kernel's half.  The checks run in `Check`, which
keeps the addresses that have been read.

The comparisons are of `uint`s and wrap.  They are right because `sz` is below `KERNBASE`,
and it is the rest of the kernel that sees to this: `allocuvm` refuses a size from
`KERNBASE` on, and every size of a process was returned by it, by `deallocuvm`, or copied
from one that was.
-/
import Xv6.Vm.Life

namespace Xv6.Vm

open Wp Option List

/-! ## The code -/

/-- What the checks see of a process: its size, the user's stack pointer and its memory. -/
structure User where
  sz : Word
  esp : Word
  mem : Word → BitVec 8

/-- Code that reads user memory, with the addresses read. -/
abbrev Check (α : Type) : Type := StateM (List Word) α

namespace User

variable (u : User)

def load (a : Word) : Check (BitVec 8) := fun log => (u.mem a, log ++ [a])

/-- The `int` at an address. -/
def int (a : Word) : Word := u.mem (a + 3) ++ u.mem (a + 2) ++ u.mem (a + 1) ++ u.mem a

/-- `*(int*)(addr)`. -/
def loadInt (a : Word) : Check Word := do
  let b₀ ← u.load a
  let b₁ ← u.load (a + 1)
  let b₂ ← u.load (a + 2)
  let b₃ ← u.load (a + 3)
  return b₃ ++ b₂ ++ b₁ ++ b₀

/-- `fetchint`: the value stored at `ip`, or nothing for -1. -/
def fetchint (addr : Word) : Check (Option Word) :=
  if u.sz ≤ addr ∨ u.sz < addr + 4 then return none
  else do
    let v ← u.loadInt addr
    return some v

/-- The loop of `fetchstr`, with the turns left until `s` has come to `ep`. -/
def fetchstrLoop (pp : Word) : Nat → Word → Check (Option Word)
  | 0, _ => return none
  | n + 1, s =>
    if s < u.sz then do
      let b ← u.load s
      if b = 0 then return some (s - pp) else fetchstrLoop pp n (s + 1)
    else return none

/-- `fetchstr`: the length; the string is at `addr`. -/
def fetchstr (addr : Word) : Check (Option Word) :=
  if u.sz ≤ addr then return none else u.fetchstrLoop addr (u.sz.toNat - addr.toNat) addr

/-- The address of the `n`-th argument. -/
def argAddr (n : Word) : Word := u.esp + 4 + 4 * n

def argint (n : Word) : Check (Option Word) := u.fetchint (u.argAddr n)

/-- `argptr`: the pointer stored at `pp`. -/
def argptr (n size : Word) : Check (Option Word) := do
  match ← u.argint n with
  | none => return none
  | some i =>
    if size.toInt < 0 ∨ u.sz ≤ i ∨ u.sz < i + size then return none else return some i

/-- `argstr`: the pointer stored at `pp` and the length. -/
def argstr (n : Word) : Check (Option (Word × Word)) := do
  match ← u.argint n with
  | none => return none
  | some addr => do
    let r ← u.fetchstr addr
    return r.map fun len => (addr, len)

end User

/-! ## A size is below `KERNBASE` -/

section

variable {L : Link}

theorem allocLoop_yields (d oldsz newsz : Word) : ∀ (n : Nat) (a : Word),
    Yields (allocLoop L d oldsz newsz n a) fun r => r = 0 ∨ r = newsz
  | 0, _ => .throw _
  | n + 1, a => by
    rw [allocLoop]
    refine .ite (fun _ => .bind fun mem => .ite (fun _ => .bind fun _ => .pure (.inl rfl)) fun _ =>
      .bind fun _ => .bind fun ok => .ite (fun _ => ?_) fun _ => ?_) fun _ => .pure (.inr rfl)
    · exact allocLoop_yields d oldsz newsz n (a + PGSIZE)
    · exact .bind fun _ => .bind fun _ => .pure (.inl rfl)

theorem allocuvm_yields (d oldsz newsz : Word) :
    Yields (allocuvm L d oldsz newsz) fun r => r = 0 ∨ newsz < oldsz ∧ r = oldsz ∨ r < KERNBASE := by
  refine .ite (fun _ => .pure (.inl rfl)) fun hlt =>
    .ite (fun hold => .pure (.inr (.inl ⟨hold, rfl⟩))) fun _ => ?_
  intro k
  refine mono (allocLoop_yields d oldsz newsz _ _ k) ?_ fun _ h => h
  rintro r - (rfl | rfl)
  · exact .inl rfl
  · exact .inr (.inr (BitVec.not_le.mp hlt))

theorem deallocuvm_yields (d oldsz newsz : Word) :
    Yields (deallocuvm L d oldsz newsz) fun r => r ≤ oldsz :=
  .ite (fun _ => .pure (BitVec.le_refl _)) fun hlt =>
    .bind fun _ => .pure (BitVec.le_of_lt (BitVec.not_le.mp hlt))

theorem lt_kernbase_of_le {a b : Word} (h : a ≤ b) (hb : b < KERNBASE) : a < KERNBASE := by
  exact Nat.lt_of_le_of_lt (BitVec.le_def.mp h) hb

theorem growproc_yields (p : Proc) (n : Word) (hp : p.sz < KERNBASE) :
    Yields (growproc L p n) fun r => r.1.sz < KERNBASE := by
  refine .ite (fun _ => ?_) fun _ => .ite (fun _ => ?_) fun _ => .pure hp
  · refine .call (allocuvm_yields p.pgdir p.sz (p.sz + n)) ?_
    rintro sz (hz | ⟨-, rfl⟩ | hlt)
    · exact .ite (fun _ => .pure hp) (absurd hz)
    · exact .ite (fun _ => .pure hp) fun _ => .pure hp
    · exact .ite (fun _ => .pure hp) fun _ => .pure hlt
  · refine .call (deallocuvm_yields p.pgdir p.sz (p.sz + n)) fun sz hle => ?_
    exact .ite (fun _ => .pure hp) fun _ => .pure (lt_kernbase_of_le hle hp)

theorem loadSegments_yields (cur d : Word) (f : Image) : ∀ (n i : Nat) (sz : Word),
    sz < KERNBASE → Yields (loadSegments L cur d f n i sz) fun r => ∀ sz', r = some sz' → sz' < KERNBASE
  | 0, _, sz, h => .pure fun sz' he => Option.some.inj he ▸ h
  | n + 1, i, sz, h => by
    have hnone : ∀ sz', (none : Option Word) = some sz' → sz' < KERNBASE := nofun
    rw [loadSegments]
    split
    · exact .pure hnone
    · rename_i ph _
      refine .ite (fun _ => loadSegments_yields cur d f n (i + 1) sz h) fun _ =>
        .ite (fun _ => .pure hnone) fun _ => .ite (fun _ => .pure hnone) fun _ => ?_
      refine .call (allocuvm_yields d sz (ph.vaddr + ph.memsz)) fun sz₁ hsz => ?_
      refine .ite (fun _ => .pure hnone) fun hne => .ite (fun _ => .pure hnone) fun _ =>
        .bind fun ok => .ite (fun _ => ?_) fun _ => .pure hnone
      refine loadSegments_yields cur d f n (i + 1) sz₁ ?_
      rcases hsz with hz | ⟨-, rfl⟩ | hlt
      · exact absurd hz hne
      · exact h
      · exact hlt

theorem pushStack_yields (cur d sz : Word) (argv : Argv) (h : sz < KERNBASE) :
    Yields (pushStack L cur d sz argv) fun r => ∀ sz', r = some sz' → sz' < KERNBASE := by
  have hnone : ∀ sz', (none : Option Word) = some sz' → sz' < KERNBASE := nofun
  have hsz : sz.toNat < 2 ^ 31 := BitVec.lt_def.mp h
  have hup := toNat_PGROUNDUP (a := sz) (by omega)
  have hsum : (PGROUNDUP sz + 2 * PGSIZE).toNat = (PGROUNDUP sz).toNat + 8192 := by
    change ((PGROUNDUP sz).toNat + 8192) % 2 ^ 32 = _
    omega
  refine .call (allocuvm_yields d _ _) fun r hr => .ite (fun _ => .pure hnone) fun hne => ?_
  have hlt : r < KERNBASE := by
    rcases hr with hz | ⟨hlt, -⟩ | hlt
    · exact absurd hz hne
    · rw [BitVec.lt_def, hsum] at hlt
      omega
    · exact hlt
  refine .bind fun _ => .bind fun o => ?_
  split
  · exact .pure hnone
  · exact .bind fun ok => .ite (fun _ => .pure fun sz' he => Option.some.inj he ▸ hlt) fun _ => .pure hnone

theorem exec_yields (cur : Word) (file : Option Image) (argv : Argv) :
    Yields (exec L cur file argv) fun r => ∀ d sz, r = some (d, sz) → sz < KERNBASE := by
  have hnone : ∀ d sz, (none : Option (Word × Word)) = some (d, sz) → sz < KERNBASE := nofun
  cases file with
  | none => exact .pure hnone
  | some f =>
    unfold exec
    dsimp only
    split
    · exact .pure hnone
    · rename_i elf _
      refine .ite (fun _ => .pure hnone) fun _ => .bind fun d => .ite (fun _ => .pure hnone) fun _ => ?_
      have himage : Yields (buildImage L cur d f elf.phnum.toNat argv)
          fun r => ∀ sz, r = some sz → sz < KERNBASE := by
        refine .call (loadSegments_yields cur d f _ 0 0 (by decide)) fun r hr => ?_
        split
        · exact .pure nofun
        · exact pushStack_yields cur d _ argv (hr _ rfl)
      refine .call himage fun r hr => ?_
      split
      · exact .bind fun _ => .pure hnone
      · refine .bind fun _ => .pure fun d' sz he => ?_
        cases he
        exact hr _ rfl

theorem allocproc_yields (np : Proc) : Yields (allocproc np) fun r => r.sz = np.sz :=
  .bind fun _ => .ite (fun _ => .pure rfl) fun _ => .bind fun _ => .pure rfl

theorem userinit_yields (p : Proc) (size : Word) (init : Page) :
    Yields (userinit L p size init) fun r => r.sz = PGSIZE :=
  .bind fun _ => .ite (fun _ => .throw _) fun _ => .bind fun _ => .ite (fun _ => .throw _) fun _ =>
    .bind fun _ => .pure rfl

theorem fork_yields (cur : Slot) (curproc np : Proc) :
    Yields (fork L cur curproc np) fun r => r.sz = np.sz ∨ r.sz = curproc.sz := by
  refine .call (allocproc_yields np) fun r hr => .ite (fun _ => .pure (.inl hr)) fun _ =>
    .bind fun d => .ite (fun _ => .bind fun _ => .pure (.inl hr)) fun _ => .pure (.inr rfl)

theorem reap_yields (p : Proc) : Yields (reap L p) fun r => r.sz = p.sz :=
  .bind fun _ => .bind fun _ => .pure rfl

namespace Host

variable {s s' : Host}

/-- Every size in the process table is below `KERNBASE`. -/
def Small (s : Host) : Prop := ∀ c, (s.proc c).sz < KERNBASE

theorem Small.update (h : Small s) {c : Slot} {np : Proc} (hnp : np.sz < KERNBASE)
    (hs : s'.proc = Function.update s.proc c np) : Small s' := by
  intro q
  rw [hs]
  by_cases hq : q = c
  · rw [hq, Function.update_self]
    exact hnp
  · rw [Function.update_of_ne hq]
    exact h q

/-- **A call keeps the sizes below `KERNBASE`.** -/
theorem Small.step (h : Small s) {e : Call} (hs : step L s e = some s') : Small s' := by
  cases e with
  | kernel e =>
    obtain ⟨-, hs⟩ := ite_none_right_eq_some.mp hs
    obtain ⟨sys, -, rfl⟩ := map_eq_some_iff.mp hs
    exact h
  | userinit size init =>
    rw [Host.step] at hs
    split at hs
    · obtain ⟨np, k, hnp, rfl⟩ := of_call hs (userinit_yields _ _ _ _)
      exact h.update (hnp ▸ by decide) rfl
    · cases hs
  | fork p =>
    obtain ⟨-, hs⟩ := ite_none_right_eq_some.mp hs
    split at hs
    · cases hs
      exact h
    · rename_i c _
      obtain ⟨np, k, hnp, rfl⟩ := of_call hs (fork_yields _ _ _ _)
      have hlt : np.sz < KERNBASE := by
        rcases hnp with he | he
        · exact he ▸ h c
        · exact he ▸ h p
      split
      · exact h.update hlt rfl
      · exact h.update hlt rfl
  | sbrk p n =>
    obtain ⟨-, hs⟩ := ite_none_right_eq_some.mp hs
    obtain ⟨r, k, hr, rfl⟩ := of_call hs (growproc_yields _ n (h p) _)
    exact h.update hr rfl
  | exec p file argv =>
    obtain ⟨-, hs⟩ := ite_none_right_eq_some.mp hs
    obtain ⟨r, k, hr, rfl⟩ := of_call hs (exec_yields _ file argv _)
    split
    · exact h.update (hr _ _ rfl) rfl
    · exact h
  | exit p =>
    obtain ⟨-, hs⟩ := ite_none_right_eq_some.mp hs
    cases hs
    intro c
    rw [Host.exit]
    dsimp only
    split
    · exact h c
    · split
      · exact h c
      · exact h c
  | wait p =>
    obtain ⟨-, hs⟩ := ite_none_right_eq_some.mp hs
    split at hs
    · cases hs
      exact h
    · rename_i c _
      obtain ⟨np, k, hnp, rfl⟩ := of_call hs (reap_yields _ _)
      exact h.update (hnp ▸ h c) rfl

theorem small_of_run {m : Word → Page} {es : List Call} (h : Runs L m es s) : Small s :=
  h.invariant (I := fun _ s => Small s) (fun _ => show (0 : Word) < KERNBASE by decide)
    fun _ _ _ _ hs he => hs.step he

end Host

end

/-! ## The checks -/

namespace User

variable {u : User}

/-- The bytes from `a` on are in the process, and their addresses do not wrap. -/
def Within (u : User) (a : Word) (n : Nat) : Prop := a.toNat + n ≤ u.sz.toNat

/-- Every address read is in the process. -/
def Reads (u : User) (log : List Word) : Prop := ∀ a ∈ log, u.Within a 1

theorem Reads.append {log log' : List Word} (h : u.Reads log) (h' : u.Reads log') :
    u.Reads (log ++ log') := by
  intro a ha
  rcases mem_append.mp ha with ha | ha
  · exact h a ha
  · exact h' a ha

theorem Within.add {a : Word} {n k : Nat} (h : u.Within a n) (hk : k < n) :
    u.Within (a + BitVec.ofNat 32 k) 1 := by
  rw [Within] at h ⊢
  rw [BitVec.toNat_add, BitVec.toNat_ofNat]
  omega

/-- The string at `p` has the length `len`: the byte after it is its first zero. -/
structure Str (u : User) (p len : Word) : Prop where
  within : u.Within p (len.toNat + 1)
  nul : u.mem (p + len) = 0
  text : ∀ j, j < len → u.mem (p + j) ≠ 0

/-- A turn of the loop of `fetchstr`. -/
theorem fetchstrLoop_succ {s : Word} (h : s < u.sz) (p : Word) (n : Nat) (log : List Word) :
    u.fetchstrLoop p (n + 1) s log =
      if u.mem s = 0 then (some (s - p), log ++ [s]) else u.fetchstrLoop p n (s + 1) (log ++ [s]) := by
  rw [fetchstrLoop, if_pos h]
  change (if u.mem s = 0 then pure (some (s - p)) else u.fetchstrLoop p n (s + 1)) (log ++ [s]) = _
  split
  · rfl
  · rfl

/-- The loop of `fetchstr` after `k` bytes that are not zero. -/
theorem fetchstrLoop_spec (p : Word) : ∀ (n k : Nat) (log : List Word),
    p.toNat + k + n = u.sz.toNat → (∀ j : Word, j.toNat < k → u.mem (p + j) ≠ 0) →
    ∃ more, u.Reads more ∧
      (u.fetchstrLoop p n (p + BitVec.ofNat 32 k) log).2 = log ++ more ∧
      ∀ len, (u.fetchstrLoop p n (p + BitVec.ofNat 32 k) log).1 = some len → u.Str p len
  | 0, k, log, _, _ => ⟨[], nofun, (List.append_nil _).symm, nofun⟩
  | n + 1, k, log, hk, htext => by
    have hlt := u.sz.isLt
    have hto : (BitVec.ofNat 32 k : Word).toNat = k := by
      rw [BitVec.toNat_ofNat]
      omega
    have hs : (p + BitVec.ofNat 32 k).toNat = p.toNat + k := by
      rw [BitVec.toNat_add, hto]
      omega
    have hin : p + BitVec.ofNat 32 k < u.sz := by
      rw [BitVec.lt_def, hs]
      omega
    have hread : u.Reads [p + BitVec.ofNat 32 k] := by
      intro a ha
      rw [mem_singleton] at ha
      rw [ha, Within, hs]
      omega
    rw [fetchstrLoop_succ hin]
    by_cases hz : u.mem (p + BitVec.ofNat 32 k) = 0
    · rw [if_pos hz]
      refine ⟨[p + BitVec.ofNat 32 k], hread, rfl, fun len hlen => ?_⟩
      have hl : len = BitVec.ofNat 32 k := by
        rw [← Option.some.inj hlen, BitVec.add_comm, BitVec.add_sub_cancel]
      rw [hl]
      refine ⟨?_, hz, fun j hj => htext j ?_⟩
      · rw [Within, hto]
        omega
      · rwa [BitVec.lt_def, hto] at hj
    · have hnext : p + BitVec.ofNat 32 k + 1 = p + BitVec.ofNat 32 (k + 1) := by
        rw [BitVec.add_assoc, BitVec.ofNat_add]
        rfl
      rw [if_neg hz, hnext]
      obtain ⟨more, hmore, hlog, hstr⟩ := fetchstrLoop_spec p n (k + 1)
        (log ++ [p + BitVec.ofNat 32 k]) (by omega) fun j hj => by
          rcases Nat.lt_succ_iff_lt_or_eq.mp hj with hj | hj
          · exact htext j hj
          · rwa [show j = BitVec.ofNat 32 k from BitVec.eq_of_toNat_eq (hj.trans hto.symm)]
      refine ⟨[p + BitVec.ofNat 32 k] ++ more, hread.append hmore, ?_, hstr⟩
      rw [hlog, append_assoc]

theorem fetchstr_spec (addr : Word) (log : List Word) :
    ∃ more, u.Reads more ∧ (u.fetchstr addr log).2 = log ++ more ∧
      ∀ len, (u.fetchstr addr log).1 = some len → u.Str addr len := by
  rw [fetchstr]
  split
  · exact ⟨[], nofun, (append_nil _).symm, nofun⟩
  · rename_i hin
    rw [BitVec.not_le, BitVec.lt_def] at hin
    have := u.fetchstrLoop_spec addr (u.sz.toNat - addr.toNat) 0 log (by omega)
      fun j hj => absurd hj (Nat.not_lt_zero _)
    rwa [show addr + BitVec.ofNat 32 0 = addr from BitVec.add_zero addr] at this

variable (hsz : u.sz < KERNBASE)

include hsz

theorem fetchint_spec (addr : Word) (log : List Word) :
    ∃ more, u.Reads more ∧ (u.fetchint addr log).2 = log ++ more ∧
      ∀ v, (u.fetchint addr log).1 = some v → u.Within addr 4 ∧ v = u.int addr := by
  have hlt : u.sz.toNat < 2 ^ 31 := BitVec.lt_def.mp hsz
  rw [fetchint]
  split
  · exact ⟨[], nofun, (append_nil _).symm, nofun⟩
  · rename_i hin
    have hwithin : u.Within addr 4 := by
      rw [not_or, BitVec.not_le, BitVec.not_lt, BitVec.lt_def, BitVec.le_def, BitVec.toNat_add] at hin
      have : (4 : Word).toNat = 4 := rfl
      rw [Within]
      omega
    refine ⟨(List.range 4).map fun k => addr + BitVec.ofNat 32 k, fun a ha => ?_, ?_, fun v hv => ?_⟩
    · obtain ⟨k, hk, rfl⟩ := mem_map.mp ha
      exact hwithin.add (mem_range.mp hk)
    · simp [loadInt, load, bind, StateT.bind, range_succ]
      rfl
    · exact ⟨hwithin, (Option.some.inj hv).symm⟩

theorem argint_spec (n : Word) :
    (u.argint n []).1 = none ∧ u.Reads (u.argint n []).2 ∨
      (u.argint n []).1 = some (u.int (u.argAddr n)) ∧ u.Within (u.argAddr n) 4 ∧
        u.Reads (u.argint n []).2 := by
  obtain ⟨more, hmore, hlog, hv⟩ := fetchint_spec hsz (u.argAddr n) []
  have hreads : u.Reads (u.argint n []).2 := by
    rw [argint, hlog]
    exact hmore
  rcases h : (u.argint n []).1 with - | v
  · exact .inl ⟨rfl, hreads⟩
  · obtain ⟨hin, he⟩ := hv v h
    exact .inr ⟨by rw [he], hin, hreads⟩

theorem argptr_spec (n size : Word) :
    u.Reads (u.argptr n size []).2 ∧ ∀ p, (u.argptr n size []).1 = some p →
      u.Within (u.argAddr n) 4 ∧ p = u.int (u.argAddr n) ∧ 0 ≤ size.toInt ∧
        u.Within p size.toInt.toNat := by
  have hlt : u.sz.toNat < 2 ^ 31 := BitVec.lt_def.mp hsz
  have hbind : u.argptr n size [] = (match (u.argint n []).1 with
      | none => pure none
      | some i => if size.toInt < 0 ∨ u.sz ≤ i ∨ u.sz < i + size then pure none else pure (some i) :
        Check (Option Word)) (u.argint n []).2 := rfl
  rw [hbind]
  rcases argint_spec hsz n with ⟨h, hreads⟩ | ⟨h, hin, hreads⟩
  · rw [h]
    exact ⟨hreads, nofun⟩
  · rw [h]
    dsimp only
    split
    · exact ⟨hreads, nofun⟩
    · rename_i hok
      refine ⟨hreads, fun p hp => ?_⟩
      cases hp
      rw [not_or, not_or, Int.not_lt, BitVec.not_le, BitVec.not_lt, BitVec.lt_def, BitVec.le_def,
        BitVec.toNat_add] at hok
      obtain ⟨hpos, hi, hsum⟩ := hok
      refine ⟨hin, rfl, hpos, ?_⟩
      have hsize := BitVec.toInt_eq_toNat_cond size
      rw [Within]
      split at hsize <;> omega

theorem argstr_spec (n : Word) :
    u.Reads (u.argstr n []).2 ∧ ∀ p len, (u.argstr n []).1 = some (p, len) →
      u.Within (u.argAddr n) 4 ∧ p = u.int (u.argAddr n) ∧ u.Str p len := by
  have hbind : u.argstr n [] = (match (u.argint n []).1 with
      | none => pure none
      | some addr => u.fetchstr addr >>= fun r => pure (r.map fun len => (addr, len)) :
        Check (Option (Word × Word))) (u.argint n []).2 := rfl
  rw [hbind]
  rcases argint_spec hsz n with ⟨h, hreads⟩ | ⟨h, hin, hreads⟩
  · rw [h]
    exact ⟨hreads, nofun⟩
  · rw [h]
    obtain ⟨more, hmore, hlog, hstr⟩ :=
      u.fetchstr_spec (u.int (u.argAddr n)) (u.argint n []).2
    refine ⟨?_, fun p len hp => ?_⟩
    · change u.Reads (u.fetchstr (u.int (u.argAddr n)) (u.argint n []).2).2
      rw [hlog]
      exact hreads.append hmore
    · change ((u.fetchstr (u.int (u.argAddr n)) (u.argint n []).2).1.map
        fun len => (u.int (u.argAddr n), len)) = some (p, len) at hp
      obtain ⟨len', hlen, he⟩ := map_eq_some_iff.mp hp
      cases he
      exact ⟨hin, rfl, hstr _ hlen⟩

end User

/-- **What the checks let through.**  The bytes read, and those handed to the kernel, are below
the size of the process, and so is every address the checks read on their way, whether they
succeed or not. -/
structure User.Airtight (u : User) : Prop where
  fetchint : ∀ addr v, (u.fetchint addr []).1 = some v → u.Within addr 4 ∧ v = u.int addr
  fetchstr : ∀ addr len, (u.fetchstr addr []).1 = some len → u.Str addr len
  argint : ∀ n v, (u.argint n []).1 = some v →
    u.Within (u.argAddr n) 4 ∧ v = u.int (u.argAddr n)
  argptr : ∀ n size p, (u.argptr n size []).1 = some p →
    u.Within (u.argAddr n) 4 ∧ p = u.int (u.argAddr n) ∧ 0 ≤ size.toInt ∧
      u.Within p size.toInt.toNat
  argstr : ∀ n p len, (u.argstr n []).1 = some (p, len) →
    u.Within (u.argAddr n) 4 ∧ p = u.int (u.argAddr n) ∧ u.Str p len
  reads : ∀ a n size, u.Reads (u.fetchint a []).2 ∧ u.Reads (u.fetchstr a []).2 ∧
    u.Reads (u.argint n []).2 ∧ u.Reads (u.argptr n size []).2 ∧ u.Reads (u.argstr n []).2

theorem User.airtight {u : User} (hsz : u.sz < KERNBASE) : u.Airtight where
  fetchint addr v h := by
    obtain ⟨-, -, -, hv⟩ := fetchint_spec hsz addr []
    exact hv v h
  fetchstr addr len h := by
    obtain ⟨-, -, -, hstr⟩ := u.fetchstr_spec addr []
    exact hstr len h
  argint n v h := by
    obtain ⟨-, -, -, hv⟩ := fetchint_spec hsz (u.argAddr n) []
    exact hv v h
  argptr n size := (argptr_spec hsz n size).2
  argstr n := (argstr_spec hsz n).2
  reads a n size := by
    obtain ⟨more, hmore, hlog, -⟩ := fetchint_spec hsz a []
    obtain ⟨more', hmore', hlog', -⟩ := u.fetchstr_spec a []
    refine ⟨hlog ▸ hmore, hlog' ▸ hmore', ?_, (argptr_spec hsz n size).1, (argstr_spec hsz n).1⟩
    rcases argint_spec hsz n with ⟨-, hreads⟩ | ⟨-, -, hreads⟩
    · exact hreads
    · exact hreads

/-- **System calls reach no memory above the process.**  In every run of the machine, from any
contents of memory, the size of every process is below `KERNBASE`; so the checks are airtight,
whatever its stack pointer and its memory. -/
theorem arguments_below_sz {L : Link} {m : Word → Page} {es : List Call} {s : Host}
    (h : Host.Runs L m es s) (c : Slot) :
    (s.proc c).sz < KERNBASE ∧
      ∀ (esp : Word) (mem : Word → BitVec 8), (User.mk (s.proc c).sz esp mem).Airtight := by
  have hsz := Host.small_of_run h c
  exact ⟨hsz, fun esp mem => User.airtight hsz⟩

/-- The first process passes its whole page to the kernel. -/
theorem arguments_below_sz_init : ∃ es s c, Host.Runs smallLink (fun _ => zeros) es s ∧
    (s.proc c).state = .live ∧ (s.proc c).sz < KERNBASE ∧
    ((User.mk (s.proc c).sz 4088 fun _ => 0).argptr 0 4096 []).1 = some 0 ∧
    (User.mk (s.proc c).sz 4088 fun _ => 0).Within 0 4096 := by
  obtain ⟨es, own, s, p, hrun, -, -, hlive, -, hsz, -⟩ :=
    Host.exists_init smallLink (by decide) fun _ => zeros
  obtain ⟨hlt, hair⟩ := arguments_below_sz hrun p
  have hok : ((User.mk (s.proc p).sz 4088 fun _ => 0).argptr 0 4096 []).1 = some 0 := by
    rw [hsz]
    decide
  exact ⟨es, s, p, hrun, hlive, hlt, hok, ((hair 4088 fun _ => 0).argptr 0 4096 0 hok).2.2.2⟩

end Xv6.Vm
