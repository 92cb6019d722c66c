/-
# `Xv6.Mmap.Fault` — page faults

The case `T_PGFLT` of `trap`, on the mapping list of the process.  The first loop
looks for an entry that contains the address; without one the process is killed.
With one a page is allocated and mapped, and a second loop goes on from that
entry to the end of the list.

The test of the first loop has both comparisons the wrong way round: it asks for
`entry->addr >= addr` and `entry->addr + entry->sz <= addr`.  The second loop
moves on only if the entry is dirty.  And the page is mapped at the address
`kalloc` returned, which is the kernel's address of the page and not its
physical one.

Both loops read through pointers; what is in memory where no entry is, is
arbitrary.  A property of the list is therefore stated for every memory that
holds it: a run that comes out the same in all of them has read nothing else.
-/
import Mathlib.Data.List.Find
import Xv6.Mmap.Table
import Xv6.Vm.System

namespace Xv6.Mmap

open List
open Vm (Word PGSIZE KERNBASE PTE_P PTE_W PTE_U)

/-! ## The two loops -/

/-- `entry->addr >= addr && ((int)entry->addr + entry->sz) <= (int)addr`. -/
def Mme.Within (e : Mme) (addr : Word) : Prop :=
  addr ≤ e.addr ∧ (e.addr + e.sz).toInt ≤ addr.toInt

instance (e : Mme) (addr : Word) : Decidable (e.Within addr) := inferInstanceAs (Decidable (_ ∧ _))

section

variable (node : Word → Mme)

/-- The first loop, in at most `n` turns: the entry, or 0. -/
def searchWalk (addr : Word) : Nat → Word → Option Word
  | 0, _ => none
  | n + 1, entry =>
    if (node entry).Within addr then some entry
    else if (node entry).next ≠ 0 then searchWalk addr n (node entry).next
    else some 0

/-- The second loop, in at most `n` turns. -/
def dirtyWalk : Nat → Word → Option Unit
  | 0, _ => none
  | n + 1, entry =>
    let entry := if (node entry).dirty ≠ 0 then (node entry).next else entry
    if entry ≠ 0 then dirtyWalk n entry else some ()

end

/-- The entries of a list with these links, from one of them on. -/
abbrev Run (node : Word → Mme) (back : Word) (l : List Word) : Prop :=
  Dlist.Seg (fun q => (node q).prev) (fun q => (node q).next) 0 back l

variable {node : Word → Mme} {addr back q : Word} {l : List Word} {n : Nat}

/-- The first loop finds the first entry that passes the test. -/
theorem searchWalk_eq (h : Run node back (q :: l)) (h₀ : 0 ∉ l) (hn : l.length < n) :
    searchWalk node addr n q =
      some (((q :: l).find? fun x => decide ((node x).Within addr)).getD 0) := by
  induction l generalizing back q n with
  | nil =>
    obtain ⟨n, rfl⟩ := Nat.exists_eq_succ_of_ne_zero (Nat.ne_of_gt hn)
    have hnext : (node q).next = 0 := h.2.1
    rw [searchWalk, List.find?_cons]
    by_cases hw : (node q).Within addr
    · rw [if_pos hw, decide_eq_true hw]
      rfl
    · rw [if_neg hw, if_neg (not_not.mpr hnext), decide_eq_false hw]
      rfl
  | cons r l ih =>
    obtain ⟨n, rfl⟩ := Nat.exists_eq_succ_of_ne_zero (Nat.ne_of_gt (Nat.zero_lt_of_lt hn))
    have hnext : (node q).next = r := h.2.1
    have hr : r ≠ 0 := fun e => h₀ (e ▸ mem_cons_self)
    rw [searchWalk, List.find?_cons]
    by_cases hw : (node q).Within addr
    · rw [if_pos hw, decide_eq_true hw]
      rfl
    · rw [if_neg hw, decide_eq_false hw, hnext, if_pos hr]
      exact ih h.2.2 (fun hm => h₀ (mem_cons_of_mem r hm)) (Nat.lt_of_succ_lt_succ hn)

/-- The second loop ends if all entries it comes to are dirty. -/
theorem dirtyWalk_ends (h : Run node back (q :: l)) (hd : ∀ x ∈ q :: l, (node x).dirty ≠ 0) :
    ∃ m, dirtyWalk node m q = some () := by
  induction l generalizing back q with
  | nil =>
    refine ⟨1, ?_⟩
    simp only [dirtyWalk, if_pos (hd q mem_cons_self)]
    exact if_neg (not_not.mpr h.2.1)
  | cons r l ih =>
    obtain ⟨m, hm⟩ := ih h.2.2 fun x hx => hd x (mem_cons_of_mem q hx)
    have hnext : (node q).next = r := h.2.1
    refine ⟨m + 1, ?_⟩
    simp only [dirtyWalk, if_pos (hd q mem_cons_self), hnext, hm]
    split <;> rfl

/-- It stays for ever at an entry that is not dirty. -/
theorem dirtyWalk_clean (hq : q ≠ 0) (hd : (node q).dirty = 0) : dirtyWalk node n q = none := by
  induction n with
  | zero => rfl
  | succ n ih =>
    simp only [dirtyWalk, hd, ne_eq, not_true_eq_false, if_false, hq, not_false_eq_true, if_true]
    exact ih

theorem dirtyWalk_stuck (h : Run node back (q :: l)) (h₀ : 0 ∉ q :: l)
    (hd : ∃ x ∈ q :: l, (node x).dirty = 0) : dirtyWalk node n q = none := by
  have hq : q ≠ 0 := fun e => h₀ (e ▸ mem_cons_self)
  induction l generalizing back q n with
  | nil =>
    obtain ⟨x, hx, hd⟩ := hd
    cases mem_singleton.mp hx
    exact dirtyWalk_clean hq hd
  | cons r l ih =>
    by_cases hdq : (node q).dirty = 0
    · exact dirtyWalk_clean hq hdq
    cases n with
    | zero => rfl
    | succ n =>
      have hnext : (node q).next = r := h.2.1
      have h₀' : 0 ∉ r :: l := fun hm => h₀ (mem_cons_of_mem q hm)
      have hr : r ≠ 0 := fun e => h₀' (e ▸ mem_cons_self)
      obtain ⟨x, hx, hd⟩ := hd
      have hx' : x ∈ r :: l := by
        rcases mem_cons.mp hx with rfl | hx
        · exact absurd hd hdq
        · exact hx
      simp only [dirtyWalk, ne_eq, hdq, not_false_eq_true, if_true, hnext, hr]
      exact ih h.2.2 h₀' ⟨x, hx', hd⟩ hr

/-! ## Termination -/

/-- Both loops end. -/
def WalksEnd (node : Word → Mme) (mme addr : Word) : Prop :=
  ∃ n entry, searchWalk node addr n mme = some entry ∧
    (entry ≠ 0 → ∃ m, dirtyWalk node m entry = some ())

/-- From an empty list the first loop reads at the address -1, and need not end. -/
theorem searchWalk_forever (hw : ¬ (node (-1)).Within addr) (hnext : (node (-1)).next = -1) :
    searchWalk node addr n (-1) = none := by
  induction n with
  | zero => rfl
  | succ n ih => rw [searchWalk, if_neg hw, hnext, if_pos (by decide), ih]

/-- Whatever the address, some entry fails the test. -/
theorem exists_not_within (addr next : Word) : ∃ e : Mme, ¬ e.Within addr ∧ e.next = next := by
  by_cases h : addr = 0
  · refine ⟨⟨1, 0, 0, 0, 0, next, none, 0, 0⟩, ?_, rfl⟩
    rw [h]
    show ¬ ((0 : Word) ≤ 1 ∧ ((1 : Word) + 0).toInt ≤ (0 : Word).toInt)
    decide
  · refine ⟨⟨addr - 1, 0, 0, 0, 0, next, none, 0, 0⟩, fun hc => ?_, rfl⟩
    have hle : addr ≤ addr - 1 := hc.1
    bv_omega

/-- More turns do not change what the first loop finds. -/
theorem searchWalk_mono {m : Nat} {r : Word} (h : searchWalk node addr n q = some r) (hm : n ≤ m) :
    searchWalk node addr m q = some r := by
  induction n generalizing q m with
  | zero => cases h
  | succ n ih =>
    obtain ⟨m, rfl⟩ := Nat.exists_eq_add_of_le' hm
    rw [searchWalk] at h
    rw [← Nat.add_assoc, searchWalk]
    by_cases hw : (node q).Within addr
    · rw [if_pos hw] at h ⊢
      exact h
    by_cases hn : (node q).next ≠ 0
    · rw [if_neg hw, if_pos hn] at h ⊢
      exact ih h (Nat.le_add_left n m)
    · rw [if_neg hw, if_neg hn] at h ⊢
      exact h

/-- The first entry that passes the test is the one found. -/
theorem find_within {l₁ l₂ : List Word} (hl₁ : ∀ x ∈ l₁, ¬ (node x).Within addr)
    (hq : (node q).Within addr) :
    (l₁ ++ q :: l₂).find? (fun x => decide ((node x).Within addr)) = some q := by
  rw [List.find?_append, List.find?_eq_none.mpr fun x hx => by simpa using hl₁ x hx,
    Option.none_or, List.find?_cons_of_pos (by simpa using hq)]

variable {s : State}

theorem Listed.run (h : Listed s l) : Run s.node s.p.mme l := h.links

theorem Listed.zero (h : Listed s l) : 0 ∉ l := fun hm => (h.real 0 hm).1 rfl

/-- The list is in another memory too. -/
theorem Listed.run_congr (h : Listed s l) (hnode : ∀ q ∈ l, node q = s.node q) :
    Run node s.p.mme l :=
  h.run.congr (fun q hq => congrArg Mme.prev (hnode q hq)) fun q hq => congrArg Mme.next (hnode q hq)

/-- **The page-fault handler comes to an end, in every memory that holds the list, exactly if** the
list is not empty and all entries from the first one that passes the test on are dirty. -/
theorem walks_end_iff (h : Listed s l) (addr : Word) :
    (∀ node : Word → Mme, (∀ q ∈ l, node q = s.node q) → WalksEnd node s.p.mme addr) ↔
    l ≠ [] ∧ ∀ l₁ q l₂, l = l₁ ++ q :: l₂ → (∀ x ∈ l₁, ¬ (s.node x).Within addr) →
      (s.node q).Within addr → ∀ x ∈ q :: l₂, (s.node x).dirty ≠ 0 := by
  constructor
  · intro hends
    refine ⟨?_, fun l₁ q l₂ hl hl₁ hq x hx hd => ?_⟩
    · rintro rfl
      obtain ⟨e, he, hnext⟩ := exists_not_within addr (-1)
      obtain ⟨n, entry, hw, -⟩ := hends (fun _ => e) nofun
      rw [show s.p.mme = -1 from h.head, searchWalk_forever he hnext] at hw
      cases hw
    · obtain ⟨n, entry, hw, hdirty⟩ := hends s.node fun _ _ => rfl
      obtain ⟨r, l', hcons⟩ := exists_cons_of_ne_nil (l := l) (by rw [hl]; simp)
      have hwalk := searchWalk_mono hw (Nat.le_max_left n (l'.length + 1))
      have hrun := h.run
      have hzero := h.zero
      rw [hcons] at hrun hzero
      rw [show s.p.mme = r by rw [h.head, hcons]; rfl,
        searchWalk_eq hrun (fun hm => hzero (mem_cons_of_mem r hm))
          (Nat.lt_of_succ_le (Nat.le_max_right n (l'.length + 1))), ← hcons, hl,
        find_within hl₁ hq] at hwalk
      cases hwalk
      have hrunq := h.run
      have hzeroq := h.zero
      rw [hl] at hrunq hzeroq
      have hq₀ : q ≠ 0 := fun e => hzeroq (e ▸ mem_append_right l₁ mem_cons_self)
      obtain ⟨m, hm⟩ := hdirty hq₀
      obtain ⟨b, hb⟩ := hrunq.suffix
      have hstuck := dirtyWalk_stuck (n := m) hb
        (fun hm => hzeroq (mem_append_right l₁ hm)) ⟨x, hx, hd⟩
      exact absurd (hm.symm.trans hstuck) nofun
  · rintro ⟨hne, hd⟩ node hnode
    obtain ⟨r, l', rfl⟩ := exists_cons_of_ne_nil hne
    have hrun := h.run_congr hnode
    have hwalk : searchWalk node addr (l'.length + 1) r = _ :=
      searchWalk_eq hrun (fun hm => h.zero (mem_cons_of_mem r hm)) (Nat.lt_succ_self _)
    rw [show s.p.mme = r from h.head]
    refine ⟨_, _, hwalk, fun hentry => ?_⟩
    cases hfind : (r :: l').find? fun x => decide ((node x).Within addr) with
    | none =>
      rw [hfind] at hentry
      exact absurd rfl hentry
    | some q =>
      obtain ⟨hq, l₁, l₂, hl, hl₁⟩ := List.find?_eq_some_iff_append.mp hfind
      rw [hl] at hrun hnode
      obtain ⟨b, hb⟩ := hrun.suffix
      refine dirtyWalk_ends hb fun x hx => ?_
      rw [hnode x (mem_append_right l₁ hx)]
      refine hd l₁ q l₂ hl (fun y hy => ?_) ?_ x hx
      · rw [← hnode y (mem_append_left _ hy)]
        simpa using hl₁ y hy
      · rw [← hnode q (mem_append_right l₁ mem_cons_self)]
        simpa using hq

/-- A process with one mapping, of the page below the kernel. -/
def oneMapping (sz dirty : Word) : State :=
  { fresh with
    p := { fresh.p with pgdir := 0x80500000, mme := 0x80400000 }
    node := Function.update fresh.node 0x80400000
      ⟨0x7FFFF000, sz, MAP_PRIVATE, 0, 0x80400000, 0, none, 0, dirty⟩ }

theorem oneMapping_node (sz dirty : Word) : (oneMapping sz dirty).node 0x80400000 =
    ⟨0x7FFFF000, sz, MAP_PRIVATE, 0, 0x80400000, 0, none, 0, dirty⟩ := by
  simp only [oneMapping, Function.update_self]

theorem oneMapping_listed (sz dirty : Word) : Listed (oneMapping sz dirty) [0x80400000] where
  head := rfl
  links := by
    refine ⟨?_, ?_, trivial⟩ <;> dsimp only <;> rw [oneMapping_node] <;> rfl
  nodup := nodup_singleton _
  real := by
    intro q hq
    rw [mem_singleton.mp hq]
    decide
  addrs := nodup_singleton _

/-- One page, at its first byte: the sum of its address and its size is the smallest `int`, so it
passes the test, and it is not dirty. -/
theorem first_page_hangs : Listed (oneMapping 4096 0) [0x80400000] ∧
    ¬ WalksEnd (oneMapping 4096 0).node (oneMapping 4096 0).p.mme 0x7FFFF000 := by
  refine ⟨oneMapping_listed _ _, ?_⟩
  rintro ⟨n, entry, hw, hd⟩
  have hmme : (oneMapping 4096 0).p.mme = 0x80400000 := rfl
  have hwithin : ((oneMapping 4096 0).node 0x80400000).Within 0x7FFFF000 := by
    rw [oneMapping_node]
    decide
  cases n with
  | zero => cases hw
  | succ n =>
    rw [hmme, searchWalk, if_pos hwithin] at hw
    cases hw
    obtain ⟨m, hm⟩ := hd (by decide)
    rw [dirtyWalk_clean (by decide) (by rw [oneMapping_node])] at hm
    cases hm

/-- Ten bytes, and a fault further down. -/
theorem walks_end_ten : Listed (oneMapping 10 0) [0x80400000] ∧
    ∀ node : Word → Mme, (∀ q ∈ [0x80400000], node q = (oneMapping 10 0).node q) →
      WalksEnd node (oneMapping 10 0).p.mme 0x5000 := by
  have hl := oneMapping_listed 10 0
  refine ⟨hl, (walks_end_iff hl 0x5000).mpr ⟨nofun, ?_⟩⟩
  intro l₁ q l₂ hsplit _ hq
  have hmem : q ∈ [(0x80400000 : Word)] := by
    rw [hsplit]
    exact mem_append_right l₁ mem_cons_self
  rw [mem_singleton.mp hmem, oneMapping_node] at hq
  exact absurd hq (by decide)

/-! ## What `mappages` leaves of an address -/

section

open Vm Wp

variable {L : Link} {own : Word → Owner} {k : Kmem} {d t w : Word} {x : Vpn}

/-- The entry of the page `x` of `d` is `w`, in the page table `t`. -/
structure Entry (k : Kmem) (d : Word) (x : Vpn) (t w : Word) : Prop where
  table : tableAt k.mem d x.1 = some t
  word : k.mem t x.2 = w

theorem Entry.view (h : Entry k d x t w) : view k.mem d x = w := by
  rw [show x = (x.1, x.2) from rfl, view_of_table h.table, h.word]

theorem Entry.setWord {t' w' : Word} {j : Idx} (h : Entry k d x t w) (hd : d ≠ t')
    (hj : t' = t → j ≠ x.2) : Entry (k.setWord t' j w') d x t w := by
  refine ⟨(congrFun (tableAt_congr (Kmem.setWord_of_ne hd)) _).trans h.table, ?_⟩
  rcases eq_or_ne t t' with rfl | hne
  · rw [Kmem.setWord, Kmem.setPage_self, Function.update_of_ne (hj rfl).symm, h.word]
  · rw [Kmem.setWord_of_ne hne, h.word]

/-- An entry just written, whatever it points to. -/
theorem entry_written (h : Owns L own k) (ht : own t = .table d x.1) :
    Entry (k.setWord t x.2 w) d x t w := by
  obtain ⟨hd, htab⟩ := h.table.mp ht
  have hne : d ≠ t := ne_of_owner hd ht nofun
  refine ⟨(congrFun (tableAt_congr (Kmem.setWord_of_ne hne)) _).trans htab, ?_⟩
  rw [Kmem.setWord, Kmem.setPage_self, Function.update_self]

/-- `walkpgdir` for another page, after such a write. -/
theorem walk_written {a : Word} (h : Owns L own k) (ht : own t = .table d x.1) (ha : vpn a ≠ x) :
    Meets (walkpgdir d a true) (k.setWord t x.2 w) (fun r k' => Entry k' d x t w ∧
      ∀ t' j, r = some (t', j) → d ≠ t' ∧ (t' = t → j ≠ x.2)) fun _ => False := by
  obtain ⟨hd, htab⟩ := h.table.mp ht
  have hentry : Entry (k.setWord t x.2 w) d x t w := entry_written h ht
  have hne : d ≠ t := ne_of_owner hd ht nofun
  have hdir : (k.setWord t x.2 w).mem d = k.mem d := Kmem.setWord_of_ne hne
  refine load_bind ?_
  rw [hdir]
  refine of_ite (fun hp => of_pure ⟨hentry, ?_⟩) fun hp => of_ite nofun fun _ => ?_
  · intro t' j hr
    obtain ⟨rfl, rfl⟩ := Prod.mk.inj (Option.some.inj hr)
    have ht' : own (P2V (PTE_ADDR (k.mem d (PDX a)))) = .table d (PDX a) :=
      h.table.mpr ⟨hd, target_eq_some.mpr ⟨hp, rfl⟩⟩
    refine ⟨?_, ?_⟩
    · intro e
      rw [← e, hd] at ht'
      cases ht'
    · intro e hj
      rw [e, ht] at ht'
      injection ht' with _ hi
      exact ha (Prod.ext hi.symm hj)
  · refine of_bind (of_bind (of_get (of_ite (fun hz => of_pure ?_) fun hz =>
      of_bind (of_set (of_pure ?_)))))
    · exact of_ite (fun _ => of_pure ⟨hentry, nofun⟩) (absurd rfl)
    obtain ⟨hfree, -⟩ := h.alloc hz
    have hft : t ≠ (k.setWord t x.2 w).freelist := ne_of_owner ht hfree nofun
    have hfd : d ≠ (k.setWord t x.2 w).freelist := by
      intro e
      rw [show d = k.freelist from e, hfree] at hd
      cases hd
    refine of_ite (fun hz' => absurd hz' hz) fun _ => fill_bind (store_bind (of_pure ⟨?_, ?_⟩))
    · -- the new table is behind another entry of the directory
      have hi : PDX a ≠ x.1 := by
        intro e
        rw [← e, tableAt, target, if_neg hp] at htab
        cases htab
      refine ⟨?_, ?_⟩
      · rw [tableAt, Kmem.setWord, Kmem.setPage_self, Function.update_of_ne hi.symm,
          Kmem.setPage_of_ne hfd]
        exact hentry.table
      · rw [Kmem.setWord_of_ne hne.symm, Kmem.setPage_of_ne hft]
        exact hentry.word
    · intro t' j hr
      obtain ⟨rfl, rfl⟩ := Prod.mk.inj (Option.some.inj hr)
      exact ⟨hfd, fun e => absurd e.symm hft⟩

/-- Mapping another page leaves the entry. -/
theorem mapPage_written {a pa perm : Word} (h : Owns L own k) (ht : own t = .table d x.1)
    (ha : vpn a ≠ x) :
    Meets (mapPage d a pa perm) (k.setWord t x.2 w) (fun _ k' => view k'.mem d x = w)
      fun _ => True := by
  refine call (walk_written h ht ha) (fun _ => False.elim) ?_
  rintro (_ | ⟨t', j⟩) k' ⟨hentry, hstore⟩
  · exact of_pure hentry.view
  · obtain ⟨hd, hj⟩ := hstore t' j rfl
    refine load_bind (of_ite (fun _ => of_throw trivial) fun _ => store_bind (of_pure ?_))
    exact (hentry.setWord hd hj).view

theorem vpn_PGROUNDDOWN (va : Word) : vpn (PGROUNDDOWN va) = vpn va := by
  refine Vpn.num_inj ?_
  rw [num_vpn, num_vpn, toNat_PGROUNDDOWN]
  omega

/-- The last page of a range of `PGSIZE` bytes is its first, or the next one. -/
theorem last_page {va : Word} (h : PGROUNDDOWN va ≠ PGROUNDDOWN (va + PGSIZE - 1)) :
    PGROUNDDOWN va + PGSIZE = PGROUNDDOWN (va + PGSIZE - 1) ∧
      vpn (PGROUNDDOWN va + PGSIZE) ≠ vpn (PGROUNDDOWN va) := by
  have hone : va + PGSIZE - 1 = va + 4095#32 := by
    rw [PGSIZE]
    bv_omega
  have hsize : PGSIZE.toNat = 4096 := rfl
  rw [hone] at h ⊢
  rw [ne_eq, ← BitVec.toNat_inj, toNat_PGROUNDDOWN, toNat_PGROUNDDOWN, BitVec.toNat_add] at h
  rw [← BitVec.toNat_inj, BitVec.toNat_add, toNat_PGROUNDDOWN, toNat_PGROUNDDOWN, BitVec.toNat_add,
    hsize]
  refine ⟨?_, fun e => ?_⟩
  · rw [show (4095#32).toNat = 4095 from rfl] at h ⊢
    omega
  · have hnum := congrArg Vpn.num e
    rw [num_vpn, num_vpn, BitVec.toNat_add, toNat_PGROUNDDOWN, hsize] at hnum
    omega

/-- **What `mappages` leaves of the page of `va`**, which need not be on a page boundary: the entry
is as it was, or it is the new one. -/
theorem mappages_view (h : Owns L own k) (hd : own d = .dir) (va pa perm : Word) :
    Meets (mappages d va PGSIZE pa perm) k (fun _ k' =>
      view k'.mem d (vpn va) = view k.mem d (vpn va) ∨
        view k'.mem d (vpn va) = pa ||| perm ||| PTE_P) fun _ => True := by
  rw [← vpn_PGROUNDDOWN va]
  refine call (mapPage_meets h hd (PGROUNDDOWN va) pa perm) (fun _ _ => trivial) ?_
  rintro ok k' (⟨rfl, rfl, -⟩ | ⟨rfl, -, own₁, k₁, t, h₁, hd₁, -, ht, rfl⟩)
  · exact of_false (of_pure (.inl rfl))
  refine of_true (of_ite (fun _ => of_pure (.inr ?_)) fun hlast => ?_)
  · exact (entry_written (x := vpn (PGROUNDDOWN va)) h₁ ht).view
  · obtain ⟨hnext, hne⟩ := last_page hlast
    rw [← hnext]
    refine call (mapPage_written h₁ ht hne) (fun _ _ => trivial) ?_
    rintro (_ | _) k' hview
    · exact of_false (of_pure (.inr hview))
    · exact of_true (of_ite (fun _ => of_pure (.inr hview)) (absurd rfl))

end

/-! ## The handler -/

/-- A bound on the turns of the loops: there are no more pointers. -/
def turns : Nat := 2 ^ 32

/-- `p->killed = 1`. -/
def State.kill (s : State) : State := { s with p := { s.p with killed := true } }

def State.withNode (s : State) (node : Word → Mme) : State := { s with node := node }

/-- The case `T_PGFLT` of `trap` for the faulting address `addr`; `user` says that the fault was
taken in user mode. -/
def pgflt (user : Bool) (addr : Word) (s : State) : Except Vm.Stop State :=
  match searchWalk s.node addr turns s.p.mme with
  | none => .error .forever
  | some entry =>
    if entry = 0 then .ok (if user then s.kill else s)
    else do
      let (pa, k) ← Vm.kalloc s.k
      -- the result of `mappages` is not looked at
      let (_, k) ← Vm.mappages s.p.pgdir addr PGSIZE pa (PTE_P ||| PTE_W ||| PTE_U) k
      match dirtyWalk s.node turns entry with
      | none => .error .forever
      | some () => .ok { s with k := k }

/-- Without an entry a process in user mode is killed. -/
theorem pgflt_kill (h : searchWalk s.node addr turns s.p.mme = some 0) :
    pgflt true addr s = .ok s.kill := by
  rw [pgflt, h]
  rfl

theorem pgflt_forever {user : Bool} (h : searchWalk s.node addr turns s.p.mme = none) :
    pgflt user addr s = .error .forever := by
  rw [pgflt, h]

/-- What the handler has done when it returns. -/
theorem pgflt_ok {user : Bool} {t : State} (h : pgflt user addr s = .ok t) :
    (searchWalk s.node addr turns s.p.mme = some 0 ∧ t = if user then s.kill else s) ∨
    ∃ entry pa k₁ r k₂, searchWalk s.node addr turns s.p.mme = some entry ∧ entry ≠ 0 ∧
      Vm.kalloc s.k = .ok (pa, k₁) ∧
      Vm.mappages s.p.pgdir addr PGSIZE pa (PTE_P ||| PTE_W ||| PTE_U) k₁ = .ok (r, k₂) ∧
      t = { s with k := k₂ } := by
  unfold pgflt at h
  cases hwalk : searchWalk s.node addr turns s.p.mme with
  | none => rw [hwalk] at h; cases h
  | some entry =>
    rw [hwalk] at h
    dsimp only at h
    by_cases hz : entry = 0
    · rw [if_pos hz] at h
      cases h
      exact .inl ⟨by rw [hz], rfl⟩
    · rw [if_neg hz] at h
      cases halloc : Vm.kalloc s.k with
      | error e => rw [halloc] at h; cases h
      | ok r₁ =>
        rw [halloc] at h
        cases hmap : Vm.mappages s.p.pgdir addr PGSIZE r₁.1 (PTE_P ||| PTE_W ||| PTE_U) r₁.2 with
        | error e =>
          simp only [bind, Except.bind, hmap] at h
          cases h
        | ok r₂ =>
          simp only [bind, Except.bind, hmap] at h
          split at h
          · cases h
          · cases h
            exact .inr ⟨entry, r₁.1, r₁.2, r₂.1, r₂.2, rfl, hz, rfl, hmap, rfl⟩

/-! ## Classification -/

/-- A page that the user may write. -/
def UserWritable (pte : Word) : Prop :=
  Vm.Present pte ∧ pte &&& PTE_W ≠ 0 ∧ pte &&& PTE_U ≠ 0

/-- The address is in `[addr, addr + sz)`. -/
def Mme.Has (e : Mme) (addr : Word) : Prop :=
  e.addr.toNat ≤ addr.toNat ∧ (addr.toNat : Int) < e.addr.toNat + e.sz.toInt

/-- A fault of a process at a user address. -/
structure Faulting (L : Vm.Link) (own : Word → Vm.Owner) (s : State) (l : List Word) (addr : Word) :
    Prop where
  listed : Listed s l
  owns : Vm.Owns L own s.k
  dir : own s.p.pgdir = .dir
  alive : s.p.killed = false
  user : addr < KERNBASE
  fault : ¬ UserWritable (Vm.view s.k.mem s.p.pgdir (Vm.vpn addr))

/-- **The fault is handled as it should be.** -/
structure Classified (own : Word → Vm.Owner) (s : State) (l : List Word) (addr : Word) : Prop where
  /-- Only entries of the list are read. -/
  reads : ∀ node : Word → Mme, (∀ q ∈ l, node q = s.node q) →
    pgflt true addr (s.withNode node) = (pgflt true addr s).map fun t => t.withNode node
  /-- In a mapping: the page is mapped to a page that was free, and no other one. -/
  mapped : (∃ q ∈ l, (s.node q).Has addr) → ∃ t, pgflt true addr s = .ok t ∧ t.p.killed = false ∧
    (∃ g, own g = .free ∧ Vm.PTE_ADDR (Vm.view t.k.mem s.p.pgdir (Vm.vpn addr)) = Vm.V2P g) ∧
    UserWritable (Vm.view t.k.mem s.p.pgdir (Vm.vpn addr)) ∧
    ∀ x, x ≠ Vm.vpn addr → Vm.view t.k.mem s.p.pgdir x = Vm.view s.k.mem s.p.pgdir x
  /-- In no mapping: the process is killed, and its pages are as they were. -/
  killed : (∀ q ∈ l, ¬ (s.node q).Has addr) → ∃ t, pgflt true addr s = .ok t ∧ t.p.killed = true ∧
    Vm.view t.k.mem s.p.pgdir = Vm.view s.k.mem s.p.pgdir

/-- A physical address of a page of the allocator is no address of the kernel. -/
theorem V2P_lt {L : Vm.Link} {g : Word} (h : Vm.Pool L g) :
    0x100000 < (Vm.V2P g).toNat ∧ (Vm.V2P g).toNat < 0x80000000 := by
  have h₁ := h.data_le
  have h₂ := L.data_lo
  rw [Vm.toNat_V2P h]
  omega

/-- **The page that the handler maps is not the one it has allocated.** -/
theorem mapped_elsewhere {L : Vm.Link} {own : Word → Vm.Owner} {k k₁ k₂ : Vm.Kmem} {d pa g : Word}
    {r : Bool} (h : Vm.Owns L own k) (hd : own d = .dir) (halloc : Vm.kalloc k = .ok (pa, k₁))
    (hmap : Vm.mappages d addr PGSIZE pa (PTE_P ||| PTE_W ||| PTE_U) k₁ = .ok (r, k₂))
    (hfault : ¬ UserWritable (Vm.view k.mem d (Vm.vpn addr)))
    (hw : UserWritable (Vm.view k₂.mem d (Vm.vpn addr))) (hg : own g = .free) :
    Vm.PTE_ADDR (Vm.view k₂.mem d (Vm.vpn addr)) ≠ Vm.V2P g := by
  have hgp : Vm.Pool L g := h.pool_of hg nofun
  have hlt := V2P_lt hgp
  have hflags : Vm.Flags (PTE_P ||| PTE_W ||| PTE_U ||| PTE_P) := by decide
  rcases Wp.ok (Vm.kalloc_meets h) halloc with ⟨rfl, rfl, -⟩ | ⟨hfree, hmem, h₁⟩
  · rcases Wp.ok (mappages_view h hd addr 0 _) hmap with hv | hv
    · rw [hv] at hw
      exact absurd hw hfault
    · rw [hv, BitVec.or_assoc, Vm.PTE_ADDR_or (Vm.aligned_iff.mpr rfl) hflags]
      intro e
      rw [← e] at hlt
      exact absurd hlt.1 (by decide)
  · have hne : d ≠ pa := Vm.ne_of_owner hd hfree nofun
    have hpp : Vm.Pool L pa := h.pool_of hfree nofun
    rcases Wp.ok (mappages_view h₁ ((Function.update_of_ne hne ..).trans hd) addr pa _) hmap with
      hv | hv
    · rw [hv, hmem] at hw
      exact absurd hw hfault
    · rw [hv, BitVec.or_assoc, Vm.PTE_ADDR_or (Vm.aligned_iff.mpr hpp.aligned) hflags]
      intro e
      have h₂ := hpp.data_le
      have h₃ := L.data_lo
      rw [← e] at hlt
      omega

/-- A list has fewer entries than there are pointers. -/
theorem Listed.length_le (h : Listed s l) : l.length ≤ turns := by
  have hnd : (l.map BitVec.toNat).Nodup :=
    h.nodup.map fun _ _ e => BitVec.eq_of_toNat_eq e
  have hsub : (l.map BitVec.toNat).toFinset ⊆ Finset.range turns := by
    intro x hx
    obtain ⟨q, -, rfl⟩ := mem_map.mp (mem_toFinset.mp hx)
    exact Finset.mem_range.mpr q.isLt
  have hcard := Finset.card_le_card hsub
  rwa [toFinset_card_of_nodup hnd, length_map, Finset.card_range] at hcard

theorem Listed.search (h : Listed s l) (hne : l ≠ []) (hnode : ∀ q ∈ l, node q = s.node q) :
    searchWalk node addr turns s.p.mme =
      some ((l.find? fun x => decide ((s.node x).Within addr)).getD 0) := by
  obtain ⟨r, l', rfl⟩ := exists_cons_of_ne_nil hne
  have hlen : l'.length < turns := h.length_le
  rw [show s.p.mme = r from h.head, searchWalk_eq (h.run_congr hnode)
    (fun hm => h.zero (mem_cons_of_mem r hm)) hlen]
  congr 2
  refine List.find?_congr fun x hx => ?_
  rw [hnode x hx]

/-- **Page faults are classified correctly exactly if** the list is not empty, the address is in no
mapping, and no entry passes the test of the handler. -/
theorem classified_iff {L : Vm.Link} {own : Word → Vm.Owner} (h : Faulting L own s l addr) :
    Classified own s l addr ↔
      l ≠ [] ∧ ∀ q ∈ l, ¬ (s.node q).Has addr ∧ ¬ (s.node q).Within addr := by
  constructor
  · intro hc
    have hne : l ≠ [] := by
      rintro rfl
      -- at the address -1 there may be an entry that ends the list, or one that does not
      obtain ⟨e, he, hnext⟩ := exists_not_within addr 0
      obtain ⟨e', he', hnext'⟩ := exists_not_within addr (-1)
      have h₁ := hc.reads (fun _ => e) nofun
      have h₂ := hc.reads (fun _ => e') nofun
      have hend : searchWalk (fun _ => e) addr 1 s.p.mme = some 0 := by
        rw [searchWalk, if_neg he, if_neg (not_not.mpr hnext)]
      have hloop : searchWalk (fun _ => e') addr turns s.p.mme = none := by
        rw [show s.p.mme = -1 from h.listed.head]
        exact searchWalk_forever he' hnext'
      rw [pgflt_kill (s := s.withNode _) (searchWalk_mono hend Nat.one_le_two_pow)] at h₁
      rw [pgflt_forever (s := s.withNode _) hloop] at h₂
      cases hs : pgflt true addr s with
      | ok t => rw [hs] at h₂; cases h₂
      | error x => rw [hs] at h₁; cases h₁
    have hhas : ∀ q ∈ l, ¬ (s.node q).Has addr := by
      intro q hq hin
      obtain ⟨t, ht, halive, ⟨g, hg, haddr⟩, hw, -⟩ := hc.mapped ⟨q, hq, hin⟩
      rcases pgflt_ok ht with ⟨-, rfl⟩ | ⟨entry, pa, k₁, r, k₂, -, -, halloc, hmap, rfl⟩
      · cases halive
      · exact mapped_elsewhere h.owns h.dir halloc hmap h.fault hw hg haddr
    refine ⟨hne, fun q hq => ⟨hhas q hq, fun hin => ?_⟩⟩
    obtain ⟨t, ht, hkilled, -⟩ := hc.killed hhas
    rcases pgflt_ok ht with ⟨hzero, -⟩ | ⟨entry, pa, k₁, r, k₂, -, -, -, -, rfl⟩
    · rw [h.listed.search hne fun _ _ => rfl] at hzero
      cases hfind : l.find? fun x => decide ((s.node x).Within addr) with
      | none => exact absurd (decide_eq_true hin) (List.find?_eq_none.mp hfind q hq)
      | some r =>
        rw [hfind] at hzero
        cases hzero
        exact h.listed.zero (mem_of_find?_eq_some hfind)
    · exact absurd (h.alive.symm.trans hkilled) nofun
  · rintro ⟨hne, hnone⟩
    have hfind : l.find? (fun x => decide ((s.node x).Within addr)) = none :=
      List.find?_eq_none.mpr fun x hx => by simpa using (hnone x hx).2
    have hkill : ∀ node : Word → Mme, (∀ q ∈ l, node q = s.node q) →
        pgflt true addr (s.withNode node) = .ok (s.withNode node).kill := by
      intro node hnode
      refine pgflt_kill ((h.listed.search hne hnode).trans ?_)
      rw [hfind]
      rfl
    refine ⟨fun node hnode => ?_, fun ⟨q, hq, hin⟩ => absurd hin (hnone q hq).1, fun _ =>
      ⟨_, hkill s.node fun _ _ => rfl, rfl, rfl⟩⟩
    rw [hkill node hnode, show pgflt true addr s = .ok s.kill from hkill s.node fun _ _ => rfl]
    rfl

/-- Who owns the pages when there is only a page directory. -/
def oneDir (p : Word) : Vm.Owner := if p = 0x80500000 then .dir else .other

theorem oneDir_owns : Vm.Owns Vm.smallLink oneDir ⟨fun _ => Vm.zeros, 0⟩ where
  list := ⟨[], .nil, .nil, fun p => by unfold oneDir; split <;> simp⟩
  table := by
    intro d i t
    have hnone : Vm.tableAt (fun _ => Vm.zeros) d i = none := Vm.target_zero
    rw [hnone]
    unfold oneDir
    split <;> simp
  frame := by
    intro d x p
    have hnone : Vm.view (fun _ => Vm.zeros) d x = 0 := Vm.view_of_none Vm.target_zero
    rw [hnone, Vm.target_zero]
    unfold oneDir
    split <;> simp
  pool := by
    intro p hp
    unfold oneDir at hp
    split at hp
    · rename_i h
      rw [h]
      decide
    · exact absurd rfl hp

theorem oneMapping_faulting {sz dirty : Word} (h : addr < KERNBASE) :
    Faulting Vm.smallLink oneDir (oneMapping sz dirty) [0x80400000] addr where
  listed := oneMapping_listed sz dirty
  owns := oneDir_owns
  dir := rfl
  alive := rfl
  user := h
  fault := by
    have hview : Vm.view (oneMapping sz dirty).k.mem (oneMapping sz dirty).p.pgdir (Vm.vpn addr) = 0 :=
      Vm.view_of_none Vm.target_zero
    rw [hview]
    exact fun hw => Vm.not_present_zero hw.1

/-- A mapping of ten bytes, and a fault at the sixth of them: the process is killed. -/
theorem mapped_byte_kills : Faulting Vm.smallLink oneDir (oneMapping 10 0) [0x80400000] 0x7FFFF005 ∧
    ((oneMapping 10 0).node 0x80400000).Has 0x7FFFF005 ∧
    ¬ Classified oneDir (oneMapping 10 0) [0x80400000] 0x7FFFF005 := by
  have hf : Faulting Vm.smallLink oneDir (oneMapping 10 0) [0x80400000] 0x7FFFF005 :=
    oneMapping_faulting (by decide)
  have hhas : ((oneMapping 10 0).node 0x80400000).Has 0x7FFFF005 := by
    rw [oneMapping_node]
    exact ⟨by decide, by decide⟩
  refine ⟨hf, hhas, fun hc => ?_⟩
  obtain ⟨t, ht, halive, -⟩ := hc.mapped ⟨_, mem_singleton_self _, hhas⟩
  have hkill : pgflt true 0x7FFFF005 (oneMapping 10 0) = .ok (oneMapping 10 0).kill := by
    refine pgflt_kill ((hf.listed.search nofun fun _ _ => rfl).trans ?_)
    rw [List.find?_cons, oneMapping_node]
    rfl
  rw [hkill] at ht
  cases ht
  cases halive

/-- A fault outside the mapping. -/
theorem classified_ten : Classified oneDir (oneMapping 10 0) [0x80400000] 0x5000 := by
  refine (classified_iff (oneMapping_faulting (by decide))).mpr ⟨nofun, fun q hq => ?_⟩
  rw [mem_singleton.mp hq, oneMapping_node]
  exact ⟨fun h => absurd h.1 (by decide), by decide⟩

end Xv6.Mmap
