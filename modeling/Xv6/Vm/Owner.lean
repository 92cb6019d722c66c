/-
# `Xv6.Vm.Owner` — who owns a page

The page tables live in the pages they manage, so what a page means depends on which
pages point to it.  `Owns own k` says that `own` is a reading of memory in which every
page has one owner:

    free          on the free list
    raw           handed out by kalloc, in nobody's tables
    dir           a page directory
    table d i     the page table behind entry i of the directory d
    frame d x     mapped at the user page x of d
    other         none of the allocator's pages

The clauses for tables and frames go both ways, so that a page cannot occur in two
places: it would have two owners.  A write matters only to the owner of the page it
hits.  `Local d` collects what an operation on one address space may do: move pages
between the free list and the tables and frames of `d`, and write into these.
-/
import Xv6.Vm.Paging

namespace Xv6.Vm

open Function (update update_of_ne update_self)

inductive Owner
  | other
  | free
  | raw
  | dir
  | table (d : Word) (i : Idx)
  | frame (d : Word) (x : Vpn)
  deriving DecidableEq

variable {p q : Word}

theorem ne_of_owner {own : Word → Owner} {a b : Owner} (hp : own p = a) (hq : own q = b)
    (h : a ≠ b) : p ≠ q := by
  rintro rfl
  exact h (hp.symm.trans hq)

/-! ## What a page directory says -/

/-- The page an entry points to. -/
def target (w : Word) : Option Word := if Present w then some (P2V (PTE_ADDR w)) else none

/-- The page table behind an entry of a directory. -/
def tableAt (m : Word → Page) (d : Word) (i : Idx) : Option Word := target (m d i)

/-- The entry of a virtual page, 0 if there is no page table for it. -/
def view (m : Word → Page) (d : Word) (x : Vpn) : Word :=
  match tableAt m d x.1 with
  | some t => m t x.2
  | none => 0

/-- What the page `x` of `d` holds. -/
def pageAt (m : Word → Page) (d : Word) (x : Vpn) : Page := m (P2V (PTE_ADDR (view m d x)))

variable {w : Word}

theorem target_eq_some : target w = some p ↔ Present w ∧ P2V (PTE_ADDR w) = p := by
  unfold target
  split <;> simp [*]

@[simp]
theorem target_zero : target 0 = none := if_neg not_present_zero

variable {m : Word → Page} {d : Word}

theorem tableAt_congr {m' : Word → Page} (h : m' d = m d) : tableAt m' d = tableAt m d := by
  funext i
  rw [tableAt, tableAt, h]

variable {t : Word} {i : Idx}

theorem view_of_table (h : tableAt m d i = some t) (j : Idx) : view m d (i, j) = m t j := by
  unfold view
  rw [h]

theorem view_of_none {x : Vpn} (h : tableAt m d x.1 = none) : view m d x = 0 := by
  unfold view
  rw [h]

theorem view_congr {m' : Word → Page} (hd : m' d = m d)
    (ht : ∀ i t, tableAt m d i = some t → m' t = m t) : view m' d = view m d := by
  funext x
  unfold view
  rw [tableAt_congr hd]
  cases h : tableAt m d x.1 with
  | none => rfl
  | some t => exact congrFun (ht _ _ h) _

/-! ## Exact ownership -/

section

variable (L : Link)

/-- **Every page has exactly the owner that memory gives it.** -/
structure Owns (own : Word → Owner) (k : Kmem) : Prop where
  list : ∃ l, Linked k.mem k.freelist l ∧ l.Nodup ∧ ∀ p, p ∈ l ↔ own p = .free
  table : ∀ {d i t}, own t = .table d i ↔ own d = .dir ∧ tableAt k.mem d i = some t
  frame : ∀ {d x p}, own p = .frame d x ↔ own d = .dir ∧ x.User ∧ target (view k.mem d x) = some p
  pool : ∀ {p}, own p ≠ .other → Pool L p

variable {L} {own : Word → Owner} {k : Kmem} {v : Word} {o : Owner}

section

variable (h : Pool L v)
include h

theorem Pool.lo : L.kend.toNat ≤ v.toNat := Nat.le_of_not_lt h.2.1

theorem Pool.data_le : L.data.toNat ≤ v.toNat :=
  Nat.le_trans L.ordered h.lo

theorem Pool.hi : v.toNat < 0x8E000000 := by
  have h₁ : (V2P v).toNat < 0xE000000 := Nat.lt_of_not_le h.2.2
  rw [V2P, BitVec.toNat_sub] at h₁
  have h₄ : KERNBASE.toNat = 0x80000000 := rfl
  omega

theorem Pool.aligned : v.toNat % 4096 = 0 := by
  have h₁ := congrArg BitVec.toNat h.1
  exact h₁

theorem Pool.ne_zero : v ≠ 0 := by
  rintro rfl
  have h₁ := h.data_le
  have h₂ := L.data_lo
  rw [show (0 : Word).toNat = 0 from rfl] at h₁
  omega

theorem toNat_V2P : (V2P v).toNat = v.toNat - 0x80000000 := by
  have h₂ := L.data_lo
  have h₃ := h.data_le
  show (2 ^ 32 - 0x80000000 + v.toNat) % 2 ^ 32 = _
  omega

theorem Pool.phys : Aligned (V2P v) := by
  have h₁ := h.aligned
  rw [aligned_iff, toNat_V2P h]
  omega

end

theorem Owns.pool_of {p : Word} (h : Owns L own k) (hp : own p = o) (ho : o ≠ .other) : Pool L p :=
  h.pool (hp ▸ ho)

theorem Owns.ne_zero {p : Word} (h : Owns L own k) (hp : own p = o) (ho : o ≠ .other) : p ≠ 0 :=
  (h.pool_of hp ho).ne_zero

@[simp]
theorem P2V_V2P (v : Word) : P2V (V2P v) = v := by
  exact BitVec.sub_add_cancel v KERNBASE

/-- The entry that points to a page points to it. -/
theorem target_entry {f : Word} (h : Aligned (V2P v)) (hf : Flags f) :
    target (V2P v ||| f ||| PTE_P) = some v := by
  have hflags : Flags (f ||| PTE_P) := flags_or hf (by decide)
  refine target_eq_some.mpr ⟨present_or _, ?_⟩
  rw [BitVec.or_assoc, PTE_ADDR_or h hflags, P2V_V2P]

theorem target_table (h : Aligned (V2P v)) :
    target (V2P v ||| PTE_P ||| PTE_W ||| PTE_U) = some v := by
  have hw : V2P v ||| PTE_P ||| PTE_W ||| PTE_U = V2P v ||| (PTE_W ||| PTE_U) ||| PTE_P := by
    rw [BitVec.or_assoc, BitVec.or_assoc, BitVec.or_assoc]
    rfl
  rw [hw]
  exact target_entry h (by decide)

namespace Owns

/-- The entry of a page is read from its page table. -/
theorem view_eq (h : Owns L own k) (ht : own t = .table d i) (j : Idx) :
    view k.mem d (i, j) = k.mem t j :=
  view_of_table (h.table.mp ht).2 j

/-- The view of an address space depends on its directory and its page tables only. -/
theorem view_congr (h : Owns L own k) (hd : own d = .dir) (hdir : m d = k.mem d)
    (htab : ∀ i t, own t = .table d i → m t = k.mem t) : view m d = view k.mem d :=
  Vm.view_congr hdir fun i t ht => htab i t (h.table.mpr ⟨hd, ht⟩)

end Owns

/-- The owners that no entry speaks of. -/
def Owner.Plain : Owner → Prop
  | .other | .free | .raw => True
  | _ => False

theorem Owner.Plain.ne_dir (h : o.Plain) : o ≠ .dir := by
  rintro rfl
  exact h

theorem Owner.Plain.ne_table (h : o.Plain) : o ≠ .table d i := by
  rintro rfl
  exact h

theorem Owner.Plain.ne_frame (h : o.Plain) {x : Vpn} : o ≠ .frame d x := by
  rintro rfl
  exact h

/-- The owners whose pages hold entries. -/
def Owner.Entries : Owner → Prop
  | .dir | .table _ _ => True
  | _ => False

namespace Owns

/-- Changing the owner of one page does not matter to the owners it had and gets not. -/
theorem update_eq_iff {o' : Owner} (hp : own p ≠ o') (ho : o ≠ o') :
    update own p o q = o' ↔ own q = o' := by
  rcases eq_or_ne q p with rfl | hq
  · rw [update_self]
    exact ⟨fun e => absurd e ho, fun e => absurd e hp⟩
  · rw [update_of_ne hq]

section

variable (h : Owns L own k)
include h

/-- A page changes hands between owners that no entry speaks of. -/
theorem plain {k' : Kmem} (hp : (own p).Plain) (ho : o.Plain) (hpool : o ≠ .other → Pool L p)
    (hlist : ∃ l, Linked k'.mem k'.freelist l ∧ l.Nodup ∧ ∀ q, q ∈ l ↔ update own p o q = .free)
    (hm : ∀ q, (own q).Entries → k'.mem q = k.mem q) : Owns L (update own p o) k' := by
  have hdir : ∀ d, update own p o d = .dir ↔ own d = .dir := fun d =>
    update_eq_iff hp.ne_dir ho.ne_dir
  refine ⟨hlist, ?_, ?_, ?_⟩
  · intro d i t
    rw [update_eq_iff hp.ne_table ho.ne_table, hdir, h.table]
    refine and_congr_right fun hd => ?_
    rw [tableAt_congr (hm d (by rw [hd]; trivial))]
  · intro d x q
    rw [update_eq_iff hp.ne_frame ho.ne_frame, hdir, h.frame]
    refine and_congr_right fun hd => ?_
    rw [h.view_congr hd (hm d (by rw [hd]; trivial)) fun i t ht => hm t (by rw [ht]; trivial)]
  · intro q hq
    rcases eq_or_ne q p with rfl | hd
    · rw [update_self] at hq
      exact hpool hq
    · rw [update_of_ne hd] at hq
      exact h.pool hq

theorem alloc (hne : k.freelist ≠ 0) : own k.freelist = .free ∧
    Owns L (update own k.freelist .raw) { k with freelist := k.mem k.freelist 0 } := by
  obtain ⟨l, hl, hnd, hmem⟩ := h.list
  generalize hv : k.freelist = v at hl hne
  cases hl with
  | nil => exact absurd rfl hne
  | @cons v l hv₀ hl =>
    have hfree : own v = .free := (hmem v).mp List.mem_cons_self
    obtain ⟨hnin, hnd⟩ := List.nodup_cons.mp hnd
    refine ⟨hfree, h.plain (by rw [hfree]; trivial) trivial (fun _ => h.pool (by simp [hfree]))
      ⟨l, hl, hnd, fun q => ?_⟩ fun _ _ => rfl⟩
    rcases eq_or_ne q v with rfl | hq
    · rw [update_self]
      exact ⟨fun hq => absurd hq hnin, nofun⟩
    · rw [update_of_ne hq, ← hmem]
      exact ⟨List.mem_cons_of_mem _, fun h => (List.mem_cons.mp h).resolve_left hq⟩

theorem release (hv : own v = .raw ∨ own v = .other) (hp : Pool L v) :
    Owns L (update own v .free) (k.freed v) := by
  obtain ⟨l, hl, hnd, hmem⟩ := h.list
  have hnin : v ∉ l := by
    intro hin
    rcases hv with hv | hv <;> rw [hmem, hv] at hin <;> cases hin
  refine h.plain (by rcases hv with hv | hv <;> rw [hv] <;> trivial) trivial (fun _ => hp)
    ⟨v :: l, .cons hp.ne_zero ?_, List.nodup_cons.mpr ⟨hnin, hnd⟩, fun q => ?_⟩ fun q hq => ?_
  · show Linked _ ((k.freed v).mem v 0) l
    rw [Kmem.freed_self]
    exact hl.congr fun p hp => Kmem.freed_of_ne fun e => hnin (e ▸ hp)
  · rcases eq_or_ne q v with rfl | hq
    · rw [update_self]
      exact ⟨fun _ => rfl, fun _ => List.mem_cons_self⟩
    · rw [update_of_ne hq, ← hmem, List.mem_cons]
      exact ⟨fun h => h.resolve_left hq, .inr⟩
  · refine Kmem.freed_of_ne ?_
    rintro rfl
    rcases hv with hv | hv <;> rw [hv] at hq <;> exact hq

/-- A write into a page whose words nobody reads as entries or as the list. -/
theorem scribble (c : Page) (hv : ¬ (own v).Entries ∧ own v ≠ .free) :
    Owns L own (k.setPage v c) := by
  have hm : ∀ q, (own q).Entries ∨ own q = .free → (k.setPage v c).mem q = k.mem q := by
    intro q hq
    refine Kmem.setPage_of_ne ?_
    rintro rfl
    exact hq.elim hv.1 hv.2
  obtain ⟨l, hl, hnd, hmem⟩ := h.list
  refine ⟨⟨l, hl.congr fun p hp => hm p (.inr ((hmem p).mp hp)), hnd, hmem⟩, ?_, ?_, h.pool⟩
  · intro d i t
    rw [h.table]
    refine and_congr_right fun hd => ?_
    rw [tableAt_congr (hm d (.inl (by rw [hd]; trivial)))]
  · intro d x q
    rw [h.frame]
    refine and_congr_right fun hd => ?_
    rw [h.view_congr hd (hm d (.inl (by rw [hd]; trivial)))
      fun i t ht => hm t (.inl (by rw [ht]; trivial))]

/-- A page of zeros becomes a page directory that maps nothing. -/
theorem newDir (hd : own d = .raw) (hz : k.mem d = zeros) : Owns L (update own d .dir) k := by
  have hnone : ∀ i, tableAt k.mem d i = none := by
    intro i
    rw [tableAt, hz]
    exact target_zero
  have hfree : ∀ q, update own d .dir q = .free ↔ own q = .free :=
    fun q => update_eq_iff (by rw [hd]; nofun) nofun
  have htable : ∀ q e i, update own d .dir q = .table e i ↔ own q = .table e i :=
    fun q e i => update_eq_iff (by rw [hd]; nofun) nofun
  have hframe : ∀ q e x, update own d .dir q = .frame e x ↔ own q = .frame e x :=
    fun q e x => update_eq_iff (by rw [hd]; nofun) nofun
  obtain ⟨l, hl, hnd, hmem⟩ := h.list
  refine ⟨⟨l, hl, hnd, fun p => by rw [hmem, hfree]⟩, ?_, ?_, ?_⟩
  · intro e i t
    rw [htable, h.table]
    rcases eq_or_ne e d with rfl | he
    · rw [hnone, hd]
      exact ⟨nofun, nofun⟩
    · rw [update_of_ne he]
  · intro e x p
    rw [hframe, h.frame]
    rcases eq_or_ne e d with rfl | he
    · rw [view_of_none (hnone _), hd, target_zero]
      exact ⟨nofun, nofun⟩
    · rw [update_of_ne he]
  · intro p hp
    rcases eq_or_ne p d with rfl | he
    · exact h.pool_of hd nofun
    · rw [update_of_ne he] at hp
      exact h.pool hp

/-- A page of zeros becomes the page table behind an empty entry. -/
theorem newTable (hd : own d = .dir) (ht : own t = .raw) (hz : k.mem t = zeros)
    (hi : tableAt k.mem d i = none) (hw : target w = some t) :
    Owns L (update own t (.table d i)) (k.setWord d i w) ∧
      ∀ e, own e = .dir → view (k.setWord d i w).mem e = view k.mem e := by
  have hdt : t ≠ d := ne_of_owner ht hd nofun
  have hother : ∀ q, q ≠ d → (k.setWord d i w).mem q = k.mem q := fun q => Kmem.setPage_of_ne
  have htab : ∀ e i', tableAt (k.setWord d i w).mem e i' =
      if e = d ∧ i' = i then some t else tableAt k.mem e i' := by
    intro e i'
    rcases eq_or_ne e d with rfl | he
    · rw [tableAt, Kmem.setWord, Kmem.setPage_self]
      rcases eq_or_ne i' i with rfl | hi'
      · rw [update_self, hw, if_pos ⟨rfl, rfl⟩]
      · rw [update_of_ne hi', if_neg fun h => hi' h.2, tableAt]
    · rw [tableAt_congr (hother e he), if_neg fun h => he h.1]
  have hview : ∀ e, own e = .dir → view (k.setWord d i w).mem e = view k.mem e := by
    intro e he
    funext x
    unfold view
    rw [htab]
    split_ifs with hx
    · rw [hx.1, hx.2, hi]
      show (k.setWord d i w).mem t x.2 = 0
      rw [hother t hdt, hz]
      rfl
    · cases hx' : tableAt k.mem e x.1 with
      | none => rfl
      | some t' =>
        have ht' : own t' = .table e x.1 := h.table.mpr ⟨he, hx'⟩
        have hne : t' ≠ d := ne_of_owner ht' hd nofun
        exact congrFun (hother t' hne) _
  have hfree : ∀ q, update own t (.table d i) q = .free ↔ own q = .free :=
    fun q => update_eq_iff (by rw [ht]; nofun) nofun
  have hdir : ∀ q, update own t (.table d i) q = .dir ↔ own q = .dir :=
    fun q => update_eq_iff (by rw [ht]; nofun) nofun
  have hframe : ∀ q e x, update own t (.table d i) q = .frame e x ↔ own q = .frame e x :=
    fun q e x => update_eq_iff (by rw [ht]; nofun) nofun
  obtain ⟨l, hl, hnd, hmem⟩ := h.list
  refine ⟨⟨⟨l, hl.congr fun p hp => hother p ?_, hnd, fun p => by rw [hmem, hfree]⟩,
    ?_, ?_, ?_⟩, hview⟩
  · rintro rfl
    rw [hmem, hd] at hp
    cases hp
  · intro e i' t'
    rw [htab, hdir]
    rcases eq_or_ne t' t with rfl | ht'
    · rw [update_self]
      split_ifs with hx
      · rw [hx.1, hx.2]
        exact ⟨fun _ => ⟨hd, rfl⟩, fun _ => rfl⟩
      · refine ⟨fun e => absurd ?_ hx, fun he => ?_⟩
        · cases e
          exact ⟨rfl, rfl⟩
        · have := h.table.mpr he
          rw [ht] at this
          cases this
    · rw [update_of_ne ht', h.table]
      split_ifs with hx
      · rw [hx.1, hx.2, hi]
        exact ⟨nofun, fun e => absurd (Option.some.inj e.2).symm ht'⟩
      · rfl
  · intro e x p
    rw [hframe, hdir, h.frame]
    refine and_congr_right fun he => ?_
    rw [hview e he]
  · intro p hp
    rcases eq_or_ne p t with rfl | he
    · exact h.pool_of ht nofun
    · rw [update_of_ne he] at hp
      exact h.pool hp

/-- An entry of a page table is written.  The page it pointed to and the page it points
to now are the only ones that may change hands, between `raw` and this entry. -/
theorem setPte {own' : Word → Owner} {j : Idx} (ht : own t = .table d i)
    (hkeep : ∀ q, own' q = own q ∨ (own q = .raw ∨ own q = .frame d (i, j)) ∧
      (own' q = .raw ∨ own' q = .frame d (i, j)))
    (hpage : ∀ q, own' q = .frame d (i, j) ↔ Vpn.User (i, j) ∧ target w = some q) :
    Owns L own' (k.setWord t j w) ∧ ∀ e, own e = .dir → view (k.setWord t j w).mem e =
      if e = d then update (view k.mem d) (i, j) w else view k.mem e := by
  obtain ⟨hd, htd⟩ := h.table.mp ht
  have hiff : ∀ q o, o ≠ .raw → o ≠ .frame d (i, j) → (own' q = o ↔ own q = o) := by
    intro q o ho ho'
    rcases hkeep q with he | ⟨he, he'⟩
    · rw [he]
    · refine ⟨fun e => ?_, fun e => ?_⟩
      · rw [e] at he'
        exact (he'.elim ho ho').elim
      · rw [e] at he
        exact (he.elim ho ho').elim
  have hdir : ∀ q, own' q = .dir ↔ own q = .dir := fun q => hiff q _ nofun nofun
  have hother : ∀ q, own q ≠ .table d i → (k.setWord t j w).mem q = k.mem q := by
    intro q hq
    refine Kmem.setPage_of_ne ?_
    rintro rfl
    exact hq ht
  have htab : ∀ e, own e = .dir → tableAt (k.setWord t j w).mem e = tableAt k.mem e :=
    fun e he => tableAt_congr (hother e (by rw [he]; nofun))
  have hview : ∀ e, own e = .dir → view (k.setWord t j w).mem e =
      if e = d then update (view k.mem d) (i, j) w else view k.mem e := by
    intro e he
    split_ifs with hed
    · subst hed
      funext ⟨i', j'⟩
      rcases eq_or_ne i' i with rfl | hi
      · rw [view_of_table ((congrFun (htab e he) _).trans htd), Kmem.setWord, Kmem.setPage_self]
        rcases eq_or_ne j' j with rfl | hj
        · rw [update_self, update_self]
        · rw [update_of_ne hj, update_of_ne fun e => hj (Prod.ext_iff.mp e).2,
            view_of_table htd]
      · rw [update_of_ne fun e => hi (Prod.ext_iff.mp e).1]
        unfold view
        rw [htab e he]
        cases hx : tableAt k.mem e i' with
        | none => rfl
        | some t' =>
          have ht' : own t' = .table e i' := h.table.mpr ⟨he, hx⟩
          refine congrFun (hother t' fun hc => hi ?_) _
          rw [ht'] at hc
          cases hc
          rfl
    · refine h.view_congr he (hother e (by rw [he]; nofun)) fun i' t' ht' => hother t' fun hc => ?_
      rw [ht'] at hc
      cases hc
      exact hed rfl
  obtain ⟨l, hl, hnd, hmem⟩ := h.list
  refine ⟨⟨⟨l, hl.congr fun p hp => hother p ?_, hnd, fun p => ?_⟩, ?_, ?_, ?_⟩, hview⟩
  · rw [(hmem p).mp hp]
    nofun
  · rw [hmem, hiff p .free nofun nofun]
  · intro e i' t'
    rw [hiff t' (.table e i') nofun nofun, hdir, h.table]
    refine and_congr_right fun he => ?_
    rw [htab e he]
  · intro e x p
    rw [hdir]
    by_cases hx : e = d ∧ x = (i, j)
    · obtain ⟨rfl, rfl⟩ := hx
      rw [hpage, hview e hd, if_pos rfl, update_self]
      exact ⟨fun hp => ⟨hd, hp⟩, And.right⟩
    · have hne : Owner.frame e x ≠ .frame d (i, j) := by
        intro hc
        cases hc
        exact hx ⟨rfl, rfl⟩
      rw [hiff p (.frame e x) nofun hne, h.frame]
      refine and_congr_right fun he => ?_
      rw [hview e he]
      split_ifs with hed
      · subst hed
        rw [update_of_ne fun hc => hx ⟨rfl, hc⟩]
      · rfl
  · intro p hp
    rcases hkeep p with he | ⟨he, -⟩
    · rw [he] at hp
      exact h.pool hp
    · refine h.pool ?_
      rcases he with he | he <;> rw [he] <;> nofun

end

end Owns

/-- The owners when the directory `d` and its page tables are taken apart. -/
def undir (own : Word → Owner) (d q : Word) : Owner :=
  if q = d then .raw
  else
    match own q with
    | .table e i => if e = d then .raw else .table e i
    | o => o

theorem undir_self (own : Word → Owner) (d : Word) : undir own d d = .raw := if_pos rfl

theorem undir_table (h : own q = .table d i) : undir own d q = .raw := by
  unfold undir
  split_ifs
  · rfl
  · rw [h]
    exact if_pos rfl

theorem undir_of_ne (hq : q ≠ d) (h : ∀ i, own q ≠ .table d i) : undir own d q = own q := by
  unfold undir
  rw [if_neg hq]
  split
  · rename_i e i heq
    rw [heq, if_neg]
    rintro rfl
    exact h i heq
  · rfl

/-- A directory without user pages is taken apart: it and its page tables are plain pages. -/
theorem Owns.undir (h : Owns L own k) (hd : own d = .dir)
    (hu : ∀ x : Vpn, x.User → ¬ Present (view k.mem d x)) : Owns L (undir own d) k := by
  have hcase : ∀ q, Vm.undir own d q = .raw ∧ (q = d ∨ ∃ i, own q = .table d i) ∨
      Vm.undir own d q = own q ∧ q ≠ d ∧ ∀ i, own q ≠ .table d i := by
    intro q
    rcases eq_or_ne q d with rfl | hq
    · exact .inl ⟨undir_self own q, .inl rfl⟩
    · by_cases hi : ∃ i, own q = .table d i
      · exact .inl ⟨undir_table hi.choose_spec, .inr hi⟩
      · rw [not_exists] at hi
        exact .inr ⟨undir_of_ne hq hi, hq, hi⟩
  -- an owner that is neither `raw` nor a part of `d` is the owner it was
  have hiff : ∀ q o, o ≠ .raw → o ≠ .dir → (∀ i, o ≠ .table d i) →
      (Vm.undir own d q = o ↔ own q = o) := by
    intro q o hr hdir ht
    rcases hcase q with ⟨hq, hp⟩ | ⟨hq, -⟩
    · rw [hq]
      refine ⟨fun e => absurd e.symm hr, fun e => ?_⟩
      rcases hp with rfl | ⟨i, hi⟩
      · exact absurd (e.symm.trans hd) hdir
      · exact absurd (e.symm.trans hi) (ht i)
    · rw [hq]
  have hdir : ∀ e, Vm.undir own d e = .dir ↔ own e = .dir ∧ e ≠ d := by
    intro e
    rcases hcase e with ⟨hq, hp⟩ | ⟨hq, hne, -⟩
    · rw [hq]
      refine ⟨nofun, fun he => ?_⟩
      rcases hp with rfl | ⟨i, hi⟩
      · exact absurd rfl he.2
      · rw [hi] at he
        cases he.1
    · rw [hq]
      exact ⟨fun he => ⟨he, hne⟩, And.left⟩
  have hnone : ∀ t i, Vm.undir own d t ≠ .table d i := by
    intro t i
    rcases hcase t with ⟨hq, -⟩ | ⟨hq, -, hne⟩
    · rw [hq]
      nofun
    · rw [hq]
      exact hne i
  obtain ⟨l, hl, hnd, hmem⟩ := h.list
  refine ⟨⟨l, hl, hnd, fun p => ?_⟩, ?_, ?_, ?_⟩
  · rw [hmem, hiff p .free nofun nofun fun _ => nofun]
  · intro e i t
    rw [hdir]
    rcases eq_or_ne e d with rfl | he
    · exact ⟨fun ht => absurd ht (hnone t i), fun ht => absurd rfl ht.1.2⟩
    · rw [hiff t (.table e i) nofun nofun, h.table]
      · exact ⟨fun ht => ⟨⟨ht.1, he⟩, ht.2⟩, fun ht => ⟨ht.1.1, ht.2⟩⟩
      · intro i' hc
        cases hc
        exact he rfl
  · intro e x p
    rw [hdir, hiff p (.frame e x) nofun nofun fun _ => nofun, h.frame]
    refine ⟨fun hp => ⟨⟨hp.1, ?_⟩, hp.2⟩, fun hp => ⟨hp.1.1, hp.2⟩⟩
    rintro rfl
    exact hu x hp.2.1 (target_eq_some.mp hp.2.2).1
  · intro p hp
    refine h.pool ?_
    rcases hcase p with ⟨-, rfl | ⟨i, hi⟩⟩ | ⟨hq, -⟩
    · rw [hd]
      nofun
    · rw [hi]
      nofun
    · rw [← hq]
      exact hp

end

end Xv6.Vm
