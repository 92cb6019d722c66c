/-
# `Xv6.Vm.Space` — what the paging functions do to the owners

One theorem for each function of `Xv6.Vm.Kalloc` and `Xv6.Vm.Paging`: from exact
ownership it returns with exact ownership, it changes one address space only
(`Local`), and it does to the view of that space what it is for.  `deallocuvm` and
`freevm` never stop the machine; `mappages` may, if a page is mapped already.
-/
import Xv6.Vm.Owner

namespace Xv6.Vm

open Wp List
open Function (update update_of_ne update_self)

/-- The pages an operation on the address space `d` may touch: the directory, the free
pages, and the page tables and frames of `d`. -/
def Mine (d q : Word) (o : Owner) : Prop :=
  q = d ∨ o = .free ∨ (∃ i, o = .table d i) ∨ ∃ x, o = .frame d x

/-- **What an operation on the address space `d` may do.** -/
structure Local (d : Word) (own : Word → Owner) (k : Kmem) (own' : Word → Owner) (k' : Kmem) :
    Prop where
  hands : ∀ q, own' q = own q ∨ Mine d q (own q) ∧ Mine d q (own' q)
  mem : ∀ q, ¬ Mine d q (own q) → k'.mem q = k.mem q

/-- The same, except that the page `p` may be lost: it is in no table, and not free. -/
structure Loose (d p : Word) (own : Word → Owner) (k : Kmem) (own' : Word → Owner) (k' : Kmem) :
    Prop where
  hands : ∀ q, own' q = own q ∨ Mine d q (own q) ∧ Mine d q (own' q) ∨
    q = p ∧ Mine d q (own q) ∧ own' q = .raw
  mem : ∀ q, ¬ Mine d q (own q) → k'.mem q = k.mem q

/-- The user pages of `d` outside `S` stay where they are, with what they hold. -/
def Kept (S : Vpn → Prop) (d : Word) (own : Word → Owner) (k : Kmem) (own' : Word → Owner)
    (k' : Kmem) : Prop :=
  ∀ q x, own q = .frame d x → ¬ S x → own' q = .frame d x ∧ k'.mem q = k.mem q

/-- Every page table of `d` has an entry that is present. -/
def Snug (m : Word → Page) (d : Word) : Prop :=
  ∀ i, tableAt m d i ≠ none → ∃ j, Present (view m d (i, j))

/-- There is a page table behind the entry `i` of `d`, and nothing else has changed. -/
structure Walked (d : Word) (i : Idx) (own : Word → Owner) (k : Kmem) (own' : Word → Owner)
    (k' : Kmem) : Prop extends Local d own k own' k' where
  kept : Kept (fun _ => False) d own k own' k'
  view : view k'.mem d = view k.mem d
  tables : ∀ j, j ≠ i → tableAt k'.mem d j = tableAt k.mem d j

/-- Pages of `R` may have been mapped in the kernel half of `d`. -/
structure Mapped (R : Vpn → Prop) (d : Word) (own : Word → Owner) (k : Kmem) (own' : Word → Owner)
    (k' : Kmem) : Prop extends Local d own k own' k' where
  outside : ∀ x, ¬ R x → view k'.mem d x = view k.mem d x
  snug : Snug k.mem d → Snug k'.mem d

section

variable {L : Link} {own own' own'' : Word → Owner} {k k' k'' : Kmem} {d q : Word} {i : Idx}
  {x : Vpn}

theorem mine_self {o : Owner} : Mine d d o := .inl rfl

theorem mine_free : Mine d q .free := .inr (.inl rfl)

theorem mine_table : Mine d q (.table d i) := .inr (.inr (.inl ⟨i, rfl⟩))

theorem mine_frame : Mine d q (.frame d x) := .inr (.inr (.inr ⟨x, rfl⟩))

/-- A page in hand is not touched. -/
theorem not_mine_raw {p : Word} (h : p ≠ d) : ¬ Mine d p .raw := by
  rintro (e | e | ⟨_, e⟩ | ⟨_, e⟩)
  · exact h e
  all_goals cases e

theorem not_mine_dir {e : Word} (h : e ≠ d) : ¬ Mine d e .dir := by
  rintro (e | e | ⟨_, e⟩ | ⟨_, e⟩)
  · exact h e
  all_goals cases e

namespace Local

theorem refl : Local d own k own k := ⟨fun _ => .inl rfl, fun _ _ => rfl⟩

theorem keep (h : Local d own k own' k') (hq : ¬ Mine d q (own q)) : own' q = own q :=
  (h.hands q).resolve_right fun hm => hq hm.1

theorem keep_raw (h : Local d own k own' k') (hq : own q = .raw) (hne : q ≠ d) : own' q = .raw := by
  rw [h.keep (by rw [hq]; exact not_mine_raw hne), hq]

theorem keep_dir (h : Local d own k own' k') (hq : own q = .dir) (hne : q ≠ d) : own' q = .dir := by
  rw [h.keep (by rw [hq]; exact not_mine_dir hne), hq]

theorem trans (h : Local d own k own' k') (h' : Local d own' k' own'' k'') :
    Local d own k own'' k'' := by
  constructor
  · intro q
    rcases h.hands q with e | ⟨hm, hm'⟩ <;> rcases h'.hands q with e' | ⟨hn, hn'⟩
    · exact .inl (e'.trans e)
    · rw [e] at hn
      exact .inr ⟨hn, hn'⟩
    · rw [← e'] at hm'
      exact .inr ⟨hm, hm'⟩
    · exact .inr ⟨hm, hn'⟩
  · intro q hq
    have hq' : ¬ Mine d q (own' q) := by
      rw [h.keep hq]
      exact hq
    exact (h'.mem q hq').trans (h.mem q hq)

/-- Other address spaces keep their view. -/
theorem view (h : Local d own k own' k') (ho : Owns L own k)
    (hd : own d = .dir ∨ own d = .free ∨ own d = .raw) {e : Word} (he : own e = .dir) (hed : e ≠ d) :
    Vm.view k'.mem e = Vm.view k.mem e := by
  refine ho.view_congr he (h.mem e (by rw [he]; exact not_mine_dir hed)) fun i t ht => h.mem t ?_
  · rw [ht]
    rintro (rfl | hc | ⟨_, hc⟩ | ⟨_, hc⟩)
    · rw [ht] at hd
      rcases hd with hd | hd | hd <;> cases hd
    · cases hc
    · cases hc
      exact hed rfl
    · cases hc

end Local

namespace Loose

variable {p : Word}

theorem of_local (h : Local d own k own' k') : Loose d p own k own' k' :=
  ⟨fun q => (h.hands q).imp id .inl, h.mem⟩

theorem keep (h : Loose d p own k own' k') (hq : ¬ Mine d q (own q)) : own' q = own q := by
  rcases h.hands q with e | ⟨hm, -⟩ | ⟨-, hm, -⟩
  · exact e
  · exact absurd hm hq
  · exact absurd hm hq

theorem before (h : Local d own k own' k') (h' : Loose d p own' k' own'' k'') :
    Loose d p own k own'' k'' := by
  refine ⟨fun q => ?_, fun q hq => ?_⟩
  · rcases h.hands q with e | ⟨hm, hm'⟩ <;> rcases h'.hands q with e' | ⟨hn, hn'⟩ | ⟨hq, hn, hr⟩
    · exact .inl (e'.trans e)
    · rw [e] at hn
      exact .inr (.inl ⟨hn, hn'⟩)
    · rw [e] at hn
      exact .inr (.inr ⟨hq, hn, hr⟩)
    · rw [← e'] at hm'
      exact .inr (.inl ⟨hm, hm'⟩)
    · exact .inr (.inl ⟨hm, hn'⟩)
    · exact .inr (.inr ⟨hq, hm, hr⟩)
  · have hq' : ¬ Mine d q (own' q) := by
      rw [h.keep hq]
      exact hq
    exact (h'.mem q hq').trans (h.mem q hq)

theorem after (h : Loose d p own k own' k') (h' : Local d own' k' own'' k'') (hp : p ≠ d) :
    Loose d p own k own'' k'' := by
  refine ⟨fun q => ?_, fun q hq => ?_⟩
  · rcases h.hands q with e | ⟨hm, hm'⟩ | ⟨rfl, hm, hr⟩
    · rcases h'.hands q with e' | ⟨hn, hn'⟩
      · exact .inl (e'.trans e)
      · rw [e] at hn
        exact .inr (.inl ⟨hn, hn'⟩)
    · rcases h'.hands q with e' | ⟨-, hn'⟩
      · rw [← e'] at hm'
        exact .inr (.inl ⟨hm, hm'⟩)
      · exact .inr (.inl ⟨hm, hn'⟩)
    · refine .inr (.inr ⟨rfl, hm, ?_⟩)
      exact h'.keep_raw hr hp
  · have hq' : ¬ Mine d q (own' q) := by
      rw [h.keep hq]
      exact hq
    exact (h'.mem q hq').trans (h.mem q hq)

end Loose

namespace Kept

variable {S S' : Vpn → Prop}

theorem refl : Kept S d own k own k := fun _ _ hq _ => ⟨hq, rfl⟩

theorem mono (h : Kept S d own k own' k') (hS : ∀ x, S x → S' x) : Kept S' d own k own' k' :=
  fun q x hq hx => h q x hq fun hc => hx (hS x hc)

theorem trans (h : Kept S d own k own' k') (h' : Kept S d own' k' own'' k'') :
    Kept S d own k own'' k'' := by
  intro q x hq hx
  obtain ⟨hq', hm⟩ := h q x hq hx
  obtain ⟨hq'', hm'⟩ := h' q x hq' hx
  exact ⟨hq'', hm'.trans hm⟩

end Kept

/-- An entry is written, into a page table that was there or is new. -/
theorem Snug.update {m m' : Word → Page} {w : Word} (h : Snug m d) (hw : Present w)
    (hview : view m' d = update (view m d) x w)
    (htab : ∀ j, j ≠ x.1 → tableAt m' d j = tableAt m d j) : Snug m' d := by
  intro i hi
  rw [hview]
  rcases eq_or_ne i x.1 with rfl | hix
  · exact ⟨x.2, by rwa [update_self]⟩
  · rw [htab i hix] at hi
    obtain ⟨j, hj⟩ := h i hi
    refine ⟨j, ?_⟩
    rwa [update_of_ne fun e => hix (congrArg Prod.fst e)]

namespace Mapped

variable {R R' R'' : Vpn → Prop}

theorem refl : Mapped R d own k own k := ⟨.refl, fun _ _ => rfl, id⟩

theorem trans (h : Mapped R d own k own' k') (h' : Mapped R' d own' k' own'' k'')
    (hR : ∀ x, R x → R'' x) (hR' : ∀ x, R' x → R'' x) : Mapped R'' d own k own'' k'' := by
  refine ⟨h.toLocal.trans h'.toLocal, fun x hx => ?_, fun hs => h'.snug (h.snug hs)⟩
  rw [h'.outside x fun hc => hx (hR' x hc), h.outside x fun hc => hx (hR x hc)]

end Mapped

/-! ## Loads, stores and the allocator -/

variable {α : Type} {Q : α → Kmem → Prop} {E : Stop → Prop} {v : Word}

theorem load_bind {f : Word → M α} (h : Meets (f (k.mem v i)) k Q E) :
    Meets (load v i >>= f) k Q E :=
  of_bind (of_bind (of_get (of_pure h)))

theorem store_bind {f : Unit → M α} {w : Word} (h : Meets (f ()) (k.setWord v i w) Q E) :
    Meets (store v i w >>= f) k Q E :=
  of_bind (of_modify h)

theorem fill_bind {f : Unit → M α} {c : Page} (h : Meets (f ()) (k.setPage v c) Q E) :
    Meets (fill v c >>= f) k Q E :=
  of_bind (of_modify h)

/-- There is no free page. -/
def NoFree (own : Word → Owner) : Prop := ∀ q, own q ≠ .free

theorem kalloc_meets (h : Owns L own k) : Meets kalloc k (fun r k' =>
    r = 0 ∧ k' = k ∧ NoFree own ∨
      own r = .free ∧ k'.mem = k.mem ∧ Owns L (update own r .raw) k') fun _ => False := by
  refine of_bind (of_get (of_ite (fun hz => of_pure (.inl ⟨rfl, rfl, fun q hq => ?_⟩)) fun hz => ?_))
  · obtain ⟨l, hl, -, hmem⟩ := h.list
    rw [hz] at hl
    cases hl with
    | nil => cases (hmem q).mpr hq
    | cons hv => exact hv rfl
  · obtain ⟨hfree, ho⟩ := h.alloc hz
    exact of_bind (of_set (of_pure (.inr ⟨hfree, rfl, ho⟩)))

theorem kfree_meets (hp : Pool L v) :
    Meets (kfree L v) k (fun _ k' => k' = k.freed v) fun _ => False :=
  of_ite (fun _ => of_modify rfl) (absurd hp)

/-! ## Page tables -/

theorem walk_meets (h : Owns L own k) (hd : own d = .dir) (va : Word) :
    Meets (walkpgdir d va false) k (fun r k' => k' = k ∧
      (r = none ∧ tableAt k.mem d (PDX va) = none ∨
        ∃ t, r = some (t, PTX va) ∧ own t = .table d (PDX va))) fun _ => False := by
  refine load_bind (of_ite (fun hp => of_pure ⟨rfl, .inr ⟨_, rfl, ?_⟩⟩) fun hp =>
    of_ite (fun _ => of_pure ⟨rfl, .inl ⟨rfl, if_neg hp⟩⟩) (absurd rfl))
  exact h.table.mpr ⟨hd, target_eq_some.mpr ⟨hp, rfl⟩⟩

theorem walk_alloc_meets (h : Owns L own k) (hd : own d = .dir) (va : Word) :
    Meets (walkpgdir d va true) k (fun r k' =>
      r = none ∧ k' = k ∧ NoFree own ∧ tableAt k.mem d (PDX va) = none ∨
      ∃ t own', r = some (t, PTX va) ∧ Owns L own' k' ∧ own' t = .table d (PDX va) ∧
        Walked d (PDX va) own k own' k') fun _ => False := by
  refine load_bind (of_ite (fun hp => of_pure (.inr ⟨_, own, rfl, h, ?_, .refl, .refl, rfl,
    fun _ _ => rfl⟩)) fun hp => of_ite (by simp) fun _ => call (kalloc_meets h) (fun _ => id) ?_)
  · exact h.table.mpr ⟨hd, target_eq_some.mpr ⟨hp, rfl⟩⟩
  rintro t k₁ (⟨rfl, rfl, hno⟩ | ⟨hfree, hmem, h₁⟩)
  · exact of_ite (fun _ => of_pure (.inl ⟨rfl, rfl, hno, if_neg hp⟩)) (absurd rfl)
  have hpool : Pool L t := h.pool_of hfree (by simp)
  refine of_ite (fun hz => absurd hz hpool.ne_zero) fun _ => fill_bind (store_bind (of_pure ?_))
  have hne : t ≠ d := ne_of_owner hfree hd (by simp)
  have hraw : update own t .raw t = .raw := update_self ..
  have h₂ : Owns L (update own t .raw) (k₁.setPage t zeros) :=
    h₁.scribble zeros ⟨by rw [hraw]; exact id, by rw [hraw]; simp⟩
  have hother : ∀ q, q ≠ t → (k₁.setPage t zeros).mem q = k.mem q := by
    intro q hq
    rw [Kmem.setPage_of_ne hq, hmem]
  have hd₂ : update own t .raw d = .dir := by rw [update_of_ne hne.symm, hd]
  have hnone : tableAt (k₁.setPage t zeros).mem d (PDX va) = none := by
    rw [tableAt, hother d hne.symm]
    exact if_neg hp
  obtain ⟨h₃, hview⟩ := h₂.newTable hd₂ hraw (Kmem.setPage_self ..) hnone
    (target_table hpool.phys)
  have hmem' : ∀ q, q ≠ t → q ≠ d → ((k₁.setPage t zeros).setWord d (PDX va)
      (V2P t ||| PTE_P ||| PTE_W ||| PTE_U)).mem q = k.mem q :=
    fun q hqt hqd => (Kmem.setWord_of_ne hqd).trans (hother q hqt)
  have hown : ∀ q, q ≠ t → update (update own t .raw) t (.table d (PDX va)) q = own q := by
    intro q hq
    rw [update_of_ne hq, update_of_ne hq]
  refine .inr ⟨t, _, rfl, h₃, update_self .., ⟨fun q => ?_, fun q hq => ?_⟩, ?_, ?_, ?_⟩
  · rcases eq_or_ne q t with rfl | hq
    · rw [update_self, hfree]
      exact .inr ⟨mine_free, mine_table⟩
    · exact .inl (hown q hq)
  · refine hmem' q ?_ fun e => hq (.inl e)
    rintro rfl
    rw [hfree] at hq
    exact hq mine_free
  · intro q x hq _
    have hqt : q ≠ t := ne_of_owner hq hfree (by simp)
    exact ⟨(hown q hqt).trans hq, hmem' q hqt (ne_of_owner hq hd (by simp))⟩
  · rw [hview d hd₂]
    exact h.view_congr hd (hother d hne.symm) fun i t' ht' =>
      hother t' (ne_of_owner ht' hfree (by simp))
  · intro j hj
    rw [tableAt, Kmem.setWord, Kmem.setPage_self, update_of_ne hj, hother d hne.symm, tableAt]

/-- The body of the loop of `mappages`: what holds before the entry is written. -/
theorem mapPage_meets (h : Owns L own k) (hd : own d = .dir) (a pa perm : Word) :
    Meets (mapPage d a pa perm) k (fun ok k' =>
      ok = false ∧ k' = k ∧ NoFree own ∧ tableAt k.mem d (PDX a) = none ∨
      ok = true ∧ ¬ Present (view k.mem d (vpn a)) ∧ ∃ own₁ k₁ t, Owns L own₁ k₁ ∧
        own₁ d = .dir ∧ Walked d (PDX a) own k own₁ k₁ ∧ own₁ t = .table d (PDX a) ∧
        k' = k₁.setWord t (PTX a) (pa ||| perm ||| PTE_P))
      fun e => e = .panic .remap ∧ Present (view k.mem d (vpn a)) := by
  refine call (walk_alloc_meets h hd a) (fun _ => False.elim) ?_
  rintro r k₁ (⟨rfl, rfl, hno, hnone⟩ | ⟨t, own₁, rfl, h₁, ht, hwalk⟩)
  · exact of_pure (.inl ⟨rfl, rfl, hno, hnone⟩)
  have hentry : k₁.mem t (PTX a) = view k.mem d (vpn a) := by
    rw [← hwalk.view]
    exact (h₁.view_eq ht _).symm
  refine load_bind (of_ite (fun hp => of_throw ⟨rfl, ?_⟩) fun hp => store_bind (of_pure ?_))
  · rw [← hentry]
    exact hp
  · rw [hentry] at hp
    exact .inr ⟨rfl, hp, own₁, k₁, t, h₁, (h₁.table.mp ht).1, hwalk, ht, rfl⟩

/-- A write into a page table of `d` is local to `d`. -/
theorem Local.setWord (h : Local d own k own' k') {t : Word} (ht : own' t = .table d i) (j : Idx)
    (w : Word) : Local d own k own' (k'.setWord t j w) := by
  refine ⟨h.hands, fun q hq => ?_⟩
  have hqt : q ≠ t := by
    rintro rfl
    have hkeep := h.keep hq
    rw [ht] at hkeep
    rw [← hkeep] at hq
    exact hq mine_table
  exact (Kmem.setPage_of_ne hqt).trans (h.mem q hq)

/-- The body of the loop for a page of the kernel half. -/
theorem mapPage_kernel (h : Owns L own k) (hd : own d = .dir) {a : Word} (pa perm : Word)
    (ha : ¬ (vpn a).User) (habs : ¬ Present (view k.mem d (vpn a))) :
    Meets (mapPage d a pa perm) k (fun ok k' =>
      ok = false ∧ k' = k ∧ NoFree own ∧ tableAt k.mem d (PDX a) = none ∨
      ok = true ∧ ∃ own', Owns L own' k' ∧ own' d = .dir ∧ Mapped (· = vpn a) d own k own' k' ∧
        view k'.mem d = update (view k.mem d) (vpn a) (pa ||| perm ||| PTE_P)) fun _ => False := by
  refine mono (mapPage_meets h hd a pa perm) ?_ fun e he => habs he.2
  rintro ok k' (hbad | ⟨rfl, -, own₁, k₁, t, h₁, hd₁, hwalk, ht, rfl⟩)
  · exact .inl hbad
  have hpage : ∀ q, own₁ q = .frame d (vpn a) ↔
      (vpn a).User ∧ target (pa ||| perm ||| PTE_P) = some q :=
    fun q => ⟨fun hq => absurd (h₁.frame.mp hq).2.1 ha, fun hq => absurd hq.1 ha⟩
  obtain ⟨h₂, hview₂⟩ := h₁.setPte ht (fun q => .inl rfl) hpage
  have hview : view (k₁.setWord t (PTX a) (pa ||| perm ||| PTE_P)).mem d =
      update (view k.mem d) (vpn a) (pa ||| perm ||| PTE_P) := by
    rw [hview₂ d hd₁, if_pos rfl, hwalk.view]
    rfl
  refine .inr ⟨rfl, own₁, h₂, hd₁, ⟨hwalk.toLocal.setWord ht _ _, fun x hx => ?_, fun hs => ?_⟩, hview⟩
  · rw [hview, update_of_ne hx]
  · refine hs.update (present_or _) hview fun j hj => ?_
    rw [← hwalk.tables j hj]
    exact congrFun (tableAt_congr (Kmem.setWord_of_ne (ne_of_owner hd₁ ht nofun))) j

/-- The pages of a range that ends with the page `last`. -/
def Span (a last : Word) (x : Vpn) : Prop := a.toNat ≤ x.num * 4096 ∧ x.num * 4096 ≤ last.toNat

instance (a last : Word) (x : Vpn) : Decidable (Span a last x) := inferInstanceAs (Decidable (_ ∧ _))

section

variable {a last : Word} (ha : a.toNat % 4096 = 0)

include ha

theorem span_first (hle : a.toNat ≤ last.toNat) : Span a last (vpn a) := by
  have := (eq_vpn_iff ha).mp rfl
  exact ⟨this.ge, this.le.trans hle⟩

theorem span_last (hx : Span a a x) : x = vpn a :=
  (eq_vpn_iff ha).mpr (Nat.le_antisymm hx.2 hx.1)

theorem base_vpn : (vpn a).base = a := by
  rw [← BitVec.toNat_inj, Vpn.toNat_base, (eq_vpn_iff ha).mp rfl]

theorem toNat_next_page (hlast : last.toNat % 4096 = 0) (hlt : a.toNat < last.toNat) :
    (a + PGSIZE).toNat = a.toNat + 4096 := by
  show (a.toNat + 4096) % 2 ^ 32 = _
  omega

theorem span_next (hlast : last.toNat % 4096 = 0) (hlt : a.toNat < last.toNat) (x : Vpn) :
    Span (a + PGSIZE) last x ↔ Span a last x ∧ x ≠ vpn a := by
  rw [Ne, eq_vpn_iff ha, Span, Span, toNat_next_page ha hlast hlt]
  omega

end

theorem toNat_last {va size : Word} (hsize : 0 < size.toNat) (hend : va.toNat + size.toNat ≤ 2 ^ 32) :
    (PGROUNDDOWN (va + size - 1)).toNat = (va.toNat + size.toNat - 1) / 4096 * 4096 := by
  rw [toNat_PGROUNDDOWN, BitVec.toNat_sub, BitVec.toNat_add]
  show (2 ^ 32 - 1 + (va.toNat + size.toNat) % 2 ^ 32) % 2 ^ 32 / 4096 * 4096 = _
  omega

/-- **The loop of `mappages`**, for an invariant `I` that mapping a page keeps: it may speak of a
ghost state `g`. -/
theorem mapLoop_meets {γ : Type} {I : γ → Kmem → Prop} {B : γ → Kmem → Vpn → Prop}
    {last perm : Word} (hlast : last.toNat % 4096 = 0) (n : Nat) {g : γ} {a : Word} (pa : Word)
    (hI : I g k) (ha : a.toNat % 4096 = 0) (hle : a.toNat ≤ last.toNat)
    (hn : last.toNat < a.toNat + 4096 * n)
    (hpage : ∀ {g₁ : γ} {k₁ : Kmem} {b : Word} (pb : Word), I g₁ k₁ → b.toNat % 4096 = 0 →
      Span a last (vpn b) → view k₁.mem d (vpn b) = view k.mem d (vpn b) →
      Meets (mapPage d b pb perm) k₁ (fun ok k' => ok = false ∧ k' = k₁ ∧ B g₁ k₁ (vpn b) ∨
        ok = true ∧ (∃ g', I g' k') ∧
          view k'.mem d = update (view k₁.mem d) (vpn b) (pb ||| perm ||| PTE_P)) E) :
    Meets (mapLoop d last perm n a pa) k (fun ok k' => ∃ g', I g' k' ∧
      (∀ x, ¬ Span a last x → view k'.mem d x = view k.mem d x) ∧
      (ok = false ∧ (∃ x, Span a last x ∧ B g' k' x) ∨
        ok = true ∧ ∀ x, Span a last x → view k'.mem d x = pa + (x.base - a) ||| perm ||| PTE_P))
      E := by
  induction n generalizing g k a pa with
  | zero => omega
  | succ n ih =>
    have hfirst := span_first ha hle
    have hword : ∀ w : Word, w + ((vpn a).base - a) = w := by
      intro w
      rw [base_vpn ha, BitVec.sub_self, BitVec.add_zero]
    refine call (hpage pa hI ha hfirst rfl) (fun _ => id) ?_
    rintro ok k₁ (⟨rfl, rfl, hB⟩ | ⟨rfl, ⟨g₁, h₁⟩, hview⟩)
    · exact of_pure ⟨g, hI, fun _ _ => rfl, .inl ⟨rfl, vpn a, hfirst, hB⟩⟩
    have hself : view k₁.mem d (vpn a) = pa ||| perm ||| PTE_P := by
      rw [hview, update_self]
    have hother : ∀ x, x ≠ vpn a → view k₁.mem d x = view k.mem d x := by
      intro x hx
      rw [hview, update_of_ne hx]
    refine of_true (of_ite (fun heq => ?_) fun hne => ?_)
    · subst heq
      refine of_pure ⟨g₁, h₁, fun x hx => hother x fun e => hx (e ▸ hfirst), .inr ⟨rfl, fun x hx => ?_⟩⟩
      rw [span_last ha hx, hself, hword]
    · have hlt : a.toNat < last.toNat :=
        Nat.lt_of_le_of_ne hle fun e => hne (BitVec.toNat_inj.mp e)
      have hnext := toNat_next_page ha hlast hlt
      have hspan := span_next ha hlast hlt
      refine mono (ih (pa + PGSIZE) h₁ (by omega) (by omega) (by omega)
        fun pb hb hb₀ hx hsame => hpage pb hb hb₀ ((hspan _).mp hx).1
          (hsame.trans (hother _ ((hspan _).mp hx).2))) ?_ fun _ => id
      rintro ok k₂ ⟨g₂, h₂, hout, hok⟩
      refine ⟨g₂, h₂, fun x hx => ?_, hok.imp ?_ ?_⟩
      · rw [hout x fun hc => hx ((hspan x).mp hc).1, hother x fun e => hx (e ▸ hfirst)]
      · rintro ⟨hok, x, hx, hB⟩
        exact ⟨hok, x, ((hspan x).mp hx).1, hB⟩
      · rintro ⟨hok, hall⟩
        refine ⟨hok, fun x hx => ?_⟩
        rcases eq_or_ne x (vpn a) with rfl | hxa
        · rw [hout _ fun hc => ((hspan _).mp hc).2 rfl, hself, hword]
        · have hphys : pa + PGSIZE + (x.base - (a + PGSIZE)) = pa + (x.base - a) := by
            bv_omega
          rw [hall x ((hspan x).mpr ⟨hx, hxa⟩), hphys]

/-- The loop over pages of the kernel half that are not mapped yet. -/
theorem mapLoop_kernel {last perm : Word} (hlast : last.toNat % 4096 = 0) (n : Nat) {a : Word}
    (pa : Word) (h : Owns L own k) (hd : own d = .dir) (hker : 2 ^ 31 ≤ a.toNat)
    (ha : a.toNat % 4096 = 0) (hle : a.toNat ≤ last.toNat) (hn : last.toNat < a.toNat + 4096 * n)
    (habs : ∀ x, Span a last x → ¬ Present (view k.mem d x)) :
    Meets (mapLoop d last perm n a pa) k (fun ok k' => ∃ own', Owns L own' k' ∧ own' d = .dir ∧
      Mapped (Span a last) d own k own' k' ∧
      (ok = false ∧ NoFree own' ∧ (∃ x, Span a last x ∧ tableAt k'.mem d x.1 = none) ∨
        ok = true ∧ ∀ x, Span a last x → view k'.mem d x = pa + (x.base - a) ||| perm ||| PTE_P))
      fun _ => False := by
  refine mono (mapLoop_meets (I := fun own' k' => Owns L own' k' ∧ own' d = .dir ∧
      Mapped (Span a last) d own k own' k') (B := fun own' k' x => NoFree own' ∧
      tableAt k'.mem d x.1 = none) hlast n pa ⟨h, hd, .refl⟩ ha hle hn ?_) ?_ fun _ => id
  · rintro own₁ k₁ b pb ⟨h₁, hd₁, hmap₁⟩ hb hx hsame
    have huser : ¬ (vpn b).User := by
      rw [user_vpn]
      have := (eq_vpn_iff hb).mp rfl ▸ hx.1
      exact Nat.not_lt.mpr (hker.trans this)
    refine mono (mapPage_kernel h₁ hd₁ pb perm huser (hsame ▸ habs _ hx)) ?_ fun _ => id
    rintro ok k' (⟨rfl, hbad⟩ | ⟨rfl, own', h', hd', hmap, hview⟩)
    · exact .inl ⟨rfl, hbad⟩
    · exact .inr ⟨rfl, ⟨own', h', hd', hmap₁.trans hmap (fun _ => id) fun x e => e ▸ hx⟩, hview⟩
  · rintro ok k' ⟨own', ⟨h', hd', hmap⟩, -, ⟨rfl, x, hx, hno, hnone⟩ | hall⟩
    · exact ⟨own', h', hd', hmap, .inl ⟨rfl, hno, x, hx, hnone⟩⟩
    · exact ⟨own', h', hd', hmap, .inr hall⟩

theorem mappages_kmap (h : Owns L own k) (hd : own d = .dir) {e : Kmap} (he : e.Ok)
    (habs : ∀ x : Vpn, e.Covers x.base → ¬ Present (view k.mem d x)) :
    Meets (mappages d e.virt (e.physEnd - e.physStart) e.physStart e.perm) k (fun ok k' =>
      ∃ own', Owns L own' k' ∧ own' d = .dir ∧ Mapped (fun x => e.Covers x.base) d own k own' k' ∧
      (ok = false ∧ NoFree own' ∧ (∃ x : Vpn, e.Covers x.base ∧ tableAt k'.mem d x.1 = none) ∨
        ok = true ∧ ∀ x : Vpn, e.Covers x.base →
          view k'.mem d x = e.phys x.base ||| e.perm ||| PTE_P)) fun _ => False := by
  have hvirt := he.virt
  have hsize := he.size
  have hpos := he.pos
  have htop := he.top
  have hfirst : PGROUNDDOWN e.virt = e.virt := by
    rw [← BitVec.toNat_inj, toNat_PGROUNDDOWN]
    omega
  have hlast : (PGROUNDDOWN (e.virt + e.size - 1)).toNat = e.virt.toNat + e.size.toNat - 4096 := by
    rw [toNat_last (by omega) (by omega)]
    omega
  have hcov : Span e.virt (PGROUNDDOWN (e.virt + e.size - 1)) = fun x : Vpn => e.Covers x.base := by
    funext x
    rw [Span, hlast, Kmap.covers_base he, eq_iff_iff]
    omega
  have hturns : turns = 1048577 := rfl
  show Meets (mapLoop d (PGROUNDDOWN (e.virt + e.size - 1)) e.perm turns (PGROUNDDOWN e.virt)
    e.physStart) k _ _
  rw [hfirst]
  refine mono (mapLoop_kernel (by omega) turns e.physStart h hd he.kernel hvirt
    (by omega) (by omega) ?_) ?_ fun _ => id
  · rw [hcov]
    exact habs
  · rw [hcov]
    intro ok k' hpost
    exact hpost

/-- An entry of `kmap` covers pages of the kernel half only. -/
theorem Kmap.Ok.kernel_page {e : Kmap} (he : e.Ok) (hx : e.Covers x.base) : ¬ x.User := by
  intro hu
  have h₁ := (Kmap.covers_base he).mp hx
  have h₂ := he.kernel
  unfold Vpn.User at hu
  unfold Vpn.num at h₁
  omega

/-- **The loop of `setupkvm`**: after the entries `done`, the entries `es`. -/
theorem mapKernel_meets (es : List Kmap) : ∀ (done : List Kmap) {own : Word → Owner} {k : Kmem},
    (done ++ es).Pairwise Kmap.Apart → (∀ e ∈ es, e.Ok) → Owns L own k → own d = .dir →
    (∀ x : Vpn, ¬ x.User → view k.mem d x = kmapWord done x) →
    Meets (mapKernel d es) k (fun ok k' => ∃ own', Owns L own' k' ∧ own' d = .dir ∧
      Mapped (fun x => ∃ e ∈ es, e.Covers x.base) d own k own' k' ∧
      (ok = false ∧ NoFree own' ∧
          (∃ e ∈ es, ∃ x : Vpn, e.Covers x.base ∧ tableAt k'.mem d x.1 = none) ∨
        ok = true ∧ ∀ x : Vpn, ¬ x.User → view k'.mem d x = kmapWord (done ++ es) x))
      fun _ => False := by
  induction es with
  | nil =>
    intro done own k _ _ h hd hview
    rw [append_nil]
    exact of_pure ⟨own, h, hd, .refl, .inr ⟨rfl, hview⟩⟩
  | cons e es ih =>
    intro done own k hap hok h hd hview
    have he : e.Ok := hok e mem_cons_self
    have hdone : ∀ f ∈ done, f.Apart e :=
      fun f hf => (pairwise_append.mp hap).2.2 f hf e mem_cons_self
    refine call (mappages_kmap h hd he fun x hx => ?_) (fun _ => id) ?_
    · rw [hview x (he.kernel_page hx), kmapWord_of_not_covers fun f hf hc => hdone f hf x hc hx]
      exact not_present_zero
    rintro ok k₁ ⟨own₁, h₁, hd₁, hmap₁, ⟨rfl, hno, x, hx, hnone⟩ | ⟨rfl, hall⟩⟩
    · exact of_false (of_pure ⟨own₁, h₁, hd₁,
        hmap₁.trans .refl (fun x hx => ⟨e, mem_cons_self, hx⟩) fun _ => id,
        .inl ⟨rfl, hno, e, mem_cons_self, x, hx, hnone⟩⟩)
    have hsplit : done ++ e :: es = (done ++ [e]) ++ es := by
      rw [append_assoc]
      rfl
    rw [hsplit] at hap ⊢
    refine of_true (mono (ih (done ++ [e]) hap (fun f hf => hok f (mem_cons_of_mem _ hf)) h₁ hd₁
      fun x hx => ?_) ?_ fun _ => id)
    · rw [kmapWord_snoc hdone]
      split_ifs with hc
      · exact hall x hc
      · rw [hmap₁.outside x hc, hview x hx]
    · rintro ok k₂ ⟨own₂, h₂, hd₂, hmap₂, hok₂⟩
      refine ⟨own₂, h₂, hd₂, hmap₁.trans hmap₂ (fun x hx => ⟨e, mem_cons_self, hx⟩) ?_,
        hok₂.imp ?_ id⟩
      · rintro x ⟨f, hf, hx⟩
        exact ⟨f, mem_cons_of_mem _ hf, hx⟩
      · rintro ⟨hok, hno, f, hf, hx⟩
        exact ⟨hok, hno, f, mem_cons_of_mem _ hf, hx⟩

end

end Xv6.Vm
