/-
# `Xv6.Vm.Mappages` — what `mappages` does to any page directory

The other modules follow the pages of a whole system.  Here the directory is any one
whose page tables are its own (`Proper`): different entries lead to different tables,
which are not the directory and not free.  Nothing is asked of the pages that are
mapped.  Without it the result fails: if two entries lead to the same table, then a page
that is mapped behind one of them appears behind the other.
-/
import Xv6.Vm.Space

namespace Xv6.Vm

open Wp
open Function (update update_of_ne update_self)

/-- **The page tables of `d` are its own**, and `l` is the free list. -/
structure Proper (l : List Word) (d : Word) (k : Kmem) : Prop where
  list : Linked k.mem k.freelist l
  nodup : l.Nodup
  aligned : ∀ p ∈ l, Aligned (V2P p)
  dir : d ∉ l
  apart : ∀ {i t}, tableAt k.mem d i = some t → t ≠ d ∧ t ∉ l
  inj : ∀ {i j t}, tableAt k.mem d i = some t → tableAt k.mem d j = some t → i = j

namespace Proper

variable {l : List Word} {d : Word} {k : Kmem}

/-- A new table, of zeros, behind an entry that leads nowhere. -/
theorem newTable {p : Word} {i : Idx} {k' : Kmem} (h : Proper (p :: l) d k)
    (hnone : tableAt k.mem d i = none) (hlist : Linked k.mem k'.freelist l)
    (hk : k'.mem = ((k.setPage p zeros).setWord d i (V2P p ||| PTE_P ||| PTE_W ||| PTE_U)).mem) :
    Proper l d k' ∧ tableAt k'.mem d i = some p ∧ view k'.mem d = view k.mem d := by
  obtain ⟨hp, hnd⟩ := List.nodup_cons.mp h.nodup
  obtain ⟨hdp, hdl⟩ := not_or.mp (mt List.mem_cons.mpr h.dir)
  have hself : tableAt k'.mem d i = some p := by
    rw [tableAt, hk, Kmem.setWord, Kmem.setPage_self, update_self]
    exact target_table (h.aligned p List.mem_cons_self)
  have hother : ∀ {j}, j ≠ i → tableAt k'.mem d j = tableAt k.mem d j := by
    intro j hj
    rw [tableAt, hk, Kmem.setWord, Kmem.setPage_self, update_of_ne hj,
      Kmem.setPage_of_ne hdp, tableAt]
  have hmem : ∀ q, q ≠ p → q ≠ d → k'.mem q = k.mem q := by
    intro q hqp hqd
    rw [hk, Kmem.setWord_of_ne hqd, Kmem.setPage_of_ne hqp]
  have hold : ∀ {j t}, tableAt k.mem d j = some t → t ≠ d ∧ t ≠ p ∧ t ∉ l := fun ht =>
    ⟨(h.apart ht).1, not_or.mp (mt List.mem_cons.mpr (h.apart ht).2)⟩
  refine ⟨⟨hlist.congr fun q hq => hmem q (fun e => hp (e ▸ hq)) fun e => hdl (e ▸ hq), hnd,
    fun q hq => h.aligned q (List.mem_cons_of_mem p hq), hdl, fun {j t} ht => ?_,
    fun {j j' t} ht ht' => ?_⟩, hself, funext fun x => ?_⟩
  · rcases eq_or_ne j i with rfl | hj
    · cases hself.symm.trans ht
      exact ⟨Ne.symm hdp, hp⟩
    · rw [hother hj] at ht
      exact ⟨(hold ht).1, (hold ht).2.2⟩
  · rcases eq_or_ne j i with rfl | hj <;> rcases eq_or_ne j' j with rfl | hj'
    · rfl
    · cases hself.symm.trans ht
      rw [hother hj'] at ht'
      exact absurd rfl (hold ht').2.1
    · rfl
    · rw [hother hj] at ht
      rcases eq_or_ne j' i with rfl | hi
      · cases hself.symm.trans ht'
        exact absurd rfl (hold ht).2.1
      · rw [hother hi] at ht'
        exact h.inj ht ht'
  · rcases eq_or_ne x.1 i with rfl | hx
    · have hzero : k'.mem p = zeros := by
        rw [hk, Kmem.setWord_of_ne (Ne.symm hdp), Kmem.setPage_self]
      rw [view_of_none hnone, view_of_table hself, hzero]
      rfl
    · unfold view
      rw [hother hx]
      cases ht : tableAt k.mem d x.1 with
      | none => rfl
      | some t => exact congrFun (hmem t (hold ht).2.1 (hold ht).1) _

/-- A store to an entry of a page table. -/
theorem setWord (h : Proper l d k) {i : Idx} {t : Word} (ht : tableAt k.mem d i = some t) (j : Idx)
    (w : Word) : Proper l d (k.setWord t j w) ∧
      view (k.setWord t j w).mem d = update (view k.mem d) (i, j) w := by
  obtain ⟨htd, htl⟩ := h.apart ht
  have htab : tableAt (k.setWord t j w).mem d = tableAt k.mem d :=
    tableAt_congr (Kmem.setWord_of_ne htd.symm)
  refine ⟨⟨h.list.congr fun q hq => Kmem.setWord_of_ne fun e => htl (e ▸ hq), h.nodup, h.aligned,
    h.dir, fun ht' => h.apart (htab ▸ ht'), fun h₁ h₂ => h.inj (htab ▸ h₁) (htab ▸ h₂)⟩,
    funext fun x => ?_⟩
  rcases eq_or_ne x.1 i with rfl | hx
  · rw [view_of_table (congrFun htab _ |>.trans ht), Kmem.setWord, Kmem.setPage_self]
    rcases eq_or_ne x.2 j with rfl | hj
    · rw [update_self, update_self]
    · rw [update_of_ne hj, update_of_ne fun e => hj (congrArg Prod.snd e)]
      exact (view_of_table ht _).symm
  · rw [update_of_ne fun e => hx (congrArg Prod.fst e)]
    unfold view
    rw [htab]
    cases ht' : tableAt k.mem d x.1 with
    | none => rfl
    | some t' =>
      have hne : t' ≠ t := by
        rintro rfl
        exact hx (h.inj ht' ht)
      exact congrFun (Kmem.setWord_of_ne hne) _

/-- `walkpgdir` finds the table, or makes one. -/
theorem walk (h : Proper l d k) (a : Word) : Meets (walkpgdir d a true) k (fun r k' =>
    r = none ∧ k' = k ∨ ∃ t l', r = some (t, PTX a) ∧ Proper l' d k' ∧
      tableAt k'.mem d (PDX a) = some t ∧ view k'.mem d = view k.mem d) fun _ => False := by
  refine load_bind (of_ite (fun hp => of_pure (.inr ⟨_, l, rfl, h, target_eq_some.mpr ⟨hp, rfl⟩,
    rfl⟩)) fun hp => of_ite nofun fun _ => of_bind (of_bind (of_get (of_ite (fun _ => of_pure
      (of_ite (fun _ => of_pure (.inl ⟨rfl, rfl⟩)) (absurd rfl))) fun hz => of_bind (of_set (of_pure
        (of_ite (absurd · hz) fun _ => fill_bind (store_bind (of_pure ?_)))))))))
  have hlist := h.list
  generalize hf : k.freelist = p at hlist hz
  cases hlist with
  | nil => exact absurd rfl hz
  | @cons _ l hv hrest =>
    exact .inr ⟨p, l, rfl, h.newTable (if_neg hp) hrest rfl⟩

theorem mapPage (h : Proper l d k) (a pa perm : Word) :
    Meets (mapPage d a pa perm) k (fun ok k' => ok = false ∧ k' = k ∧ True ∨
      ok = true ∧ (∃ l', Proper l' d k') ∧
        view k'.mem d = update (view k.mem d) (vpn a) (pa ||| perm ||| PTE_P))
      fun e => e = .panic .remap ∧ Present (view k.mem d (vpn a)) := by
  refine call (h.walk a) (fun _ => False.elim) ?_
  rintro r k₁ (⟨rfl, rfl⟩ | ⟨t, l₁, rfl, h₁, ht, hview⟩)
  · exact of_pure (.inl ⟨rfl, rfl, trivial⟩)
  have hentry : view k.mem d (vpn a) = k₁.mem t (PTX a) := by
    rw [← hview]
    exact view_of_table ht _
  refine load_bind (of_ite (fun hp => of_throw ⟨rfl, hentry ▸ hp⟩) fun hp =>
    store_bind (of_pure (.inr ⟨rfl, ?_⟩)))
  obtain ⟨h₂, hview₂⟩ := h₁.setWord ht (PTX a) (pa ||| perm ||| PTE_P)
  exact ⟨⟨l₁, h₂⟩, by rw [hview₂, hview]; rfl⟩

end Proper

/-- The physical page of a page of the range. -/
theorem aligned_phys {va pa : Word} (hpa : Aligned pa) (x : Vpn) :
    Aligned (pa + (x.base - PGROUNDDOWN va)) := by
  rw [aligned_iff] at hpa ⊢
  have hx := x.toNat_base
  have hva := toNat_PGROUNDDOWN va
  rw [BitVec.toNat_add, BitVec.toNat_sub]
  omega

/-- **`mappages` maps the pages of its range**, and changes no other page.  It ends, whatever the
range: if it does not return, then it has found a page of the range that is present. -/
theorem mappages_range {l : List Word} {d : Word} {k : Kmem} (h : Proper l d k)
    (va size pa perm : Word) (hpa : Aligned pa) (hsize : 0 < size.toNat)
    (hend : va.toNat + size.toNat ≤ 2 ^ 32) :
    Meets (mappages d va size pa perm) k (fun ok k' => (∃ l', Proper l' d k') ∧
      (∀ x, ¬ Span (PGROUNDDOWN va) (PGROUNDDOWN (va + size - 1)) x →
        view k'.mem d x = view k.mem d x) ∧
      (ok = true → ∀ x, Span (PGROUNDDOWN va) (PGROUNDDOWN (va + size - 1)) x →
        view k'.mem d x = pa + (x.base - PGROUNDDOWN va) ||| perm ||| PTE_P ∧
        (Flags perm → PTE_ADDR (view k'.mem d x) = pa + (x.base - PGROUNDDOWN va))))
      fun e => e = .panic .remap ∧ ∃ x,
        Span (PGROUNDDOWN va) (PGROUNDDOWN (va + size - 1)) x ∧ Present (view k.mem d x) := by
  have hfirst := toNat_PGROUNDDOWN va
  have hlast := toNat_last hsize hend
  have hturns : turns = 1048577 := rfl
  refine mono (mapLoop_meets (I := fun l k => Proper l d k) (B := fun _ _ _ => True) (by omega) turns pa
    h (by omega) (by omega) (by omega) fun {l₁ k₁ b} pb h₁ hb hx hsame => ?_) ?_ fun _ => id
  · refine mono (h₁.mapPage b pb perm) (fun _ _ => id) fun e he => ⟨he.1, vpn b, hx, ?_⟩
    rw [← hsame]
    exact he.2
  · rintro ok k' ⟨l', h', hout, hok⟩
    refine ⟨⟨l', h'⟩, hout, ?_⟩
    rintro rfl x hx
    have hw := (hok.resolve_left nofun).2 x hx
    refine ⟨hw, fun hf => ?_⟩
    rw [hw, BitVec.or_assoc, PTE_ADDR_or (aligned_phys hpa x) (flags_or hf (by decide))]

/-- An empty directory, and a free page. -/
def emptyDir : Kmem where
  mem _ := zeros
  freelist := 0x80002000

theorem proper_emptyDir : Proper [0x80002000] 0x80001000 emptyDir where
  list := .cons (by decide) .nil
  nodup := List.nodup_singleton _
  aligned p hp := by
    rw [List.mem_singleton.mp hp]
    rfl
  dir := by decide
  apart h := absurd (target_eq_some.mp h).1 not_present_zero
  inj h _ := absurd (target_eq_some.mp h).1 not_present_zero

/-- The last two pages of the address space. -/
theorem mappages_range_top : ∃ k', mappages 0x80001000 0xFFFFE123 0x1EDD 0x3000 PTE_W emptyDir =
    .ok (true, k') ∧ view k'.mem 0x80001000 (1023, 1022) = 0x3003 ∧
    view k'.mem 0x80001000 (1023, 1023) = 0x4003 ∧ view k'.mem 0x80001000 (1023, 0) = 0 := by
  have h := mappages_range proper_emptyDir 0xFFFFE123 0x1EDD 0x3000 PTE_W rfl (by decide) (by decide)
  have hrun : (mappages 0x80001000 0xFFFFE123 0x1EDD 0x3000 PTE_W emptyDir).map Prod.fst = .ok true := by
    rfl
  unfold Meets at h
  revert h hrun
  rcases mappages 0x80001000 0xFFFFE123 0x1EDD 0x3000 PTE_W emptyDir with e | ⟨ok, k'⟩
  · nofun
  · rintro ⟨-, hout, hin⟩ ⟨⟩
    exact ⟨k', rfl, (hin rfl (1023, 1022) (by decide)).1, (hin rfl (1023, 1023) (by decide)).1,
      hout (1023, 0) (by decide)⟩

/-- A directory whose first two entries lead to the same page table. -/
def sharedTable : Kmem where
  mem v i := if v = 0x80001000 ∧ i.val < 2 then 0x2001 else 0
  freelist := 0

/-- Without `Proper` a page outside the range can change. -/
theorem mappages_shared : ∃ k', mappages 0x80001000 0 PGSIZE 0x3000 PTE_W sharedTable =
    .ok (true, k') ∧ ¬ Span (PGROUNDDOWN 0) (PGROUNDDOWN (0 + PGSIZE - 1)) (1, 0) ∧
    view sharedTable.mem 0x80001000 (1, 0) = 0 ∧ view k'.mem 0x80001000 (1, 0) = 0x3003 :=
  ⟨sharedTable.setWord 0x80002000 0 0x3003, rfl, by decide, by decide, by decide⟩

end Xv6.Vm
