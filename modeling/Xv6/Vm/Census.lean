/-
# `Xv6.Vm.Census` — counting pages

An operation that builds an address space takes its pages from the free list and puts them
nowhere else: what was free is free still, or it is the directory, one of its page tables or
one of its user pages (`Local.census`).  How many page tables there are follows from what
is mapped when no table is empty (`Snug`).
-/
import Mathlib.Data.Set.Card
import Xv6.Vm.Space

namespace Xv6.Vm

open Set
open Function (update)

instance : Finite Word :=
  Finite.of_injective BitVec.toFin fun _ _ => BitVec.eq_of_toFin_eq

noncomputable def freePages (own : Word → Owner) : Nat := {q | own q = .free}.ncard

noncomputable def tablePages (m : Word → Page) (d : Word) : Nat := {i | tableAt m d i ≠ none}.ncard

noncomputable def userPages (m : Word → Page) (d : Word) : Nat :=
  {x : Vpn | x.User ∧ Present (view m d x)}.ncard

section

variable {L : Link} {own own' : Word → Owner} {k k' : Kmem} {d p : Word} {m : Word → Page} {x : Vpn}
  {c : Nat}

theorem NoFree.freePages (h : NoFree own) : freePages own = 0 := by
  have hempty : {q | own q = .free} = ∅ := eq_empty_of_forall_notMem h
  rw [Vm.freePages, hempty, ncard_empty]

theorem Owns.length_free (h : Owns L own k) {l : List Word} (hl : Linked k.mem k.freelist l) :
    l.length = freePages own := by
  obtain ⟨l', hl', hnd, hmem⟩ := h.list
  obtain rfl := hl.unique hl'
  have hset : {q | own q = .free} = (l.toFinset : Set Word) := by
    ext q
    rw [mem_ofPred_eq, ← hmem, List.coe_toFinset, mem_ofPred_eq]
  rw [freePages, hset, ncard_coe_finset, List.toFinset_card_of_nodup hnd]

theorem Owns.ncard_tables (h : Owns L own k) (hd : own d = .dir) :
    {q | ∃ i, own q = .table d i}.ncard = tablePages k.mem d := by
  have himage : {q | ∃ i, own q = .table d i} =
      (fun i => (tableAt k.mem d i).getD 0) '' {i | tableAt k.mem d i ≠ none} := by
    ext q
    constructor
    · rintro ⟨i, hq⟩
      have ht := (h.table.mp hq).2
      exact ⟨i, by rw [mem_ofPred_eq, ht]; nofun, by dsimp only; rw [ht]; rfl⟩
    · rintro ⟨i, hi, rfl⟩
      obtain ⟨t, ht⟩ := Option.ne_none_iff_exists'.mp hi
      exact ⟨i, by dsimp only; rw [ht]; exact h.table.mpr ⟨hd, ht⟩⟩
  rw [himage, tablePages, Set.InjOn.ncard_image]
  intro i hi j hj hij
  obtain ⟨t, ht⟩ := Option.ne_none_iff_exists'.mp hi
  obtain ⟨t', ht'⟩ := Option.ne_none_iff_exists'.mp hj
  dsimp only at hij
  rw [ht, ht', Option.getD_some, Option.getD_some] at hij
  subst hij
  have hsame := (h.table.mpr ⟨hd, ht⟩).symm.trans (h.table.mpr ⟨hd, ht'⟩)
  cases hsame
  rfl

theorem Owns.ncard_frames (h : Owns L own k) (hd : own d = .dir) :
    {q | ∃ x, own q = .frame d x}.ncard = userPages k.mem d := by
  have himage : {q | ∃ x, own q = .frame d x} =
      (fun x => P2V (PTE_ADDR (view k.mem d x))) '' {x : Vpn | x.User ∧ Present (view k.mem d x)} := by
    ext q
    constructor
    · rintro ⟨x, hq⟩
      obtain ⟨-, hu, ht⟩ := h.frame.mp hq
      obtain ⟨hp, hq⟩ := target_eq_some.mp ht
      exact ⟨x, ⟨hu, hp⟩, hq⟩
    · rintro ⟨x, ⟨hu, hp⟩, rfl⟩
      exact ⟨x, h.frame.mpr ⟨hd, hu, target_eq_some.mpr ⟨hp, rfl⟩⟩⟩
  rw [himage, userPages, Set.InjOn.ncard_image]
  rintro x ⟨hu, hp⟩ y ⟨hu', hp'⟩ hxy
  have hx := h.frame.mpr ⟨hd, hu, target_eq_some.mpr ⟨hp, rfl⟩⟩
  have hy := h.frame.mpr ⟨hd, hu', target_eq_some.mpr ⟨hp', rfl⟩⟩
  dsimp only at hxy
  rw [hxy, hy] at hx
  cases hx
  rfl

/-- What is counted apart: the pages of `d`, by what they are for. -/
theorem ncard_mine (hd : own d = .dir) : {q | own q = .free ∨ Mine d q (own q)}.ncard =
    freePages own + 1 + {q | ∃ i, own q = .table d i}.ncard + {q | ∃ x, own q = .frame d x}.ncard := by
  have hset : {q | own q = .free ∨ Mine d q (own q)} =
      (({q | own q = .free} ∪ {d}) ∪ {q | ∃ i, own q = .table d i}) ∪ {q | ∃ x, own q = .frame d x} := by
    ext q
    simp only [mem_ofPred_eq, mem_union, mem_singleton_iff, Mine]
    tauto
  have h₁ : Disjoint {q | own q = .free} {d} := by
    rw [disjoint_singleton_right, mem_ofPred_eq, hd]
    nofun
  have h₂ : Disjoint ({q | own q = .free} ∪ {d}) {q | ∃ i, own q = .table d i} := by
    rw [disjoint_left]
    rintro q (hq | rfl) ⟨i, hi⟩
    · rw [mem_ofPred_eq, hi] at hq
      cases hq
    · rw [hd] at hi
      cases hi
  have h₃ : Disjoint (({q | own q = .free} ∪ {d}) ∪ {q | ∃ i, own q = .table d i})
      {q | ∃ x, own q = .frame d x} := by
    rw [disjoint_left]
    rintro q ((hq | rfl) | ⟨i, hi⟩) ⟨x, hx⟩
    · rw [mem_ofPred_eq, hx] at hq
      cases hq
    · rw [hd] at hx
      cases hx
    · rw [hi] at hx
      cases hx
  rw [hset, ncard_union_eq h₃, ncard_union_eq h₂, ncard_union_eq h₁, ncard_singleton]
  rfl

/-- Where there is no address space `d`, its pages are free pages. -/
theorem Owns.free_of_mine (h : Owns L own k) (hd : own d = .free) {q : Word}
    (hq : Mine d q (own q)) : own q = .free := by
  rcases hq with rfl | hq | ⟨i, hq⟩ | ⟨x, hq⟩
  · exact hd
  · exact hq
  · rw [(h.table.mp hq).1] at hd
    cases hd
  · rw [(h.frame.mp hq).1] at hd
    cases hd

/-- The free pages and those of `d` stay the same pages. -/
theorem Local.mine_eq (hloc : Local d own k own' k') :
    {q | own q = .free ∨ Mine d q (own q)} = {q | own' q = .free ∨ Mine d q (own' q)} := by
  ext q
  rw [mem_ofPred_eq, mem_ofPred_eq]
  rcases hloc.hands q with he | ⟨hm, hm'⟩
  · rw [he]
  · exact iff_of_true (.inr hm) (.inr hm')

/-- **The census**: an address space was built, and no page was lost. -/
theorem Local.census (hloc : Local d own k own' k') (h : Owns L own k) (hd : own d = .free)
    (h' : Owns L own' k') (hd' : own' d = .dir) :
    freePages own = freePages own' + 1 + tablePages k'.mem d + userPages k'.mem d := by
  have hset : {q | own q = .free} = {q | own q = .free ∨ Mine d q (own q)} := by
    ext q
    exact ⟨.inl, fun hq => hq.elim id (h.free_of_mine hd)⟩
  rw [freePages, hset, hloc.mine_eq, ncard_mine hd', h'.ncard_tables hd', h'.ncard_frames hd']

theorem Local.conserve (hloc : Local d own k own' k') (h : Owns L own k) (hd : own d = .dir)
    (h' : Owns L own' k') (hd' : own' d = .dir) :
    freePages own + tablePages k.mem d + userPages k.mem d =
      freePages own' + tablePages k'.mem d + userPages k'.mem d := by
  have hcard := congrArg Set.ncard hloc.mine_eq
  rw [ncard_mine hd, ncard_mine hd', h.ncard_tables hd, h'.ncard_tables hd', h.ncard_frames hd,
    h'.ncard_frames hd'] at hcard
  omega

theorem tablePages_le (m : Word → Page) (d : Word) : tablePages m d ≤ 1024 := by
  have hle := ncard_le_card {i | tableAt m d i ≠ none}
  rwa [Nat.card_eq_fintype_card, Fintype.card_fin] at hle

/-- One more page is mapped, at most. -/
theorem userPages_update {m' : Word → Page} {w : Word} (h : view m' d = update (view m d) x w) :
    userPages m' d ≤ userPages m d + 1 := by
  refine le_trans (ncard_le_ncard fun y hy => ?_) (ncard_insert_le x _)
  rcases eq_or_ne y x with rfl | hyx
  · exact mem_insert ..
  · refine mem_insert_of_mem x ⟨hy.1, ?_⟩
    have hp := hy.2
    rwa [h, Function.update_of_ne hyx] at hp

theorem freePages_take (hp : own p = .free) : freePages own = freePages (update own p .raw) + 1 := by
  have hset : {q | own q = .free} = insert p {q | update own p .raw q = .free} := by
    ext q
    rcases eq_or_ne q p with rfl | hq
    · exact iff_of_true hp (mem_insert q _)
    · rw [mem_ofPred_eq, mem_insert_iff, mem_ofPred_eq, Function.update_of_ne hq,
        or_iff_right hq]
  have hout : p ∉ {q | update own p .raw q = .free} := by
    rw [mem_ofPred_eq, Function.update_self]
    nofun
  rw [freePages, hset, ncard_insert_of_notMem hout]
  rfl

/-! ## Page tables -/

/-- The entries of a directory that the kernel half uses. -/
def KernIdx (i : Idx) : Prop := 512 ≤ i.val ∧ i.val < 568 ∨ 1016 ≤ i.val

/-- What an entry of `kmap` covers is mapped. -/
theorem present_kmapWord {es : List Kmap} {e : Kmap} (he : e ∈ es) (hc : e.Covers x.base) :
    Present (kmapWord es x) := by
  unfold kmapWord
  cases hf : es.find? fun e => decide (e.Covers x.base) with
  | none => exact absurd (decide_eq_true hc) (List.find?_eq_none.mp hf e he)
  | some f => exact present_or _

/-- The pages `kmap` covers are those of whole page tables. -/
theorem covers_kmap_iff : (∃ e ∈ L.kmap, e.Covers x.base) ↔ KernIdx x.1 := by
  have hlo := L.data_lo
  have hhi := L.data_hi
  have hok := L.kmap_ok
  have hio : Kmap.Covers ⟨KERNBASE, 0, EXTMEM, PTE_W⟩ x.base ↔
      0x80000000 ≤ x.num * 4096 ∧ x.num * 4096 < 0x80000000 + 0x100000 :=
    Kmap.covers_base (hok _ List.mem_cons_self)
  have htext : Kmap.Covers ⟨KERNLINK, V2P KERNLINK, V2P L.data, 0⟩ x.base ↔
      0x80100000 ≤ x.num * 4096 ∧ x.num * 4096 < 0x80100000 + (V2P L.data - V2P KERNLINK).toNat :=
    Kmap.covers_base (hok _ (by simp [Link.kmap]))
  have hdata : Kmap.Covers ⟨L.data, V2P L.data, PHYSTOP, PTE_W⟩ x.base ↔
      L.data.toNat ≤ x.num * 4096 ∧ x.num * 4096 < L.data.toNat + (PHYSTOP - V2P L.data).toNat :=
    Kmap.covers_base (hok _ (by simp [Link.kmap]))
  have hdev : Kmap.Covers ⟨DEVSPACE, DEVSPACE, 0, PTE_W⟩ x.base ↔
      0xFE000000 ≤ x.num * 4096 ∧ x.num * 4096 < 0xFE000000 + 0x2000000 :=
    Kmap.covers_base (hok _ (by simp [Link.kmap]))
  rw [L.size_text] at htext
  rw [L.size_data] at hdata
  simp only [Link.kmap, List.mem_cons, List.not_mem_nil, or_false, exists_eq_or_imp, exists_eq_left,
    hio, htext, hdata, hdev, KernIdx, Vpn.num]
  omega

theorem present_kmap_iff : Present (kmapWord L.kmap x) ↔ KernIdx x.1 := by
  refine ⟨fun hp => ?_, fun hx => ?_⟩
  · by_contra hx
    rw [kmapWord_of_not_covers fun e he hc => hx (covers_kmap_iff.mp ⟨e, he, hc⟩)] at hp
    exact not_present_zero hp
  · obtain ⟨e, he, hc⟩ := (covers_kmap_iff).mpr hx
    exact present_kmapWord he hc

theorem ncard_idx (P : Nat → Prop) [DecidablePred P] :
    {i : Idx | P i.val}.ncard = ((Finset.range 1024).filter P).card := by
  have himage : Fin.val '' {i : Idx | P i.val} = ((Finset.range 1024).filter P : Set Nat) := by
    ext n
    simp only [mem_image, mem_ofPred_eq, Finset.coe_filter, Finset.mem_range]
    refine ⟨?_, fun hn => ⟨⟨n, hn.1⟩, hn.2, rfl⟩⟩
    rintro ⟨i, hi, rfl⟩
    exact ⟨i.isLt, hi⟩
  rw [← Set.InjOn.ncard_image Fin.val_injective.injOn,
    himage, ncard_coe_finset]

theorem ncard_kernIdx : {i : Idx | KernIdx i}.ncard = 64 := by
  rw [show {i : Idx | KernIdx i} = {i : Idx | 512 ≤ i.val ∧ i.val < 568 ∨ 1016 ≤ i.val} from rfl,
    ncard_idx fun i => 512 ≤ i ∧ i < 568 ∨ 1016 ≤ i]
  decide +kernel

theorem ncard_idx_lt {m : Nat} (hm : m ≤ 1024) : {i : Idx | i.val < m}.ncard = m := by
  have hrange : (Finset.range 1024).filter (· < m) = Finset.range m := by
    ext n
    rw [Finset.mem_filter, Finset.mem_range, Finset.mem_range]
    omega
  rw [ncard_idx (· < m), hrange, Finset.card_range]

theorem ncard_vpn_lt (hc : c ≤ 2 ^ 20) : {x : Vpn | x.num < c}.ncard = c := by
  have himage : Vpn.num '' {x : Vpn | x.num < c} = (Finset.range c : Set Nat) := by
    ext n
    simp only [mem_image, mem_ofPred_eq, Finset.coe_range, mem_Iio]
    refine ⟨?_, fun hn => ?_⟩
    · rintro ⟨x, hx, rfl⟩
      exact hx
    · have hnum : Vpn.num (⟨n / 1024, by omega⟩, ⟨n % 1024, by omega⟩) = n := by
        show n / 1024 * 1024 + n % 1024 = n
        omega
      exact ⟨_, by rwa [hnum], hnum⟩
  rw [← Set.InjOn.ncard_image fun _ _ _ _ h => Vpn.num_inj h,
    himage, ncard_coe_finset, Finset.card_range]

/-- A directory in the making that lacks a page table of the kernel half. -/
theorem Snug.tablePages_lt (h : Snug m d) (hview : ∀ x : Vpn, Present (view m d x) → KernIdx x.1)
    {i : Idx} (hi : KernIdx i) (hnone : tableAt m d i = none) : tablePages m d < 64 := by
  rw [← ncard_kernIdx]
  refine ncard_lt_ncard ((ssubset_iff_of_subset fun j hj => ?_).mpr ⟨i, hi, ?_⟩)
  · obtain ⟨j', hp⟩ := h j hj
    exact hview _ hp
  · exact fun hc => hc hnone

/-- **The page tables of an address space** with the kernel half and the first `c` user pages. -/
theorem Snug.tablePages_eq (h : Snug m d) (hc : c ≤ 2 ^ 19)
    (hview : ∀ x : Vpn, Present (view m d x) ↔ KernIdx x.1 ∨ x.num < c) :
    tablePages m d = 64 + (c + 1023) / 1024 := by
  have hset : {i | tableAt m d i ≠ none} =
      {i : Idx | KernIdx i} ∪ {i : Idx | i.val < (c + 1023) / 1024} := by
    ext i
    have hfirst : Vpn.num (i, 0) = i.val * 1024 := Nat.add_zero _
    constructor
    · intro hi
      obtain ⟨j, hp⟩ := h i hi
      refine ((hview _).mp hp).imp id fun hlt => ?_
      replace hlt : i.val * 1024 + j.val < c := hlt
      show i.val < _
      omega
    · intro hi hnone
      have hp : Present (view m d (i, 0)) := by
        refine (hview _).mpr (hi.imp id fun hlt => ?_)
        replace hlt : i.val < (c + 1023) / 1024 := hlt
        omega
      rw [view_of_none hnone] at hp
      exact not_present_zero hp
  have hdisj : Disjoint {i : Idx | KernIdx i} {i : Idx | i.val < (c + 1023) / 1024} := by
    rw [disjoint_left]
    intro i hi hlt
    replace hi : 512 ≤ i.val ∧ i.val < 568 ∨ 1016 ≤ i.val := hi
    replace hlt : i.val < (c + 1023) / 1024 := hlt
    omega
  rw [tablePages, hset, ncard_union_eq hdisj, ncard_kernIdx, ncard_idx_lt (by omega)]

theorem userPages_eq (hc : c ≤ 2 ^ 19)
    (hview : ∀ x : Vpn, x.User → (Present (view m d x) ↔ x.num < c)) : userPages m d = c := by
  have hset : {x : Vpn | x.User ∧ Present (view m d x)} = {x : Vpn | x.num < c} := by
    ext x
    refine ⟨fun hx => (hview x hx.1).mp hx.2, fun hx => ?_⟩
    have hu : x.User := by
      replace hx : x.num < c := hx
      unfold Vpn.num at hx
      unfold Vpn.User
      omega
    exact ⟨hu, (hview x hu).mpr hx⟩
  rw [userPages, hset, ncard_vpn_lt (by omega)]

end

end Xv6.Vm
