/-
# `Xv6.Vm.Copy` — the address space of a child

`fork` copies the parent's address space with `copyuvm`.  Where that succeeds the child has a
copy of every page, in frames of its own (`copyuvm_faithful`).  Where there are not enough
pages it returns 0, and for a copy of `c` pages "enough" is `copyNeed c`: the directory, the
64 page tables of the kernel half, the copies and their page tables.

Not every failure gives all pages back.  The copy of a page is allocated before `mappages` looks
for a page table, and when there is none to be had `copyuvm` jumps to `bad` with the copy in
no table: `freevm` does not see it.  It was the last free page, at the first page of a page
table, so that the failure shows in the number of free pages (`copyuvm_counts`).
-/
import Xv6.Vm.Sizes

namespace Xv6.Vm

open Wp
open Function (update)

/-- The pages it takes to copy `c` pages. -/
def copyNeed (c : Nat) : Nat := 65 + c + (c + 1023) / 1024

/-- The free pages are those there were. -/
def SameFree (k k' : Kmem) : Prop :=
  ∃ l l', Linked k.mem k.freelist l ∧ Linked k'.mem k'.freelist l' ∧ l'.Perm l

/-- With this many free pages, a copy of `sz` bytes that fails loses one. -/
def Leaky (sz n : Nat) : Prop := ∃ j, 1024 * 4096 * j < sz ∧ n = 66 + 1025 * j

section

variable {L : Link} {own own' : Word → Owner} {k k' : Kmem} {e p r sz : Word}

theorem num_vpn_lt {va : Word} (h : va < sz) : (vpn va).num * 4096 < sz.toNat := by
  replace h : va.toNat < sz.toNat := h
  rw [num_vpn]
  omega

theorem Owns.sameFree (h : Owns L own k) (h' : Owns L own k') : SameFree k k' := by
  obtain ⟨l, hl, hnd, hmem⟩ := h.list
  obtain ⟨l', hl', hnd', hmem'⟩ := h'.list
  refine ⟨l, l', hl, hl', (List.perm_ext_iff_of_nodup hnd' hnd).mpr fun q => ?_⟩
  rw [hmem, hmem']

/-- A page that is not free any more. -/
theorem Owns.not_sameFree (h : Owns L own k) (h' : Owns L (update own p .raw) k')
    (hp : own p = .free) : ¬ SameFree k k' := by
  rintro ⟨l₁, l₁', hl₁, hl₁', hperm⟩
  obtain ⟨l, hl, -, hmem⟩ := h.list
  obtain ⟨l', hl', -, hmem'⟩ := h'.list
  obtain rfl := hl₁.unique hl
  obtain rfl := hl₁'.unique hl'
  have hin := (hmem' p).mp (hperm.mem_iff.mpr ((hmem p).mpr hp))
  rw [Function.update_self] at hin
  cases hin

/-- **The pages of a copy**: what was free before is free still or in the copy. -/
theorem freePages_copy (h : Owns L own k) (hfree : own r = .free) (h' : Owns L own' k')
    (hd' : own' r = .dir) (hloc : Local r own k own' k') (hkern : Kern L k'.mem r)
    (hsnug : Snug k'.mem r) (hsz : sz.toNat ≤ 2 ^ 31)
    (hcopy : ∀ x : Vpn, x.User → (Present (view k'.mem r x) ↔ x.In 0 sz.toNat)) :
    freePages own = freePages own' + copyNeed ((sz.toNat + 4095) / 4096) := by
  have huser : ∀ x : Vpn, x.User → (Present (view k'.mem r x) ↔ x.num < (sz.toNat + 4095) / 4096) := by
    intro x hx
    rw [hcopy x hx]
    unfold Vpn.In
    omega
  have hview : ∀ x : Vpn,
      Present (view k'.mem r x) ↔ KernIdx x.1 ∨ x.num < (sz.toNat + 4095) / 4096 := by
    intro x
    by_cases hx : x.User
    · have hidx : ¬ KernIdx x.1 := by
        unfold Vpn.User at hx
        unfold KernIdx
        omega
      rw [huser x hx, or_iff_right hidx]
    · have hge := Vpn.not_user hx
      rw [hkern x hx, present_kmap_iff, or_iff_left (by omega)]
  rw [hloc.census h hfree h' hd', hsnug.tablePages_eq (by omega) hview, userPages_eq (by omega) huser]
  unfold copyNeed
  omega

/-- **`copyuvm` by the number of free pages.**  It returns 0 exactly when they are too few, and
then it gives back all of them, or all but one. -/
theorem copyuvm_counts (h : Owns L own k) (he : own e = .dir)
    (hall : ∀ x : Vpn, x.num * 4096 < sz.toNat → Present (view k.mem e x)) :
    Meets (copyuvm L e sz) k (fun r k' =>
      (r = 0 ↔ freePages own < copyNeed ((sz.toNat + 4095) / 4096)) ∧
      (r = 0 → (SameFree k k' ↔ ¬ Leaky sz.toNat (freePages own)))) fun _ => False := by
  have hsz := h.lt_of_present he hall
  refine mono (copyuvm_exact h he) ?_ ?_
  · rintro r k' (⟨rfl, -, hfail⟩ | ⟨hfree, hle, own', h', hd', hloc, hkern, hsnug, hcopy⟩)
    · refine ⟨iff_of_true rfl ?_, fun _ => ?_⟩
      · unfold copyNeed
        rcases hfail with ⟨hlt, -⟩ | ⟨c, hc, -, ⟨hn, -⟩ | ⟨hc', hn, -⟩⟩
        · omega
        · omega
        · omega
      · rcases hfail with ⟨hlt, h'⟩ | ⟨c, hc, -, ⟨hn, h'⟩ | ⟨hc', hn, p, hp, h'⟩⟩
        · refine iff_of_true (h.sameFree h') ?_
          rintro ⟨j, -, hj⟩
          omega
        · refine iff_of_true (h.sameFree h') ?_
          rintro ⟨j, -, hj⟩
          omega
        · exact iff_of_false (h.not_sameFree h' hp) fun hc => hc ⟨c / 1024, by omega, hn⟩
    · have hr : r ≠ 0 := h.ne_zero hfree nofun
      have hpres : ∀ x : Vpn, x.User → (Present (view k'.mem r x) ↔ x.In 0 sz.toNat) := by
        intro x hx
        refine ⟨fun hp => ?_, fun hin => ((hcopy x hx).1 hin).present⟩
        by_contra hout
        rw [(hcopy x hx).2 hout] at hp
        exact not_present_zero hp
      have hcount := freePages_copy h hfree h' hd' hloc hkern hsnug hle hpres
      exact ⟨iff_of_false hr (by omega), fun hz => absurd hz hr⟩
  · intro _ hstop
    obtain ⟨x, hin, hx⟩ := hstop hsz.le
    exact hx (hall x hin.2)

/-- Free pages can be used up, with nothing else changed. -/
theorem Owns.drain {m : Nat} (n : Nat) (h : Owns L own k) (he : own e = .dir)
    (hm : freePages own = m + n) : ∃ own' k', Owns L own' k' ∧ own' e = .dir ∧ k'.mem = k.mem ∧
      freePages own' = m := by
  induction n generalizing own k with
  | zero => exact ⟨own, k, h, he, rfl, hm⟩
  | succ n ih =>
    obtain ⟨p, k₁, -, ⟨-, -, hno⟩ | ⟨hp, hmem, h₁⟩⟩ := returns (kalloc_meets h)
    · rw [hno.freePages] at hm
      omega
    · have hep : e ≠ p := ne_of_owner he hp nofun
      have htake := freePages_take hp
      obtain ⟨own', k', h', he', hmem', hfree'⟩ :=
        ih h₁ ((Function.update_of_ne hep ..).trans he) (by omega)
      exact ⟨own', k', h', he', hmem'.trans hmem, hfree'⟩

end

/-- The first process, with as many free pages as one likes. -/
theorem exists_parent (m : Nat) (hm : m ≤ 2000) : ∃ own k d, Owns smallLink own k ∧ own d = .dir ∧
    (∀ x : Vpn, x.num * 4096 < (4096 : Word).toNat → Present (view k.mem d x)) ∧ freePages own = m := by
  obtain ⟨own, k, p, h, hd, -, hs, hfree, -⟩ := exists_sized
  obtain ⟨own', k', h', hd', hmem, hfree'⟩ := h.drain (m := m) (freePages own - m) hd (by omega)
  refine ⟨own', k', p.pgdir, h', hd', fun x hx => ?_, hfree'⟩
  rw [hmem]
  exact ((hs x).mpr (Vpn.lt_roundUp.mpr hx)).2

section

variable {L : Link} {own : Word → Owner} {k k' : Kmem} {e r sz : Word}

/-- **A failed `copyuvm`.**  `copyuvm` returns, and it returns 0 exactly when there are too few
pages for the copy.  Then the free pages are those there were before, except where the count
of free pages says that the last of them went to a copy without a page table. -/
theorem copyuvm_fails (h : Owns L own k) (he : own e = .dir)
    (hall : ∀ va : Word, va < sz → Present (view k.mem e (vpn va))) {l : List Word}
    (hl : Linked k.mem k.freelist l) :
    ∃ r k', copyuvm L e sz k = .ok (r, k') ∧
      (r = 0 ↔ l.length < copyNeed ((sz.toNat + 4095) / 4096)) ∧
      (r = 0 → (SameFree k k' ↔ ¬ Leaky sz.toNat l.length)) := by
  rw [h.length_free hl]
  refine returns (copyuvm_counts h he fun x hx => ?_)
  have hx' := hall x.base (show x.base.toNat < sz.toNat by rwa [Vpn.toNat_base])
  rwa [vpn_base] at hx'

theorem copyuvm_fails_first : ∃ own k d l r k', Owns smallLink own k ∧ own d = .dir ∧
    Linked k.mem k.freelist l ∧ l.length = 65 ∧ copyuvm smallLink d 4096 k = .ok (r, k') ∧ r = 0 ∧
    SameFree k k' := by
  obtain ⟨own, k, d, h, hd, hall, hfree⟩ := exists_parent 65 (by decide)
  obtain ⟨l, hl, -⟩ := h.list
  have hlen : l.length = 65 := (h.length_free hl).trans hfree
  obtain ⟨r, k', hrun, hzero, hsame⟩ := copyuvm_fails h hd (fun va hva => hall _ (num_vpn_lt hva)) hl
  rw [hlen] at hzero hsame
  have hr := hzero.mpr (by decide)
  refine ⟨own, k, d, l, r, k', h, hd, hl, hlen, hrun, hr, (hsame hr).mpr ?_⟩
  rintro ⟨j, -, hj⟩
  omega

/-- **A page is lost.**  With 66 free pages `copyuvm` of one page takes the last of them for the
copy, has none for its page table, and returns 0 without giving it back. -/
theorem copyuvm_leaks : ∃ own k d l k', Owns smallLink own k ∧ own d = .dir ∧
    (∀ va : Word, va < 4096 → Present (view k.mem d (vpn va))) ∧ Linked k.mem k.freelist l ∧
    l.length = 66 ∧ copyuvm smallLink d 4096 k = .ok (0, k') ∧ ¬ SameFree k k' := by
  obtain ⟨own, k, d, h, hd, hall, hfree⟩ := exists_parent 66 (by decide)
  obtain ⟨l, hl, -⟩ := h.list
  obtain ⟨r, k', hrun, hzero, hsame⟩ := returns (copyuvm_counts h hd hall)
  rw [hfree] at hzero hsame
  obtain rfl := hzero.mpr (by decide)
  exact ⟨own, k, d, l, k', h, hd, fun va hva => hall _ (num_vpn_lt hva), hl,
    (h.length_free hl).trans hfree, hrun, fun hc => (hsame rfl).mp hc ⟨0, by decide, rfl⟩⟩

/-- **The child has a copy of its own.** -/
theorem copyuvm_faithful (h : Owns L own k) (he : own e = .dir)
    (hrun : copyuvm L e sz k = .ok (r, k')) (hr : r ≠ 0) :
    (∀ va : Word, va < sz → CopyOf k.mem k'.mem e r (vpn va)) ∧
    (∀ x y : Vpn, x.User → y.User → ∀ q, target (view k'.mem r x) = some q →
      target (view k.mem e y) ≠ some q ∧ (target (view k'.mem r y) = some q → x = y)) ∧
    (k'.mem e = k.mem e ∧ (∀ i t, tableAt k.mem e i = some t → k'.mem t = k.mem t) ∧
      ∀ x : Vpn, x.User → Present (view k.mem e x) → Same k.mem k'.mem e x) ∧
    ∀ va : Word, va < KERNBASE → PGROUNDUP sz ≤ va → ¬ Present (view k'.mem r (vpn va)) := by
  rcases ok (copyuvm_exact h he) hrun with ⟨hz, -⟩ | ⟨hfree, hle, own', h', hd', hloc, -, -, hcopy⟩
  · exact absurd hz hr
  have her : e ≠ r := ne_of_owner he hfree nofun
  have hkeep : ∀ q, own q ≠ .free → own' q = own q ∧ k'.mem q = k.mem q := by
    intro q hq
    have hm : ¬ Mine r q (own q) := fun hm => hq (h.free_of_mine hfree hm)
    exact ⟨hloc.keep hm, hloc.mem q hm⟩
  have hview : view k'.mem e = view k.mem e := hloc.view h (.inr (.inl hfree)) he her
  refine ⟨fun va hva => ?_, fun x y hx hy q hq => ⟨fun hq' => ?_, fun hq' => ?_⟩,
    ⟨(hkeep e (by rw [he]; nofun)).2, fun i t ht => ?_, fun x hx hp => ?_⟩, fun va hva hge hp => ?_⟩
  · have hu : (vpn va).User := user_vpn.mpr (Nat.lt_of_lt_of_le hva hle)
    exact (hcopy _ hu).1 ⟨Nat.zero_le _, num_vpn_lt hva⟩
  · -- the page of the parent was not free
    have ho : own q = .frame e y := h.frame.mpr ⟨he, hy, hq'⟩
    have ho' : own' q = .frame r x := h'.frame.mpr ⟨hd', hx, hq⟩
    rw [(hkeep q (by rw [ho]; nofun)).1, ho] at ho'
    cases ho'
    exact her rfl
  · have ho := h'.frame.mpr ⟨hd', hx, hq⟩
    rw [h'.frame.mpr ⟨hd', hy, hq'⟩] at ho
    cases ho
    rfl
  · refine (hkeep t ?_).2
    rw [h.table.mpr ⟨he, ht⟩]
    nofun
  · have ho := h.frame.mpr ⟨he, hx, target_eq_some.mpr ⟨hp, rfl⟩⟩
    refine ⟨congrFun hview x, ?_⟩
    unfold pageAt
    rw [hview]
    exact (hkeep _ (by rw [ho]; nofun)).2
  · have hout : ¬ (vpn va).In 0 sz.toNat := by
      have hge' : (PGROUNDUP sz).toNat ≤ va.toNat := hge
      rw [roundUp_eq hle] at hge'
      unfold roundUp at hge'
      rintro ⟨-, hlt⟩
      rw [num_vpn] at hlt
      omega
    rw [(hcopy _ (user_vpn.mpr hva)).2 hout] at hp
    exact not_present_zero hp

theorem copyuvm_faithful_first : ∃ own k d r k', Owns smallLink own k ∧ own d = .dir ∧
    (∀ va : Word, va < 4096 → Present (view k.mem d (vpn va))) ∧
    copyuvm smallLink d 4096 k = .ok (r, k') ∧ r ≠ 0 ∧
    ∀ va : Word, va < 4096 → CopyOf k.mem k'.mem d r (vpn va) := by
  obtain ⟨own, k, d, h, hd, hall, hfree⟩ := exists_parent 67 (by decide)
  obtain ⟨r, k', hrun, hzero, -⟩ := returns (copyuvm_counts h hd hall)
  rw [hfree] at hzero
  have hr : r ≠ 0 := hzero.not.mpr (by decide)
  exact ⟨own, k, d, r, k', h, hd, fun va hva => hall _ (num_vpn_lt hva), hrun, hr,
    (copyuvm_faithful h hd hrun hr).1⟩

end

end Xv6.Vm
