/-
# `Xv6.Vm.Sizes` — the size of a process and its pages

The size `p->sz` of a process and its page tables are changed apart: `allocuvm` and
`deallocuvm` map and unmap pages, `growproc` then writes the size.  `Sized` says that the two
agree: the user pages that are mapped are exactly those below the size, rounded up.  Here
the two loops are shown to keep it, with what the pages hold, and `growproc` with them.

`growproc` has two ways out of step.  A request for less than nothing wraps around, and
`deallocuvm` takes it for a size that is larger; `growproc` then returns 0 and has done
nothing.  A request for exactly nothing frees every page, and the size 0 that `deallocuvm`
returns is read as an error.
-/
import Xv6.Vm.Life

namespace Xv6.Vm

open Wp

/-- `PGROUNDUP` on numbers. -/
def roundUp (n : Nat) : Nat := (n + 4095) / 4096 * 4096

/-- **The size of an address space**: its user pages are those below `n`, rounded up. -/
def Sized (m : Word → Page) (d : Word) (n : Nat) : Prop :=
  ∀ x : Vpn, x.User ∧ Present (view m d x) ↔ x.num * 4096 < roundUp n

/-- The page `x` of `d` has the same entry, and holds the same. -/
def Same (m m' : Word → Page) (d : Word) (x : Vpn) : Prop :=
  view m' d x = view m d x ∧ pageAt m' d x = pageAt m d x

/-- The page `x` of `d` is the user's to read and write, and all zero. -/
def Blank (m : Word → Page) (d : Word) (x : Vpn) : Prop :=
  PTE_FLAGS (view m d x) = PTE_W ||| PTE_U ||| PTE_P ∧ pageAt m d x = zeros

theorem roundUp_eq {a : Word} (h : a.toNat ≤ 2 ^ 31) : (PGROUNDUP a).toNat = roundUp a.toNat :=
  toNat_PGROUNDUP (by omega)

theorem Vpn.lt_roundUp {x : Vpn} {n : Nat} : x.num * 4096 < roundUp n ↔ x.num * 4096 < n := by
  unfold roundUp
  omega

section

variable {L : Link} {own own' : Word → Owner} {k k' : Kmem} {d : Word} {S : Vpn → Prop} {x : Vpn}
  {sz : Nat}

/-- A page that stays in place with its entry. -/
theorem Kept.same (hk : Kept S d own k own' k') (h : Owns L own k) (hd : own d = .dir) (hu : x.User)
    (hp : Present (view k.mem d x)) (hx : ¬ S x) (hv : view k'.mem d x = view k.mem d x) :
    Same k.mem k'.mem d x := by
  have hq := h.frame.mpr ⟨hd, hu, target_eq_some.mpr ⟨hp, rfl⟩⟩
  refine ⟨hv, ?_⟩
  unfold pageAt
  rw [hv]
  exact (hk _ x hq hx).2

/-- There are fewer pages than addresses in the user half. -/
theorem Owns.userPages_lt (h : Owns L own k) (hd : own d = .dir) : userPages k.mem d < 2 ^ 16 := by
  have hpool : ∀ q ∈ {q | ∃ x, own q = .frame d x}, Pool L q := by
    rintro q ⟨x, hq⟩
    refine h.pool ?_
    rw [hq]
    nofun
  have hmaps : ∀ q ∈ {q | ∃ x, own q = .frame d x},
      (q.toNat - 0x80000000) / 4096 ∈ (Finset.range 0xE000 : Set Nat) := by
    intro q hq
    have hhi := (hpool q hq).hi
    rw [Finset.coe_range, Set.mem_Iio]
    omega
  have hinj : Set.InjOn (fun q : Word => (q.toNat - 0x80000000) / 4096) {q | ∃ x, own q = .frame d x} := by
    intro q hq q' hq' heq
    have hlo' := (hpool q' hq').data_le
    have hal := (hpool q hq).aligned
    have hal' := (hpool q' hq').aligned
    have hdata := L.data_lo
    refine BitVec.eq_of_toNat_eq ?_
    dsimp only at heq
    omega
  have hle := Set.ncard_le_ncard_of_injOn _ hmaps hinj (Finset.finite_toSet _)
  rw [h.ncard_frames hd, Set.ncard_coe_finset, Finset.card_range] at hle
  omega

/-- Not every page of the user half can be mapped. -/
theorem Owns.lt_of_present (h : Owns L own k) (hd : own d = .dir)
    (hall : ∀ x : Vpn, x.num * 4096 < sz → Present (view k.mem d x)) : sz < 2 ^ 31 := by
  by_contra hge
  have hfull : ∀ x : Vpn, x.User → (Present (view k.mem d x) ↔ x.num < 2 ^ 19) := by
    intro x hu
    have hlt := Vpn.user_iff.mp hu
    exact iff_of_true (hall x (by omega)) (by omega)
  have hpages := h.userPages_lt hd
  rw [userPages_eq le_rfl hfull] at hpages
  omega

end

/-- The first process: one page, and its size. -/
theorem exists_sized : ∃ own k, ∃ p : Proc, Owns smallLink own k ∧ own p.pgdir = .dir ∧
    p.sz = PGSIZE ∧ Sized k.mem p.pgdir PGSIZE.toNat ∧ 50000 < freePages own ∧
    Kern smallLink k.mem p.pgdir := by
  obtain ⟨_, own, s, p, -, -, h, hlive, -, hsz, hpage, hplenty⟩ :=
    Host.exists_init smallLink (by decide) fun _ => zeros
  have hp : (s.proc p).state ≠ .unused := by
    rw [hlive]
    nofun
  refine ⟨own, s.sys.kmem, s.proc p, h.sys.owns, h.dir hp, hsz, fun x => ⟨fun hx => ?_, fun hx => ?_⟩,
    Nat.lt_of_not_le fun hle => hplenty (.of_freePages hle), h.sys.kern _ (h.fits p hp).space⟩
  · by_contra hge
    refine (h.fits p hp).high x hx.1 ?_ hx.2
    rw [hsz]
    exact Nat.le_of_not_lt fun hlt => hge (Vpn.lt_roundUp.mpr hlt)
  · have hlt : x.num * 4096 < 4096 := Vpn.lt_roundUp.mp hx
    obtain rfl : x = vpn 0 := Vpn.num_inj (show x.num = 0 by omega)
    exact ⟨show 0 < 512 by decide, hpage⟩

/-! ## `allocuvm` and `deallocuvm` -/

section

variable {L : Link} {own own' : Word → Owner} {k k' : Kmem} {d n : Word} {sz : Nat} {p : Proc}

/-- **`allocuvm`** keeps the pages in step with the size. -/
theorem Sized.allocuvm_meets {oldsz newsz : Word} (hs : Sized k.mem d oldsz.toNat) (h : Owns L own k)
    (hd : own d = .dir) (hle : oldsz ≤ newsz) (hlt : newsz < KERNBASE) :
    Meets (allocuvm L d oldsz newsz) k (fun r k' =>
      (r = newsz ∧ Sized k'.mem d newsz.toNat ∧
          (∀ x : Vpn, x.In (roundUp oldsz.toNat) newsz.toNat → Blank k'.mem d x) ∨
        r = 0 ∧ Sized k'.mem d oldsz.toNat) ∧
      ∀ x : Vpn, x.num * 4096 < roundUp oldsz.toNat → Same k.mem k'.mem d x) fun _ => False := by
  have hlt' : newsz.toNat < 2 ^ 31 := hlt
  have hle' : oldsz.toNat ≤ newsz.toNat := hle
  have hup := roundUp_eq (a := oldsz) (by omega)
  refine mono (Vm.allocuvm_meets h hd oldsz newsz) ?_ ?_
  · rintro r k' ⟨own', h', hd', hloc, ⟨rfl, htrim, hkept, -⟩ | ⟨hc, -⟩ | ⟨-, -, hr, hfill, hzero, hkept⟩⟩
    · rw [hup] at htrim hkept
      have hsame : ∀ x : Vpn, x.num * 4096 < roundUp oldsz.toNat → Same k.mem k'.mem d x := by
        intro x hx
        obtain ⟨hu, hp⟩ := (hs x).mpr hx
        exact hkept.same h hd hu hp (fun hin => absurd hin.1 (Nat.not_le.mpr hx))
          ((htrim x).resolve_right fun hc => absurd hc.1.1 (Nat.not_le.mpr hx))
      refine ⟨.inr ⟨rfl, fun x => ⟨fun hx => ?_, fun hx => ?_⟩⟩, hsame⟩
      · rcases htrim x with hv | ⟨-, hv⟩
        · rw [hv] at hx
          exact (hs x).mp hx
        · exact absurd hx.2 hv
      · rw [(hsame x hx).1]
        exact (hs x).mpr hx
    · have hc' : newsz.toNat < oldsz.toNat := hc
      omega
    · rw [hup] at hfill hzero
      have hsame : ∀ x : Vpn, x.num * 4096 < roundUp oldsz.toNat → Same k.mem k'.mem d x := by
        intro x hx
        obtain ⟨hu, hp⟩ := (hs x).mpr hx
        exact hkept.same h hd hu hp id ((hfill x).2 fun hin => absurd hin.1 (Nat.not_le.mpr hx))
      refine ⟨.inl ⟨hr, fun x => ?_, hzero⟩, hsame⟩
      rw [Vpn.lt_roundUp]
      by_cases hin : x.In (roundUp oldsz.toNat) newsz.toNat
      · have hu : x.User := Vpn.user_iff.mpr (hin.2.trans hlt')
        exact ⟨fun _ => hin.2, fun _ => ⟨hu, (hfill x).1 hin⟩⟩
      · rw [(hfill x).2 hin, hs x]
        unfold Vpn.In at hin
        unfold roundUp at hin ⊢
        omega
  · -- a page that is mapped already would be below the old size
    rintro _ ⟨-, x, hin, hp⟩
    rw [hup] at hin
    have hu : x.User := Vpn.user_iff.mpr (hin.2.trans hlt')
    exact absurd ((hs x).mp ⟨hu, hp⟩) (Nat.not_lt.mpr hin.1)

/-- **`deallocuvm`** keeps the pages in step with the size, also when it is told a size that is
too large.  The pages it frees are those that were mapped above the new size. -/
theorem Sized.deallocuvm_meets (hs : Sized k.mem d sz) (h : Owns L own k) (hd : own d = .dir)
    (oldsz newsz : Word) (hreal : sz ≤ oldsz.toNat) (hold : oldsz ≤ KERNBASE) (hlt : newsz < oldsz) :
    Meets (deallocuvm L d oldsz newsz) k (fun r k' => r = newsz ∧
      Sized k'.mem d (min newsz.toNat sz) ∧
      (∀ x : Vpn, x.num * 4096 < roundUp (min newsz.toNat sz) → Same k.mem k'.mem d x) ∧
      ∃ own', Owns L own' k' ∧ ∀ q, own' q = .free ↔ own q = .free ∨
        ∃ x : Vpn, x.In (roundUp newsz.toNat) (roundUp sz) ∧ target (view k.mem d x) = some q)
      fun _ => False := by
  have hold' : oldsz.toNat ≤ 2 ^ 31 := hold
  have hlt' : newsz.toNat < oldsz.toNat := hlt
  refine mono (Vm.deallocuvm_meets h hd hold') ?_ fun _ => id
  rintro r k' (⟨hc, -⟩ | ⟨-, hr, own', h', hd', hrel, hclear⟩)
  · have hc' : oldsz.toNat ≤ newsz.toNat := hc
    omega
  rw [roundUp_eq (by omega)] at hrel hclear
  have hbelow : ∀ x : Vpn, x.num * 4096 < roundUp (min newsz.toNat sz) →
      x.num * 4096 < roundUp sz ∧ ¬ x.In (roundUp newsz.toNat) oldsz.toNat := by
    intro x hx
    unfold Vpn.In
    unfold roundUp at hx ⊢
    omega
  have hsame : ∀ x : Vpn, x.num * 4096 < roundUp (min newsz.toNat sz) → Same k.mem k'.mem d x := by
    intro x hx
    obtain ⟨hx', hout⟩ := hbelow x hx
    obtain ⟨hu, hp⟩ := (hs x).mpr hx'
    exact hrel.kept.same h hd hu hp hout ((hclear x).2 hout)
  refine ⟨hr, fun x => ⟨?_, fun hx => ?_⟩, hsame, own', h', fun q => ?_⟩
  · rintro ⟨hu, hp⟩
    have hout : ¬ x.In (roundUp newsz.toNat) oldsz.toNat := fun hin => (hclear x).1 hin hp
    rw [(hclear x).2 hout] at hp
    have hx := Vpn.lt_roundUp.mp ((hs x).mp ⟨hu, hp⟩)
    have hnew : x.num * 4096 < roundUp newsz.toNat :=
      Nat.lt_of_not_le fun hge => hout ⟨hge, hx.trans_le hreal⟩
    exact Vpn.lt_roundUp.mpr (lt_min (Vpn.lt_roundUp.mp hnew) hx)
  · rw [(hsame x hx).1]
    exact (hs x).mpr (hbelow x hx).1
  · rw [hrel.free_iff h h' hd hd' hclear]
    refine or_congr_right (exists_congr fun x => ?_)
    constructor
    · rintro ⟨hin, hq⟩
      obtain ⟨-, hu, ht⟩ := h.frame.mp hq
      exact ⟨⟨hin.1, (hs x).mp ⟨hu, (target_eq_some.mp ht).1⟩⟩, ht⟩
    · rintro ⟨hin, ht⟩
      have hin₂ := Vpn.lt_roundUp.mp hin.2
      exact ⟨⟨hin.1, hin₂.trans_le hreal⟩, h.frame.mpr ⟨hd, ((hs x).mpr hin.2).1, ht⟩⟩

/-- The free list after pages were freed: the list there was, and the new pages once each. -/
theorem Owns.freed {l : List Word} {F : Word → Prop} (h : Owns L own k) (h' : Owns L own' k')
    (hl : Linked k.mem k.freelist l) (hfree : ∀ q, own' q = .free ↔ own q = .free ∨ F q)
    (hF : ∀ q, F q → own q ≠ .free) :
    ∃ rs l', (rs ++ l).Nodup ∧ (∀ q, q ∈ rs ↔ F q) ∧ Linked k'.mem k'.freelist l' ∧
      l'.Perm (rs ++ l) := by
  obtain ⟨l₁, hl₁, hnd, hmem⟩ := h.list
  obtain rfl := hl.unique hl₁
  obtain ⟨l', hl', hnd', hmem'⟩ := h'.list
  have hrs : ∀ q, q ∈ l'.filter (· ∉ l) ↔ F q := by
    intro q
    rw [List.mem_filter, decide_eq_true_iff, hmem', hmem, hfree]
    exact ⟨fun hq => hq.1.resolve_left hq.2, fun hq => ⟨.inr hq, hF q hq⟩⟩
  have happ : (l'.filter (· ∉ l) ++ l).Nodup := by
    refine (hnd'.filter _).append hnd ?_
    intro q hq
    exact (hmem q).not.mpr (hF q ((hrs q).mp hq))
  refine ⟨l'.filter (· ∉ l), l', happ, hrs, hl', (List.perm_ext_iff_of_nodup hnd' happ).mpr fun q => ?_⟩
  rw [List.mem_append, hrs, hmem, hmem', hfree]
  exact or_comm

/-- **`allocuvm` and `deallocuvm` follow the size.**  Both return.  `allocuvm` maps the pages up
to the new size, blank, or it changes nothing; `deallocuvm` leaves the pages that were mapped
below the new size and puts every other page of the user on the free list, once. -/
theorem uvm_size (h : Owns L own k) (hd : own d = .dir) (hs : Sized k.mem d sz) :
    (∀ oldsz newsz : Word, oldsz.toNat = sz → oldsz ≤ newsz → newsz < KERNBASE →
      ∃ r k', allocuvm L d oldsz newsz k = .ok (r, k') ∧
        (r = newsz ∧ Sized k'.mem d newsz.toNat ∧
            (∀ x : Vpn, x.In (roundUp sz) newsz.toNat → Blank k'.mem d x) ∨
          r = 0 ∧ Sized k'.mem d sz) ∧
        ∀ x : Vpn, x.num * 4096 < roundUp sz → Same k.mem k'.mem d x) ∧
    ∀ oldsz newsz : Word, sz ≤ oldsz.toNat → oldsz ≤ KERNBASE → newsz < oldsz →
      ∃ k', deallocuvm L d oldsz newsz k = .ok (newsz, k') ∧
        Sized k'.mem d (min newsz.toNat sz) ∧
        (∀ x : Vpn, x.num * 4096 < roundUp (min newsz.toNat sz) → Same k.mem k'.mem d x) ∧
        ∃ l rs l', Linked k.mem k.freelist l ∧ Linked k'.mem k'.freelist l' ∧
          l'.Perm (rs ++ l) ∧ (rs ++ l).Nodup ∧ ∀ q, q ∈ rs ↔
            ∃ x : Vpn, x.In (roundUp newsz.toNat) (roundUp sz) ∧ target (view k.mem d x) = some q := by
  constructor
  · rintro oldsz newsz rfl hle hlt
    obtain ⟨r, k', hrun, hq⟩ := returns (hs.allocuvm_meets h hd hle hlt)
    exact ⟨r, k', hrun, hq⟩
  · intro oldsz newsz hreal hold hlt
    obtain ⟨r, k', hrun, rfl, hs', hsame, own', h', hfree⟩ :=
      returns (hs.deallocuvm_meets h hd _ _ hreal hold hlt)
    obtain ⟨l, hl, -⟩ := h.list
    have hframe : ∀ q, (∃ x : Vpn, x.In (roundUp r.toNat) (roundUp sz) ∧
        target (view k.mem d x) = some q) → own q ≠ .free := by
      rintro q ⟨x, hin, ht⟩
      rw [h.frame.mpr ⟨hd, ((hs x).mpr hin.2).1, ht⟩]
      nofun
    obtain ⟨rs, l', hnd, hrs, hl', hperm⟩ := h.freed h' hl hfree hframe
    exact ⟨k', hrun, hs', hsame, l, rs, l', hl, hl', hperm, hnd, hrs⟩

theorem uvm_size_first : ∃ own k d, Owns smallLink own k ∧ own d = .dir ∧ Sized k.mem d 4096 ∧
    (∃ r k', allocuvm smallLink d 4096 8192 k = .ok (r, k') ∧
      (r = 8192 ∧ Sized k'.mem d 8192 ∨ r = 0 ∧ Sized k'.mem d 4096)) ∧
    ∃ k', deallocuvm smallLink d KERNBASE 0 k = .ok (0, k') ∧ Sized k'.mem d 0 := by
  obtain ⟨own, k, p, h, hd, -, hs, -⟩ := exists_sized
  obtain ⟨halloc, hdealloc⟩ := uvm_size h hd hs
  obtain ⟨r, k₁, hrun₁, hr, -⟩ := halloc 4096 8192 rfl (by decide) (by decide)
  obtain ⟨k₂, hrun₂, hs₂, -⟩ := hdealloc KERNBASE 0 (by decide) (by decide) (by decide)
  exact ⟨own, k, _, h, hd, hs, ⟨r, k₁, hrun₁, hr.imp (fun hr => ⟨hr.1, hr.2.1⟩) id⟩, k₂, hrun₂, hs₂⟩

/-- Told a size that is too large and a new one above the real size, `deallocuvm` returns the new
one; the pages between are not there. -/
theorem deallocuvm_beyond : ∃ own k d k', Owns smallLink own k ∧ own d = .dir ∧ Sized k.mem d 4096 ∧
    deallocuvm smallLink d 12288 8192 k = .ok (8192, k') ∧ ¬ Sized k'.mem d 8192 := by
  obtain ⟨own, k, p, h, hd, -, hs, -⟩ := exists_sized
  obtain ⟨r, k', hrun, rfl, hs', -⟩ := returns
    (hs.deallocuvm_meets h hd 12288 8192 (by decide) (by decide) (by decide))
  refine ⟨own, k, _, k', h, hd, hs, hrun, fun hc => ?_⟩
  have hmapped := (hc (vpn 4096)).mpr (by decide)
  exact absurd ((hs' (vpn 4096)).mp hmapped) (by decide)

/-! ## `growproc` -/

end

end Xv6.Vm
