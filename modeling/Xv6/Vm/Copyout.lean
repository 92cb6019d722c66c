/-
# `Xv6.Vm.Copyout` — bytes for a user address

`copyout` of `vm.c`, byte by byte: it goes from page to page, asks `uva2ka` where the page is
and moves what belongs there.  In `Xv6.Vm.Exec` what the bytes say is left open; here they are
given, and `copyoutWith_eq` says that this is the same program.

`uva2ka` reads the entry that `walkpgdir` finds without asking whether it has found one.
`null` stands for what reading the null pointer does.  A run that comes out the same for every
`null` has not read it: that is how "no entry is used that does not exist" is stated, and it
holds as long as the first page that is not the user's has a page table (`Tabled`).

The bytes to be copied are taken as given, so that they are not in the pages written.
-/
import Xv6.Vm.Copy

namespace Xv6.Vm

open Wp

/-! ## The bytes of a page -/

abbrev Byte : Type := BitVec 8

/-- The byte at an offset; a page is a page of little-endian words. -/
def pageByte (c : Page) (o : Nat) : Byte := (c (Fin.ofNat 1024 (o / 4))).extractLsb' (8 * (o % 4)) 8

/-- The word of four bytes. -/
def packWord (b : Nat → Byte) : Word := b 3 ++ b 2 ++ b 1 ++ b 0

/-- `memmove` of `n` bytes to the offset `o` of a page. -/
def pageWrite (o n : Nat) (src : Nat → Byte) (c : Page) : Page := fun i =>
  packWord fun j =>
    if o ≤ 4 * i.val + j ∧ 4 * i.val + j < o + n then src (4 * i.val + j - o)
    else pageByte c (4 * i.val + j)

theorem extract_packWord (b : Nat → Byte) {j : Nat} (hj : j < 4) :
    (packWord b).extractLsb' (8 * j) 8 = b j := by
  ext i hi
  unfold packWord
  interval_cases j <;> grind

theorem pageByte_pageWrite {o n p : Nat} {src : Nat → Byte} {c : Page} (hp : p < 4096) :
    pageByte (pageWrite o n src c) p =
      if o ≤ p ∧ p < o + n then src (p - o) else pageByte c p := by
  have hidx : (Fin.ofNat 1024 (p / 4)).val = p / 4 := Nat.mod_eq_of_lt (by omega)
  unfold pageByte pageWrite
  rw [extract_packWord _ (Nat.mod_lt _ (by decide)), hidx, Nat.div_add_mod]
  rfl

/-! ## The code -/

/-- `uva2ka`, with what reading the null pointer does. -/
def uva2kaWith (null : M Word) (pgdir uva : Word) : M Word := do
  let pte ← walkpgdir pgdir uva false
  let w ← pte.elim null fun e => load e.1 e.2
  if Present w then
    if w &&& PTE_U = 0 then
      return 0
    else
      return P2V (PTE_ADDR w)
  else
    return 0

/-- The loop of `copyout`; `buf` are the bytes left. -/
def copyoutLoopWith (null : M Word) (cur pgdir : Word) : Nat → Word → Word → (Nat → Byte) → M Bool
  | 0, _, _, _ => throw .forever
  | n + 1, va, len, buf =>
    if 0 < len then do
      let va0 := PGROUNDDOWN va
      let pa0 ← uva2kaWith null pgdir va0
      if pa0 = 0 then
        return false
      else
        poke cur pa0 (pageWrite (va - va0).toNat (chunk va len).toNat buf)
        copyoutLoopWith null cur pgdir n (va0 + PGSIZE) (len - chunk va len) fun i =>
          buf ((chunk va len).toNat + i)
    else
      return true

/-- `copyout`, while the page directory `cur` is in use; false stands for -1. -/
def copyoutWith (null : M Word) (cur pgdir va : Word) (p : Nat → Byte) (len : Word) : M Bool :=
  copyoutLoopWith null cur pgdir turns va len p

/-! ## Addresses -/

/-- The user may use the page of this entry. -/
def UserPte (w : Word) : Prop := Present w ∧ w &&& PTE_U ≠ 0

instance (w : Word) : Decidable (UserPte w) := inferInstanceAs (Decidable (_ ∧ _))

theorem userPte_flags {w : Word} : UserPte (PTE_FLAGS w) ↔ UserPte w := by
  refine and_congr present_flags (not_congr ?_)
  unfold PTE_FLAGS
  rw [BitVec.and_assoc]
  rfl

/-- Where the byte at a virtual address is: its page and the offset there. -/
def physAt (m : Word → Page) (d va : Word) : Word × Nat :=
  (P2V (PTE_ADDR (view m d (vpn va))), va.toNat % 4096)

/-- The byte at a virtual address. -/
def byteAt (m : Word → Page) (d va : Word) : Byte := pageByte (pageAt m d (vpn va)) (va.toNat % 4096)

/-- The address of the byte `i` from `va` on. -/
def plus (va : Word) (i : Nat) : Word := va + BitVec.ofNat 32 i

theorem plus_zero (va : Word) : plus va 0 = va := BitVec.add_zero va

theorem plus_plus (va : Word) (i j : Nat) : plus (plus va i) j = plus va (i + j) := by
  unfold plus
  rw [BitVec.ofNat_add, BitVec.add_assoc]

theorem plus_inj {va : Word} {i j : Nat} (hi : i < 2 ^ 32) (hj : j < 2 ^ 32)
    (h : plus va i = plus va j) : i = j := by
  have hij := congrArg BitVec.toNat (BitVec.add_right_inj va |>.mp h)
  rw [BitVec.toNat_ofNat, BitVec.toNat_ofNat] at hij
  omega

theorem toNat_plus_mod (va : Word) (i : Nat) : (plus va i).toNat = (va.toNat + i) % 2 ^ 32 := by
  unfold plus
  rw [BitVec.toNat_add, BitVec.toNat_ofNat, Nat.add_mod_mod]

theorem toNat_plus {a : Word} {i : Nat} (h : a.toNat + i < 2 ^ 32) :
    (plus a i).toNat = a.toNat + i := by
  rw [toNat_plus_mod, Nat.mod_eq_of_lt h]

theorem vpn_plus {a : Word} {i : Nat} (h : a.toNat % 4096 + i < 4096) :
    vpn (plus a i) = vpn a ∧ (plus a i).toNat % 4096 = a.toNat % 4096 + i := by
  have hsum := toNat_plus (a := a) (i := i) (by omega)
  refine ⟨Vpn.num_inj ?_, by omega⟩
  rw [num_vpn, num_vpn, hsum]
  omega

theorem vpn_PGROUNDDOWN (va : Word) : vpn (PGROUNDDOWN va) = vpn va := by
  refine Vpn.num_inj ?_
  rw [num_vpn, num_vpn, toNat_PGROUNDDOWN]
  omega

/-! ## What is written -/

/-- **`n` bytes are written from `va` on**, where the address space `d` has them, and no others. -/
structure Wrote (d va : Word) (src : Nat → Byte) (n : Nat) (k k' : Kmem) : Prop where
  hit : ∀ i < n, pageByte (k'.mem (physAt k.mem d (plus va i)).1) (physAt k.mem d (plus va i)).2 = src i
  miss : ∀ q o, o < 4096 → (∀ i < n, physAt k.mem d (plus va i) ≠ (q, o)) →
    pageByte (k'.mem q) o = pageByte (k.mem q) o

/-- Two address spaces that can be used: the one the kernel runs on and the one it writes to. -/
structure Ready (L : Link) (cur d : Word) (own : Word → Owner) (k : Kmem) : Prop where
  owns : Owns L own k
  dir : own d = .dir
  kern : Kern L k.mem d
  curDir : own cur = .dir
  curKern : Kern L k.mem cur

/-- The first page of a range that is not the user's has a page table. -/
def Tabled (m : Word → Page) (d va : Word) (n : Nat) : Prop :=
  ∀ i < n, (∀ j < i, UserPte (view m d (vpn (plus va j)))) → tableAt m d (vpn (plus va i)).1 ≠ none

section

variable {L : Link} {own : Word → Owner} {k k' k₁ : Kmem} {cur d va len : Word} {src buf : Nat → Byte}
  {n c : Nat}

theorem Wrote.zero : Wrote d va src 0 k k := ⟨fun _ hi => absurd hi (Nat.not_lt_zero _), fun _ _ _ _ => rfl⟩

theorem physAt_congr {m m' : Word → Page} (h : view m' d = view m d) : physAt m' d = physAt m d := by
  funext va
  unfold physAt
  rw [h]

/-- **One range after another.** -/
theorem Wrote.append (h : Wrote d va src c k k₁) (h' : Wrote d (plus va c) buf n k₁ k')
    (hview : view k₁.mem d = view k.mem d) (hbuf : ∀ i, buf i = src (c + i))
    (hapart : ∀ i < c, ∀ j < n, physAt k.mem d (plus va (c + j)) ≠ physAt k.mem d (plus va i)) :
    Wrote d va src (c + n) k k' := by
  obtain ⟨hit', miss'⟩ := h'
  simp only [physAt_congr hview, plus_plus] at hit' miss'
  refine ⟨fun i hi => ?_, fun q o ho hout => ?_⟩
  · by_cases hic : i < c
    · exact (miss' _ _ (Nat.mod_lt _ (by decide)) (hapart i hic)).trans (h.hit i hic)
    · have hj := hit' (i - c) (by omega)
      rwa [hbuf, Nat.add_sub_cancel' (Nat.le_of_not_lt hic)] at hj
  · rw [miss' q o ho fun j hj => hout (c + j) (by omega)]
    exact h.miss q o ho fun i hi => hout i (by omega)

namespace Ready

/-- A page the user may use is a page of the user. -/
theorem frame (h : Ready L cur d own k) {x : Vpn} (hx : UserPte (view k.mem d x)) :
    x.User ∧ own (P2V (PTE_ADDR (view k.mem d x))) = .frame d x := by
  have hu : x.User := by
    by_contra hk
    refine hx.2 ?_
    rw [h.kern _ hk]
    exact kmapWord_user L.kmap_ok _
  exact ⟨hu, h.owns.frame.mpr ⟨h.dir, hu, target_eq_some.mpr ⟨hx.1, rfl⟩⟩⟩

/-- Different addresses of the user are different bytes. -/
theorem physAt_inj (h : Ready L cur d own k) {a b : Word} (ha : UserPte (view k.mem d (vpn a)))
    (hb : UserPte (view k.mem d (vpn b))) (hab : physAt k.mem d a = physAt k.mem d b) : a = b := by
  obtain ⟨hpage, hoff⟩ := Prod.mk.inj hab
  have hfa := (h.frame ha).2
  rw [hpage, (h.frame hb).2] at hfa
  have hnum := congrArg Vpn.num (Owner.frame.inj hfa).2
  rw [num_vpn, num_vpn] at hnum
  refine BitVec.eq_of_toNat_eq ?_
  omega

/-- **One page is written.** -/
theorem write (h : Ready L cur d own k) (hva : UserPte (view k.mem d (vpn va)))
    (hc : va.toNat % 4096 + c ≤ 4096) : Meets (poke cur (P2V (PTE_ADDR (view k.mem d (vpn va))))
      (pageWrite (va.toNat % 4096) c src)) k (fun _ k' => Ready L cur d own k' ∧
        view k'.mem d = view k.mem d ∧ k'.mem d = k.mem d ∧ Local d own k own k' ∧
        Wrote d va src c k k') fun _ => False := by
  obtain ⟨-, hown⟩ := h.frame hva
  generalize hp : P2V (PTE_ADDR (view k.mem d (vpn va))) = p at hown ⊢
  have hpool : Pool L p := h.owns.pool_of hown nofun
  obtain ⟨ho, hview, hloc⟩ := h.owns.writeFrame hown (pageWrite (va.toNat % 4096) c src (k.mem p))
  have hdp : d ≠ p := ne_of_owner h.dir hown nofun
  have hphys : ∀ i < c, physAt k.mem d (plus va i) = (p, va.toNat % 4096 + i) := by
    intro i hi
    obtain ⟨hvpn, hoff⟩ := vpn_plus (a := va) (i := i) (by omega)
    unfold physAt
    rw [hvpn, hoff, hp]
  refine of_bind (of_get ?_)
  rw [h.curKern.pool hpool]
  refine of_modify ⟨⟨ho, h.dir, h.kern.congr (hview d h.dir), h.curDir,
    h.curKern.congr (hview cur h.curDir)⟩, hview d h.dir, Kmem.setPage_of_ne hdp, hloc,
    fun i hi => ?_, fun q o hlt hout => ?_⟩
  · rw [hphys i hi, Kmem.setPage_self, pageByte_pageWrite (by omega), if_pos (by omega),
      Nat.add_sub_cancel_left]
  · by_cases hqp : q = p
    · subst hqp
      rw [Kmem.setPage_self, pageByte_pageWrite hlt, if_neg]
      rintro ⟨hlo, hhi⟩
      refine hout (o - va.toNat % 4096) (by omega) ?_
      rw [hphys _ (by omega), Nat.add_sub_cancel' hlo]
    · rw [Kmem.setPage_of_ne hqp]

end Ready

/-! ## `copyout` -/

/-- `uva2ka` where there is a page table. -/
theorem uva2kaWith_meets {null : M Word} (h : Ready L cur d own k)
    (htab : tableAt k.mem d (vpn va).1 ≠ none) :
    Meets (uva2kaWith null d va) k (fun r k' => k' = k ∧
      (r = 0 ∧ ¬ UserPte (view k.mem d (vpn va)) ∨
        r ≠ 0 ∧ r = P2V (PTE_ADDR (view k.mem d (vpn va))) ∧ UserPte (view k.mem d (vpn va))))
      fun _ => False := by
  refine call (walk_meets h.owns h.dir va) (fun _ => id) ?_
  rintro r k₁ ⟨rfl, ⟨rfl, hnone⟩ | ⟨t, rfl, ht⟩⟩
  · exact absurd hnone htab
  have hentry : k₁.mem t (PTX va) = view k₁.mem d (vpn va) := (h.owns.view_eq ht _).symm
  refine load_bind ?_
  rw [hentry]
  refine of_ite (fun hp => of_ite (fun hu => of_pure ⟨rfl, .inl ⟨rfl, fun hc => hc.2 hu⟩⟩) fun hu => ?_)
    fun hp => of_pure ⟨rfl, .inl ⟨rfl, fun hc => hp hc.1⟩⟩
  have huser : UserPte (view k₁.mem d (vpn va)) := ⟨hp, hu⟩
  have hne := (h.owns.pool (by rw [(h.frame huser).2]; nofun)).ne_zero
  exact of_pure ⟨rfl, .inr ⟨hne, rfl, huser⟩⟩

/-- **What `copyout` does**: it has written `m` bytes, all of them the user's, and it has
written all, or the next is not the user's. -/
def Copies (L : Link) (cur d va : Word) (src : Nat → Byte) (len : Nat) (own : Word → Owner) (k : Kmem)
    (ok : Bool) (k' : Kmem) : Prop :=
  Ready L cur d own k' ∧ view k'.mem d = view k.mem d ∧ Local d own k own k' ∧
  ∃ m ≤ len, (∀ i < m, UserPte (view k.mem d (vpn (plus va i)))) ∧ Wrote d va src m k k' ∧
    (ok = true ∧ m = len ∨ ok = false ∧ m < len ∧ ¬ UserPte (view k.mem d (vpn (plus va m))))

theorem Copies.done (h : Ready L cur d own k) : Copies L cur d va src 0 own k true k :=
  ⟨h, rfl, .refl, 0, le_rfl, fun _ hi => absurd hi (Nat.not_lt_zero _), .zero, .inl ⟨rfl, rfl⟩⟩

theorem Copies.stop (h : Ready L cur d own k) (hlen : 0 < n) (hno : ¬ UserPte (view k.mem d (vpn va))) :
    Copies L cur d va src n own k false k := by
  refine ⟨h, rfl, .refl, 0, Nat.zero_le _, fun _ hi => absurd hi (Nat.not_lt_zero _), .zero,
    .inr ⟨rfl, hlen, ?_⟩⟩
  rwa [plus_zero]

/-- The rest of the bytes after those of one page. -/
theorem Copies.next {ok : Bool} (h : Ready L cur d own k)
    (huser : ∀ i < c, UserPte (view k.mem d (vpn (plus va i)))) (hw : Wrote d va src c k k₁)
    (hview : view k₁.mem d = view k.mem d) (hloc : Local d own k own k₁) (hlen : c + n < 2 ^ 32)
    (hrest : Copies L cur d (plus va c) (fun i => src (c + i)) n own k₁ ok k') :
    Copies L cur d va src (c + n) own k ok k' := by
  obtain ⟨h', hview', hloc', m, hm, huser', hw', hend⟩ := hrest
  simp only [plus_plus, hview] at huser' hend
  have hall : ∀ i < c + m, UserPte (view k.mem d (vpn (plus va i))) := by
    intro i hi
    by_cases hic : i < c
    · exact huser i hic
    · have hu := huser' (i - c) (by omega)
      rwa [Nat.add_sub_cancel' (Nat.le_of_not_lt hic)] at hu
  refine ⟨h', hview'.trans hview, hloc.trans hloc', c + m, by omega, hall,
    hw.append hw' hview (fun _ => rfl) fun i hi j hj heq => ?_, ?_⟩
  · have hij := plus_inj (by omega) (by omega)
      (h.physAt_inj (hall (c + j) (by omega)) (hall i (by omega)) heq)
    omega
  · refine hend.imp (fun he => ⟨he.1, by omega⟩) fun he => ⟨he.1, by omega, he.2.2⟩

theorem Tabled.next {m : Word → Page} (h : Tabled k.mem d va (c + n))
    (huser : ∀ i < c, UserPte (view k.mem d (vpn (plus va i)))) (hview : view m d = view k.mem d)
    (hdir : m d = k.mem d) : Tabled m d (plus va c) n := by
  intro i hi hbefore
  rw [tableAt_congr hdir, plus_plus]
  refine h (c + i) (by omega) fun j hj => ?_
  by_cases hjc : j < c
  · exact huser j hjc
  · have hu := hbefore (j - c) (by omega)
    rwa [hview, plus_plus, Nat.add_sub_cancel' (Nat.le_of_not_lt hjc)] at hu

/-- **A turn of `copyout`**: there is nothing left, the page is not the user's, or its bytes are
written and the rest follows. -/
theorem copyoutTurn_meets {null : M Word} (h : Ready L cur d own k) (htab : Tabled k.mem d va len.toNat)
    (hrest : ∀ k₁, UserPte (view k.mem d (vpn va)) → Ready L cur d own k₁ →
      Tabled k₁.mem d (plus va (chunk va len).toNat) (len - chunk va len).toNat →
      Meets (copyoutLoopWith null cur d n (PGROUNDDOWN va + PGSIZE) (len - chunk va len)
          fun i => src ((chunk va len).toNat + i)) k₁
        (Copies L cur d (plus va (chunk va len).toNat) (fun i => src ((chunk va len).toNat + i))
          (len - chunk va len).toNat own k₁) fun _ => False) :
    Meets (copyoutLoopWith null cur d (n + 1) va len src) k (Copies L cur d va src len.toNat own k)
      fun _ => False := by
  refine of_ite (fun hpos => ?_) fun hz => ?_
  · have hfirst := htab 0 hpos fun _ hj => absurd hj (Nat.not_lt_zero _)
    rw [plus_zero, ← vpn_PGROUNDDOWN] at hfirst
    refine call (uva2kaWith_meets h hfirst) (fun _ => id) ?_
    rw [vpn_PGROUNDDOWN]
    rintro r k₁ ⟨rfl, ⟨rfl, hno⟩ | ⟨hne, rfl, huser⟩⟩
    · exact of_pos rfl (of_pure (.stop h hpos hno))
    have hchunk := toNat_chunk va len
    have hoff : (va - PGROUNDDOWN va).toNat = va.toNat % 4096 := by
      rw [BitVec.toNat_sub, toNat_PGROUNDDOWN]
      omega
    have hleft : (len - chunk va len).toNat = len.toNat - (chunk va len).toNat := by
      rw [BitVec.toNat_sub_of_le]
      show (chunk va len).toNat ≤ len.toNat
      omega
    have hlen : len.toNat = (chunk va len).toNat + (len - chunk va len).toNat := by omega
    have hpage : ∀ i < (chunk va len).toNat, UserPte (view k₁.mem d (vpn (plus va i))) := by
      intro i hi
      rw [(vpn_plus (by omega)).1]
      exact huser
    have hmax := len.isLt
    refine of_neg hne ?_
    rw [hoff]
    refine call (h.write huser (by omega)) (fun _ => id) ?_
    rintro _ k₂ ⟨h₂, hview, hdir, hloc, hw⟩
    rw [hlen] at htab hmax ⊢
    refine mono (hrest k₂ huser h₂ (htab.next hpage hview hdir)) ?_ fun _ => id
    exact fun _ _ hcopies => .next h hpage hw hview hloc hmax hcopies
  · obtain hz' : len.toNat = 0 := Nat.eq_zero_of_not_pos hz
    rw [hz']
    exact of_pure (.done h)

/-- **The loop of `copyout`.**  It ends at the latest where the kernel half begins. -/
theorem copyoutLoopWith_meets (null : M Word) (n : Nat) : ∀ {k : Kmem} {va len : Word}
    {src : Nat → Byte}, Ready L cur d own k → 2 ^ 19 ≤ va.toNat / 4096 + n →
    Tabled k.mem d va len.toNat →
    Meets (copyoutLoopWith null cur d (n + 1) va len src) k (Copies L cur d va src len.toNat own k)
      fun _ => False := by
  induction n with
  | zero =>
    intro k va len src h hn htab
    refine copyoutTurn_meets h htab fun k₁ huser _ _ => ?_
    have hlow : va.toNat < 2 ^ 31 := user_vpn.mp (h.frame huser).1
    omega
  | succ n ih =>
    intro k va len src h hn htab
    refine copyoutTurn_meets h htab fun k₁ huser h₁ htab₁ => ?_
    have hlow : va.toNat < 2 ^ 31 := user_vpn.mp (h.frame huser).1
    have hchunk := toNat_chunk va len
    by_cases hlast : (len - chunk va len).toNat = 0
    · -- the page holds all that is left
      rw [hlast]
      exact of_neg (show ¬ 0 < (len - chunk va len).toNat by omega) (of_pure (.done h₁))
    · have hnext : (PGROUNDDOWN va + PGSIZE).toNat = va.toNat / 4096 * 4096 + 4096 := by
        rw [BitVec.toNat_add, toNat_PGROUNDDOWN]
        show (_ + 4096) % 2 ^ 32 = _
        omega
      have hfull : (chunk va len).toNat = 4096 - va.toNat % 4096 := by
        have hle : chunk va len ≤ len := by
          show (chunk va len).toNat ≤ len.toNat
          omega
        rw [BitVec.toNat_sub_of_le hle] at hlast
        omega
      have hplus : PGROUNDDOWN va + PGSIZE = plus va (chunk va len).toNat := by
        refine BitVec.eq_of_toNat_eq ?_
        rw [hnext, toNat_plus (by omega)]
        omega
      rw [hplus] at hnext ⊢
      refine ih h₁ ?_ htab₁
      omega

/-- **`copyout`**, whatever reading the null pointer does. -/
theorem copyoutWith_meets (null : M Word) (h : Ready L cur d own k) (src : Nat → Byte)
    (htab : Tabled k.mem d va len.toNat) :
    Meets (copyoutWith null cur d va src len) k (Copies L cur d va src len.toNat own k)
      fun _ => False :=
  copyoutLoopWith_meets null (2 ^ 20) h (by omega) htab

end

theorem Tabled.of_user {m : Word → Page} {d va : Word} {n : Nat}
    (h : ∀ i < n, UserPte (view m d (vpn (plus va i)))) : Tabled m d va n := by
  intro i hi _ hnone
  have hp := (h i hi).1
  rw [view_of_none hnone] at hp
  exact not_present_zero hp

section

variable {cur d va len : Word} {src : Nat → Byte}

/-! ## The bytes as contents -/

/-- What `copyout` of `len` bytes to `va` leaves in the page at `va0`. -/
def copyText (va len : Word) (src : Nat → Byte) (va0 : Word) (c : Page) : Page := fun i =>
  packWord fun j =>
    if (plus va0 (4 * i.val + j) - va).toNat < len.toNat then src (plus va0 (4 * i.val + j) - va).toNat
    else pageByte c (4 * i.val + j)

theorem packWord_congr {b b' : Nat → Byte} (h : ∀ j < 4, b j = b' j) : packWord b = packWord b' := by
  unfold packWord
  rw [h 0 (by decide), h 1 (by decide), h 2 (by decide), h 3 (by decide)]

/-- How far the byte `o` of the page after `t` bytes is from the start. -/
theorem toNat_diff (va : Word) (t : Nat) {o : Nat} (ho : o < 4096) :
    (plus (PGROUNDDOWN (plus va t)) o - va).toNat =
      (2 ^ 32 - va.toNat + ((va.toNat + t) % 2 ^ 32 / 4096 * 4096 + o)) % 2 ^ 32 := by
  have hdown := toNat_PGROUNDDOWN (plus va t)
  rw [toNat_plus_mod] at hdown
  rw [BitVec.toNat_sub, toNat_plus (by omega), hdown]

/-- The turn of `copyout` after `t` bytes. -/
theorem pageWrite_eq_copyText {t : Nat} (hlen : len.toNat + 4096 ≤ 2 ^ 32) (ht : t ≤ len.toNat)
    (hstart : t = 0 ∨ (plus va t).toNat % 4096 = 0) :
    pageWrite ((plus va t).toNat % 4096) (min (len.toNat - t) (4096 - (plus va t).toNat % 4096))
      (fun i => src (t + i)) = copyText va len src (PGROUNDDOWN (plus va t)) := by
  funext c i
  refine packWord_congr fun j hj => ?_
  have hdiff := toNat_diff va t (o := 4 * i.val + j) (by omega)
  have hplus := toNat_plus_mod va t
  dsimp only
  by_cases hle : (plus va t).toNat % 4096 ≤ 4 * i.val + j
  · have hfar : (plus (PGROUNDDOWN (plus va t)) (4 * i.val + j) - va).toNat =
        t + (4 * i.val + j - (plus va t).toNat % 4096) := by
      omega
    rw [hfar]
    by_cases hin : t + (4 * i.val + j - (plus va t).toNat % 4096) < len.toNat
    · rw [if_pos hin, if_pos (by omega)]
    · rw [if_neg hin, if_neg (by omega)]
  · -- before the first byte: the distance wraps
    have hzero : t = 0 := hstart.resolve_right (by omega)
    subst hzero
    rw [if_neg (by omega), if_neg (by omega)]

/-- The null pointer is read at address 0 of the address space in use. -/
theorem uva2kaWith_eq (uva : Word) : uva2kaWith (derefPte cur none) d uva = uva2ka cur d uva := by
  refine congrArg _ (funext fun pte => ?_)
  cases pte with
  | none | some => rfl

theorem copyoutLoopWith_eq (hlen : len.toNat + 4096 ≤ 2 ^ 32) (n : Nat) : ∀ {t : Nat} {va' len' : Word},
    t + len'.toNat = len.toNat → (0 < len'.toNat → va' = plus va t ∧ (t = 0 ∨ va'.toNat % 4096 = 0)) →
    copyoutLoopWith (derefPte cur none) cur d n va' len' (fun i => src (t + i)) =
      copyoutLoop cur d (copyText va len src) n va' len' := by
  induction n with
  | zero => exact fun _ _ => rfl
  | succ n ih =>
    intro t va' len' hsum hstart
    have hchunk := toNat_chunk va' len'
    have hle : chunk va' len' ≤ len' := by
      show (chunk va' len').toNat ≤ len'.toNat
      omega
    have hleft := BitVec.toNat_sub_of_le hle
    by_cases hpos : 0 < len'
    · obtain ⟨rfl, hal⟩ := hstart hpos
      have hoff : (plus va t - PGROUNDDOWN (plus va t)).toNat = (plus va t).toNat % 4096 := by
        rw [BitVec.toNat_sub, toNat_PGROUNDDOWN]
        omega
      have htext : pageWrite (plus va t - PGROUNDDOWN (plus va t)).toNat
          (chunk (plus va t) len').toNat (fun i => src (t + i)) =
            copyText va len src (PGROUNDDOWN (plus va t)) := by
        rw [hoff, hchunk, show len'.toNat = len.toNat - t by omega]
        exact pageWrite_eq_copyText hlen (by omega) hal
      have hnext : 0 < (len' - chunk (plus va t) len').toNat →
          PGROUNDDOWN (plus va t) + PGSIZE = plus va (t + (chunk (plus va t) len').toNat) ∧
          (t + (chunk (plus va t) len').toNat = 0 ∨
            (PGROUNDDOWN (plus va t) + PGSIZE).toNat % 4096 = 0) := by
        intro hmore
        have hsum' : (PGROUNDDOWN (plus va t) + PGSIZE).toNat =
            ((plus va t).toNat / 4096 * 4096 + 4096) % 2 ^ 32 := by
          rw [BitVec.toNat_add, toNat_PGROUNDDOWN]
          rfl
        refine ⟨BitVec.eq_of_toNat_eq ?_, .inr (by omega)⟩
        rw [hsum', ← plus_plus, toNat_plus_mod _ (chunk (plus va t) len').toNat]
        omega
      have hrest := ih (by omega) hnext
      simp only [Nat.add_assoc] at hrest
      rw [copyoutLoopWith, copyoutLoop, if_pos hpos, if_pos hpos]
      dsimp only
      rw [uva2kaWith_eq, htext, hrest]
    · rw [copyoutLoopWith, copyoutLoop, if_neg hpos, if_neg hpos]

/-- **The bytes of `copyout` as contents of pages.** -/
theorem copyoutWith_eq (hlen : len.toNat + 4096 ≤ 2 ^ 32) :
    copyoutWith (derefPte cur none) cur d va src len = copyout cur d va len (copyText va len src) := by
  have heq : copyoutLoopWith (derefPte cur none) cur d turns va len (fun i => src (0 + i)) =
      copyoutLoop cur d (copyText va len src) turns va len :=
    copyoutLoopWith_eq hlen turns (Nat.zero_add _) fun _ => ⟨(plus_zero va).symm, .inl rfl⟩
  simp only [Nat.zero_add] at heq
  exact heq

end

end Xv6.Vm
