/-
# `Xv6.Vm.Free` — taking an address space apart, and building one

`deallocuvm`, `freevm` and `setupkvm`, which frees what it has built when it runs out of
pages.  `deallocuvm` frees a page before it clears the entry that points to it, and
`freevm` frees the page tables while the directory still points to them: in between no
reading of memory is exact.  The first is put right by swapping the two writes, which
hit different pages; the second by dissolving the directory (`Owns.undir`) before its
parts are freed.
-/
import Xv6.Vm.Census

namespace Xv6.Vm

open Wp List
open Function (update update_idem update_of_ne update_self)

section

variable {L : Link} {own own' : Word → Owner} {k k' : Kmem} {d : Word}

/-! ## `deallocuvm` -/

/-- User pages of `d` in `S` may have been given back; the page tables stay. -/
structure Released (S : Vpn → Prop) (d : Word) (own : Word → Owner) (k : Kmem) (own' : Word → Owner)
    (k' : Kmem) : Prop extends Local d own k own' k' where
  kept : Kept S d own k own' k'
  dir : k'.mem d = k.mem d

namespace Released

variable {S S' : Vpn → Prop} {own'' : Word → Owner} {k'' : Kmem}

theorem refl : Released S d own k own k := ⟨.refl, .refl, rfl⟩

theorem mono (h : Released S d own k own' k') (hS : ∀ x, S x → S' x) : Released S' d own k own' k' :=
  ⟨h.toLocal, h.kept.mono hS, h.dir⟩

theorem trans (h : Released S d own k own' k') (h' : Released S d own' k' own'' k'') :
    Released S d own k own'' k'' :=
  ⟨h.toLocal.trans h'.toLocal, h.kept.trans h'.kept, h'.dir.trans h.dir⟩

/-- Once the pages of `S` are unmapped, the free pages are those there were and the pages
they were mapped to. -/
theorem free_iff (h : Released S d own k own' k') (ho : Owns L own k) (ho' : Owns L own' k')
    (hd : own d = .dir) (hd' : own' d = .dir) (hS : ∀ x, (S x → ¬ Present (view k'.mem d x)) ∧
      (¬ S x → view k'.mem d x = view k.mem d x)) {q : Word} :
    own' q = .free ↔ own q = .free ∨ ∃ x, S x ∧ own q = .frame d x := by
  have htable : ∀ i, own' q = .table d i ↔ own q = .table d i := by
    intro i
    rw [ho.table, ho'.table, tableAt_congr h.dir]
    exact ⟨fun hq => ⟨hd, hq.2⟩, fun hq => ⟨hd', hq.2⟩⟩
  have hframe : ∀ x, S x → own' q ≠ .frame d x :=
    fun x hx hq => (hS x).1 hx (target_eq_some.mp (ho'.frame.mp hq).2.2).1
  constructor
  · intro hq
    rcases h.hands q with he | ⟨hm, -⟩
    · exact .inl (he.symm.trans hq)
    · rcases hm with rfl | hm | ⟨i, hm⟩ | ⟨x, hm⟩
      · rw [hd'] at hq
        cases hq
      · exact .inl hm
      · rw [(htable i).mpr hm] at hq
        cases hq
      · refine .inr ⟨x, ?_, hm⟩
        by_contra hx
        rw [(h.kept q x hm hx).1] at hq
        cases hq
  · intro hq
    have hqd : q ≠ d := by
      rintro rfl
      rw [hd] at hq
      rcases hq with hq | ⟨x, -, hq⟩ <;> cases hq
    have hmove : own' q = own q ∨ Mine d q (own' q) := (h.hands q).imp id And.right
    rcases hmove with he | rfl | hm | ⟨i, hm⟩ | ⟨x, hm⟩
    · rcases hq with hq | ⟨x, hx, hq⟩
      · exact he.trans hq
      · exact absurd (he.trans hq) (hframe x hx)
    · exact absurd rfl hqd
    · exact hm
    · have hm' := (htable i).mp hm
      rw [hm'] at hq
      rcases hq with hq | ⟨x, -, hq⟩ <;> cases hq
    · -- a page that is mapped now was mapped before, and it is not in `S`
      have hx : ¬ S x := fun hx => hframe x hx hm
      obtain ⟨-, hu, ht⟩ := ho'.frame.mp hm
      rw [(hS x).2 hx] at ht
      rw [ho.frame.mpr ⟨hd, hu, ht⟩] at hq
      rcases hq with hq | ⟨y, hy, hq⟩ <;> cases hq
      exact absurd hy hx

end Released

/-- The page behind an entry is freed and the entry is cleared. -/
theorem Owns.unmap (h : Owns L own k) {t p : Word} {i j : Idx} (ht : own t = .table d i)
    (hp : own p = .frame d (i, j)) :
    Owns L (update own p .free) ((k.freed p).setWord t j 0) ∧
      Released (· = (i, j)) d own k (update own p .free) ((k.freed p).setWord t j 0) ∧
      view ((k.freed p).setWord t j 0).mem d = update (view k.mem d) (i, j) 0 := by
  have hd : own d = .dir := (h.table.mp ht).1
  have hpool : Pool L p := h.pool_of hp nofun
  have htp : t ≠ p := ne_of_owner ht hp nofun
  have hkeep : ∀ q, update own p .raw q = own q ∨ (own q = .raw ∨ own q = .frame d (i, j)) ∧
      (update own p .raw q = .raw ∨ update own p .raw q = .frame d (i, j)) := by
    intro q
    rcases eq_or_ne q p with rfl | hq
    · rw [update_self]
      exact .inr ⟨.inr hp, .inl rfl⟩
    · exact .inl (update_of_ne hq ..)
  -- the entry names no page any more, and `p` was the only page it named
  have hpage : ∀ q, update own p .raw q = .frame d (i, j) ↔
      Vpn.User (i, j) ∧ target (0 : Word) = some q := by
    intro q
    refine ⟨fun hq => ?_, fun hq => by cases hq.2⟩
    rcases eq_or_ne q p with rfl | hqp
    · rw [update_self] at hq
      cases hq
    · rw [update_of_ne hqp] at hq
      exact absurd (Option.some.inj ((h.frame.mp hq).2.2.symm.trans (h.frame.mp hp).2.2)) hqp
  obtain ⟨h₁, hview⟩ := h.setPte ht hkeep hpage
  have hraw : update own p .raw p = .raw := update_self ..
  have h₂ := h₁.release (.inl hraw) hpool
  rw [update_idem] at h₂
  rw [Kmem.freed_setWord htp]
  have hmem : ∀ q, q ≠ p → q ≠ t → ((k.setWord t j 0).freed p).mem q = k.mem q := by
    intro q hqp hqt
    rw [Kmem.freed_of_ne hqp, Kmem.setWord_of_ne hqt]
  refine ⟨h₂, ⟨⟨fun q => ?_, fun q hq => hmem q ?_ ?_⟩, fun q x hq hx => ?_, hmem d ?_ ?_⟩, ?_⟩
  · rcases eq_or_ne q p with rfl | hq
    · rw [update_self, hp]
      exact .inr ⟨mine_frame, mine_free⟩
    · exact .inl (update_of_ne hq ..)
  · rintro rfl
    rw [hp] at hq
    exact hq mine_frame
  · rintro rfl
    rw [ht] at hq
    exact hq mine_table
  · have hqp : q ≠ p := ne_of_owner hq hp fun he => hx (Owner.frame.inj he).2
    exact ⟨(update_of_ne hqp ..).trans hq, hmem q hqp (ne_of_owner hq ht nofun)⟩
  · exact ne_of_owner hd hp nofun
  · exact ne_of_owner hd ht nofun
  · have hd₁ : update own p .raw d = .dir := by
      rw [update_of_ne (ne_of_owner hd hp nofun), hd]
    have hsame : view ((k.setWord t j 0).freed p).mem d = view (k.setWord t j 0).mem d := by
      exact h₁.view_congr hd₁ (Kmem.freed_of_ne (ne_of_owner hd₁ hraw nofun)) fun i' t' ht' =>
        Kmem.freed_of_ne (ne_of_owner ht' hraw nofun)
    rw [hsame, hview d hd, if_pos rfl]

/-- Where the loop of `deallocuvm` goes on when a page table is missing. -/
theorem toNat_skip {a : Word} (ha : a.toNat < 2 ^ 31) :
    (PGADDR (BitVec.ofNat 32 (PDX a).val + 1) 0 0 - PGSIZE + PGSIZE).toNat =
      (a.toNat / 2 ^ 22 + 1) * 2 ^ 22 := by
  have hor : PGADDR (BitVec.ofNat 32 (PDX a).val + 1) 0 0 =
      (BitVec.ofNat 32 (PDX a).val + 1) <<< 22 := by
    unfold PGADDR
    simp
  rw [BitVec.sub_add_cancel, hor, PDX_val, BitVec.toNat_shiftLeft, Nat.shiftLeft_eq,
    BitVec.toNat_add, BitVec.toNat_ofNat]
  show ((a.toNat / 2 ^ 22 % 2 ^ 32 + 1) % 2 ^ 32 * 2 ^ 22) % 2 ^ 32 = _
  omega

/-- The pages of `d` between two addresses are unmapped, the others are as they were. -/
def Cleared (d : Word) (lo hi : Nat) (m m' : Word → Page) : Prop :=
  ∀ x : Vpn, (x.In lo hi → ¬ Present (view m' d x)) ∧ (¬ x.In lo hi → view m' d x = view m d x)

/-- **The loop of `deallocuvm`** below the kernel half: it ends, and it unmaps the pages
from `a` to `oldsz` and nothing else. -/
theorem deallocLoop_meets {oldsz : Word} (hold : oldsz.toNat ≤ 2 ^ 31) (n : Nat) :
    ∀ {own : Word → Owner} {k : Kmem} {a : Word}, Owns L own k → own d = .dir →
    a.toNat % 4096 = 0 → oldsz.toNat ≤ a.toNat + 4096 * n →
    Meets (deallocLoop L d oldsz (n + 1) a) k (fun _ k' => ∃ own', Owns L own' k' ∧
      own' d = .dir ∧ Released (Vpn.In · a.toNat oldsz.toNat) d own k own' k' ∧
      Cleared d a.toNat oldsz.toNat k.mem k'.mem) fun _ => False := by
  induction n with
  | zero =>
    intro own k a h hd ha hn
    refine of_ite (fun hlt => ?_) fun hge => of_pure ⟨own, h, hd, .refl, Vpn.range_nil hge⟩
    have hlt' : a.toNat < oldsz.toNat := hlt
    omega
  | succ n ih =>
    intro own k a h hd ha hn
    refine of_ite (fun hlt => ?_) fun hge => of_pure ⟨own, h, hd, .refl, Vpn.range_nil hge⟩
    have hlt' : a.toNat < oldsz.toNat := hlt
    have huser : (vpn a).User := user_vpn.mpr (Nat.lt_of_lt_of_le hlt' hold)
    have hnext := toNat_next hlt hold
    refine call (walk_meets h hd a) (fun _ => id) ?_
    rintro r k₁ ⟨rfl, ⟨rfl, hnone⟩ | ⟨t, rfl, ht⟩⟩
    · -- no page table: nothing is mapped up to the next one
      have hskip := toNat_skip (a := a) (by omega)
      refine mono (ih h hd (by omega) (by omega)) ?_ fun _ => id
      rintro _ k' ⟨own', h', hd', hrel, hview⟩
      refine ⟨own', h', hd', hrel.mono fun x hx => ⟨?_, hx.2⟩,
        fun x => ⟨fun hx => ?_, fun hx => (hview x).2 ?_⟩⟩
      · have hx₁ := hx.1
        omega
      · rcases Nat.lt_or_ge (x.num * 4096) ((a.toNat / 2 ^ 22 + 1) * 2 ^ 22) with hmid | hmid
        · have hx₁ : x.1 = PDX a := by
            have h₁ := hx.1
            unfold Vpn.num at h₁ hmid
            refine Fin.ext ?_
            rw [PDX_val]
            omega
          have hout : ¬ x.In (PGADDR (BitVec.ofNat 32 (PDX a).val + 1) 0 0 - PGSIZE + PGSIZE).toNat
              oldsz.toNat := by
            rw [hskip]
            exact fun hc => absurd hc.1 (Nat.not_le.mpr hmid)
          rw [(hview x).2 hout, view_of_none (by rw [hx₁]; exact hnone)]
          exact not_present_zero
        · refine (hview x).1 ⟨?_, hx.2⟩
          rw [hskip]
          exact hmid
      · rw [hskip]
        exact fun hc => hx ⟨by have := hc.1; omega, hc.2⟩
    · have hentry : k₁.mem t (PTX a) = view k₁.mem d (vpn a) := (h.view_eq ht _).symm
      -- what the rest of the loop does, once the page at `a` is unmapped
      have hrest : ∀ {own₂ : Word → Owner} {k₂ : Kmem}, Owns L own₂ k₂ → own₂ d = .dir →
          Released (· = vpn a) d own k₁ own₂ k₂ → ¬ Present (view k₂.mem d (vpn a)) →
          (∀ x, x ≠ vpn a → view k₂.mem d x = view k₁.mem d x) →
          Meets (deallocLoop L d oldsz (n + 1) (a + PGSIZE)) k₂ (fun _ k' => ∃ own',
            Owns L own' k' ∧ own' d = .dir ∧ Released (Vpn.In · a.toNat oldsz.toNat) d own k₁ own' k' ∧
            Cleared d a.toNat oldsz.toNat k₁.mem k'.mem) fun _ => False := by
        intro own₂ k₂ h₂ hd₂ hrel₂ habs hsame
        refine mono (ih h₂ hd₂ (by omega) (by omega)) ?_ fun _ => id
        rintro _ k' ⟨own', h', hd', hrel, hview⟩
        refine ⟨own', h', hd', (hrel₂.mono ?_).trans (hrel.mono fun x hx => ⟨?_, hx.2⟩),
          Vpn.range_cons ha hlt' hnext hsame (fun he => ?_) hview⟩
        · rintro x rfl
          exact Vpn.in_self ha hlt'
        · have hx₁ := hx.1
          omega
        · rw [he]
          exact habs
      refine load_bind (of_ite (fun hp => ?_) fun hp => ?_)
      · rw [hentry] at hp
        have hown : own (P2V (PTE_ADDR (view k₁.mem d (vpn a)))) = .frame d (vpn a) :=
          h.frame.mpr ⟨hd, huser, target_eq_some.mpr ⟨hp, rfl⟩⟩
        have hpool : Pool L (P2V (PTE_ADDR (view k₁.mem d (vpn a)))) :=
          h.pool_of hown nofun
        rw [hentry]
        refine of_ite (fun hz => ?_) fun _ => ?_
        · have h₁ := hpool.data_le
          have h₂ := L.data_lo
          rw [hz] at h₁
          have h₃ : (P2V 0).toNat = 0x80000000 := rfl
          omega
        · generalize P2V (PTE_ADDR (view k₁.mem d (vpn a))) = p at hown hpool
          refine call (kfree_meets hpool) (fun _ => id) ?_
          rintro _ k₂ rfl
          obtain ⟨h₂, hrel₂, hview₂⟩ := h.unmap ht hown
          refine store_bind (hrest h₂ ?_ hrel₂ ?_ fun x hx => ?_)
          · rw [update_of_ne (ne_of_owner hd hown nofun), hd]
          · rw [hview₂]
            show ¬ Present (update (view k₁.mem d) (vpn a) 0 (vpn a))
            rw [update_self]
            exact not_present_zero
          · rw [hview₂]
            exact update_of_ne hx ..
      · rw [hentry] at hp
        exact hrest h hd .refl hp fun _ _ => rfl

/-- **`deallocuvm`** below the kernel half. -/
theorem deallocuvm_meets (h : Owns L own k) (hd : own d = .dir) {oldsz newsz : Word}
    (hold : oldsz.toNat ≤ 2 ^ 31) :
    Meets (deallocuvm L d oldsz newsz) k (fun r k' => oldsz ≤ newsz ∧ r = oldsz ∧ k' = k ∨
      newsz < oldsz ∧ r = newsz ∧ ∃ own', Owns L own' k' ∧ own' d = .dir ∧
        Released (Vpn.In · (PGROUNDUP newsz).toNat oldsz.toNat) d own k own' k' ∧
        Cleared d (PGROUNDUP newsz).toNat oldsz.toNat k.mem k'.mem) fun _ => False := by
  refine of_ite (fun hle => of_pure (.inl ⟨hle, rfl, rfl⟩)) fun hlt => ?_
  have hlt' : newsz.toNat < oldsz.toNat := Nat.lt_of_not_le hlt
  have hup := toNat_PGROUNDUP (a := newsz) (by omega)
  refine call (deallocLoop_meets hold (2 ^ 20) h hd (by omega) (by omega)) (fun _ => id) ?_
  rintro _ k' hk'
  exact of_pure (.inr ⟨hlt', rfl, hk'⟩)

theorem deallocuvm_all (h : Owns L own k) (hd : own d = .dir) {oldsz newsz : Word}
    (hold : oldsz.toNat = 2 ^ 31) (hnew : newsz.toNat = 0) :
    Meets (deallocuvm L d oldsz newsz) k (fun _ k' => ∃ own', Owns L own' k' ∧ own' d = .dir ∧
      Local d own k own' k' ∧ ∀ x : Vpn, x.User → ¬ Present (view k'.mem d x)) fun _ => False := by
  refine mono (deallocuvm_meets h hd hold.le) ?_ fun _ => id
  rintro _ k' (⟨hle, -⟩ | ⟨-, -, own', h', hd', hrel, hclear⟩)
  · have hle' : oldsz.toNat ≤ newsz.toNat := hle
    omega
  · refine ⟨own', h', hd', hrel.toLocal, fun x hx => (hclear x).1 ⟨?_, ?_⟩⟩
    · rw [toNat_PGROUNDUP (by omega), hnew]
      exact Nat.zero_le _
    · have h₂ := x.2.isLt
      unfold Vpn.User at hx
      unfold Vpn.num
      omega

/-! ## `freevm` -/

/-- **The loop of `freevm`**: the pages the directory points to are freed, once each. -/
theorem freeTables_meets (is : List Idx) : ∀ {own : Word → Owner} {k : Kmem}, is.Nodup →
    Owns L own k → (∀ i ∈ is, ∀ t, tableAt k.mem d i = some t → own t = .raw ∧ t ≠ d) →
    (∀ i ∈ is, ∀ j ∈ is, ∀ t, tableAt k.mem d i = some t → tableAt k.mem d j = some t → i = j) →
    Meets (freeTables L d is) k (fun _ k' => ∃ own', Owns L own' k' ∧ ∀ q,
      (∃ i ∈ is, tableAt k.mem d i = some q) ∧ own' q = .free ∨
      (∀ i ∈ is, tableAt k.mem d i ≠ some q) ∧ own' q = own q ∧ k'.mem q = k.mem q)
      fun _ => False := by
  induction is with
  | nil =>
    intro own k _ h _ _
    exact of_pure ⟨own, h, fun q => .inr ⟨nofun, rfl, rfl⟩⟩
  | cons i is ih =>
    intro own k hnd h hraw hinj
    obtain ⟨hi, hnd⟩ := nodup_cons.mp hnd
    refine load_bind (of_ite (fun hp => ?_) fun hp => ?_)
    · have hti : tableAt k.mem d i = some (P2V (PTE_ADDR (k.mem d i))) :=
        target_eq_some.mpr ⟨hp, rfl⟩
      generalize P2V (PTE_ADDR (k.mem d i)) = t at hti
      obtain ⟨ht, htd⟩ := hraw i mem_cons_self t hti
      have hpool : Pool L t := h.pool_of ht nofun
      refine call (kfree_meets hpool) (fun _ => id) ?_
      rintro _ k₁ rfl
      have htab : tableAt (k.freed t).mem d = tableAt k.mem d :=
        tableAt_congr (Kmem.freed_of_ne htd.symm)
      have hne : ∀ j ∈ is, tableAt k.mem d j ≠ some t := by
        intro j hj hc
        rw [hinj i mem_cons_self j (mem_cons_of_mem _ hj) t hti hc] at hi
        exact hi hj
      refine mono (ih hnd (h.release (.inl ht) hpool) ?_ ?_) ?_ fun _ => id
      · intro j hj t' ht'
        rw [htab] at ht'
        rw [update_of_ne]
        · exact hraw j (mem_cons_of_mem _ hj) t' ht'
        · rintro rfl
          exact hne j hj ht'
      · intro j hj j' hj' t' ht' ht''
        rw [htab] at ht' ht''
        exact hinj j (mem_cons_of_mem _ hj) j' (mem_cons_of_mem _ hj') t' ht' ht''
      · rintro _ k' ⟨own', h', hown'⟩
        rw [htab] at hown'
        refine ⟨own', h', fun q => ?_⟩
        rcases hown' q with ⟨⟨j, hj, hq⟩, hfree⟩ | ⟨hq, hsame, hmem⟩
        · exact .inl ⟨⟨j, mem_cons_of_mem _ hj, hq⟩, hfree⟩
        · rcases eq_or_ne q t with rfl | hqt
          · rw [update_self] at hsame
            exact .inl ⟨⟨i, mem_cons_self, hti⟩, hsame⟩
          · rw [update_of_ne hqt] at hsame
            rw [Kmem.freed_of_ne hqt] at hmem
            refine .inr ⟨fun j hj => ?_, hsame, hmem⟩
            rcases mem_cons.mp hj with rfl | hj
            · rw [hti]
              exact fun e => hqt (Option.some.inj e).symm
            · exact hq j hj
    · have hti : tableAt k.mem d i = none := if_neg hp
      refine mono (ih hnd h (fun j hj => hraw j (mem_cons_of_mem _ hj)) fun j hj j' hj' =>
        hinj j (mem_cons_of_mem _ hj) j' (mem_cons_of_mem _ hj')) ?_ fun _ => id
      rintro _ k' ⟨own', h', hown'⟩
      refine ⟨own', h', fun q => (hown' q).imp ?_ ?_⟩
      · rintro ⟨⟨j, hj, hq⟩, hfree⟩
        exact ⟨⟨j, mem_cons_of_mem _ hj, hq⟩, hfree⟩
      · rintro ⟨hq, hsame⟩
        refine ⟨fun j hj => ?_, hsame⟩
        rcases mem_cons.mp hj with rfl | hj
        · rw [hti]
          nofun
        · exact hq j hj

/-- **`freevm`** gives back the directory, its page tables and its user pages. -/
theorem freevm_meets (h : Owns L own k) (hd : own d = .dir) :
    Meets (freevm L d) k (fun _ k' => ∃ own', Owns L own' k' ∧ own' d = .free ∧
      Local d own k own' k') fun _ => False := by
  have hpool : Pool L d := h.pool_of hd nofun
  have hnd := nodup_finRange 1024
  have hall : ∀ i : Idx, i ∈ List.finRange 1024 := mem_finRange
  unfold freevm
  generalize List.finRange 1024 = is at hnd hall ⊢
  refine of_ite (fun hz => absurd hz hpool.ne_zero) fun _ => ?_
  refine call (deallocuvm_all h hd rfl rfl) (fun _ => id) ?_
  rintro _ k₁ ⟨own₁, h₁, hd₁, hloc₁, huser⟩
  have h₂ := h₁.undir hd₁ huser
  have htable : ∀ i t, tableAt k₁.mem d i = some t → own₁ t = .table d i :=
    fun i t ht => h₁.table.mpr ⟨hd₁, ht⟩
  refine call (freeTables_meets is hnd h₂ ?_ ?_) (fun _ => id) ?_
  · intro i _ t ht
    exact ⟨undir_table (htable i t ht), ne_of_owner (htable i t ht) hd₁ nofun⟩
  · intro i _ j _ t hi hj
    have hij := (htable i t hi).symm.trans (htable j t hj)
    cases hij
    rfl
  rintro _ k₃ ⟨own₃, h₃, hown₃⟩
  have hd₃ : own₃ d = .raw := by
    rcases hown₃ d with ⟨⟨i, -, hi⟩, -⟩ | ⟨-, hsame, -⟩
    · rw [htable i d hi] at hd₁
      cases hd₁
    · rw [hsame, undir_self]
  refine mono (kfree_meets hpool) ?_ fun _ => id
  rintro _ k₄ rfl
  refine ⟨_, h₃.release (.inl hd₃) hpool, update_self .., hloc₁.trans ⟨fun q => ?_, fun q hq => ?_⟩⟩
  · rcases eq_or_ne q d with rfl | hqd
    · exact .inr ⟨mine_self, mine_self⟩
    rw [update_of_ne hqd]
    rcases hown₃ q with ⟨⟨i, -, hi⟩, hfree⟩ | ⟨hno, hsame, -⟩
    · rw [hfree, htable i q hi]
      exact .inr ⟨mine_table, mine_free⟩
    · refine .inl (hsame.trans (undir_of_ne hqd fun i hi => ?_))
      exact hno i (hall i) (h₁.table.mp hi).2
  · have hqd : q ≠ d := fun e => hq (.inl e)
    rw [Kmem.freed_of_ne hqd]
    rcases hown₃ q with ⟨⟨i, -, hi⟩, -⟩ | ⟨-, -, hmem⟩
    · rw [htable i q hi] at hq
      exact absurd mine_table hq
    · exact hmem

/-! ## `setupkvm` -/

/-- When an address space that was built is gone again, every page is back where it was. -/
theorem Local.restored (hloc : Local d own k own' k') (h : Owns L own k) (hd : own d = .free)
    (h' : Owns L own' k') (hd' : own' d = .free) : own' = own := by
  funext q
  rcases hloc.hands q with hq | ⟨hq, hq'⟩
  · exact hq
  · rw [h.free_of_mine hd hq, h'.free_of_mine hd' hq']

section

variable {own₁ own₂ : Word → Owner} {k₁ k₂ : Kmem} {p : Word}

/-- Only pages that were free have changed hands or contents. -/
structure Fresh (own : Word → Owner) (k : Kmem) (own' : Word → Owner) (k' : Kmem) : Prop where
  hands : ∀ q, own q ≠ .free → own' q = own q
  mem : ∀ q, own q ≠ .free → k'.mem q = k.mem q

namespace Fresh

theorem refl : Fresh own k own k := ⟨fun _ _ => rfl, fun _ _ => rfl⟩

section

variable (h : Fresh own k own₁ k₁)
include h

theorem free (hp : own₁ p = .free) : own p = .free := by
  by_contra hq
  exact hq ((h.hands p hq).symm.trans hp)

theorem trans (h' : Fresh own₁ k₁ own₂ k₂) : Fresh own k own₂ k₂ := by
  refine ⟨fun q hq => ?_, fun q hq => ?_⟩
  · rw [h'.hands q (by rwa [h.hands q hq]), h.hands q hq]
  · rw [h'.mem q (by rwa [h.hands q hq]), h.mem q hq]

/-- Something more is done to a page that was free. -/
theorem update (hp : own p = .free) (o : Owner)
    (hm : ∀ q, q ≠ p → k₂.mem q = k₁.mem q) : Fresh own k (update own₁ p o) k₂ := by
  have hne : ∀ q, own q ≠ .free → q ≠ p := by
    rintro q hq rfl
    exact hq hp
  refine ⟨fun q hq => ?_, fun q hq => ?_⟩
  · rw [update_of_ne (hne q hq), h.hands q hq]
  · rw [hm q (hne q hq), h.mem q hq]

/-- An operation on an address space that was not there, which may lose a page. -/
theorem space (ho : Owns L own k) (hd : own d = .free)
    (hloc : Loose d p own₁ k₁ own₂ k₂) : Fresh own k own₂ k₂ := by
  have hmine : ∀ q, own q ≠ .free → ¬ Mine d q (own₁ q) := by
    intro q hq hm
    rw [h.hands q hq] at hm
    exact hq (ho.free_of_mine hd hm)
  refine ⟨fun q hq => ?_, fun q hq => ?_⟩
  · rw [hloc.keep (hmine q hq), h.hands q hq]
  · rw [hloc.mem q (hmine q hq), h.mem q hq]

end

end Fresh

end

/-- There are no more than `n` free pages. -/
def Scarce (own : Word → Owner) (n : Nat) : Prop :=
  ∃ f : Word → Nat, Set.InjOn f {q | own q = .free} ∧ ∀ q, own q = .free → f q < n

/-- A number for each part of an address space with `n` pages, for a page in hand and for
the directory; the free pages, which have numbers, come after that. -/
def Owner.index (n m : Nat) : Owner → Nat
  | .table _ i => i.val
  | .frame _ x => 1024 + x.num
  | .raw => 1024 + n
  | .free => 1026 + n + m
  | _ => 1025 + n

theorem Owner.index_dir (n m : Nat) : Owner.dir.index n m = 1025 + n := rfl

theorem Owner.index_raw (n m : Nat) : Owner.raw.index n m = 1024 + n := rfl

theorem Owner.index_free (n m : Nat) : Owner.free.index n m = 1026 + n + m := rfl

theorem Owner.index_table (n m : Nat) (d : Word) (i : Idx) : (Owner.table d i).index n m = i.val := rfl

theorem Owner.index_frame (n m : Nat) (d : Word) (x : Vpn) :
    (Owner.frame d x).index n m = 1024 + x.num := rfl

theorem Scarce.mono {m n : Nat} (h : Scarce own m) (hmn : m ≤ n) : Scarce own n := by
  obtain ⟨f, hinj, hlt⟩ := h
  exact ⟨f, hinj, fun q hq => (hlt q hq).trans_le hmn⟩

theorem Scarce.of_freePages {n : Nat} (h : freePages own ≤ n) : Scarce own n := by
  have hle : {q | own q = Owner.free}.encard ≤ (Finset.range n : Set Nat).encard := by
    rw [← (Set.toFinite _).cast_ncard_eq, Set.encard_coe_eq_coe_finsetCard, Finset.card_range]
    exact Nat.cast_le.mpr h
  obtain ⟨f, hf, hinj⟩ := (Set.toFinite _).exists_injOn_of_encard_le hle
  exact ⟨f, hinj, fun q hq => Finset.mem_range.mp (hf hq)⟩

theorem NoFree.scarce (h : NoFree own) : Scarce own 0 := .of_freePages h.freePages.le

/-- If few pages are still free, and the others have gone into the address space `d`, which has
`n` pages, there were few. -/
theorem Loose.scarce {p : Word} {n r : Nat} (hloc : Loose d p own k own' k') (h' : Owns L own' k')
    (hs : Scarce own' r) (hd : own' d = .dir)
    (huser : ∀ x : Vpn, x.User → Present (view k'.mem d x) → x.num < n) :
    Scarce own (1026 + n + r) := by
  obtain ⟨f, hinj, hlt⟩ := hs
  have hcase : ∀ q, own q = .free → own' q = .dir ∧ q = d ∨ (∃ i, own' q = .table d i) ∨
      (∃ x, own' q = .frame d x ∧ x.num < n) ∨ own' q = .raw ∧ q = p ∨ own' q = .free := by
    intro q hq
    rcases hloc.hands q with hsame | ⟨-, rfl | hq' | hq' | ⟨x, hq'⟩⟩ | ⟨hq', -, hr⟩
    · exact .inr (.inr (.inr (.inr (hsame.trans hq))))
    · exact .inl ⟨hd, rfl⟩
    · exact .inr (.inr (.inr (.inr hq')))
    · exact .inr (.inl hq')
    · obtain ⟨-, hx, ht⟩ := h'.frame.mp hq'
      exact .inr (.inr (.inl ⟨x, hq', huser x hx (target_eq_some.mp ht).1⟩))
    · exact .inr (.inr (.inr (.inl ⟨hr, hq'⟩)))
  refine ⟨fun q => (own' q).index n (f q), fun q hq q' hq' he => ?_, fun q hq => ?_⟩
  · replace he : (own' q).index n (f q) = (own' q').index n (f q') := he
    rcases hcase q hq with ⟨hi, hqd⟩ | ⟨i, hi⟩ | ⟨x, hi, hx⟩ | ⟨hi, hqp⟩ | hi <;>
      rcases hcase q' hq' with ⟨hj, hqd'⟩ | ⟨j, hj⟩ | ⟨y, hj, hy⟩ | ⟨hj, hqp'⟩ | hj <;>
      simp only [hi, hj, Owner.index_dir, Owner.index_raw, Owner.index_free, Owner.index_table,
        Owner.index_frame] at he <;> try omega
    · rw [hqd, hqd']
    · rw [Fin.ext he] at hi
      exact Option.some.inj ((h'.table.mp hi).2.symm.trans (h'.table.mp hj).2)
    · rw [Vpn.num_inj (Nat.add_left_cancel he)] at hi
      exact Option.some.inj ((h'.frame.mp hi).2.2.symm.trans (h'.frame.mp hj).2.2)
    · rw [hqp, hqp']
    · exact hinj hi hj (by omega)
  · show (own' q).index n (f q) < 1026 + n + r
    rcases hcase q hq with ⟨hi, -⟩ | ⟨i, hi⟩ | ⟨x, hi, hx⟩ | ⟨hi, -⟩ | hi <;>
      simp only [hi, Owner.index_dir, Owner.index_raw, Owner.index_free, Owner.index_table,
        Owner.index_frame] <;> try omega
    have := hlt q hi
    omega

/-- The kernel half of an address space is what `kmap` says. -/
def Kern (L : Link) (m : Word → Page) (d : Word) : Prop :=
  ∀ x : Vpn, ¬ x.User → view m d x = kmapWord L.kmap x

/-- `kmap` sends a page of the allocator to where it is. -/
theorem kmapAt_pool {v : Word} (h : Pool L v) : kmapAt L.kmap v = some (V2P v, PTE_W ||| PTE_P) := by
  have hlo := L.data_lo
  have hdata := h.data_le
  have hhi := h.hi
  have hok := L.kmap_ok
  have hlow : ¬ Kmap.Covers ⟨KERNBASE, 0, EXTMEM, PTE_W⟩ v := by
    rw [Kmap.covers_iff (hok _ mem_cons_self)]
    show ¬ (_ ∧ _ < 0x80000000 + 0x100000)
    omega
  have htext : ¬ Kmap.Covers ⟨KERNLINK, V2P KERNLINK, V2P L.data, 0⟩ v := by
    rw [Kmap.covers_iff (hok _ (mem_cons_of_mem _ mem_cons_self))]
    show ¬ (_ ∧ _ < 0x80100000 + (V2P L.data - V2P KERNLINK).toNat)
    rw [L.size_text]
    omega
  have hcov : Kmap.Covers ⟨L.data, V2P L.data, PHYSTOP, PTE_W⟩ v := by
    rw [Kmap.covers_iff (hok _ (mem_cons_of_mem _ (mem_cons_of_mem _ mem_cons_self)))]
    show _ ∧ _ < L.data.toNat + (PHYSTOP - V2P L.data).toNat
    rw [L.size_data]
    exact ⟨hdata, by omega⟩
  have hphys : Kmap.phys ⟨L.data, V2P L.data, PHYSTOP, PTE_W⟩ v = V2P v := by
    show L.data - KERNBASE + (v - L.data) = v - KERNBASE
    bv_omega
  unfold kmapAt Link.kmap
  rw [List.find?_cons_of_neg (by simpa using hlow), List.find?_cons_of_neg (by simpa using htext),
    List.find?_cons_of_pos (by simpa using hcov), Option.map_some, hphys]

/-- The kernel reaches a page of the allocator at its name. -/
theorem Kern.pool {m : Word → Page} {p : Word} (h : Kern L m d) (hp : Pool L p) :
    target (view m d (vpn p)) = some p := by
  have hlo := L.data_lo
  have hdata := hp.data_le
  have hword : view m d (vpn p) = kmapWord L.kmap (vpn p) := by
    refine h _ fun hu => ?_
    have hlt : p.toNat < KERNBASE.toNat := user_vpn.mp hu
    have : KERNBASE.toNat ≤ 2 ^ 31 := by decide
    omega
  have hres := (resolve_kmapWord L.kmap_ok p).trans (kmapAt_pool hp)
  rw [← hword, resolve] at hres
  split_ifs at hres with hpres
  obtain ⟨haddr, -⟩ := Prod.mk.inj (Option.some.inj hres)
  rw [aligned_iff.mpr hp.aligned] at haddr
  replace haddr : PTE_ADDR (view m d (vpn p)) = V2P p := (BitVec.add_zero _).symm.trans haddr
  exact target_eq_some.mpr ⟨hpres, by rw [haddr, P2V_V2P]⟩

/-- **`setupkvm`** returns a new address space with the kernel half of `kmap` and nothing in
the user half, or it leaves every page where it was because there were too few. -/
theorem setupkvm_meets (h : Owns L own k) :
    Meets (setupkvm L) k (fun r k' =>
      r = 0 ∧ Owns L own k' ∧ (∀ q, own q ≠ .free → k'.mem q = k.mem q) ∧ freePages own < 65 ∨
      own r = .free ∧ ∃ own', Owns L own' k' ∧ own' r = .dir ∧ Local r own k own' k' ∧
        Kern L k'.mem r ∧ (∀ x : Vpn, x.User → view k'.mem r x = 0) ∧ Snug k'.mem r)
      fun _ => False := by
  refine call (kalloc_meets h) (fun _ => id) ?_
  rintro d k₁ (⟨rfl, rfl, hno⟩ | ⟨hfree, hmem, h₁⟩)
  · refine of_ite (fun _ => of_pure (.inl ⟨rfl, h, fun _ _ => rfl, ?_⟩)) (absurd rfl)
    rw [hno.freePages]
    decide
  have hpool : Pool L d := h.pool_of hfree (by simp)
  refine of_ite (fun hz => absurd hz hpool.ne_zero) fun _ => fill_bind ?_
  have hraw : update own d .raw d = .raw := update_self ..
  have h₂ := (h₁.scribble zeros ⟨by rw [hraw]; exact id, by rw [hraw]; simp⟩).newDir hraw
    (Kmem.setPage_self ..)
  rw [update_idem] at h₂
  have hd₂ : update own d .dir d = .dir := update_self ..
  have hloc₂ : Local d own k (update own d .dir) (k₁.setPage d zeros) := by
    refine ⟨fun q => ?_, fun q hq => ?_⟩
    · rcases eq_or_ne q d with rfl | hq
      · exact .inr ⟨mine_self, mine_self⟩
      · exact .inl (update_of_ne hq ..)
    · rw [Kmem.setPage_of_ne fun e => hq (.inl e), hmem]
  have hview₂ : ∀ x, view (k₁.setPage d zeros).mem d x = 0 := by
    intro x
    refine view_of_none ?_
    rw [tableAt, Kmem.setPage_self]
    exact target_zero
  refine of_ite (fun hc => absurd hc (by decide)) fun _ => ?_
  refine call (mapKernel_meets L.kmap [] L.kmap_apart L.kmap_ok h₂ hd₂ fun x _ => ?_) (fun _ => id) ?_
  · rw [hview₂]
    rfl
  rintro ok k₃ ⟨own₃, h₃, hd₃, hmap₃, hok⟩
  have huser₃ : ∀ x : Vpn, x.User → view k₃.mem d x = 0 := by
    intro x hx
    rw [hmap₃.outside x, hview₂]
    rintro ⟨e, he, hc⟩
    exact (L.kmap_ok e he).kernel_page hc hx
  have hloc := hloc₂.trans hmap₃.toLocal
  have hsnug : Snug k₃.mem d := by
    refine hmap₃.snug fun i hi => absurd ?_ hi
    rw [tableAt, Kmem.setPage_self]
    exact target_zero
  rcases hok with ⟨rfl, hno, hlack⟩ | ⟨rfl, hkern⟩
  · refine of_false (call (freevm_meets h₃ hd₃) (fun _ => id) ?_)
    rintro _ k₄ ⟨own₄, h₄, hd₄, hloc₄⟩
    have hsame : own₄ = own := (hloc.trans hloc₄).restored h hfree h₄ hd₄
    subst hsame
    refine of_pure (.inl ⟨rfl, h₄, fun q hq => (hloc.trans hloc₄).mem q ?_, ?_⟩)
    · exact fun hq' => hq (h.free_of_mine hfree hq')
    · obtain ⟨e, he, x, hx, hnone⟩ := hlack
      have htab := hsnug.tablePages_lt (fun y hy => ?_) (covers_kmap_iff.mp ⟨e, he, hx⟩) hnone
      · rw [hloc.census h hfree h₃ hd₃, hno.freePages, userPages_eq (Nat.zero_le _) fun y hy => ?_]
        · omega
        · rw [huser₃ y hy]
          exact ⟨fun hc => absurd hc not_present_zero, by simp⟩
      · by_contra hc
        rw [hmap₃.outside y fun hcov => hc (covers_kmap_iff.mp hcov), hview₂] at hy
        exact not_present_zero hy
  · exact of_true (of_pure (.inr ⟨hfree, own₃, h₃, hd₃, hloc, hkern, huser₃, hsnug⟩))

end

end Xv6.Vm
