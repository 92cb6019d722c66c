/-
# `Xv6.Vm.Grow` — user pages

`allocuvm`, `copyuvm` and `clearpteu`.  Both loops take a page from `kalloc`, fill it and
hand it to `mappages`, which may run out of pages itself; `Local.loan` accounts for the
page in between, when it is in no table yet.  When that happens `allocuvm` gives the page
back and `copyuvm` loses it: it goes to `bad` with the page in a local variable.
-/
import Xv6.Vm.Free

namespace Xv6.Vm

open Wp
open Function (update update_of_ne update_self)

section

variable {L : Link} {own own₁ : Word → Owner} {k k₁ k₂ k₃ : Kmem} {d p perm a : Word} {x : Vpn}
  {c : Page}

/-- A free page is held for a while by an operation on `d`, and ends up free or with `d`. -/
theorem Local.loan {o : Owner} (hloc : Local d (update own p .raw) k₁ own₁ k₂) (hp : own p = .free)
    (hm₁ : ∀ q, q ≠ p → k₁.mem q = k.mem q) (hm₂ : ∀ q, q ≠ p → k₃.mem q = k₂.mem q)
    (ho : Mine d p o) : Local d own k (update own₁ p o) k₃ := by
  refine ⟨fun q => ?_, fun q hq => ?_⟩
  · rcases eq_or_ne q p with rfl | hq
    · rw [update_self, hp]
      exact .inr ⟨mine_free, ho⟩
    · have h := hloc.hands q
      rwa [update_of_ne hq] at h ⊢
  · have hqp : q ≠ p := by
      rintro rfl
      rw [hp] at hq
      exact hq mine_free
    have h := hloc.mem q
    rw [update_of_ne hqp] at h
    rw [hm₂ q hqp, h hq, hm₁ q hqp]

/-- A free page is lost in an operation on `d`: it is in no table, and not free. -/
theorem Local.lost (hloc : Local d own k own₁ k₁) (hp : own₁ p = .free)
    (hm : ∀ q, q ≠ p → k₂.mem q = k₁.mem q) : Loose d p own k (update own₁ p .raw) k₂ := by
  have hmine : Mine d p (own p) := by
    rcases hloc.hands p with he | ⟨hm, -⟩
    · rw [← he, hp]
      exact mine_free
    · exact hm
  refine ⟨fun q => ?_, fun q hq => ?_⟩
  · rcases eq_or_ne q p with rfl | hqp
    · exact .inr (.inr ⟨rfl, hmine, update_self ..⟩)
    · rw [update_of_ne hqp]
      exact (hloc.hands q).imp id .inl
  · have hqp : q ≠ p := by
      rintro rfl
      exact hq hmine
    rw [hm q hqp, hloc.mem q hq]

/-- The user pages of `d` are kept by what is done with another page. -/
theorem Kept.loan {o : Owner} {S : Vpn → Prop} (h : Kept S d (update own p .raw) k₁ own₁ k₂)
    (hp : own p = .free) (hm₁ : ∀ q, q ≠ p → k₁.mem q = k.mem q)
    (hm₂ : ∀ q, q ≠ p → k₃.mem q = k₂.mem q) : Kept S d own k (update own₁ p o) k₃ := by
  intro q x hq hx
  have hqp : q ≠ p := ne_of_owner hq hp nofun
  obtain ⟨hq₁, hm⟩ := h q x (by rwa [update_of_ne hqp]) hx
  rw [update_of_ne hqp, hm₂ q hqp, hm, hm₁ q hqp]
  exact ⟨hq₁, rfl⟩

/-- **The free page `p` has become the user page `x` of `d`**, with the contents `c`. -/
structure Placed (d : Word) (x : Vpn) (p : Word) (c : Page) (perm : Word) (own : Word → Owner)
    (k : Kmem) (own' : Word → Owner) (k' : Kmem) : Prop extends Local d own k own' k' where
  kept : Kept (fun _ => False) d own k own' k'
  frame : own' p = .frame d x
  page : k'.mem p = c
  view : view k'.mem d = update (view k.mem d) x (V2P p ||| perm ||| PTE_P)
  snug : Snug k.mem d → Snug k'.mem d

section

variable (h : Placed d x p c perm own k own₁ k₁)
include h

theorem Placed.view_ne (y : Vpn) (hy : y ≠ x) : Vm.view k₁.mem d y = Vm.view k.mem d y := by
  rw [h.view, update_of_ne hy]

theorem Placed.present : Present (Vm.view k₁.mem d x) := by
  rw [h.view, update_self]
  exact present_or _

/-- The page is there, with its contents and its permissions, as long as its entry stays and
user pages are kept. -/
theorem Placed.pageAt {own₂ : Word → Owner}
    (ho : Owns L own₁ k₁) (hperm : Flags perm) (hkept : Kept (fun _ => False) d own₁ k₁ own₂ k₂)
    (hview : Vm.view k₂.mem d x = Vm.view k₁.mem d x) :
    PTE_FLAGS (Vm.view k₂.mem d x) = perm ||| PTE_P ∧ Vm.pageAt k₂.mem d x = c := by
  have hpool : Pool L p := ho.pool_of h.frame nofun
  have hflags : Flags (perm ||| PTE_P) := flags_or hperm (by decide)
  rw [Vm.pageAt, hview, h.view, update_self, BitVec.or_assoc, PTE_ADDR_or hpool.phys hflags,
    PTE_FLAGS_or hpool.phys hflags, P2V_V2P]
  exact ⟨rfl, (hkept p x h.frame id).2.trans h.page⟩

end

/-- The body of the loop of `mappages` for a page of the user half and a page in hand. -/
theorem mapPage_user (h : Owns L own k) (hd : own d = .dir) (hp : own p = .raw) (ha : (vpn a).User)
    (hperm : Flags perm) :
    Meets (mapPage d a (V2P p) perm) k (fun ok k' =>
      ok = false ∧ k' = k ∧ NoFree own ∧ tableAt k.mem d (PDX a) = none ∨
      ok = true ∧ ∃ own₁, own₁ d = .dir ∧ Local d own k own₁ k' ∧ k'.mem p = k.mem p ∧
        Kept (fun _ => False) d own k own₁ k' ∧ Owns L (update own₁ p (.frame d (vpn a))) k' ∧
        view k'.mem d = update (view k.mem d) (vpn a) (V2P p ||| perm ||| PTE_P) ∧
        (Snug k.mem d → Snug k'.mem d)) fun _ => Present (view k.mem d (vpn a)) := by
  have hpd : p ≠ d := ne_of_owner hp hd nofun
  refine mono (mapPage_meets h hd a (V2P p) perm) ?_ fun _ => And.right
  rintro ok k' (hbad | ⟨rfl, habs, own₁, k₁, t, h₁, hd₁, hwalk, ht, rfl⟩)
  · exact .inl hbad
  have hp₁ := hwalk.keep_raw hp hpd
  have htarget := target_entry (h₁.pool_of hp₁ nofun : Pool L p).phys hperm
  have hkeep : ∀ q, update own₁ p (.frame d (vpn a)) q = own₁ q ∨
      (own₁ q = .raw ∨ own₁ q = .frame d (PDX a, PTX a)) ∧
      (update own₁ p (.frame d (vpn a)) q = .raw ∨
        update own₁ p (.frame d (vpn a)) q = .frame d (PDX a, PTX a)) := by
    intro q
    rcases eq_or_ne q p with rfl | hq
    · rw [update_self]
      exact .inr ⟨.inl hp₁, .inr rfl⟩
    · exact .inl (update_of_ne hq ..)
  have hpage : ∀ q, update own₁ p (.frame d (vpn a)) q = .frame d (PDX a, PTX a) ↔
      Vpn.User (PDX a, PTX a) ∧ target (V2P p ||| perm ||| PTE_P) = some q := by
    intro q
    rw [htarget]
    rcases eq_or_ne q p with rfl | hq
    · rw [update_self]
      exact ⟨fun _ => ⟨ha, rfl⟩, fun _ => rfl⟩
    · rw [update_of_ne hq]
      refine ⟨fun hf => ?_, fun hf => absurd (Option.some.inj hf.2).symm hq⟩
      -- the entry was empty, so no page was mapped there
      obtain ⟨-, -, htq⟩ := h₁.frame.mp hf
      rw [hwalk.view] at htq
      exact absurd (target_eq_some.mp htq).1 habs
  obtain ⟨h₂, hview₂⟩ := h₁.setPte ht hkeep hpage
  have hview : view (k₁.setWord t (PTX a) (V2P p ||| perm ||| PTE_P)).mem d =
      update (view k.mem d) (vpn a) (V2P p ||| perm ||| PTE_P) := by
    rw [hview₂ d hd₁, if_pos rfl, hwalk.view]
    rfl
  have hmem : ∀ q, own₁ q ≠ .table d (PDX a) →
      (k₁.setWord t (PTX a) (V2P p ||| perm ||| PTE_P)).mem q = k₁.mem q := by
    intro q hq
    refine Kmem.setWord_of_ne ?_
    rintro rfl
    exact hq ht
  refine .inr ⟨rfl, own₁, hd₁, hwalk.toLocal.setWord ht _ _, ?_, fun q x hq hx => ?_, h₂, hview,
    fun hs => hs.update (present_or _) hview fun j hj => ?_⟩
  · rw [hmem p (by rw [hp₁]; nofun), hwalk.mem p (by rw [hp]; exact not_mine_raw hpd)]
  · obtain ⟨hq₁, hm⟩ := hwalk.kept q x hq hx
    rw [hmem q (by rw [hq₁]; nofun)]
    exact ⟨hq₁, hm⟩
  · rw [← hwalk.tables j hj]
    exact congrFun (tableAt_congr (hmem d (by rw [hd₁]; nofun))) j

variable {Q : Bool → Kmem → Prop} {E : Stop → Prop} {m m' : Word → Page} {sz e : Word}

theorem mappages_one {pa : Word} (ha : a.toNat % 4096 = 0) (h : Meets (mapPage d a pa perm) k Q E) :
    Meets (mappages d a PGSIZE pa perm) k Q E := by
  have hfirst : PGROUNDDOWN a = a := by
    rw [← BitVec.toNat_inj, toNat_PGROUNDDOWN]
    omega
  have hlast : PGROUNDDOWN (a + PGSIZE - 1) = a := by
    have hone : a + PGSIZE - 1 = a + 4095#32 := by
      rw [PGSIZE]
      bv_omega
    rw [← BitVec.toNat_inj, toNat_PGROUNDDOWN, hone, BitVec.toNat_add]
    show (a.toNat + 4095) % 2 ^ 32 / 4096 * 4096 = _
    omega
  unfold mappages
  rw [hfirst, hlast]
  refine call h (fun _ => id) ?_
  rintro (_ | _) k' hQ
  · exact of_false (of_pure hQ)
  · exact of_true (of_ite (fun _ => of_pure hQ) (absurd rfl))

/-- What is known of a page that `kalloc` has just returned, once it is filled. -/
structure InHand (L : Link) (d p : Word) (c : Page) (own : Word → Owner) (k k' : Kmem) : Prop where
  owns : Owns L (update own p .raw) k'
  dir : update own p .raw d = .dir
  ne : p ≠ d
  page : k'.mem p = c
  mem : ∀ q, q ≠ p → k'.mem q = k.mem q
  view : view k'.mem d = view k.mem d
  tables : tableAt k'.mem d = tableAt k.mem d

theorem InHand.of_kalloc (h : Owns L own k) (hd : own d = .dir) (hp : own p = .free)
    (hmem : k₁.mem = k.mem) (h₁ : Owns L (update own p .raw) k₁) (c : Page) :
    InHand L d p c own k (k₁.setPage p c) := by
  have hraw : update own p .raw p = .raw := update_self ..
  have hne : p ≠ d := ne_of_owner hp hd nofun
  have hother : ∀ q, q ≠ p → (k₁.setPage p c).mem q = k.mem q := by
    intro q hq
    rw [Kmem.setPage_of_ne hq, hmem]
  refine ⟨h₁.scribble c ⟨by rw [hraw]; exact id, by rw [hraw]; nofun⟩, ?_, hne, Kmem.setPage_self ..,
    hother, h.view_congr hd (hother d hne.symm) fun i t ht => hother t (ne_of_owner ht hp nofun),
    tableAt_congr (hother d hne.symm)⟩
  rw [update_of_ne hne.symm, hd]

/-- A page that `kalloc` has just returned is filled and mapped. -/
theorem mappages_user (hp : own p = .free) (h : InHand L d p c own k k₁) (ha : a.toNat % 4096 = 0)
    (hu : (vpn a).User) (hperm : Flags perm) :
    Meets (mappages d a PGSIZE (V2P p) perm) k₁ (fun ok k' =>
      ok = true ∧ (∃ own', own' d = .dir ∧ Owns L own' k' ∧
        Placed d (vpn a) p c perm own k own' k') ∨
      ok = false ∧ k' = k₁ ∧ NoFree (update own p .raw) ∧ tableAt k.mem d (PDX a) = none)
      fun _ => Present (view k.mem d (vpn a)) := by
  have hraw : update own p .raw p = .raw := update_self ..
  refine mono (mappages_one ha (mapPage_user h.owns h.dir hraw hu hperm)) ?_ fun _ hp => h.view ▸ hp
  rintro ok k' (⟨rfl, rfl, hno, hnone⟩ | ⟨rfl, own₁, hd₁, hloc, hpage, hkept, h', hview, hsnug⟩)
  · rw [h.tables] at hnone
    exact .inr ⟨rfl, rfl, hno, hnone⟩
  · refine .inl ⟨rfl, _, ?_, h', hloc.loan hp h.mem (fun _ _ => rfl) mine_frame,
      hkept.loan hp h.mem fun _ _ => rfl, update_self .., hpage.trans h.page, ?_, fun hs => ?_⟩
    · rw [update_of_ne h.ne.symm, hd₁]
    · rw [hview, h.view]
    · refine hsnug fun i hi => ?_
      rw [h.view]
      rw [h.tables] at hi
      exact hs i hi

/-! ## `allocuvm` -/

/-- The pages of `d` between two addresses are mapped, the others are as they were. -/
def Filled (d : Word) (lo hi : Nat) (m m' : Word → Page) : Prop :=
  ∀ x : Vpn, (x.In lo hi → Present (view m' d x)) ∧ (¬ x.In lo hi → view m' d x = view m d x)

/-- Only pages of `d` between two addresses have changed. -/
def Outside (d : Word) (lo hi : Nat) (m m' : Word → Page) : Prop :=
  ∀ x : Vpn, ¬ x.In lo hi → view m' d x = view m d x

/-- The pages of `d` between two addresses are the user's to read and write, and all zero.  The
entries of a directory carry every permission (`walkpgdir`), so that what the user may do with
a page is what the entry in its page table says. -/
def Zeroed (d : Word) (lo hi : Nat) (m : Word → Page) : Prop :=
  ∀ x : Vpn, x.In lo hi → PTE_FLAGS (view m d x) = PTE_W ||| PTE_U ||| PTE_P ∧ pageAt m d x = zeros

/-- **The loop of `allocuvm`**: it ends with the pages up to `newsz` mapped, or, short of
pages, with the pages from `oldsz` on unmapped; a page that is mapped already stops it. -/
theorem allocLoop_meets {oldsz newsz : Word} (hnew : newsz.toNat < 2 ^ 31)
    (hold : oldsz.toNat ≤ (PGROUNDUP oldsz).toNat) (n : Nat) :
    ∀ {own : Word → Owner} {k : Kmem} {a : Word}, Owns L own k → own d = .dir →
    a.toNat % 4096 = 0 → (PGROUNDUP oldsz).toNat ≤ a.toNat → newsz.toNat ≤ a.toNat + 4096 * n →
    Meets (allocLoop L d oldsz newsz (n + 1) a) k (fun r k' => ∃ own', Owns L own' k' ∧
      own' d = .dir ∧ Local d own k own' k' ∧
      (r = 0 ∧ Cleared d (PGROUNDUP oldsz).toNat newsz.toNat k.mem k'.mem ∧
          Kept (Vpn.In · (PGROUNDUP oldsz).toNat newsz.toNat) d own k own' k' ∧
          freePages own + tablePages k.mem d ≤ 1025 + (newsz.toNat - a.toNat + 4095) / 4096 ∨
        r = newsz ∧ Filled d a.toNat newsz.toNat k.mem k'.mem ∧
          Zeroed d a.toNat newsz.toNat k'.mem ∧ Kept (fun _ => False) d own k own' k'))
      fun _ => ∃ x : Vpn, x.In a.toNat newsz.toNat ∧ Present (view k.mem d x) := by
  -- what the failing exits do: `deallocuvm` on what there is
  have hundo : ∀ {own : Word → Owner} {k : Kmem} {a : Word}, Owns L own k → own d = .dir →
      (PGROUNDUP oldsz).toNat ≤ a.toNat → a.toNat < newsz.toNat →
      Meets (deallocuvm L d newsz oldsz) k (fun _ k' => ∃ own', Owns L own' k' ∧ own' d = .dir ∧
        Released (Vpn.In · (PGROUNDUP oldsz).toNat newsz.toNat) d own k own' k' ∧
        Cleared d (PGROUNDUP oldsz).toNat newsz.toNat k.mem k'.mem) fun _ => False := by
    intro own k a h hd hlo hlt
    refine mono (deallocuvm_meets h hd hnew.le) ?_ fun _ => id
    rintro _ k' (⟨hle, -⟩ | ⟨-, -, hclear⟩)
    · have hle' : newsz.toNat ≤ oldsz.toNat := hle
      omega
    · exact hclear
  have hend : ∀ {own : Word → Owner} {k : Kmem} {a : Word}, ¬ a < newsz →
      Filled d a.toNat newsz.toNat k.mem k.mem ∧ Zeroed d a.toNat newsz.toNat k.mem ∧
        Kept (fun _ => False) d own k own k :=
    fun hge => ⟨Vpn.range_nil hge, fun x hx => absurd hx (Vpn.not_in hge x), .refl⟩
  induction n with
  | zero =>
    intro own k a h hd ha hlo hn
    refine of_ite (fun hlt => ?_) fun hge => of_pure ⟨own, h, hd, .refl, .inr ⟨rfl, hend hge⟩⟩
    have hlt' : a.toNat < newsz.toNat := hlt
    omega
  | succ n ih =>
    intro own k a h hd ha hlo hn
    refine of_ite (fun hlt => ?_) fun hge => of_pure ⟨own, h, hd, .refl, .inr ⟨rfl, hend hge⟩⟩
    have hlt' : a.toNat < newsz.toNat := hlt
    have huser : (vpn a).User := user_vpn.mpr (Nat.lt_trans hlt' hnew)
    have hnext := toNat_next hlt hnew.le
    have htables := tablePages_le k.mem d
    have hin : (vpn a).In a.toNat newsz.toNat := Vpn.in_self ha hlt'
    refine call (kalloc_meets h) (fun _ => False.elim) ?_
    rintro p k₁ (⟨rfl, rfl, hno⟩ | ⟨hfree, hmem, h₁⟩)
    · refine of_ite (fun _ => call (hundo h hd hlo hlt') (fun _ => False.elim) ?_) (absurd rfl)
      rintro _ k' ⟨own', h', hd', hrel, hclear⟩
      refine of_pure ⟨own', h', hd', hrel.toLocal, .inl ⟨rfl, hclear, hrel.kept, ?_⟩⟩
      rw [hno.freePages]
      omega
    have hpool : Pool L p := h.pool_of hfree nofun
    refine of_ite (fun hz => absurd hz hpool.ne_zero) fun _ => fill_bind ?_
    have hhand := InHand.of_kalloc h hd hfree hmem h₁ zeros
    refine call (mappages_user hfree hhand ha huser (by decide)) (fun _ hp => ⟨_, hin, hp⟩) ?_
    rintro ok k₂ (⟨rfl, own₂, hd₂, h₂, hput⟩ | ⟨rfl, rfl, hno, -⟩)
    · have hx : ∀ x : Vpn,
          x.In (a + PGSIZE).toNat newsz.toNat ↔ x.In a.toNat newsz.toNat ∧ x ≠ vpn a := by
        intro x
        rw [hnext]
        exact Vpn.in_next ha
      refine of_true (mono (ih h₂ hd₂ (by omega) (by omega) (by omega)) ?_ ?_)
      · rintro r k' ⟨own', h', hd', hloc, hr⟩
        refine ⟨own', h', hd', hput.toLocal.trans hloc, hr.imp ?_ ?_⟩
        · rintro ⟨rfl, hclear, hkept, hfew⟩
          refine ⟨rfl, fun x => ⟨(hclear x).1, fun hx => ?_⟩, (hput.kept.mono nofun).trans hkept, ?_⟩
          · rw [(hclear x).2 hx, hput.view_ne]
            rintro rfl
            exact hx ⟨hlo.trans hin.1, hin.2⟩
          · have hcount := hput.toLocal.conserve h hd h₂ hd₂
            have huser' := userPages_update hput.view
            omega
        · rintro ⟨hr, hfill, hzero, hkept⟩
          refine ⟨hr, Vpn.range_cons ha hlt' hnext hput.view_ne (fun he => ?_) hfill, fun x hin' => ?_,
            hput.kept.trans hkept⟩
          · rw [he]
            exact hput.present
          · rcases eq_or_ne x (vpn a) with rfl | hxa
            · -- the page just mapped stays
              exact hput.pageAt h₂ (by decide) hkept ((hfill _).2 fun hc => ((hx _).mp hc).2 rfl)
            · exact hzero x ((hx x).mpr ⟨hin', hxa⟩)
      · rintro _ ⟨x, hin', hp⟩
        obtain ⟨hin', hxa⟩ := (hx x).mp hin'
        rw [hput.view_ne x hxa] at hp
        exact ⟨x, hin', hp⟩
    · refine of_false (call (hundo hhand.owns hhand.dir hlo hlt') (fun _ => False.elim) ?_)
      rintro _ k₃ ⟨own₃, h₃, hd₃, hrel, hclear⟩
      have hp₃ := hrel.toLocal.keep_raw (update_self ..) hhand.ne
      refine call (kfree_meets hpool) (fun _ => False.elim) ?_
      rintro _ k₄ rfl
      have h₄ := h₃.release (.inl hp₃) hpool
      have hd₄ : update own₃ p .free d = .dir := by rw [update_of_ne hhand.ne.symm, hd₃]
      have hm₄ : ∀ q, q ≠ p → (k₃.freed p).mem q = k₃.mem q := fun q hq => Kmem.freed_of_ne hq
      refine of_pure ⟨_, h₄, hd₄, hrel.toLocal.loan hfree hhand.mem hm₄ mine_free,
        .inl ⟨rfl, fun x => ?_, hrel.kept.loan hfree hhand.mem hm₄, ?_⟩⟩
      · have hsame : view (k₃.freed p).mem d = view k₃.mem d := by
          exact h₃.view_congr hd₃ (hm₄ d hhand.ne.symm) fun i t ht =>
            hm₄ t (ne_of_owner ht hp₃ nofun)
        rw [hsame, ← hhand.view]
        exact hclear x
      · rw [freePages_take hfree, hno.freePages]
        omega

/-- The pages of `d` are as they were, or they are past an address and not mapped any more. -/
def Trimmed (d : Word) (lo : Nat) (m m' : Word → Page) : Prop :=
  ∀ x : Vpn, view m' d x = view m d x ∨ x.In lo (2 ^ 31) ∧ ¬ Present (view m' d x)

theorem Trimmed.outside {lo : Nat} (h : Trimmed d lo m m') : Outside d lo (2 ^ 31) m m' :=
  fun x hx => (h x).resolve_right fun hc => hx hc.1

/-- Changes in the user half keep the kernel half. -/
theorem Kern.of_outside {lo hi : Nat} (h : Kern L m d) (hhi : hi ≤ 2 ^ 31)
    (hout : Outside d lo hi m m') : Kern L m' d := by
  intro x hx
  have hx' := Vpn.not_user hx
  rw [hout x fun hc => absurd hc.2 (by omega)]
  exact h x hx

/-- **`allocuvm`** maps the pages between the sizes; if it runs out of pages it unmaps the
pages from the old size on. -/
theorem allocuvm_meets (h : Owns L own k) (hd : own d = .dir) (oldsz newsz : Word) :
    Meets (allocuvm L d oldsz newsz) k (fun r k' => ∃ own', Owns L own' k' ∧ own' d = .dir ∧
      Local d own k own' k' ∧
      (r = 0 ∧ Trimmed d (PGROUNDUP oldsz).toNat k.mem k'.mem ∧
          Kept (Vpn.In · (PGROUNDUP oldsz).toNat newsz.toNat) d own k own' k' ∧
          (newsz < KERNBASE → freePages own ≤ 1026 + newsz.toNat / 4096) ∨
        newsz < oldsz ∧ r = oldsz ∧ k' = k ∨
        oldsz ≤ newsz ∧ newsz < KERNBASE ∧ r = newsz ∧
          Filled d (PGROUNDUP oldsz).toNat newsz.toNat k.mem k'.mem ∧
          Zeroed d (PGROUNDUP oldsz).toNat newsz.toNat k'.mem ∧
          Kept (fun _ => False) d own k own' k'))
      fun _ => newsz < KERNBASE ∧
        ∃ x : Vpn, x.In (PGROUNDUP oldsz).toNat newsz.toNat ∧ Present (view k.mem d x) := by
  refine of_ite (fun hbig => of_pure ⟨own, h, hd, .refl, .inl ⟨rfl, fun _ => .inl rfl, .refl,
    fun hc => absurd hbig (Nat.not_le.mpr hc)⟩⟩) fun hnew => ?_
  refine of_ite (fun hlt => of_pure ⟨own, h, hd, .refl, .inr (.inl ⟨hlt, rfl, rfl⟩)⟩) fun hold => ?_
  have hnew' : newsz.toNat < 2 ^ 31 := Nat.lt_of_not_le hnew
  have hold' : oldsz.toNat ≤ newsz.toNat := Nat.le_of_not_lt hold
  have hup := toNat_PGROUNDUP (a := oldsz) (by omega)
  refine mono (allocLoop_meets hnew' (by omega) (2 ^ 20) h hd (by omega) le_rfl (by omega)) ?_
    fun _ he => ⟨hnew', he⟩
  rintro r k' ⟨own', h', hd', hloc, ⟨rfl, hclear, hkept, hfew⟩ | ⟨rfl, hnew⟩⟩
  · refine ⟨own', h', hd', hloc, .inl ⟨rfl, fun x => ?_, hkept, fun _ => by omega⟩⟩
    by_cases hx : x.In (PGROUNDUP oldsz).toNat newsz.toNat
    · exact .inr ⟨⟨hx.1, hx.2.trans hnew'⟩, (hclear x).1 hx⟩
    · exact .inl ((hclear x).2 hx)
  · exact ⟨own', h', hd', hloc, .inr (.inr ⟨hold', hnew', rfl, hnew⟩)⟩

/-! ## `copyuvm` -/

/-- Why a turn of `copyuvm` fails at a page of the page table `i`: there is no page for the
copy, or there is one, the last, and none for the page table.  Then the copy is lost. -/
def Starved (L : Link) (d : Word) (i : Idx) (own : Word → Owner) (k k' : Kmem) : Prop :=
  k' = k ∧ NoFree own ∨
  ∃ p, own p = .free ∧ Owns L (update own p .raw) k' ∧ NoFree (update own p .raw) ∧
    (∀ q, q ≠ p → k'.mem q = k.mem q) ∧ tableAt k.mem d i = none

theorem copyPage_meets (h : Owns L own k) (hd : own d = .dir) {i : Word} (hi : i.toNat % 4096 = 0)
    (hfull : (vpn i).User ∨ Present (view k.mem d (vpn i))) (pte : Word) :
    Meets (copyPage d i pte) k (fun ok k' =>
      ok = true ∧ (vpn i).User ∧ (∃ own' p, Owns L own' k' ∧ own' d = .dir ∧
        Placed d (vpn i) p (k.mem (P2V (PTE_ADDR pte))) (PTE_FLAGS pte) own k own' k') ∨
      ok = false ∧ Starved L d (PDX i) own k k') fun _ => Present (view k.mem d (vpn i)) := by
  refine call (kalloc_meets h) (fun _ => False.elim) ?_
  rintro p k₁ (⟨rfl, rfl, hno⟩ | ⟨hfree, hmem, h₁⟩)
  · exact of_ite (fun _ => of_pure (.inr ⟨rfl, .inl ⟨rfl, hno⟩⟩)) (absurd rfl)
  refine of_neg (h.ne_zero hfree nofun) ?_
  refine of_bind (of_get (fill_bind ?_))
  rw [hmem]
  have hhand := InHand.of_kalloc h hd hfree hmem h₁ (k.mem (P2V (PTE_ADDR pte)))
  by_cases hu : (vpn i).User
  · refine mono (mappages_user hfree hhand hi hu (flags_PTE_FLAGS pte)) ?_ fun _ => id
    rintro ok k' (⟨rfl, own', hd', h', hput⟩ | ⟨rfl, rfl, hno, hnone⟩)
    · exact .inl ⟨rfl, hu, own', p, h', hd', hput⟩
    · exact .inr ⟨rfl, .inr ⟨p, hfree, hhand.owns, hno, hhand.mem, hnone⟩⟩
  · -- the kernel half of `d` is there: `mappages` stops the machine
    have hp := hfull.resolve_left hu
    refine mono (mappages_one hi (mapPage_meets hhand.owns hhand.dir i _ _)) ?_ fun e he =>
      hhand.view ▸ he.2
    rintro ok k' (⟨-, -, -, hnone⟩ | ⟨-, habs, -⟩)
    · rw [← hhand.view, view_of_none hnone] at hp
      exact absurd hp not_present_zero
    · rw [hhand.view] at habs
      exact absurd hp habs

/-- What stops `copyuvm` at a page: it is not mapped in `e`, or it is mapped in `d` already. -/
def Clash (m : Word → Page) (e d : Word) (x : Vpn) : Prop :=
  ¬ Present (view m e x) ∨ Present (view m d x)

/-- A turn of the loop of `copyuvm`, given what the turns after it do. -/
theorem copyTurn_meets {n : Nat} {i : Word} (h : Owns L own k) (hd : own d = .dir)
    (he : own e = .dir) (hi : i.toNat % 4096 = 0) (hlt : i < sz)
    (hfull : (vpn i).User ∨ Present (view k.mem d (vpn i)))
    (hrest : ∀ {own₁ k₁ p}, (vpn i).User → Present (view k.mem e (vpn i)) → Owns L own₁ k₁ →
      own₁ d = .dir → Placed d (vpn i) p (k.mem (P2V (PTE_ADDR (view k.mem e (vpn i)))))
        (PTE_FLAGS (view k.mem e (vpn i))) own k own₁ k₁ →
      Meets (copyLoop e sz d n (i + PGSIZE)) k₁ Q E)
    (hbad : ∀ {k₁}, Starved L d (PDX i) own k k₁ → Q false k₁)
    (hstop : ∀ s, Clash k.mem e d (vpn i) → E s) : Meets (copyLoop e sz d (n + 1) i) k Q E := by
  refine of_ite (fun _ => call (walk_meets h he i) (fun _ => False.elim) ?_) (absurd hlt)
  rintro r k₁ ⟨rfl, ⟨rfl, hnone⟩ | ⟨t, rfl, ht⟩⟩
  · refine of_throw (hstop _ (.inl ?_))
    rw [view_of_none hnone]
    exact not_present_zero
  have hentry : k₁.mem t (PTX i) = view k₁.mem e (vpn i) := (h.view_eq ht _).symm
  refine load_bind ?_
  rw [hentry]
  refine of_ite (fun hpres => ?_) fun habs => of_throw (hstop _ (.inl habs))
  refine call (copyPage_meets h hd hi hfull _) (fun _ hp => hstop _ (.inr hp)) ?_
  rintro ok k₂ (⟨rfl, hu, own₂, p, h₂, hd₂, hput⟩ | ⟨rfl, hshort⟩)
  · exact of_true (hrest hu hpres h₂ hd₂ hput)
  · exact of_false (of_pure (hbad hshort))

/-- The page `x` of `d` is a copy of the page `x` of `e`: the same flags, the same words. -/
def CopyOf (m m' : Word → Page) (e d : Word) (x : Vpn) : Prop :=
  Present (view m e x) ∧ PTE_FLAGS (view m' d x) = PTE_FLAGS (view m e x) ∧
    pageAt m' d x = pageAt m e x

theorem CopyOf.present (h : CopyOf m m' e d x) : Present (view m' d x) := by
  obtain ⟨hp, hflags, -⟩ := h
  rw [← present_flags, hflags, present_flags]
  exact hp

/-- What is done to `d` before the copy does not touch the page of `e`. -/
theorem CopyOf.of_local (h : CopyOf k₁.mem m e d x) (hloc : Local d own k own₁ k₁)
    (ho : Owns L own k) (hd : own d = .dir ∨ own d = .free) (he : own e = .dir) (hed : e ≠ d)
    (hu : x.User) : CopyOf k.mem m e d x := by
  have hview : view k₁.mem e = view k.mem e :=
    hloc.view ho (hd.imp id .inl) he hed
  obtain ⟨hp, hflags, hpage⟩ := h
  rw [hview] at hp hflags
  refine ⟨hp, hflags, hpage.trans ?_⟩
  unfold pageAt
  rw [hview]
  refine hloc.mem _ ?_
  have hq : own (P2V (PTE_ADDR (view k.mem e x))) = .frame e x :=
    ho.frame.mpr ⟨he, hu, target_eq_some.mpr ⟨hp, rfl⟩⟩
  rw [hq]
  rintro (hc | hc | ⟨_, hc⟩ | ⟨_, hc⟩)
  · rw [← hc, hq] at hd
    rcases hd with hd | hd <;> cases hd
  · cases hc
  · cases hc
  · cases hc
    exact hed rfl

/-- The pages of `d` between two addresses are copies of those of `e`, the others are as they
were. -/
def Copied (e d : Word) (lo hi : Nat) (m m' : Word → Page) : Prop :=
  ∀ x : Vpn, (x.In lo hi → CopyOf m m' e d x) ∧ (¬ x.In lo hi → view m' d x = view m d x)

/-- **The loop of `copyuvm`**, from the address space `e` into the new one, `d`.  It does not
get past the first page of the kernel half, which is mapped in `d`. -/
theorem copyLoop_meets (hed : e ≠ d) (n : Nat) :
    ∀ {own : Word → Owner} {k : Kmem} {i : Word}, Owns L own k → own d = .dir → own e = .dir →
    (∀ x : Vpn, x.num = 2 ^ 19 → Present (view k.mem d x)) → Snug k.mem d →
    i.toNat % 4096 = 0 → i.toNat ≤ 2 ^ 31 → min sz.toNat (2 ^ 31) ≤ i.toNat + 4096 * n →
    Meets (copyLoop e sz d (n + 1) i) k (fun ok k' =>
      ok = true ∧ sz.toNat ≤ 2 ^ 31 ∧ (∃ own', Owns L own' k' ∧ own' d = .dir ∧
        Local d own k own' k' ∧ Kept (fun _ => False) d own k own' k' ∧ Snug k'.mem d ∧
        Copied e d i.toNat sz.toNat k.mem k'.mem) ∨
      ok = false ∧ ∃ own₁ k₁, ∃ j : Word, Owns L own₁ k₁ ∧ own₁ d = .dir ∧ Local d own k own₁ k₁ ∧
        Snug k₁.mem d ∧ Filled d i.toNat j.toNat k.mem k₁.mem ∧ j.toNat % 4096 = 0 ∧
        i.toNat ≤ j.toNat ∧ j.toNat < sz.toNat ∧ j.toNat ≤ 2 ^ 31 ∧ Starved L d (PDX j) own₁ k₁ k')
      fun _ => ∃ x : Vpn, x.In i.toNat sz.toNat ∧ Clash k.mem e d x := by
  have hfull : ∀ {k : Kmem} {i : Word}, (∀ x : Vpn, x.num = 2 ^ 19 → Present (view k.mem d x)) →
      i.toNat ≤ 2 ^ 31 → (vpn i).User ∨ Present (view k.mem d (vpn i)) := by
    intro k i hker htop
    rcases Nat.lt_or_eq_of_le htop with hlt | heq
    · exact .inl (user_vpn.mpr hlt)
    · refine .inr (hker _ ?_)
      rw [num_vpn, heq]
      rfl
  have hend : ∀ {own : Word → Owner} {k : Kmem} {i : Word}, Owns L own k → own d = .dir →
      Snug k.mem d → i.toNat ≤ 2 ^ 31 → ¬ i < sz → sz.toNat ≤ 2 ^ 31 ∧ ∃ own', Owns L own' k ∧
        own' d = .dir ∧ Local d own k own' k ∧ Kept (fun _ => False) d own k own' k ∧
        Snug k.mem d ∧ Copied e d i.toNat sz.toNat k.mem k.mem := by
    intro own k i h hd hs hi hge
    have hge' : ¬ i.toNat < sz.toNat := hge
    exact ⟨by omega, own, h, hd, .refl, .refl, hs, Vpn.range_nil hge⟩
  induction n with
  | zero =>
    intro own k i h hd he hker hs hi htop hn
    by_cases hlt : i < sz
    swap
    · exact of_ite (fun hc => absurd hc hlt) fun _ => of_pure (.inl ⟨rfl, hend h hd hs htop hlt⟩)
    have hlt' : i.toNat < sz.toNat := hlt
    refine copyTurn_meets h hd he hi hlt (hfull hker htop) (fun hu => ?_)
      (fun hshort => .inr ⟨rfl, own, k, i, h, hd, .refl, hs, Vpn.range_nil (Nat.lt_irrefl _), hi,
        le_rfl, hlt', htop, hshort⟩) fun _ hc => ⟨_, Vpn.in_self hi hlt', hc⟩
    have hu' : i.toNat < 2 ^ 31 := user_vpn.mp hu
    omega
  | succ n ih =>
    intro own k i h hd he hker hs hi htop hn
    by_cases hlt : i < sz
    swap
    · exact of_ite (fun hc => absurd hc hlt) fun _ => of_pure (.inl ⟨rfl, hend h hd hs htop hlt⟩)
    have hlt' : i.toNat < sz.toNat := hlt
    refine copyTurn_meets h hd he hi hlt (hfull hker htop)
      (fun {own₁ k₁ p} hu hpres h₁ hd₁ hput => ?_)
      (fun hshort => .inr ⟨rfl, own, k, i, h, hd, .refl, hs, Vpn.range_nil (Nat.lt_irrefl _), hi,
        le_rfl, hlt', htop, hshort⟩) fun _ hc => ⟨_, Vpn.in_self hi hlt', hc⟩
    have hu' : i < KERNBASE := user_vpn.mp hu
    have hu'' : i.toNat < 2 ^ 31 := hu'
    have hnext := toNat_next hu' (by decide)
    refine mono (ih h₁ hd₁ ?_ ?_ (hput.snug hs) (by omega) (by omega) (by omega)) ?_ ?_
    · exact hput.keep_dir he hed
    · intro x hx
      rw [hput.view_ne]
      · exact hker x hx
      · rintro rfl
        rw [num_vpn] at hx
        omega
    swap
    · rintro _ ⟨x, hx, hc⟩
      rw [hnext] at hx
      obtain ⟨hx, hxi⟩ := (Vpn.in_next hi).mp hx
      rw [Clash, hput.toLocal.view h (.inl hd) he hed, hput.view_ne x hxi] at hc
      exact ⟨x, hx, hc⟩
    rintro ok k' (⟨rfl, hsz, own', h', hd', hloc, hkept, hs', hcopy⟩ |
      ⟨rfl, own', k₂, j, h', hd', hloc, hs', hfill, hj, hle, hjsz, hjtop, hshort⟩)
    · refine .inl ⟨rfl, hsz, own', h', hd', hput.toLocal.trans hloc, hput.kept.trans hkept, hs',
        Vpn.range_cons hi hlt' hnext hput.view_ne (fun hstay => ?_) fun x =>
          ⟨fun hx => ((hcopy x).1 hx).of_local hput.toLocal h (.inl hd) he hed ?_, (hcopy x).2⟩⟩
      · -- the page just copied stays
        obtain ⟨hflags, hpage⟩ := hput.pageAt h₁ (flags_PTE_FLAGS _) hkept hstay
        exact ⟨hpres, hflags.trans (flags_or_present hpres), hpage⟩
      · have hx' := hx.2
        unfold Vpn.num at hx'
        unfold Vpn.User
        omega
    · refine .inr ⟨rfl, own', k₂, j, h', hd', hput.toLocal.trans hloc, hs',
        Vpn.range_cons hi (by omega) hnext hput.view_ne (fun hstay => ?_) hfill, hj, by omega, hjsz,
        hjtop, hshort⟩
      rw [hstay]
      exact hput.present

/-- **What `copyuvm` leaves when it runs out of pages**, after `c` pages: every page is where
it was, or the last page, which was to hold the next copy, is lost.  That happens at a page
that would have needed a new page table. -/
def CopyFails (L : Link) (sz : Nat) (own : Word → Owner) (k' : Kmem) : Prop :=
  freePages own < 65 ∧ Owns L own k' ∨
  ∃ c, c * 4096 < sz ∧ c ≤ 2 ^ 19 ∧
    (freePages own = 65 + c + (c + 1023) / 1024 ∧ Owns L own k' ∨
      c % 1024 = 0 ∧ freePages own = 66 + 1025 * (c / 1024) ∧
        ∃ p, own p = .free ∧ Owns L (update own p .raw) k')

/-- **`copyuvm`** returns a new address space whose user pages are copies of those up to `sz`,
or it fails for lack of pages. -/
theorem copyuvm_exact (h : Owns L own k) (he : own e = .dir) :
    Meets (copyuvm L e sz) k (fun r k' =>
      r = 0 ∧ (∀ q, own q ≠ .free → k'.mem q = k.mem q) ∧ CopyFails L sz.toNat own k' ∨
      own r = .free ∧ sz.toNat ≤ 2 ^ 31 ∧ ∃ own', Owns L own' k' ∧ own' r = .dir ∧
        Local r own k own' k' ∧ Kern L k'.mem r ∧ Snug k'.mem r ∧
        ∀ x : Vpn, x.User → (x.In 0 sz.toNat → CopyOf k.mem k'.mem e r x) ∧
          (¬ x.In 0 sz.toNat → view k'.mem r x = 0))
      fun _ => sz.toNat ≤ 2 ^ 31 → ∃ x : Vpn, x.In 0 sz.toNat ∧ ¬ Present (view k.mem e x) := by
  refine call (setupkvm_meets h) (fun _ => False.elim) ?_
  rintro d k₁ (⟨rfl, h₁, hmem, hfew⟩ | ⟨hfree, own₁, h₁, hd₁, hloc₁, hkern, huser, hsnug⟩)
  · exact of_ite (fun _ => of_pure (.inl ⟨rfl, hmem, .inl ⟨hfew, h₁⟩⟩)) (absurd rfl)
  refine of_neg (h.ne_zero hfree nofun) ?_
  have hed : e ≠ d := ne_of_owner he hfree nofun
  have he₁ := hloc₁.keep_dir he hed
  have hker : ∀ x : Vpn, x.num = 2 ^ 19 → Present (view k₁.mem d x) := by
    intro x hx
    have hidx : KernIdx x.1 := by
      unfold Vpn.num at hx
      unfold KernIdx
      omega
    rw [hkern x]
    · exact present_kmap_iff.mpr hidx
    · unfold KernIdx at hidx
      unfold Vpn.User
      omega
  have hzero : (0 : Word).toNat = 0 := rfl
  refine call (copyLoop_meets hed (2 ^ 20) h₁ hd₁ he₁ hker hsnug (by omega) (by omega) (by omega)) ?_ ?_
  · rintro _ ⟨x, hx, hc⟩ hsz
    refine ⟨x, hx, ?_⟩
    have hu : x.User := by
      have h₃ := hx.2
      unfold Vpn.num at h₃
      unfold Vpn.User
      omega
    rw [Clash, huser x hu, hloc₁.view h (.inr (.inl hfree)) he hed] at hc
    exact hc.resolve_right not_present_zero
  rintro ok k₂ (⟨rfl, hsz, own₂, h₂, hd₂, hloc₂, -, hs₂, hcopy⟩ |
    ⟨rfl, own₂, k₃, j, h₂, hd₂, hloc₂, hs₂, hfill, hj, -, hjsz, hjtop, hshort⟩)
  · refine of_true (of_pure (.inr ⟨hfree, hsz, own₂, h₂, hd₂, hloc₁.trans hloc₂, fun x hx => ?_, hs₂,
      fun x hx => ⟨fun hin => ?_, fun hout => ?_⟩⟩))
    · rw [(hcopy x).2 fun hc => ?_, hkern x hx]
      have h₃ := Vpn.not_user hx
      have h₄ := hc.2
      omega
    · exact ((hcopy x).1 hin).of_local hloc₁ h (.inr hfree) he hed hx
    · rw [(hcopy x).2 hout, huser x hx]
  · have hloc := hloc₁.trans hloc₂
    -- the address space so far: the kernel half and the pages below `j`
    have hview : ∀ x : Vpn, Present (view k₃.mem d x) ↔ KernIdx x.1 ∨ x.num < j.toNat / 4096 := by
      intro x
      have hlt : x.In 0 j.toNat ↔ x.num < j.toNat / 4096 := by
        unfold Vpn.In
        omega
      by_cases hx : x.User
      · have hidx : ¬ KernIdx x.1 := by
          unfold Vpn.User at hx
          unfold KernIdx
          omega
        rw [← hlt]
        refine ⟨fun hp => ?_, fun hc => (hfill x).1 (hc.resolve_left hidx)⟩
        by_contra hc
        rw [(hfill x).2 fun hin => hc (.inr hin), huser x hx] at hp
        exact not_present_zero hp
      · have hout : ¬ x.num < j.toNat / 4096 := by
          have := Vpn.not_user hx
          omega
        rw [(hfill x).2 fun hin => hout (hlt.mp hin), hkern x hx, present_kmap_iff]
        exact ⟨.inl, fun hc => hc.resolve_right hout⟩
    have hcount : freePages own =
        freePages own₂ + 1 + (64 + (j.toNat / 4096 + 1023) / 1024) + j.toNat / 4096 := by
      rw [hloc.census h hfree h₂ hd₂, hs₂.tablePages_eq (by omega) hview,
        userPages_eq (c := j.toNat / 4096) (by omega) fun x hx => ?_]
      rw [hview]
      refine ⟨fun hc => hc.resolve_left ?_, .inr⟩
      unfold Vpn.User at hx
      unfold KernIdx
      omega
    refine of_false ?_
    rcases hshort with ⟨rfl, hno⟩ | ⟨p, hp, h₃, hno, hmem, hnone⟩
    · refine call (freevm_meets h₂ hd₂) (fun _ => False.elim) ?_
      rintro _ k₄ ⟨own₄, h₄, hd₄, hloc₄⟩
      have hall := hloc.trans hloc₄
      have hsame : own₄ = own := hall.restored h hfree h₄ hd₄
      subst hsame
      refine of_pure (.inl ⟨rfl, fun q hq => hall.mem q fun hm => hq (h.free_of_mine hfree hm),
        .inr ⟨j.toNat / 4096, by omega, by omega, .inl ⟨?_, h₄⟩⟩⟩)
      rw [hcount, hno.freePages]
      omega
    · have hpd : p ≠ d := ne_of_owner hp hd₂ nofun
      have hd₃ : update own₂ p .raw d = .dir := by rw [update_of_ne hpd.symm, hd₂]
      refine call (freevm_meets h₃ hd₃) (fun _ => False.elim) ?_
      rintro _ k₄ ⟨own₄, h₄, hd₄, hloc₄⟩
      have hall := (hloc.lost hp hmem).after hloc₄ hpd
      have hpfree : own p = .free := by
        rcases hloc.hands p with hq | ⟨hq, -⟩
        · exact hq.symm.trans hp
        · exact h.free_of_mine hfree hq
      have hsame : own₄ = update own p .raw := by
        funext q
        rcases eq_or_ne q p with rfl | hqp
        · rw [update_self]
          exact hloc₄.keep_raw (update_self ..) hpd
        · rw [update_of_ne hqp]
          rcases hall.hands q with hq | ⟨hq, hq'⟩ | ⟨hq, -⟩
          · exact hq
          · exact (h₄.free_of_mine hd₄ hq').trans (h.free_of_mine hfree hq).symm
          · exact absurd hq hqp
      subst hsame
      -- the page that failed was to be the first one of its page table
      have hfirst : j.toNat / 4096 % 1024 = 0 := by
        by_contra hne
        have hpres : Present (view k₃.mem d (PDX j, 0)) := by
          refine (hview _).mpr (.inr ?_)
          show (PDX j).val * 1024 + 0 < _
          rw [PDX_val]
          omega
        rw [view_of_none hnone] at hpres
        exact not_present_zero hpres
      refine of_pure (.inl ⟨rfl, fun q hq => hall.mem q fun hm => hq (h.free_of_mine hfree hm),
        .inr ⟨j.toNat / 4096, by omega, by omega, .inr ⟨hfirst, ?_, p, hpfree, h₄⟩⟩⟩)
      rw [hcount, freePages_take hp, hno.freePages]
      omega

/-- The same, as far as the owners go. -/
theorem copyuvm_meets (h : Owns L own k) (he : own e = .dir) :
    Meets (copyuvm L e sz) k (fun r k' =>
      r = 0 ∧ (∃ own' p, Owns L own' k' ∧
        (∀ q, own' q = own q ∨ q = p ∧ own q = .free ∧ own' q = .raw) ∧
        (∀ q, own q ≠ .free → k'.mem q = k.mem q) ∧ Scarce own (1027 + sz.toNat / 4096)) ∨
      own r = .free ∧ sz.toNat ≤ 2 ^ 31 ∧ ∃ own', Owns L own' k' ∧ own' r = .dir ∧
        Local r own k own' k' ∧ Kern L k'.mem r ∧
        ∀ x : Vpn, x.User → (Present (view k'.mem r x) ↔ x.In 0 sz.toNat))
      fun _ => sz.toNat ≤ 2 ^ 31 → ∃ x : Vpn, x.In 0 sz.toNat ∧ ¬ Present (view k.mem e x) := by
  refine mono (copyuvm_exact h he) ?_ fun _ => id
  rintro r k' (⟨rfl, hmem, hfail⟩ | ⟨hfree, hsz, own', h', hd', hloc, hkern, -, hpages⟩)
  · refine .inl ⟨rfl, ?_⟩
    rcases hfail with ⟨hfew, h'⟩ | ⟨c, hc, hc', ⟨hcount, h'⟩ | ⟨-, hcount, p, hp, h'⟩⟩
    · exact ⟨own, 0, h', fun _ => .inl rfl, hmem, .of_freePages (by omega)⟩
    · exact ⟨own, 0, h', fun _ => .inl rfl, hmem, .of_freePages (by omega)⟩
    · refine ⟨_, p, h', fun q => ?_, hmem, .of_freePages (by omega)⟩
      rcases eq_or_ne q p with rfl | hq
      · exact .inr ⟨rfl, hp, update_self ..⟩
      · exact .inl (update_of_ne hq ..)
  · refine .inr ⟨hfree, hsz, own', h', hd', hloc, hkern, fun x hx => ⟨fun hp => ?_, fun hin => ?_⟩⟩
    · by_contra hout
      rw [(hpages x hx).2 hout] at hp
      exact not_present_zero hp
    · exact ((hpages x hx).1 hin).present

/-! ## `clearpteu` -/

theorem present_and_not_user (w : Word) : Present (w &&& ~~~ PTE_U) ↔ Present w := by
  unfold Present
  rw [BitVec.and_assoc]
  rfl

theorem target_and_not_user (w : Word) : target (w &&& ~~~ PTE_U) = target w := by
  have hp := present_and_not_user w
  have ha : PTE_ADDR (w &&& ~~~ PTE_U) = PTE_ADDR w := by
    unfold PTE_ADDR
    rw [BitVec.and_assoc]
    rfl
  unfold target
  rw [ha]
  exact if_congr hp rfl rfl

/-- **`clearpteu`** -/
theorem clearpteu_meets (h : Owns L own k) (hd : own d = .dir) (uva : Word) :
    Meets (clearpteu d uva) k (fun _ k' => Owns L own k' ∧ Local d own k own k' ∧
      view k'.mem d = update (view k.mem d) (vpn uva) (view k.mem d (vpn uva) &&& ~~~ PTE_U))
      fun _ => ¬ Present (view k.mem d (vpn uva)) := by
  refine call (walk_meets h hd uva) (fun _ => False.elim) ?_
  rintro r k₁ ⟨rfl, ⟨rfl, hnone⟩ | ⟨t, rfl, ht⟩⟩
  · refine of_throw ?_
    rw [view_of_none hnone]
    exact not_present_zero
  have hentry : k₁.mem t (PTX uva) = view k₁.mem d (vpn uva) := (h.view_eq ht _).symm
  refine load_bind ?_
  rw [hentry]
  have hpage : ∀ q, own q = .frame d (PDX uva, PTX uva) ↔ Vpn.User (PDX uva, PTX uva) ∧
      target (view k₁.mem d (vpn uva) &&& ~~~ PTE_U) = some q := by
    intro q
    rw [target_and_not_user, h.frame]
    exact ⟨And.right, fun hq => ⟨hd, hq⟩⟩
  obtain ⟨h₂, hview⟩ := h.setPte ht (fun q => .inl rfl) hpage
  refine of_modify ⟨h₂, Local.refl.setWord ht _ _, ?_⟩
  rw [hview d hd, if_pos rfl]
  rfl

end

end Xv6.Vm
