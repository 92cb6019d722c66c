/-
# `Xv6.Malloc.System` — programs that use the allocator

Runs of `malloc` and `free`, with whatever the program stores to the memory it was given.
The heap stays in order in every run of a program that keeps to the rules, every call ends,
and what `malloc` returns is memory of its own.
-/
import Xv6.Malloc.Sound

namespace Xv6.Malloc

open Cyclic Tiling Fuel Option Finset
open Function (update update_of_ne update_self)

/-! ## More turns change nothing -/

theorem findPlace_steady (h : Heap) (bp p : Nat) : Steady fun n => findPlace h bp n p := by
  intro n m r hnm hr
  induction n generalizing m p with
  | zero => cases hr
  | succ n ih =>
    obtain ⟨m, rfl⟩ := Nat.exists_eq_add_of_le' (Nat.le_trans (Nat.le_add_left 1 n) hnm)
    simp only [findPlace] at hr ⊢
    split
    · rename_i h₁
      rwa [if_pos h₁] at hr
    · rename_i h₁
      rw [if_neg h₁] at hr
      split
      · rename_i h₂
        rwa [if_pos h₂] at hr
      · rename_i h₂
        rw [if_neg h₂] at hr
        exact ih (h.ptr p) m (Nat.le_of_succ_le_succ hnm) hr

theorem free_steady (h : Heap) (ap : Nat) : Steady fun n => free n h ap := by
  intro n m r hnm hr
  simp only [free] at hr ⊢
  obtain ⟨f, hf, hr⟩ := bind_eq_some_iff.mp hr
  obtain ⟨p, hp, rfl⟩ := map_eq_some_iff.mp hr
  have hp' : findPlace h (ap - HEADER) m f = some p := findPlace_steady h _ f n m p hnm hp
  rw [hf, bind_some, hp', map_some]

theorem morecore_steady (L : Image) (sbrk : Sbrk) (h : Heap) (nu : Nat) :
    Steady fun n => morecore L sbrk n h nu := by
  intro n m r hnm hr
  simp only [morecore] at hr ⊢
  split
  · rename_i hs
    rwa [hs] at hr
  · rename_i a hs
    rw [hs] at hr
    obtain ⟨h₂, hh₂, rfl⟩ := map_eq_some_iff.mp hr
    exact map_eq_some_iff.mpr ⟨h₂, free_steady _ _ n m h₂ hnm hh₂, rfl⟩

theorem mallocLoop_steady (L : Image) (sbrk : Sbrk) (nunits prevp p : Nat) (h : Heap) :
    Steady fun n => mallocLoop L sbrk nunits n prevp p h := by
  intro n m r hnm hr
  induction n generalizing m prevp p h with
  | zero => cases hr
  | succ n ih =>
    obtain ⟨m, rfl⟩ := Nat.exists_eq_add_of_le' (Nat.le_trans (Nat.le_add_left 1 n) hnm)
    have hle := Nat.le_of_succ_le_succ hnm
    simp only [mallocLoop] at hr ⊢
    split
    · rename_i h₁
      rwa [if_pos h₁] at hr
    · rename_i h₁
      rw [if_neg h₁] at hr
      split
      · rename_i h₂
        rw [if_pos h₂] at hr
        obtain ⟨⟨q, h'⟩, hm, hr⟩ := bind_eq_some_iff.mp hr
        refine bind_eq_some_iff.mpr ⟨(q, h'), morecore_steady L sbrk h nunits n m _ hle hm, ?_⟩
        cases q with
        | none => exact hr
        | some q => exact ih q (h'.ptr q) h' m hle hr
      · rename_i h₂
        rw [if_neg h₂] at hr
        exact ih p (h.ptr p) h m hle hr

theorem malloc_steady (L : Image) (sbrk : Sbrk) (h : Heap) (nbytes : Nat) :
    Steady fun n => malloc L sbrk n h nbytes := by
  intro n m r hnm hr
  simp only [malloc] at hr ⊢
  split
  · rename_i f hf
    rw [hf] at hr
    exact mallocLoop_steady L sbrk _ _ _ _ n m r hnm hr
  · rename_i hf
    rw [hf] at hr
    exact mallocLoop_steady L sbrk _ _ _ _ n m r hnm hr

theorem call_steady (L : Image) (s : State) (e : Event) : Steady fun n => call L n s e := by
  intro n m r hnm hr
  cases e with
  | malloc sbrk nbytes =>
    obtain ⟨x, hx, rfl⟩ := map_eq_some_iff.mp hr
    exact map_eq_some_iff.mpr ⟨x, malloc_steady L sbrk s.heap nbytes n m x hnm hx, rfl⟩
  | free p =>
    obtain ⟨x, hx, rfl⟩ := map_eq_some_iff.mp hr
    exact map_eq_some_iff.mpr ⟨x, free_steady s.heap p n m x hnm hx, rfl⟩
  | store p a ptr size => exact hr

/-! ## The invariant of a run -/

/-- The headers of the results that are live. -/
def Live (s : State) (a : Nat) : Prop := (s.live (a + HEADER)).isSome

/-- **The heap and the live results are in order**: the free blocks are `F`, the live ones are
the others, and each is large enough. -/
structure Sound (L : Image) (F : Finset Nat) (s : State) : Prop where
  good : Good L F (Live s) s.heap
  room : ∀ p n, s.live p = some n → HEADER ≤ p ∧ n + HEADER ≤ HEADER * s.heap.size (p - HEADER)

/-- There was no `malloc` yet. -/
structure Fresh (s : State) : Prop where
  freep : s.heap.freep = none
  chunks : s.heap.chunks = []
  live : ∀ p, s.live p = none

variable {L : Image} {F : Finset Nat} {s : State}

theorem Fresh.good (hs : Fresh s) : Good L {L.base} (Live s) (start L s.heap) := by
  have hlive : ∀ a, ¬ Live s a := by
    intro a ha
    rw [Live, hs.live] at ha
    cases ha
  have hblock : ∀ a, ¬ Block L {L.base} (Live s) a := by
    rintro a (⟨ha, hne⟩ | ha)
    · exact hne (mem_singleton.mp ha)
    · exact hlive a ha
  have hgiven : ∀ x, ¬ Given (start L s.heap).chunks x := by
    rintro x ⟨c, hc, -⟩
    rw [show (start L s.heap).chunks = [] from hs.chunks] at hc
    cases hc
  refine ⟨⟨mem_singleton_self _, update_self .., ⟨fun a ha => absurd ha (hblock a),
    fun a _ ha => absurd ha (hblock a), fun x => ⟨fun hx => absurd hx (hgiven x),
    fun ⟨a, ha, _⟩ => absurd ha (hblock a)⟩⟩, fun a ha => absurd ha (hblock a), fun a _ => hlive a,
    fun x hx => absurd hx (hgiven x), ?_, ?_⟩, ?_, L.base, mem_singleton_self _, rfl⟩
  · rw [Heap.top, show (start L s.heap).chunks = [] from hs.chunks]
    exact L.base_lt
  · intro a ha c hc hac
    rw [mem_singleton.mp ha, mem_singleton.mp hc] at hac
    exact absurd hac (Nat.lt_irrefl _)
  · intro a ha
    have hptr : (start L s.heap).ptr a = L.base := by
      rw [mem_singleton.mp ha]
      exact update_self ..
    rw [hptr]
    refine ⟨mem_singleton_self _, .inr fun c hc => ?_⟩
    rw [mem_singleton.mp ha, mem_singleton.mp hc]
    exact ⟨Nat.le_refl _, Nat.le_refl _⟩

/-- `nunits`, where nothing overflows: room for the header and for the bytes. -/
theorem units_room {nbytes : Nat} (h₁ : nbytes + HEADER - 1 < 2 ^ 32)
    (h₂ : ((nbytes + HEADER - 1) / HEADER + 1) * HEADER < 2 ^ 32) :
    0 < units nbytes ∧ units nbytes * HEADER < 2 ^ 32 ∧
      nbytes + HEADER ≤ HEADER * units nbytes := by
  have hunits : units nbytes = (nbytes + HEADER - 1) / HEADER + 1 := by
    rw [units, Nat.mod_eq_of_lt h₁, Nat.mod_eq_of_lt]
    rw [HEADER] at h₂ ⊢
    omega
  rw [hunits]
  refine ⟨Nat.succ_pos _, h₂, ?_⟩
  rw [HEADER]
  omega

/-- What is known when `malloc(nbytes)` returns: the heap is in order, and a result is new memory,
apart from every live block. -/
structure Malloced (L : Image) (nbytes : Nat) (s : State) (r : Option Nat × State) : Prop where
  sound : ∃ F, Sound L F r.2
  apart : ∀ p, r.1 = some p → s.live p = none ∧ r.2.live p = some nbytes ∧
    ∀ q, (s.live q).isSome → p + nbytes ≤ q - HEADER ∨
      q - HEADER + HEADER * s.heap.size (q - HEADER) ≤ p

/-- The result of the loop, as a state. -/
theorem malloced_of_served {nbytes : Nat} {h : Heap} {r : Option Nat × Heap}
    (hroom : nbytes + HEADER ≤ HEADER * units nbytes) (hsize : ∀ a, Live s a → h.size a = s.heap.size a)
    (hs : ∀ p n, s.live p = some n → HEADER ≤ p ∧ n + HEADER ≤ HEADER * s.heap.size (p - HEADER))
    (hr : Served L (Live s) (units nbytes) h r) :
    Malloced L nbytes s (record s nbytes r) := by
  have hlive : ∀ q, (s.live q).isSome → HEADER ≤ q ∧ Live s (q - HEADER) := by
    intro q hq
    obtain ⟨n, hn⟩ := isSome_iff_exists.mp hq
    have hle := (hs q n hn).1
    refine ⟨hle, ?_⟩
    rw [Live, Nat.sub_add_cancel hle]
    exact hq
  obtain ⟨q, h'⟩ := r
  rcases hr with ⟨rfl, ⟨F, hgood⟩, hkept⟩ | ⟨a, rfl, ⟨F, hgood⟩, hnew, hsz, hkept⟩
  · refine ⟨⟨F, hgood, fun p n (hp : s.live p = some n) => ?_⟩, nofun⟩
    have hl := (hlive p (by rw [hp]; rfl)).2
    show HEADER ≤ p ∧ n + HEADER ≤ HEADER * h'.size (p - HEADER)
    rw [hkept _ hl, hsize _ hl]
    exact hs p n hp
  · have hheld : (fun c => Live s c ∨ c = a) = Live ⟨h', update s.live (a + HEADER)
        (some nbytes)⟩ := by
      funext c
      simp only [Live]
      by_cases hc : c = a
      · subst hc
        simp only [update_self, isSome_some, or_true]
      · rw [update_of_ne (by omega)]
        simp only [hc, or_false]
    refine ⟨⟨F, hheld ▸ hgood,
      fun p n (hp : update s.live (a + HEADER) (some nbytes) p = some n) => ?_⟩, ?_⟩
    · show HEADER ≤ p ∧ n + HEADER ≤ HEADER * h'.size (p - HEADER)
      by_cases hpa : p = a + HEADER
      · subst hpa
        rw [update_self] at hp
        cases hp
        rw [Nat.add_sub_cancel, hsz]
        exact ⟨Nat.le_add_left .., hroom⟩
      · rw [update_of_ne hpa] at hp
        have hl := (hlive p (by rw [hp]; rfl)).2
        rw [hkept _ hl, hsize _ hl]
        exact hs p n hp
    · rintro p hp
      obtain rfl : a + HEADER = p := Option.some.inj hp
      refine ⟨?_, update_self .., fun q hq => ?_⟩
      · rw [Live] at hnew
        exact not_isSome_iff_eq_none.mp hnew
      · -- the two blocks are apart
        obtain ⟨hle, hl⟩ := hlive q hq
        have hne : q - HEADER ≠ a := fun he => hnew (he ▸ hl)
        rcases Nat.lt_or_gt_of_ne hne with hlt | hgt
        · right
          have := hgood.tiles.apart _ a (.inr (.inl hl)) (.inr (.inr rfl)) hlt
          rw [hkept _ hl, hsize _ hl] at this
          omega
        · left
          have := hgood.tiles.apart a _ (.inr (.inr rfl)) (.inr (.inl hl)) hgt
          rw [hsz] at this
          omega

/-- **`malloc` ends**, with new memory or with none. -/
theorem malloc_ends (hs : Fresh s ∨ ∃ F, Sound L F s) {sbrk : Sbrk} {nbytes : Nat}
    (hp : Proper s (.malloc sbrk nbytes)) :
    Ends (fun n => call L n s (.malloc sbrk nbytes)) (Malloced L nbytes s) := by
  obtain ⟨hpos, hsmall, hroom⟩ := units_room hp.1 hp.2
  have hends : Ends (fun n => malloc L sbrk n s.heap nbytes) fun r =>
      Malloced L nbytes s (record s nbytes r) := by
    rcases hs with hs | ⟨F, hs⟩
    · have hlive : ∀ p n, s.live p ≠ some n := fun p n hp => by cases (hs.live p).symm.trans hp
      have hloop := mallocLoop_ends sbrk (hs.good (L := L)) (mem_singleton_self _)
        rfl hpos hsmall
      simp only [malloc, hs.freep]
      refine hloop.mono fun r hr => malloced_of_served hroom (fun a ha => ?_)
        (fun p n hp => absurd hp (hlive p n)) hr
      rw [Live, hs.live] at ha
      cases ha
    · obtain ⟨f, hf, hfreep⟩ := hs.good.freep
      have hloop := mallocLoop_ends sbrk hs.good hf hfreep hpos hsmall
      simp only [malloc, hfreep]
      exact hloop.mono fun r hr => malloced_of_served hroom (fun _ _ => rfl) hs.room hr
  obtain ⟨n, r, hr, hm⟩ := hends
  refine ⟨n, record s nbytes r, fun m hle => ?_, hm⟩
  have hret : malloc L sbrk m s.heap nbytes = some r := hr m hle
  simp only [call, hret, map_some]

theorem call_free_ends (hs : Sound L F s) {p : Nat} (hp : (s.live p).isSome) :
    Ends (fun n => call L n s (.free p)) fun r => ∃ F, Sound L F r.2 := by
  obtain ⟨n₀, hn₀⟩ := isSome_iff_exists.mp hp
  obtain ⟨hle, -⟩ := hs.room p n₀ hn₀
  obtain ⟨a, rfl⟩ := Nat.exists_eq_add_of_le' hle
  obtain ⟨n, h', hh', ⟨F', -, hgood, -⟩, hkept⟩ := free_ends hs.good (show Live s a from hp)
  refine ⟨n, (none, ⟨h', update s.live (a + HEADER) none⟩), fun m hm => ?_, F', ?_, ?_⟩
  · show (free m s.heap (a + HEADER)).map _ = _
    rw [show free m s.heap (a + HEADER) = some h' from hh' m hm]
    rfl
  · have hheld : (fun c => Live s c ∧ c ≠ a) = Live ⟨h', update s.live (a + HEADER) none⟩ := by
      funext c
      simp only [Live]
      by_cases hc : c = a
      · subst hc
        simp [update_self]
      · rw [update_of_ne (by omega)]
        simp only [ne_eq, hc, not_false_eq_true, and_true]
    exact hheld ▸ hgood
  · intro q m (hq : update s.live (a + HEADER) none q = some m)
    by_cases hqa : q = a + HEADER
    · subst hqa
      rw [update_self] at hq
      cases hq
    · rw [update_of_ne hqa] at hq
      obtain ⟨hleq, hroom⟩ := hs.room q m hq
      have hkeep := hkept (q - HEADER) ⟨by
        rw [Live, Nat.sub_add_cancel hleq, hq]
        rfl, by omega⟩
      rw [hkeep]
      exact ⟨hleq, hroom⟩

/-- What the program stores to its own bytes touches no header. -/
theorem Sound.store (hs : Sound L F s) {p a : Nat} (ptr size : Nat)
    (hp : Proper s (.store p a ptr size)) :
    Sound L F ⟨(s.heap.setPtr a ptr).setSize a size, s.live⟩ := by
  obtain ⟨n, hn, hlt, hgt⟩ := hp
  obtain ⟨hle, hroom⟩ := hs.room p n hn
  have hl : Live s (p - HEADER) := by
    rw [Live, Nat.sub_add_cancel hle, hn]
    rfl
  have hbase : L.base ≠ a := by
    have := hs.good.above _ (.inr hl)
    omega
  have hblock : ∀ c, Block L F (Live s) c → c ≠ a := by
    rintro c hc rfl
    rcases Nat.lt_trichotomy c (p - HEADER) with h₁ | h₁ | h₁
    · have h₂ := hs.good.tiles.apart c _ hc (.inr hl) h₁
      omega
    · omega
    · have := hs.good.tiles.apart _ c (.inr hl) hc h₁
      omega
  have hF : ∀ c ∈ F, c ≠ a := by
    intro c hc
    by_cases hcb : c = L.base
    · rw [hcb]
      exact hbase
    · exact hblock c (.inl ⟨hc, hcb⟩)
  have hsize : ∀ c, c ≠ a → update s.heap.size a size c = s.heap.size c :=
    fun c hc => update_of_ne hc ..
  refine ⟨⟨⟨hs.good.base, (hsize _ hbase).trans hs.good.base_size,
    hs.good.tiles.congr (fun _ => Iff.rfl) fun c hc => congrArg _ (hsize c (hblock c hc)),
    hs.good.above, hs.good.free, hs.good.given, hs.good.top, fun c hc d hd hcd => ?_⟩,
    hs.good.ring.congr fun c hc => update_of_ne (hF c hc) .., hs.good.freep⟩,
    fun q m hq => ?_⟩
  · show c + HEADER * update s.heap.size a size c < d
    rw [hsize c (hF c hc)]
    exact hs.good.loose c hc d hd hcd
  · obtain ⟨hleq, hroomq⟩ := hs.room q m hq
    have hlq : Live s (q - HEADER) := by
      rw [Live, Nat.sub_add_cancel hleq]
      exact isSome_iff_exists.mpr ⟨m, hq⟩
    refine ⟨hleq, ?_⟩
    show m + HEADER ≤ HEADER * update s.heap.size a size (q - HEADER)
    rw [hsize _ (hblock _ (.inr hlq))]
    exact hroomq

/-- A fresh heap has nothing to free and nothing to store to. -/
theorem Fresh.not_live (hs : Fresh s) {p n : Nat} : s.live p ≠ some n := by
  rw [hs.live]
  nofun

/-- **Every call ends and keeps the heap in order.** -/
theorem call_ends (hs : Fresh s ∨ ∃ F, Sound L F s) {e : Event} (hp : Proper s e) :
    Ends (fun n => call L n s e) fun r => ∃ F, Sound L F r.2 := by
  cases e with
  | malloc sbrk nbytes => exact (malloc_ends hs hp).mono fun _ hr => hr.sound
  | free p =>
    rcases hs with hs | ⟨F, hs⟩
    · obtain ⟨n, hn⟩ := isSome_iff_exists.mp hp
      exact absurd hn hs.not_live
    · exact call_free_ends hs hp
  | store p a ptr size =>
    rcases hs with hs | ⟨F, hs⟩
    · obtain ⟨n, hn, -⟩ := hp
      exact absurd hn hs.not_live
    · exact .pure ⟨F, hs.store ptr size hp⟩

/-- **The user heap stays in order.**  In every run of a program that keeps to the rules the
links run around the free blocks in the order of their addresses, no two of which lie side by
side, and free and live blocks tile the memory that `sbrk` has given.  Every call ends, and
what `malloc` returns is memory apart from every live block. -/
theorem heap_in_order {n : Nat} {ptr size : Nat → Nat} {es : List Event}
    (hrun : Trace.Run (step L n) (init ptr size) es s)
    (hproper : ∀ pre e post t, es = pre ++ e :: post → Trace.Run (step L n) (init ptr size) pre t →
      Proper t e) :
    (Fresh s ∨ ∃ F, Sound L F s) ∧
    (∀ e, Proper s e → Ends (fun m => call L m s e) fun r => ∃ F, Sound L F r.2) ∧
    ∀ sbrk nbytes, Proper s (.malloc sbrk nbytes) →
      Ends (fun m => call L m s (.malloc sbrk nbytes)) (Malloced L nbytes s) := by
  have hinv : Fresh s ∨ ∃ F, Sound L F s := by
    refine hrun.guarded (I := fun s => Fresh s ∨ ∃ F, Sound L F s) (G := Proper)
      (.inl ⟨rfl, rfl, fun _ => rfl⟩) ?_ hproper
    intro _ t e t' _ ht hp hstep
    obtain ⟨r, hr, rfl⟩ := map_eq_some_iff.mp hstep
    exact .inr ((call_ends ht hp).result (call_steady L t e) hr)
  exact ⟨hinv, fun e hp => call_ends hinv hp, fun sbrk nbytes hp => malloc_ends hinv hp⟩

/-- A program whose data end at 4096, with a kernel that gives what follows. -/
def sample : Image := ⟨4088, 4096, by decide⟩

def sbrkNext : Sbrk := ⟨fun top _ => some top, fun top _ a h => by cases h; exact Nat.le_refl top⟩

/-- Two requests, a store, and both blocks are freed again. -/
def sampleRun : List Event :=
  [.malloc sbrkNext 100, .malloc sbrkNext 10, .store 36736 36740 7 7, .free 36760, .free 36736]

theorem heap_in_order_sample : ∃ s, Trace.Run (step sample 5) (init (fun _ => 0) (fun _ => 0))
    sampleRun s ∧ (Fresh s ∨ ∃ F, Sound sample F s) := by
  refine (Trace.exists_run (by decide +kernel)).imp fun s hrun => ⟨hrun, ?_⟩
  exact (heap_in_order hrun (Trace.guard_of_checks (by decide +kernel))).1

end Xv6.Malloc
