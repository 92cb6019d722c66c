/-
# `Xv6.Malloc.Sound` — the heap stays in order

The invariant of the allocator.  The free blocks are a set `F` around which the links run
in the order of the addresses; with the blocks that are held by the program they are a
tiling of the memory that `sbrk` has given, and no two free blocks lie side by side.
`free` joins a held block to the list in two halves, upwards and downwards; `malloc` cuts a
block or unlinks one.  Both loops walk around the list, and the walk rule of
`Xv6.Lib.Cyclic` says that they end.
-/
import Mathlib.Data.Finset.Max
import Xv6.Lib.Cyclic
import Xv6.Lib.Tiling
import Xv6.Malloc.Heap

namespace Xv6.Malloc

open Cyclic Tiling Fuel Finset
open Function (update update_of_ne update_self)

/-! ## The invariant -/

/-- The bytes `sbrk` has given. -/
def Given (chunks : List (Nat × Nat)) (x : Nat) : Prop := ∃ c ∈ chunks, c.1 ≤ x ∧ x < c.1 + c.2

/-- The blocks, free or held; `base` is a header but no block. -/
def Block (L : Image) (F : Finset Nat) (held : Nat → Prop) (a : Nat) : Prop :=
  a ∈ F ∧ a ≠ L.base ∨ held a

/-- The memory is cut into the blocks, above the program's data. -/
structure Cut (L : Image) (F : Finset Nat) (held : Nat → Prop) (h : Heap) : Prop where
  base : L.base ∈ F
  base_size : h.size L.base = 0
  tiles : Tiles (Block L F held) (fun a => HEADER * h.size a) (Given h.chunks)
  above : ∀ a, Block L F held a → L.base + HEADER ≤ a
  free : ∀ a ∈ F, ¬ held a
  given : ∀ x, Given h.chunks x → x < h.top L
  top : L.base + HEADER ≤ h.top L
  loose : ∀ a ∈ F, ∀ c ∈ F, a < c → a + HEADER * h.size a < c

/-- **The heap is in order**: `F` are the free blocks and `held` the others. -/
structure Good (L : Image) (F : Finset Nat) (held : Nat → Prop) (h : Heap) : Prop
    extends Cut L F held h where
  ring : Ring h.ptr F
  freep : ∃ f ∈ F, h.freep = some f

variable {L : Image} {F : Finset Nat} {held : Nat → Prop} {h : Heap} {bp p prevp : Nat}

theorem header_pos : 0 < HEADER := by decide

theorem Cut.base_le (hc : Cut L F held h) {a : Nat} (ha : a ∈ F) : L.base ≤ a := by
  by_cases hb : a = L.base
  · exact Nat.le_of_eq hb.symm
  · have := hc.above a (.inl ⟨ha, hb⟩)
    omega

/-! ## `free` -/

/-- A held block has a place on the list. -/
theorem Cut.place (hc : Cut L F held h) (hb : held bp) :
    ∃ p ∈ F, p < bp ∧ ∀ c ∈ F, c ≤ p ∨ bp < c := by
  have hbase : L.base < bp := by
    have := hc.above bp (.inr hb)
    have := header_pos
    omega
  have hne : (F.filter (· < bp)).Nonempty := ⟨L.base, mem_filter.mpr ⟨hc.base, hbase⟩⟩
  obtain ⟨hp, hlt⟩ := mem_filter.mp ((F.filter (· < bp)).max'_mem hne)
  refine ⟨_, hp, hlt, fun c hcF => ?_⟩
  rcases Nat.lt_trichotomy c bp with h₁ | rfl | h₁
  · exact .inl (le_max' _ c (mem_filter.mpr ⟨hcF, h₁⟩))
  · exact absurd hb (hc.free c hcF)
  · exact .inr h₁

/-- **The loop of `free` ends**, at the place of the block. -/
theorem findPlace_ends (hr : Ring h.ptr F) (hp : p ∈ F) (hlt : p < bp)
    (hplace : ∀ c ∈ F, c ≤ p ∨ bp < c) {f : Nat} (hf : f ∈ F) :
    Ends (fun n => findPlace h bp n f) (· = p) := by
  refine hr.reach (P := fun f => Ends (fun n => findPlace h bp n f) (· = p)) hp ?_ ?_ hf
  · refine .now (fun n => ?_) rfl
    by_cases h₁ : p < bp ∧ bp < h.ptr p
    · rw [findPlace, if_pos h₁]
    · have hle : h.ptr p ≤ p := (hplace _ (hr.mem hp)).resolve_right fun h₂ => h₁ ⟨hlt, h₂⟩
      rw [findPlace, if_neg h₁, if_pos ⟨hle, .inl hlt⟩]
  · intro a ha hne hnext
    -- at any other block the loop goes on
    obtain ⟨hm, hcase⟩ := hr a ha
    have hap := hplace a ha
    have h₁ : ¬ (a < bp ∧ bp < h.ptr a) := by
      rcases hcase with ⟨h₃, h₄⟩ | h₃
      · have := h₄ p hp
        omega
      · have := h₃ p hp
        omega
    have h₂ : ¬ (h.ptr a ≤ a ∧ (a < bp ∨ bp < h.ptr a)) := by
      rcases hcase with ⟨h₃, -⟩ | h₃
      · omega
      · have := h₃ p hp
        omega
    refine .later (fun n => ?_) hnext
    rw [findPlace, if_neg h₁, if_neg h₂]

/-- Between the two halves of `free`: `bp` is joined upwards, and the list would be in order if
`p` were linked to where `bp` is. -/
structure Half (L : Image) (F : Finset Nat) (held : Nat → Prop) (bp p : Nat) (h : Heap) : Prop
    extends Cut L F held h where
  ring : Ring (update h.ptr p (h.ptr bp)) F
  held_bp : held bp
  mem : p ∈ F
  lt : p < bp
  place : ∀ c ∈ F, c ≤ p ∨ bp < c
  gap : ∀ c ∈ F, bp < c → bp + HEADER * h.size bp < c

/-- The sizes of held blocks stay. -/
def Kept (held : Nat → Prop) (h h' : Heap) : Prop := ∀ a, held a → h'.size a = h.size a

theorem Kept.trans {h₁ h₂ h₃ : Heap} (h : Kept held h₁ h₂) (h' : Kept held h₂ h₃) :
    Kept held h₁ h₃ :=
  fun a ha => (h' a ha).trans (h a ha)

/-- The free block `q` becomes part of the held block `bp` before it. -/
theorem Cut.absorb (hc : Cut L F held h) (hb : held bp) {q : Nat} (hq : q ∈ F) (hqb : q ≠ L.base)
    (hm : bp + HEADER * h.size bp = q) {h' : Heap} (hchunks : h'.chunks = h.chunks)
    (hbp : h'.size bp = h.size bp + h.size q) (hsize : ∀ c, c ≠ bp → h'.size c = h.size c) :
    Cut L (F.erase q) held h' where
  base := mem_erase.mpr ⟨hqb.symm, hc.base⟩
  base_size := by
    rw [hsize L.base fun he => hc.free _ hc.base (he ▸ hb)]
    exact hc.base_size
  tiles := by
    rw [hchunks]
    subst hm
    refine hc.tiles.merge (.inr hb) (.inl ⟨hq, hqb⟩) (fun c => ⟨?_, ?_⟩) ?_ fun c _ hne => ?_
    · rintro (⟨hcF, hcb⟩ | hch)
      · exact ⟨.inl ⟨mem_of_mem_erase hcF, hcb⟩, ne_of_mem_erase hcF⟩
      · exact ⟨.inr hch, fun he => hc.free c (he ▸ hq) hch⟩
    · rintro ⟨⟨hcF, hcb⟩ | hch, hne⟩
      · exact .inl ⟨mem_erase.mpr ⟨hne, hcF⟩, hcb⟩
      · exact .inr hch
    · rw [hbp, Nat.mul_add]
    · rw [hsize c hne]
  above c hcb := hc.above c (hcb.imp (fun ⟨hcF, hne⟩ => ⟨mem_of_mem_erase hcF, hne⟩) id)
  free c hcF := hc.free c (mem_of_mem_erase hcF)
  given := by
    rw [Heap.top, hchunks]
    exact hc.given
  top := by
    rw [Heap.top, hchunks]
    exact hc.top
  loose c hcF d hdF hlt := by
    have hcF' := mem_of_mem_erase hcF
    rw [hsize c fun he => hc.free c hcF' (he ▸ hb)]
    exact hc.loose c hcF' d (mem_of_mem_erase hdF) hlt

theorem Cut.congr (hc : Cut L F held h) {h' : Heap} (hchunks : h'.chunks = h.chunks)
    (hsize : h'.size = h.size) : Cut L F held h' := by
  refine ⟨hc.base, ?_, ?_, hc.above, hc.free, ?_, ?_, ?_⟩
  · rw [hsize]; exact hc.base_size
  · rw [hsize, hchunks]; exact hc.tiles
  · rw [Heap.top, hchunks]; exact hc.given
  · rw [Heap.top, hchunks]; exact hc.top
  · rw [hsize]; exact hc.loose

/-- **The upper half.** -/
theorem joinUpper_half (hg : Good L F held h) (hb : held bp) (hp : p ∈ F) (hlt : p < bp)
    (hplace : ∀ c ∈ F, c ≤ p ∨ bp < c) :
    (∃ F', Half L F' held bp p (joinUpper h bp p)) ∧
      Kept (fun a => held a ∧ a ≠ bp) h (joinUpper h bp p) ∧
      h.size bp ≤ (joinUpper h bp p).size bp := by
  have hbb := hg.above bp (.inr hb)
  have hq := hg.ring.mem hp
  have hne : ∀ c ∈ F, c ≠ bp := fun c hc he => hg.free c hc (he ▸ hb)
  have hpos : 0 < HEADER * h.size bp := hg.tiles.pos bp (.inr hb)
  by_cases hm : bp + HEADER * h.size bp = h.ptr p
  · -- the next block begins where `bp` ends
    have hqp : h.ptr p ≠ p := by omega
    have hqb : h.ptr p ≠ L.base := by omega
    rw [joinUpper, if_pos hm]
    have hsize : ∀ c, c ≠ bp →
        update h.size bp (h.size bp + h.size (h.ptr p)) c = h.size c :=
      fun c hc => update_of_ne hc ..
    have hself : update h.size bp (h.size bp + h.size (h.ptr p)) bp =
      h.size bp + h.size (h.ptr p) := update_self ..
    refine ⟨⟨F.erase (h.ptr p), hg.absorb hb hq hqb hm rfl hself hsize, ?_, hb,
      mem_erase.mpr ⟨hqp.symm, hp⟩, hlt, fun c hc => hplace c (mem_of_mem_erase hc),
      fun c hc hbc => ?_⟩, fun a ha => hsize a ha.2, ?_⟩
    · refine (hg.ring.erase hp hqp).congr fun c hc => ?_
      show update (update h.ptr bp _) p (update h.ptr bp _ bp) c = _
      rw [update_self]
      by_cases hcp : c = p
      · rw [hcp, update_self, update_self]
      · rw [update_of_ne hcp, update_of_ne hcp, update_of_ne (hne c (mem_of_mem_erase hc))]
    · show bp + HEADER * update h.size bp _ bp < c
      obtain ⟨hcq, hcF⟩ := mem_erase.mp hc
      have hlt' : h.ptr p < c := by
        have := hg.tiles.apart bp c (.inr hb) (.inl ⟨hcF, by omega⟩) hbc
        omega
      have := hg.loose _ hq c hcF hlt'
      rw [hself, Nat.mul_add]
      omega
    · show h.size bp ≤ update h.size bp _ bp
      rw [hself]
      exact Nat.le_add_right ..
  · rw [joinUpper, if_neg hm]
    refine ⟨⟨F, hg.toCut.congr rfl rfl, ?_, hb, hp, hlt, hplace, fun c hc hbc => ?_⟩,
      fun _ _ => rfl, Nat.le_refl _⟩
    · refine hg.ring.congr fun c hc => ?_
      show update (update h.ptr bp _) p (update h.ptr bp _ bp) c = _
      rw [update_self]
      by_cases hcp : c = p
      · rw [hcp, update_self]
      · rw [update_of_ne hcp, update_of_ne (hne c hc)]
    · show bp + HEADER * h.size bp < c
      obtain ⟨-, ⟨hpq, hnext⟩ | hwrap⟩ := hg.ring p hp
      · have hbq : bp < h.ptr p := (hplace _ hq).resolve_left (Nat.not_le.mpr hpq)
        have := hg.tiles.apart bp _ (.inr hb) (.inl ⟨hq, by omega⟩) hbq
        have := hnext c hc
        omega
      · have := hwrap c hc
        omega

/-- What the caller of `free` may rely on: the heap is in order without the block, which is part
of the block `freep` or of the one after it. -/
structure Freed (L : Image) (held : Nat → Prop) (bp : Nat) (h h' : Heap) : Prop where
  good : ∃ F p, Good L F (fun a => held a ∧ a ≠ bp) h' ∧ p ∈ F ∧ h'.freep = some p ∧
    (h.size bp ≤ h'.size p ∨ h.size bp ≤ h'.size (h'.ptr p))
  kept : Kept (fun a => held a ∧ a ≠ bp) h h'

/-- **The lower half.** -/
theorem joinLower_good (hh : Half L F held bp p h) :
    Freed L held bp h ((joinLower h bp p).setFreep p) := by
  have hne : ∀ c ∈ F, c ≠ bp := fun c hc he => hh.free c hc (he ▸ hh.held_bp)
  have hbb := hh.above bp (.inr hh.held_bp)
  by_cases hm : p + HEADER * h.size p = bp
  · have hpb : p ≠ L.base := by
      intro he
      have hlt := hh.lt
      rw [he, hh.base_size] at hm
      omega
    rw [joinLower, if_pos hm]
    have hsize : ∀ c, c ≠ p → update h.size p (h.size p + h.size bp) c = h.size c :=
      fun c hc => update_of_ne hc ..
    have hself : update h.size p (h.size p + h.size bp) p = h.size p + h.size bp :=
      update_self ..
    refine ⟨⟨F, p, ⟨⟨hh.base, ?_, ?_, ?_, fun a ha hb => hh.free a ha hb.1, hh.given, hh.top, ?_⟩,
      hh.ring, p, hh.mem, rfl⟩, hh.mem, rfl, .inl ?_⟩, fun a ha => ?_⟩
    · exact (hsize _ hpb.symm).trans hh.base_size
    · refine hh.tiles.merge (.inl ⟨hh.mem, hpb⟩) (by rw [hm]; exact .inr hh.held_bp)
        (fun c => ⟨?_, ?_⟩) ?_ fun c _ hcp => ?_
      · rw [hm]
        rintro (⟨hcF, hcb⟩ | ⟨hch, hcne⟩)
        · exact ⟨.inl ⟨hcF, hcb⟩, hne c hcF⟩
        · exact ⟨.inr hch, hcne⟩
      · rw [hm]
        rintro ⟨hcb | hch, hcne⟩
        · exact .inl hcb
        · exact .inr ⟨hch, hcne⟩
      · show HEADER * update h.size p _ p = _
        rw [hself, hm, Nat.mul_add]
      · exact congrArg _ (hsize c hcp)
    · exact fun c hc => hh.above c (hc.imp id And.left)
    · intro c hc d hd hcd
      show c + HEADER * update h.size p _ c < d
      by_cases hcp : c = p
      · subst hcp
        have hbd := (hh.place d hd).resolve_left (Nat.not_le.mpr hcd)
        have := hh.gap d hd hbd
        rw [hself, Nat.mul_add]
        omega
      · rw [hsize c hcp]
        exact hh.loose c hc d hd hcd
    · show h.size bp ≤ update h.size p _ p
      rw [hself]
      exact Nat.le_add_left ..
    · exact hsize a fun he => hh.free p hh.mem (he ▸ ha.1)
  · rw [joinLower, if_neg hm]
    have hins := hh.ring.insert hh.mem hh.lt hh.place
    refine ⟨⟨insert bp F, p, ⟨⟨mem_insert_of_mem hh.base, hh.base_size, ?_, ?_, ?_, hh.given,
      hh.top, ?_⟩, hins.congr fun c _ => ?_, p, mem_insert_of_mem hh.mem, rfl⟩,
      mem_insert_of_mem hh.mem, rfl, .inr ?_⟩, fun _ _ => rfl⟩
    · refine hh.tiles.congr (fun c => ⟨?_, ?_⟩) fun _ _ => rfl
      · rintro (⟨hcF, hcb⟩ | ⟨hch, -⟩)
        · rcases mem_insert.mp hcF with rfl | hcF
          · exact .inr hh.held_bp
          · exact .inl ⟨hcF, hcb⟩
        · exact .inr hch
      · rintro (⟨hcF, hcb⟩ | hch)
        · exact .inl ⟨mem_insert_of_mem hcF, hcb⟩
        · by_cases hcb : c = bp
          · exact .inl ⟨hcb ▸ mem_insert_self .., by have := header_pos; omega⟩
          · exact .inr ⟨hch, hcb⟩
    · rintro c (⟨hcF, hcb⟩ | ⟨hch, -⟩)
      · rcases mem_insert.mp hcF with rfl | hcF
        · exact hbb
        · exact hh.above c (.inl ⟨hcF, hcb⟩)
      · exact hh.above c (.inr hch)
    · rintro c hcF ⟨hch, hcb⟩
      exact hh.free c ((mem_insert.mp hcF).resolve_left hcb) hch
    · intro c hc d hd hcd
      show c + HEADER * h.size c < d
      rcases mem_insert.mp hc with rfl | hcF
      · have hdF := (mem_insert.mp hd).resolve_left (by omega)
        exact hh.gap d hdF hcd
      · rcases mem_insert.mp hd with rfl | hdF
        · -- the blocks below are apart from `p`, and `p` does not reach up to `bp`
          rcases Nat.lt_or_eq_of_le ((hh.place c hcF).resolve_right (Nat.not_lt.mpr hcd.le))
            with hlt | rfl
          · exact (hh.loose c hcF p hh.mem hlt).trans hh.lt
          · by_cases hcb : c = L.base
            · rw [hcb, hh.base_size] at hm ⊢
              omega
            · have := hh.tiles.apart c d (.inl ⟨hcF, hcb⟩) (.inr hh.held_bp) hcd
              omega
        · exact hh.loose c hcF d hdF hcd
    · show update h.ptr p bp c = _
      by_cases hcp : c = p
      · rw [hcp, update_self, update_self]
      · rw [update_of_ne hcp, update_of_ne hcp]
        by_cases hcb : c = bp
        · rw [hcb, update_self, update_self]
        · rw [update_of_ne hcb, update_of_ne hcp]
    · show h.size bp ≤ h.size (update h.ptr p bp p)
      rw [update_self]

/-- **`free`** of a held block ends, and leaves the heap in order. -/
theorem free_ends (hg : Good L F held h) (hb : held bp) :
    Ends (fun n => free n h (bp + HEADER)) (Freed L held bp h) := by
  obtain ⟨p, hp, hlt, hplace⟩ := hg.place hb
  obtain ⟨f, hf, hfreep⟩ := hg.freep
  obtain ⟨⟨F', hhalf⟩, hkept, hsize⟩ := joinUpper_half hg hb hp hlt hplace
  have hlow := joinLower_good hhalf
  obtain ⟨n, r, hr, rfl⟩ := findPlace_ends hg.ring hp hlt hplace hf
  refine ⟨n, (joinLower (joinUpper h bp r) bp r).setFreep r, fun m hm => ?_, ?_, ?_⟩
  · have hfound : findPlace h bp m f = some r := hr m hm
    simp only [free, hfreep, Nat.add_sub_cancel, Option.bind_some, hfound, Option.map_some]
  · obtain ⟨F₁, p₁, hgood, hp₁, hfp, hfit⟩ := hlow.good
    exact ⟨F₁, p₁, hgood, hp₁, hfp, hfit.imp (hsize.trans ·) (hsize.trans ·)⟩
  · exact hkept.trans hlow.kept

/-! ## `malloc` -/

/-- The memory of a request becomes a held block `a`, which was none. -/
structure Taken (L : Image) (held : Nat → Prop) (nunits a : Nat) (h h' : Heap) : Prop where
  good : ∃ F, Good L F (fun c => held c ∨ c = a) h'
  new : ¬ held a
  size : h'.size a = nunits
  kept : Kept held h h'

section

variable (hg : Good L F held h)
include hg

theorem take_whole (hprev : prevp ∈ F) (hnext : h.ptr prevp = p) (hpb : p ≠ L.base) :
    Taken L held (h.size p) p h ((h.setPtr prevp (h.ptr p)).setFreep prevp) := by
  have hp : p ∈ F := hnext ▸ hg.ring.mem hprev
  have hne : prevp ≠ p := by
    rintro rfl
    obtain ⟨-, ⟨h₁, -⟩ | h₁⟩ := hg.ring prevp hprev
    · omega
    · have := h₁ _ hg.base
      omega
  have hring := hg.ring.erase hprev (by rw [hnext]; exact hne.symm)
  rw [hnext] at hring
  have hprev' : prevp ∈ F.erase p := mem_erase.mpr ⟨hne, hprev⟩
  refine ⟨⟨F.erase p, ⟨⟨mem_erase.mpr ⟨hpb.symm, hg.base⟩, hg.base_size, ?_, ?_, ?_, hg.given,
    hg.top, ?_⟩, hring, prevp, hprev', rfl⟩⟩, hg.free p hp, rfl, fun _ _ => rfl⟩
  · refine hg.tiles.congr (fun c => ⟨?_, ?_⟩) fun _ _ => rfl
    · rintro (⟨hcF, hcb⟩ | hch | rfl)
      · exact .inl ⟨mem_of_mem_erase hcF, hcb⟩
      · exact .inr hch
      · exact .inl ⟨hp, hpb⟩
    · rintro (⟨hcF, hcb⟩ | hch)
      · by_cases hcp : c = p
        · exact .inr (.inr hcp)
        · exact .inl ⟨mem_erase.mpr ⟨hcp, hcF⟩, hcb⟩
      · exact .inr (.inl hch)
  · rintro c (⟨hcF, hcb⟩ | hch | rfl)
    · exact hg.above c (.inl ⟨mem_of_mem_erase hcF, hcb⟩)
    · exact hg.above c (.inr hch)
    · exact hg.above c (.inl ⟨hp, hpb⟩)
  · rintro c hcF (hch | rfl)
    · exact hg.free c (mem_of_mem_erase hcF) hch
    · exact ne_of_mem_erase hcF rfl
  · exact fun c hc d hd => hg.loose c (mem_of_mem_erase hc) d (mem_of_mem_erase hd)

theorem take_end {rest nunits : Nat} (hprev : prevp ∈ F) (hp : p ∈ F)
    (hpb : p ≠ L.base) (hsize : h.size p = rest + nunits) (hrest : 0 < rest) (hn : 0 < nunits) :
    Taken L held nunits (p + HEADER * rest) h
      (((h.setSize p rest).setSize (p + HEADER * rest) nunits).setFreep prevp) := by
  have hHr : 0 < HEADER * rest := Nat.mul_pos header_pos hrest
  have hHn : 0 < HEADER * nunits := Nat.mul_pos header_pos hn
  have hlen : HEADER * h.size p = HEADER * rest + HEADER * nunits := by rw [hsize, Nat.mul_add]
  have hblock : Block L F held p := .inl ⟨hp, hpb⟩
  -- the new header lies inside the block, so it is no header yet
  have hq : ∀ c, Block L F held c → c ≠ p + HEADER * rest := by
    rintro c hc rfl
    have := hg.tiles.apart p _ hblock hc (by omega)
    omega
  have hqb : p + HEADER * rest ≠ L.base := by
    have := hg.base_le hp
    omega
  have hsq : update (update h.size p rest) (p + HEADER * rest) nunits
      (p + HEADER * rest) = nunits := update_self ..
  have hsp : update (update h.size p rest) (p + HEADER * rest) nunits p = rest := by
    rw [update_of_ne (by omega), update_self]
  have hso : ∀ c, c ≠ p → c ≠ p + HEADER * rest →
      update (update h.size p rest) (p + HEADER * rest) nunits c = h.size c := by
    intro c h₁ h₂
    rw [update_of_ne h₂, update_of_ne h₁]
  refine ⟨⟨F, ⟨⟨hg.base, ?_, ?_, ?_, ?_, hg.given, hg.top, ?_⟩, hg.ring, prevp, hprev, rfl⟩⟩,
    fun hheld => hq _ (.inr hheld) rfl, hsq, fun a ha => ?_⟩
  · exact (hso _ hpb.symm hqb.symm).trans hg.base_size
  · refine hg.tiles.split hblock hHr hHn hlen (fun c => ?_) (congrArg _ hsp) (congrArg _ hsq)
      fun c hc hcp => congrArg _ (hso c hcp (hq c hc))
    exact or_assoc.symm
  · rintro c (hc | hch | rfl)
    · exact hg.above c (.inl hc)
    · exact hg.above c (.inr hch)
    · have := hg.above p hblock
      omega
  · rintro c hcF (hch | rfl)
    · exact hg.free c hcF hch
    · exact hq _ (.inl ⟨hcF, hqb⟩) rfl
  · intro c hc d hd hcd
    show c + HEADER * update (update h.size p rest) _ nunits c < d
    have := hg.loose c hc d hd hcd
    by_cases hcp : c = p
    · subst hcp
      rw [hsp]
      omega
    · by_cases hcb : c = L.base
      · subst hcb
        rwa [hso _ hcp hqb.symm]
      · rwa [hso c hcp (hq c (.inl ⟨hc, hcb⟩))]
  · exact hso a (fun he => hg.free p hp (he ▸ ha)) (hq a (.inr ha))

/-- **A block that is large enough serves the request.** -/
theorem take_good {nunits : Nat} (hprev : prevp ∈ F)
    (hnext : h.ptr prevp = p) (hfit : nunits ≤ h.size p) (hn : 0 < nunits) :
    ∃ a, (take h prevp p nunits).1 = a + HEADER ∧
      Taken L held nunits a h (take h prevp p nunits).2 := by
  have hp : p ∈ F := hnext ▸ hg.ring.mem hprev
  have hpb : p ≠ L.base := by
    rintro rfl
    rw [hg.base_size] at hfit
    omega
  rw [take]
  by_cases hs : h.size p = nunits
  · rw [if_pos hs]
    subst hs
    exact ⟨p, rfl, take_whole hg hprev hnext hpb⟩
  · rw [if_neg hs]
    exact ⟨p + HEADER * (h.size p - nunits), rfl, take_end hg hprev hp hpb (by omega) (by omega) hn⟩

/-- Fresh memory comes in as a held block. -/
theorem Good.grow {a k nu : Nat} (ha : h.top L ≤ a) (hnu : 0 < nu)
    (hk : k = HEADER * nu) (h' : Heap) (hptr : h'.ptr = h.ptr) (hfreep : h'.freep = h.freep)
    (hchunks : h'.chunks = (a, k) :: h.chunks) (hsize : h'.size = update h.size a nu) :
    Good L F (fun c => held c ∨ c = a) h' ∧ ¬ held a ∧ Kept held h h' := by
  have hpos : 0 < HEADER * nu := Nat.mul_pos header_pos hnu
  -- a block ends below the top
  have hbelow : ∀ c, Block L F held c → c ≠ a := by
    rintro c hc rfl
    have := hg.given c ((hg.tiles.cover c).mpr ⟨c, hc, Nat.le_refl c, by
      have := hg.tiles.pos c hc
      omega⟩)
    omega
  have hab : L.base ≠ a := by
    have := hg.top
    have := header_pos
    omega
  have haF : ∀ c ∈ F, c ≠ a := by
    intro c hc
    by_cases hcb : c = L.base
    · rw [hcb]
      exact hab
    · exact hbelow c (.inl ⟨hc, hcb⟩)
  have hso : ∀ c, c ≠ a → h'.size c = h.size c := by
    intro c hc
    rw [hsize, update_of_ne hc]
  have hsa : h'.size a = nu := by rw [hsize, update_self]
  have htop : h'.top L = a + k := by rw [Heap.top, hchunks]
  refine ⟨⟨⟨hg.base, (hso _ hab).trans hg.base_size, ?_, ?_, ?_, ?_, ?_, ?_⟩, ?_, ?_⟩,
    fun hh => hbelow a (.inr hh) rfl, fun c hc => hso c (hbelow c (.inr hc))⟩
  · have hadd : Tiles (Block L F fun c => held c ∨ c = a) (fun c => HEADER * h'.size c)
        (fun x => Given h.chunks x ∨ a ≤ x ∧ x < a + k) :=
      hg.tiles.add (fun x hx => Nat.lt_of_lt_of_le (hg.given x hx) ha) (by omega)
        (fun c => or_assoc.symm) (by rw [hsa, hk]) fun c hc => congrArg _ (hso c (hbelow c hc))
    refine ⟨hadd.pos, hadd.apart, fun x => ?_⟩
    rw [← hadd.cover x, hchunks]
    simp only [Given, List.mem_cons, exists_eq_or_imp]
    exact or_comm
  · rintro c (hc | hch | rfl)
    · exact hg.above c (.inl hc)
    · exact hg.above c (.inr hch)
    · exact Nat.le_trans hg.top ha
  · rintro c hcF (hch | rfl)
    · exact hg.free c hcF hch
    · exact haF c hcF rfl
  · rintro x ⟨c, hc, h₁, h₂⟩
    rw [htop]
    rw [hchunks] at hc
    rcases List.mem_cons.mp hc with rfl | hc
    · exact h₂
    · have := hg.given x ⟨c, hc, h₁, h₂⟩
      omega
  · have := hg.top
    omega
  · intro c hc d hd hcd
    rw [hso c (haF c hc)]
    exact hg.loose c hc d hd hcd
  · rw [hptr]
    exact hg.ring
  · rw [hfreep]
    exact hg.freep

end

/-- What `morecore` leaves: nothing has changed, or there is a free block for the request at
`freep` or after it. -/
def Cored (L : Image) (held : Nat → Prop) (nunits : Nat) (h : Heap) (r : Option Nat × Heap) : Prop :=
  r = (none, h) ∨ ∃ F p, r.1 = some p ∧ Good L F held r.2 ∧ p ∈ F ∧ r.2.freep = some p ∧
    (nunits ≤ r.2.size p ∨ nunits ≤ r.2.size (r.2.ptr p)) ∧ Kept held h r.2

theorem morecore_ends (hg : Good L F held h) (sbrk : Sbrk) {nunits : Nat}
    (hsmall : nunits * HEADER < 2 ^ 32) :
    Ends (fun n => morecore L sbrk n h nunits) (Cored L held nunits h) := by
  have hle : nunits ≤ coreUnits nunits := by
    rw [coreUnits]
    split <;> omega
  have hnu : 0 < coreUnits nunits := by
    rw [coreUnits]
    split <;> omega
  have hk : coreUnits nunits * HEADER % 2 ^ 32 = HEADER * coreUnits nunits := by
    rw [Nat.mul_comm HEADER]
    refine Nat.mod_eq_of_lt ?_
    rw [coreUnits]
    split
    · decide
    · exact hsmall
  cases hs : sbrk.run (h.top L) (coreUnits nunits * HEADER % 2 ^ 32) with
  | none =>
    refine ⟨0, (none, h), fun n _ => ?_, .inl rfl⟩
    simp only [morecore, hs]
  | some a =>
    obtain ⟨hgrown, hnew, hkept⟩ := hg.grow (sbrk.fresh _ _ _ hs) hnu hk
      ⟨h.ptr, update h.size a (coreUnits nunits), h.freep,
        (a, coreUnits nunits * HEADER % 2 ^ 32) :: h.chunks⟩ rfl rfl rfl rfl
    obtain ⟨n, h₂, hh₂, ⟨F', p, hgood, hp, hfp, hfit⟩, hkept'⟩ := free_ends hgrown (.inr rfl)
    have hheld : (fun c => (held c ∨ c = a) ∧ c ≠ a) = held := by
      funext c
      refine propext ⟨fun ⟨hc, hne⟩ => hc.resolve_right hne, fun hc => ⟨.inl hc, ?_⟩⟩
      rintro rfl
      exact hnew hc
    rw [hheld] at hgood hkept'
    have hsize : update h.size a (coreUnits nunits) a = coreUnits nunits :=
      update_self ..
    dsimp only at hfit
    rw [hsize] at hfit
    refine ⟨n, (h₂.freep, h₂), fun m hm => ?_, .inr ⟨F', p, hfp, hgood, hp, hfp,
      hfit.imp (hle.trans ·) (hle.trans ·), hkept.trans hkept'⟩⟩
    simp only [morecore, hs]
    rw [show free m _ (a + HEADER) = some h₂ from hh₂ m hm]
    rfl

/-- How `malloc` ends: without memory, or with a new block. -/
def Served (L : Image) (held : Nat → Prop) (nunits : Nat) (h : Heap) (r : Option Nat × Heap) : Prop :=
  (r.1 = none ∧ (∃ F, Good L F held r.2) ∧ Kept held h r.2) ∨
    ∃ a, r.1 = some (a + HEADER) ∧ Taken L held nunits a h r.2

theorem Served.of_kept {nunits : Nat} {h₁ : Heap} {r : Option Nat × Heap} (hk : Kept held h h₁)
    (hr : Served L held nunits h₁ r) : Served L held nunits h r := by
  rcases hr with ⟨hnone, hgood, hk'⟩ | ⟨a, ha, htaken⟩
  · exact .inl ⟨hnone, hgood, hk.trans hk'⟩
  · exact .inr ⟨a, ha, htaken.good, htaken.new, htaken.size, hk.trans htaken.kept⟩

section

variable (sbrk : Sbrk) {nunits f : Nat}

/-- The loop ends at a block that is large enough. -/
theorem mallocLoop_fit (hg : Good L F held h) (hprev : prevp ∈ F) (hn : 0 < nunits)
    (hfit : nunits ≤ h.size (h.ptr prevp)) :
    Ends (fun n => mallocLoop L sbrk nunits n prevp (h.ptr prevp) h) (Served L held nunits h) := by
  obtain ⟨a, ha, htaken⟩ := take_good hg hprev rfl hfit hn
  refine .now (r := (some (take h prevp (h.ptr prevp) nunits).1, (take h prevp (h.ptr prevp) nunits).2))
    (fun n => ?_) (.inr ⟨a, congrArg some ha, htaken⟩)
  rw [mallocLoop, if_pos hfit]

/-- **The loop of `malloc` comes around**: it ends if it ends at `freep`. -/
theorem mallocLoop_walk (hg : Good L F held h) (hf : f ∈ F) (hfreep : h.freep = some f)
    (hn : 0 < nunits) (hend : ∀ prevp ∈ F, h.ptr prevp = f →
      Ends (fun n => mallocLoop L sbrk nunits n prevp f h) (Served L held nunits h))
    (hprev : prevp ∈ F) :
    Ends (fun n => mallocLoop L sbrk nunits n prevp (h.ptr prevp) h) (Served L held nunits h) := by
  refine hg.ring.reach (P := fun a => ∀ prevp ∈ F, h.ptr prevp = a →
    Ends (fun n => mallocLoop L sbrk nunits n prevp a h) (Served L held nunits h)) hf hend ?_
    (hg.ring.mem hprev) prevp hprev rfl
  rintro a ha hne hnext prevp hprev rfl
  by_cases hfit : nunits ≤ h.size (h.ptr prevp)
  · exact mallocLoop_fit sbrk hg hprev hn hfit
  · refine .later (fun n => ?_) (hnext _ ha rfl)
    rw [mallocLoop, if_neg hfit, if_neg fun he => hne (Option.some.inj (he.symm.trans hfreep))]

/-- **The loop of `malloc` ends**, after at most one call of `morecore`. -/
theorem mallocLoop_ends (hg : Good L F held h) (hf : f ∈ F) (hfreep : h.freep = some f)
    (hn : 0 < nunits) (hsmall : nunits * HEADER < 2 ^ 32) :
    Ends (fun n => mallocLoop L sbrk nunits n f (h.ptr f) h) (Served L held nunits h) := by
  refine mallocLoop_walk sbrk hg hf hfreep hn ?_ hf
  rintro prevp hprev rfl
  by_cases hfit : nunits ≤ h.size (h.ptr prevp)
  · exact mallocLoop_fit sbrk hg hprev hn hfit
  have hturn : ∀ n, mallocLoop L sbrk nunits (n + 1) prevp (h.ptr prevp) h =
      (morecore L sbrk n h nunits).bind fun r =>
        r.1.elim (some (none, r.2)) fun p => mallocLoop L sbrk nunits n p (r.2.ptr p) r.2 := by
    intro n
    rw [mallocLoop, if_neg hfit, if_pos hfreep]
  refine .later hturn (.bind ?_)
  refine (morecore_ends hg sbrk hsmall).mono ?_
  rintro ⟨r, h₁⟩ (hr | ⟨F', p, hr, hg', hp, hfp, hfit', hkept⟩)
  · cases hr
    exact .pure (.inl ⟨rfl, ⟨F, hg⟩, fun _ _ => rfl⟩)
  · obtain rfl : r = some p := hr
    -- the new memory is at `freep` or right after it, so the second round finds a block
    have hround : Ends (fun n => mallocLoop L sbrk nunits n p (h₁.ptr p) h₁)
        (Served L held nunits h₁) := by
      rcases hfit' with hfit' | hfit'
      · refine mallocLoop_walk sbrk hg' hp hfp hn (fun prevp hprev he => ?_) hp
        have hends := mallocLoop_fit sbrk hg' hprev hn (by rw [he]; exact hfit')
        rwa [he] at hends
      · exact mallocLoop_fit sbrk hg' hp hn hfit'
    exact hround.mono fun r hr => hr.of_kept hkept

end

end Xv6.Malloc
