/-
# `Xv6.Mmap.Place` — where `mmap` puts its regions

The placement of `mmap`, one request after the other: the address is computed
from `p->space`, a request that would run into the process is refused, and
`p->space` is set for the next one.  `p->space` is the distance from `KERNBASE`
down to the last address, plus the last *length*; the length of a request is
added after its address is chosen.  So a region has the room the request before
it has asked for, one page at the start, and it lies right as long as no
accepted request is longer than a page.
-/
import Xv6.Mmap.Table

namespace Xv6.Mmap

open List
open Vm (Word PGSIZE KERNBASE)

/-- An accepted request: `[addr, addr + length)`. -/
structure Region where
  addr : Word
  length : Word
  deriving DecidableEq

/-- The address is in the region. -/
def Region.Has (r : Region) (x : Nat) : Prop :=
  r.addr.toNat ≤ x ∧ x < r.addr.toNat + r.length.toNat

/-- No address is in both. -/
def Region.Apart (r r' : Region) : Prop := ∀ x, r.Has x → ¬ r'.Has x

/-- `p->space`, and the regions accepted so far, the last one first. -/
structure Layout where
  space : Word
  regions : List Region

/-- What `allocproc` leaves. -/
def Layout.start : Layout := ⟨1, []⟩

/-- One request. -/
def Layout.request (sz : Word) (t : Layout) (length : Word) : Layout :=
  if placeAddr t.space ≤ sz then t
  else ⟨placeSpace length t.space, ⟨placeAddr t.space, length⟩ :: t.regions⟩

def Layout.requests (sz : Word) (lengths : List Word) : Layout :=
  lengths.foldl (Layout.request sz) .start

/-- **The regions are where they should be**: on page boundaries, between the process and the
kernel, and no two of them overlap. -/
structure WellPlaced (sz : Word) (rs : List Region) : Prop where
  aligned : ∀ r ∈ rs, r.addr.toNat % 4096 = 0
  above : ∀ r ∈ rs, sz < r.addr
  below : ∀ r ∈ rs, r.addr.toNat + r.length.toNat ≤ KERNBASE.toNat
  apart : rs.Pairwise Region.Apart

theorem WellPlaced.tail {sz : Word} {r : Region} {rs : List Region} (h : WellPlaced sz (r :: rs)) :
    WellPlaced sz rs where
  aligned r' hr' := h.aligned r' (mem_cons_of_mem r hr')
  above r' hr' := h.above r' (mem_cons_of_mem r hr')
  below r' hr' := h.below r' (mem_cons_of_mem r hr')
  apart := (pairwise_cons.mp h.apart).2

/-! ## Short requests -/

theorem toNat_KERNBASE : KERNBASE.toNat = 2 ^ 31 := rfl

/-- The next address, while the space in use is at most the user half. -/
theorem toNat_placeAddr {space : Word} (h : space.toNat ≤ 2 ^ 31) :
    (placeAddr space).toNat = (2 ^ 31 - space.toNat) / 4096 * 4096 := by
  have hsub : (KERNBASE - space).toNat = 2 ^ 31 - space.toNat := by
    rw [BitVec.toNat_sub, toNat_KERNBASE]
    omega
  rw [placeAddr, Vm.toNat_PGROUNDDOWN, hsub]

/-- The new `p->space`, and the address the next request gets. -/
theorem toNat_space {a length : Word} (ha : a.toNat ≤ 2 ^ 31) (hlen : length.toNat ≤ a.toNat) :
    (KERNBASE - a + length).toNat = 2 ^ 31 - a.toNat + length.toNat := by
  rw [BitVec.toNat_add, BitVec.toNat_sub, toNat_KERNBASE]
  omega

/-- As long as requests are short: a page is free above the next address, and above that page is
the kernel or a region that is not empty. -/
structure Stacked (sz : Word) (t : Layout) : Prop where
  space : t.space.toNat ≤ 2 ^ 31
  page : (placeAddr t.space).toNat + 4096 ≤ 2 ^ 31
  short : ∀ r ∈ t.regions, r.length.toNat ≤ 4096
  placed : WellPlaced sz t.regions
  clear : ∀ r ∈ t.regions, r.length ≠ 0 → (placeAddr t.space).toNat + 4096 ≤ r.addr.toNat
  full : (placeAddr t.space).toNat + 4096 = 2 ^ 31 ∨
    ∃ r ∈ t.regions, r.length ≠ 0 ∧ r.addr.toNat = (placeAddr t.space).toNat + 4096

theorem toNat_placeAddr_one : (placeAddr 1).toNat = 2 ^ 31 - 4096 :=
  toNat_placeAddr (Nat.le_of_ble_eq_true rfl)

theorem stacked_start (sz : Word) : Stacked sz .start where
  space := Nat.le_of_ble_eq_true rfl
  page := Nat.le_of_eq (congrArg (· + 4096) toNat_placeAddr_one)
  short := nofun
  placed := ⟨nofun, nofun, nofun, .nil⟩
  clear := nofun
  full := .inl (congrArg (· + 4096) toNat_placeAddr_one)

theorem length_ne_zero {length : Word} : length ≠ 0 ↔ 0 < length.toNat := by
  rw [ne_eq, ← BitVec.toNat_inj]
  exact Nat.pos_iff_ne_zero.symm

variable {sz length : Word} {t : Layout}

/-- **A short request keeps the regions in order.** -/
theorem Stacked.accept (h : Stacked sz t) (habove : sz < placeAddr t.space)
    (hlen : length.toNat ≤ 4096) :
    Stacked sz ⟨placeSpace length t.space, ⟨placeAddr t.space, length⟩ :: t.regions⟩ := by
  unfold placeSpace
  obtain ⟨a, ha⟩ : ∃ a, placeAddr t.space = a := ⟨_, rfl⟩
  have hmod : a.toNat % 4096 = 0 := by
    rw [← ha, toNat_placeAddr h.space]
    omega
  have hpage : a.toNat + 4096 ≤ 2 ^ 31 := ha ▸ h.page
  rw [ha] at habove ⊢
  have hpos : 4096 ≤ a.toNat := by
    have : sz.toNat < a.toNat := habove
    omega
  have hspace := toNat_space (by omega) (Nat.le_trans hlen hpos)
  have hnext : (placeAddr (KERNBASE - a + length)).toNat =
      if length = 0 then a.toNat else a.toNat - 4096 := by
    rw [toNat_placeAddr (by omega), hspace]
    split
    · rename_i h₀
      rw [h₀, show (0 : Word).toNat = 0 from rfl]
      omega
    · rename_i h₀
      have := length_ne_zero.mp h₀
      omega
  have hclear : ∀ r ∈ t.regions, r.length ≠ 0 → a.toNat + 4096 ≤ r.addr.toNat := ha ▸ h.clear
  refine ⟨?_, ?_, ?_, ⟨?_, ?_, ?_, ?_⟩, ?_, ?_⟩
  · dsimp only
    omega
  · dsimp only
    rw [hnext]
    split <;> omega
  · rintro r (_ | ⟨_, hr⟩)
    · exact hlen
    · exact h.short r hr
  · rintro r (_ | ⟨_, hr⟩)
    · exact hmod
    · exact h.placed.aligned r hr
  · rintro r (_ | ⟨_, hr⟩)
    · exact habove
    · exact h.placed.above r hr
  · rintro r (_ | ⟨_, hr⟩)
    · dsimp only
      rw [toNat_KERNBASE]
      omega
    · exact h.placed.below r hr
  · refine pairwise_cons.mpr ⟨fun r hr x hx hx' => ?_, h.placed.apart⟩
    have hne : r.length ≠ 0 := length_ne_zero.mpr (by have := hx'.1; have := hx'.2; omega)
    have h₁ := hclear r hr hne
    have h₂ : x < a.toNat + length.toNat := hx.2
    have h₃ := hx'.1
    omega
  · dsimp only
    rw [hnext]
    rintro r (_ | ⟨_, hr⟩) hne
    · rw [if_neg hne]
      show a.toNat - 4096 + 4096 ≤ a.toNat
      omega
    · have := hclear r hr hne
      split <;> omega
  · dsimp only
    rw [hnext]
    split
    · -- an empty region: the next one gets the same address
      rcases ha ▸ h.full with hf | ⟨r, hr, hne, hf⟩
      · exact .inl hf
      · exact .inr ⟨r, mem_cons_of_mem _ hr, hne, hf⟩
    · rename_i hne
      exact .inr ⟨_, mem_cons_self, hne, by show a.toNat = a.toNat - 4096 + 4096; omega⟩

/-- **A longer request runs into the kernel or into another region.** -/
theorem Stacked.collide (h : Stacked sz t) (hlen : 4096 < length.toNat) :
    ¬ WellPlaced sz (⟨placeAddr t.space, length⟩ :: t.regions) := by
  intro hw
  rcases h.full with hf | ⟨r, hr, hne, hf⟩
  · have hbelow : (placeAddr t.space).toNat + length.toNat ≤ KERNBASE.toNat :=
      hw.below _ mem_cons_self
    rw [toNat_KERNBASE] at hbelow
    omega
  · have hapart := (pairwise_cons.mp hw.apart).1 r hr r.addr.toNat
    have hpos := length_ne_zero.mp hne
    exact hapart ⟨by show (placeAddr t.space).toNat ≤ _; omega,
      by show _ < (placeAddr t.space).toNat + length.toNat; omega⟩ ⟨by omega, by omega⟩

/-- All is well, or a long request has been accepted and some region is wrong. -/
def Judged (sz : Word) (t : Layout) : Prop :=
  Stacked sz t ∨ (∃ r ∈ t.regions, 4096 < r.length.toNat) ∧ ¬ WellPlaced sz t.regions

theorem Judged.request (h : Judged sz t) (length : Word) : Judged sz (t.request sz length) := by
  unfold Layout.request
  by_cases hrefused : placeAddr t.space ≤ sz
  · rw [if_pos hrefused]
    exact h
  rw [if_neg hrefused]
  rcases h with h | ⟨⟨r, hr, hlong⟩, hbad⟩
  · by_cases hlen : length.toNat ≤ 4096
    · exact .inl (h.accept (BitVec.not_le.mp hrefused) hlen)
    · exact .inr ⟨⟨_, mem_cons_self, Nat.lt_of_not_le hlen⟩, h.collide (Nat.lt_of_not_le hlen)⟩
  · exact .inr ⟨⟨r, mem_cons_of_mem _ hr, hlong⟩, fun hw => hbad hw.tail⟩

theorem judged (sz : Word) (lengths : List Word) : Judged sz (.requests sz lengths) := by
  have hrun : ∀ t, Judged sz t → Judged sz (lengths.foldl (Layout.request sz) t) := by
    induction lengths with
    | nil => exact fun _ h => h
    | cons length lengths ih => exact fun t h => ih _ (h.request length)
  exact hrun _ (.inl (stacked_start sz))

/-- **The regions are where they should be exactly if every accepted request is at most a page
long.** -/
theorem well_placed_iff (sz : Word) (lengths : List Word) :
    WellPlaced sz (Layout.requests sz lengths).regions ↔
      ∀ r ∈ (Layout.requests sz lengths).regions, r.length.toNat ≤ PGSIZE.toNat := by
  rcases judged sz lengths with h | ⟨⟨r, hr, hlong⟩, hbad⟩
  · exact ⟨fun _ => h.short, fun _ => h.placed⟩
  · refine ⟨fun hw => absurd hw hbad, fun hshort => ?_⟩
    have : r.length.toNat ≤ 4096 := hshort r hr
    omega

/-- One request of a page and a byte reaches into the kernel. -/
theorem long_region_reaches_kernel :
    (Layout.requests 4096 [4097]).regions = [⟨0x7FFFF000, 4097⟩] ∧
    ¬ WellPlaced 4096 (Layout.requests 4096 [4097]).regions := by
  have hr : (Layout.requests 4096 [4097]).regions = [⟨0x7FFFF000, 4097⟩] := by decide +kernel
  refine ⟨hr, fun h => ?_⟩
  rw [hr] at h
  exact absurd (h.below _ mem_cons_self) (by decide)

end Xv6.Mmap
