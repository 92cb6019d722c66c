/-
# `Xv6.Lib.Tiling` — memory cut into blocks

A part `mem` of the addresses is cut into blocks: each address of it is in exactly one
block, which is given by its first address `a` and its length `len a`.  The moves are the
ones of an allocator: a block is cut in two, two blocks side by side become one, and a
block comes in above everything.
-/
import Mathlib.Data.Nat.Init

namespace Tiling

/-- The blocks lie apart and cover `mem`. -/
structure Tiles (blk : Nat → Prop) (len : Nat → Nat) (mem : Nat → Prop) : Prop where
  pos : ∀ a, blk a → 0 < len a
  apart : ∀ a c, blk a → blk c → a < c → a + len a ≤ c
  cover : ∀ x, mem x ↔ ∃ a, blk a ∧ a ≤ x ∧ x < a + len a

namespace Tiles

variable {blk blk' : Nat → Prop} {len len' : Nat → Nat} {mem : Nat → Prop} {a m k : Nat}

section

variable (h : Tiles blk len mem)
include h

theorem congr (hblk : ∀ c, blk' c ↔ blk c)
    (hlen : ∀ c, blk c → len' c = len c) : Tiles blk' len' mem where
  pos c hc := by
    rw [hblk] at hc
    rw [hlen c hc]
    exact h.pos c hc
  apart c d hc hd hcd := by
    rw [hblk] at hc hd
    rw [hlen c hc]
    exact h.apart c d hc hd hcd
  cover x := by
    rw [h.cover x]
    refine exists_congr fun c => ?_
    rw [hblk c]
    refine and_congr_right fun hc => ?_
    rw [hlen c hc]

/-- The block `a` is cut after `m` addresses. -/
theorem split (ha : blk a) (hm : 0 < m) (hk : 0 < k)
    (hlen : len a = m + k) (hblk : ∀ c, blk' c ↔ blk c ∨ c = a + m) (hla : len' a = m)
    (hlk : len' (a + m) = k) (hl : ∀ c, blk c → c ≠ a → len' c = len c) : Tiles blk' len' mem where
  pos c hc := by
    rcases (hblk c).mp hc with hc | rfl
    · by_cases hca : c = a
      · rw [hca, hla]
        exact hm
      · rw [hl c hc hca]
        exact h.pos c hc
    · rw [hlk]
      exact hk
  apart c d hc hd hcd := by
    rcases (hblk c).mp hc with hc | rfl
    · rcases (hblk d).mp hd with hd | rfl
      · by_cases hca : c = a
        · have := h.apart c d hc hd hcd
          rw [hca] at this ⊢
          omega
        · rw [hl c hc hca]
          exact h.apart c d hc hd hcd
      · by_cases hca : c = a
        · exact Nat.le_of_eq (by rw [hca, hla])
        · rw [hl c hc hca]
          rcases Nat.lt_or_gt_of_ne hca with hlt | hgt
          · have := h.apart c a hc ha hlt
            omega
          · have := h.apart a c ha hc hgt
            omega
    · rcases (hblk d).mp hd with hd | rfl
      · have := h.apart a d ha hd (by omega)
        omega
      · omega
  cover x := by
    rw [h.cover x]
    constructor
    · rintro ⟨c, hc, h₁, h₂⟩
      by_cases hca : c = a
      · subst hca
        by_cases hx : x < c + m
        · exact ⟨c, (hblk c).mpr (.inl hc), h₁, by rwa [hla]⟩
        · exact ⟨c + m, (hblk _).mpr (.inr rfl), by omega, by omega⟩
      · exact ⟨c, (hblk c).mpr (.inl hc), h₁, by rwa [hl c hc hca]⟩
    · rintro ⟨c, hc, h₁, h₂⟩
      rcases (hblk c).mp hc with hc | rfl
      · by_cases hca : c = a
        · subst hca
          exact ⟨c, hc, h₁, by omega⟩
        · exact ⟨c, hc, h₁, by rwa [hl c hc hca] at h₂⟩
      · exact ⟨a, ha, by omega, by omega⟩

/-- The block after `a` becomes part of it. -/
theorem merge (ha : blk a) (hb : blk (a + len a))
    (hblk : ∀ c, blk' c ↔ blk c ∧ c ≠ a + len a) (hla : len' a = len a + len (a + len a))
    (hl : ∀ c, blk' c → c ≠ a → len' c = len c) : Tiles blk' len' mem where
  pos c hc := by
    by_cases hca : c = a
    · have := h.pos a ha
      rw [hca, hla]
      omega
    · rw [hl c hc hca]
      exact h.pos c ((hblk c).mp hc).1
  apart c d hc hd hcd := by
    obtain ⟨hd', hdne⟩ := (hblk d).mp hd
    by_cases hca : c = a
    · subst hca
      have h₁ := h.apart c d ha hd' hcd
      have h₂ := h.apart (c + len c) d hb hd' (by omega)
      omega
    · rw [hl c hc hca]
      exact h.apart c d ((hblk c).mp hc).1 hd' hcd
  cover x := by
    have hpos := h.pos a ha
    have ha' : blk' a := (hblk a).mpr ⟨ha, by omega⟩
    rw [h.cover x]
    constructor
    · rintro ⟨c, hc, h₁, h₂⟩
      by_cases hca : c = a
      · subst hca
        exact ⟨c, ha', h₁, by omega⟩
      · by_cases hcb : c = a + len a
        · subst hcb
          exact ⟨a, ha', by omega, by omega⟩
        · have hc' := (hblk c).mpr ⟨hc, hcb⟩
          exact ⟨c, hc', h₁, by rwa [hl c hc' hca]⟩
    · rintro ⟨c, hc, h₁, h₂⟩
      by_cases hca : c = a
      · subst hca
        by_cases hx : x < c + len c
        · exact ⟨c, ha, h₁, hx⟩
        · exact ⟨c + len c, hb, by omega, by omega⟩
      · exact ⟨c, ((hblk c).mp hc).1, h₁, by rwa [hl c hc hca] at h₂⟩

/-- A block of `k` addresses comes in above everything. -/
theorem add (hnew : ∀ x, mem x → x < a) (hk : 0 < k)
    (hblk : ∀ c, blk' c ↔ blk c ∨ c = a) (hla : len' a = k)
    (hl : ∀ c, blk c → len' c = len c) :
    Tiles blk' len' (fun x => mem x ∨ a ≤ x ∧ x < a + k) := by
  -- the last address of a block is below the new one
  have hbelow : ∀ c, blk c → c + len c ≤ a := by
    intro c hc
    have hpos := h.pos c hc
    have := hnew (c + len c - 1) ((h.cover _).mpr ⟨c, hc, by omega, by omega⟩)
    omega
  refine ⟨fun c hc => ?_, fun c d hc hd hcd => ?_, fun x => ?_⟩
  · rcases (hblk c).mp hc with hc | rfl
    · rw [hl c hc]
      exact h.pos c hc
    · rwa [hla]
  · rcases (hblk c).mp hc with hc | rfl
    · rw [hl c hc]
      rcases (hblk d).mp hd with hd | rfl
      · exact h.apart c d hc hd hcd
      · exact hbelow c hc
    · rcases (hblk d).mp hd with hd | rfl
      · have := hbelow d hd
        omega
      · omega
  · constructor
    · rintro (hx | ⟨h₁, h₂⟩)
      · obtain ⟨c, hc, h₁, h₂⟩ := (h.cover x).mp hx
        exact ⟨c, (hblk c).mpr (.inl hc), h₁, by rwa [hl c hc]⟩
      · exact ⟨a, (hblk a).mpr (.inr rfl), h₁, by rwa [hla]⟩
    · rintro ⟨c, hc, h₁, h₂⟩
      rcases (hblk c).mp hc with hc | rfl
      · exact .inl ((h.cover x).mpr ⟨c, hc, h₁, by rwa [hl c hc] at h₂⟩)
      · exact .inr ⟨h₁, by rwa [hla] at h₂⟩

end

end Tiles

end Tiling
