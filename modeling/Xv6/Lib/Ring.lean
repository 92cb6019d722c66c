/-
# `Xv6.Lib.Ring` — circular doubly linked lists

Nodes of an arbitrary type carry a `next` and a `prev` pointer.  `IsRing L h l`
says that the pointers thread the nodes of `l`, in this order, into a circle
through the header `h`.  The two edits a cache makes (unlink a node, link it in
behind the header) and the two traversals (along `next`, along `prev`) are
described by what they do to the list `l`.
-/
import Mathlib.Data.List.Chain
import Mathlib.Data.List.Nodup

namespace Ring

open List

variable {α : Type} [DecidableEq α] {a x h : α} {l : List α}

/-- The pointers of a family of nodes. -/
structure Links (α : Type) where
  next : α → α
  prev : α → α

/-- `a` and `b` are neighbours: each points at the other. -/
def Links.Joined (L : Links α) (a b : α) : Prop := L.next a = b ∧ L.prev b = a

/-- The nodes of `l` form a circle through the header `h`. -/
structure IsRing (L : Links α) (h : α) (l : List α) : Prop where
  nodup : (h :: l).Nodup
  chain : (h :: (l ++ [h])).IsChain L.Joined

/-- The header alone, pointing at itself both ways. -/
def Links.alone (h : α) : Links α := { next := fun _ => h, prev := fun _ => h }

/-- Make `a` and `b` neighbours. -/
def Links.join (L : Links α) (a b : α) : Links α :=
  { next := Function.update L.next a b, prev := Function.update L.prev b a }

/-- Unlink `x`: its neighbours point at each other. -/
def Links.remove (L : Links α) (x : α) : Links α := L.join (L.prev x) (L.next x)

/-- Link `x` in between the header `h` and the first node. -/
def Links.insert (L : Links α) (h x : α) : Links α := (L.join x (L.next h)).join h x

omit [DecidableEq α] in
theorem IsRing.alone (h : α) : IsRing (Links.alone h) h [] where
  nodup := by simp
  chain := .cons_cons ⟨rfl, rfl⟩ (.singleton h)

theorem Links.joined_join (L : Links α) (a b : α) : (L.join a b).Joined a b :=
  ⟨Function.update_self .., Function.update_self ..⟩

variable {L : Links α}

/-- Other neighbours stay neighbours. -/
theorem Links.Joined.join {c d : α} (h : L.Joined c d) {b : α} (ha : c ≠ a) (hb : d ≠ b) :
    (L.join a b).Joined c d :=
  ⟨(Function.update_of_ne ha ..).trans h.1, (Function.update_of_ne hb ..).trans h.2⟩

/-- A chain that starts no link at `a` and ends none at `b` survives `join a b`. -/
theorem chain_join {b : α} (hc : (x :: l).IsChain L.Joined) (ha : a ∉ (x :: l).dropLast)
    (hb : b ∉ l) : (x :: l).IsChain (L.join a b).Joined := by
  induction l generalizing x with
  | nil => exact .singleton x
  | cons y l ih =>
    rw [isChain_cons_cons] at hc ⊢
    rw [dropLast_cons_cons, mem_cons, not_or] at ha
    rw [mem_cons, not_or] at hb
    exact ⟨hc.1.join (Ne.symm ha.1) (Ne.symm hb.1), ih hc.2 ha.2 hb.2⟩

/-- **Linking a node in behind the header.** -/
theorem IsRing.insert (hr : IsRing L h l) (hx : x ∉ h :: l) : IsRing (L.insert h x) h (x :: l) := by
  have hxh : x ≠ h := fun e => hx (e ▸ mem_cons_self)
  have hxl : x ∉ l := fun hm => hx (mem_cons_of_mem _ hm)
  have hhl : h ∉ l := (nodup_cons.mp hr.nodup).1
  refine ⟨?_, ?_⟩
  · rw [nodup_cons, mem_cons, not_or, nodup_cons]
    exact ⟨⟨Ne.symm hxh, hhl⟩, hxl, (nodup_cons.mp hr.nodup).2⟩
  · obtain ⟨y, m, hym⟩ := exists_cons_of_ne_nil (append_ne_nil_of_right_ne_nil l
      (cons_ne_nil h []))
    have hchain := hr.chain
    have hnd : (y :: m).Nodup := by
      rw [← hym]
      exact (perm_append_singleton h l).nodup_iff.mpr hr.nodup
    have hxm : x ∉ y :: m := by
      rw [← hym, mem_append, mem_singleton]
      rintro (hm | rfl)
      · exact hxl hm
      · exact hxh rfl
    have hdrop : (y :: m).dropLast = l := by rw [← hym, dropLast_concat]
    rw [hym, isChain_cons_cons] at hchain
    rw [cons_append, hym]
    have hne : y ≠ x := fun e => hxm (e ▸ mem_cons_self)
    -- the old links from `y` on survive both joins: none starts at `x` or `h`, none ends at `y` or `x`
    have htail : (y :: m).IsChain (L.insert h x).Joined := by
      refine chain_join (chain_join hchain.2 ?_ ?_) ?_ ?_
      · rw [hdrop]; exact hxl
      · rw [hchain.1.1]; exact (nodup_cons.mp hnd).1
      · rw [hdrop]; exact hhl
      · exact fun hm => hxm (mem_cons_of_mem _ hm)
    refine .cons_cons (Links.joined_join _ h x) (.cons_cons ?_ htail)
    refine Links.Joined.join ?_ hxh hne
    have := L.joined_join x (L.next h)
    rwa [hchain.1.1] at this ⊢

/-- **Unlinking a node.** -/
theorem IsRing.remove {l₁ l₂ : List α} (hr : IsRing L h (l₁ ++ x :: l₂)) :
    IsRing (L.remove x) h (l₁ ++ l₂) := by
  have hnd : (h :: l₁ ++ l₂).Nodup :=
    hr.nodup.sublist (.cons_cons _ (.append_left (sublist_cons_self x l₂) l₁))
  obtain ⟨hnd₁, hnd₂, hdisj⟩ := nodup_append.mp hnd
  obtain ⟨hh₁, -⟩ := nodup_cons.mp hnd₁
  have hh₂ : h ∉ l₂ := fun hm => hdisj h mem_cons_self h hm rfl
  refine ⟨hnd, ?_⟩
  -- `a` and `b` are the neighbours of `x`
  obtain ⟨m, a, hma⟩ : ∃ m a, h :: l₁ = m ++ [a] :=
    ⟨(h :: l₁).dropLast, (h :: l₁).getLast (cons_ne_nil h l₁),
      (dropLast_append_getLast (cons_ne_nil h l₁)).symm⟩
  obtain ⟨b, n, hbn⟩ := exists_cons_of_ne_nil
    (append_ne_nil_of_right_ne_nil l₂ (cons_ne_nil h []))
  have ha : a ∈ h :: l₁ := by rw [hma]; exact mem_append_right m mem_cons_self
  have hb : b ∈ l₂ ++ [h] := by rw [hbn]; exact mem_cons_self
  have hold : h :: (l₁ ++ x :: l₂ ++ [h]) = m ++ a :: x :: b :: n := by
    rw [append_assoc, cons_append, hbn, ← cons_append, hma]; simp
  have hnew : h :: (l₁ ++ l₂ ++ [h]) = m ++ a :: b :: n := by
    rw [append_assoc, hbn, ← cons_append, hma]; simp
  have hchain := hr.chain
  rw [hold, isChain_append_cons_cons, isChain_cons_cons, ← hma] at hchain
  obtain ⟨hleft, hax, hxb, hright⟩ := hchain
  rw [hnew, isChain_append_cons_cons, ← hma, Links.remove, hax.2, hxb.1]
  refine ⟨chain_join hleft ?_ ?_, L.joined_join a b, chain_join hright ?_ ?_⟩
  · rw [hma, dropLast_concat]
    exact fun hm => (nodup_append.mp (hma ▸ hnd₁)).2.2 a hm a mem_cons_self rfl
  · intro hm
    rcases mem_append.mp hb with hb | hb
    · exact hdisj b (mem_cons_of_mem _ hm) b hb rfl
    · exact hh₁ (mem_singleton.mp hb ▸ hm)
  · rw [← hbn, dropLast_concat]
    exact fun hm => hdisj a ha a hm rfl
  · have : (b :: n).Nodup := by
      rw [← hbn]
      exact (perm_append_singleton h l₂).nodup_iff.mpr (nodup_cons.mpr ⟨hh₂, hnd₂⟩)
    exact (nodup_cons.mp this).1

theorem IsRing.front {l₁ l₂ : List α} (hr : IsRing L h (l₁ ++ x :: l₂)) :
    IsRing ((L.remove x).insert h x) h (x :: (l₁ ++ l₂)) := by
  refine hr.remove.insert fun hx => ?_
  obtain ⟨hh, hl⟩ := nodup_cons.mp hr.nodup
  rcases mem_cons.mp hx with rfl | hx
  · exact hh (mem_append_right _ mem_cons_self)
  · exact (nodup_cons.mp (nodup_middle.mp hl)).1 hx

/-! ## Traversals -/

/-- Follow `move` from `b` until the header `h` or a node that satisfies `p`:
`for(b = ..; b != h; b = move b) if(p b) return b;`. -/
def search (move : α → α) (h : α) (p : α → Bool) : Nat → α → Option α
  | 0, _ => none
  | fuel + 1, b => if b = h then none else if p b then some b else search move h p fuel (move b)

theorem search_eq_find (move : α → α) (h : α) (p : α → Bool) :
    ∀ (l : List α) (fuel : Nat) (a : α), h ∉ l → l.length < fuel →
      (a :: (l ++ [h])).IsChain (fun x y => move x = y) →
      search move h p fuel (move a) = l.find? p
  | [], fuel + 1, a, _, _, hc => by
    have ha : move a = h := (isChain_cons_cons.mp hc).1
    simp [search, ha]
  | b :: l, fuel + 1, a, hh, hfuel, hc => by
    obtain ⟨ha, hc⟩ := isChain_cons_cons.mp hc
    obtain ⟨hb, hl⟩ := not_or.mp (mem_cons.not.mp hh)
    rw [ha, search, if_neg (Ne.symm hb), List.find?_cons]
    cases hp : p b with
    | true => rfl
    | false => exact search_eq_find move h p l fuel b hl (Nat.lt_of_succ_lt_succ hfuel) hc

/-- Walking along `next` finds the first node of the list. -/
theorem IsRing.search_next (hr : IsRing L h l) (p : α → Bool) {fuel : Nat}
    (hfuel : l.length < fuel) : search L.next h p fuel (L.next h) = l.find? p :=
  search_eq_find L.next h p l fuel h (nodup_cons.mp hr.nodup).1 hfuel
    (hr.chain.imp fun _ _ hj => hj.1)

/-- Walking along `prev` finds the last one. -/
theorem IsRing.search_prev (hr : IsRing L h l) (p : α → Bool) {fuel : Nat}
    (hfuel : l.length < fuel) : search L.prev h p fuel (L.prev h) = l.reverse.find? p := by
  refine search_eq_find L.prev h p l.reverse fuel h ?_ (by rwa [length_reverse]) ?_
  · rw [mem_reverse]; exact (nodup_cons.mp hr.nodup).1
  · have hrev : h :: (l.reverse ++ [h]) = (h :: (l ++ [h])).reverse := by simp
    rw [hrev, isChain_reverse]
    exact hr.chain.imp fun _ _ hj => hj.2

omit [DecidableEq α] in
/-- In a chain every node but the last points on, and every node but the first is
pointed at. -/
theorem chain_joined (hc : (x :: l).IsChain L.Joined) :
    (∀ a ∈ (x :: l).dropLast, ∃ b ∈ l, L.Joined a b) ∧ ∀ b ∈ l, ∃ a, L.Joined a b := by
  induction l generalizing x with
  | nil => exact ⟨by simp, by simp⟩
  | cons y l ih =>
    obtain ⟨hxy, hc⟩ := isChain_cons_cons.mp hc
    obtain ⟨ihnext, ihprev⟩ := ih hc
    refine ⟨fun a ha => ?_, fun b hb => ?_⟩
    · rw [dropLast_cons_cons] at ha
      rcases mem_cons.mp ha with rfl | ha
      · exact ⟨y, mem_cons_self, hxy⟩
      · obtain ⟨b, hb, hj⟩ := ihnext a ha
        exact ⟨b, mem_cons_of_mem _ hb, hj⟩
    · rcases mem_cons.mp hb with rfl | hb
      · exact ⟨x, hxy⟩
      · exact ihprev b hb

omit [DecidableEq α] in
/-- Around the circle `next` and `prev` are inverse to each other. -/
theorem IsRing.inverse (hr : IsRing L h l) (ha : a ∈ h :: l) :
    L.prev (L.next a) = a ∧ L.next (L.prev a) = a := by
  obtain ⟨hnext, hprev⟩ := chain_joined hr.chain
  constructor
  · obtain ⟨b, -, hb, hb'⟩ := hnext a (by rwa [← cons_append, dropLast_concat])
    rw [hb, hb']
  · obtain ⟨b, hb, hb'⟩ := hprev a (by simpa [or_comm] using ha)
    rw [hb', hb]

end Ring
