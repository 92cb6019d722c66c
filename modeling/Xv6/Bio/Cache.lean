/-
# `Xv6.Bio.Cache` — the buffer cache: buffers, the recency ring, bget and brelse

`bio.c` keeps `NBUF` buffers on a circular list through `bcache.head`, the most
recently used first.  `bget` walks it forwards for a cached copy and backwards
for a buffer to recycle; `brelse` moves a buffer nobody references behind the
head.  Each of the two runs under `bcache.lock`, so each is one function here.

`binit` leaves every buffer with the identity (0, 0), no flag and no reference.
Such a buffer is *dead*: it caches nothing, yet `bget(0, 0)` may return it.  So
"one buffer per block" holds of the live buffers only, and that the dead ones do
no harm is a fact about the order of the ring: `Shape.order`.
-/
import Xv6.Disk
import Xv6.Lib.Ring
import Mathlib.Data.Fintype.Card

namespace Xv6.Bio

open List

/-- A block of a device: `(dev, blockno)`. -/
abbrev Key := Nat × Nat

/-- An index into `bcache.buf`. -/
abbrev BufId := Fin NBUF

/-- A pointer of the ring: a buffer, or `&bcache.head` (`none`). -/
abbrev Node := Option BufId

/-- `struct buf`.  `valid` and `dirty` are the bits of `flags`; `lock` is the
sleep-lock with its owner. -/
structure Buf (P : Type) where
  valid : Bool
  dirty : Bool
  key : Key
  lock : Option P
  refcnt : Nat
  data : Block

structure Bcache (P : Type) where
  buf : BufId → Buf P
  links : Ring.Links Node

variable {i : BufId}

namespace Bcache

variable {P : Type}

/-- `binit`. -/
def init (P : Type) : Bcache P where
  buf := fun _ => ⟨false, false, (0, 0), none, 0, Bytes.Buffer.zero⟩
  links := (List.finRange NBUF).foldl (fun L i => L.insert none (some i)) (.alone none)

def modify (c : Bcache P) (i : BufId) (f : Buf P → Buf P) : Bcache P :=
  { c with buf := Function.update c.buf i (f (c.buf i)) }

/-- The first loop of `bget`: is the block already cached? -/
def cached (c : Bcache P) (k : Key) : Option BufId :=
  (Ring.search c.links.next none (fun n => n.any (fun i => (c.buf i).key == k)) (NBUF + 1)
    (c.links.next none)).join

/-- The second loop: an unused buffer.  "Even if refcnt==0, B_DIRTY indicates a
buffer is in use because log.c has modified it but not yet committed it." -/
def unused (c : Bcache P) : Option BufId :=
  (Ring.search c.links.prev none
    (fun n => n.any (fun i => (c.buf i).refcnt == 0 && !(c.buf i).dirty)) (NBUF + 1)
    (c.links.prev none)).join

/-- The section of `bget` under `bcache.lock`.  `none` is the panic
"bget: no buffers". -/
def bget (c : Bcache P) (k : Key) : Option (BufId × Bcache P) :=
  match c.cached k with
  | some i => some (i, c.modify i (fun b => { b with refcnt := b.refcnt + 1 }))
  | none =>
    match c.unused with
    | some i => some (i, c.modify i (fun b =>
      { b with key := k, valid := false, dirty := false, refcnt := 1 }))
    | none => none

/-- The section of `brelse` under `bcache.lock`. -/
def unref (c : Bcache P) (i : BufId) : Bcache P :=
  let c := c.modify i (fun b => { b with refcnt := b.refcnt - 1 })
  if (c.buf i).refcnt = 0 then
    { c with links := (c.links.remove (some i)).insert none (some i) }
  else c

@[simp] theorem modify_same (c : Bcache P) (i : BufId) (f : Buf P → Buf P) :
    (c.modify i f).buf i = f (c.buf i) := Function.update_self ..

theorem modify_other (c : Bcache P) {j : BufId} (f : Buf P → Buf P) (h : j ≠ i) :
    (c.modify i f).buf j = c.buf j := Function.update_of_ne h ..

theorem modify_apply (c : Bcache P) (i j : BufId) (f : Buf P → Buf P) :
    (c.modify i f).buf j = if j = i then f (c.buf i) else c.buf j := Function.update_apply ..

/-- What holds of the buffer that changes, and of the others as they are, holds of all. -/
theorem forall_modify {c : Bcache P} {f : Buf P → Buf P} {p : BufId → Buf P → Prop}
    (hi : p i (f (c.buf i))) (h : ∀ j, j ≠ i → p j (c.buf j)) (j : BufId) :
    p j ((c.modify i f).buf j) :=
  (Function.forall_update_iff c.buf p).mpr ⟨hi, h⟩ j

theorem modify_field {β : Type} (v : Buf P → β) (c : Bcache P) (i j : BufId) {f : Buf P → Buf P}
    (hf : ∀ b, v (f b) = v b) : v ((c.modify i f).buf j) = v (c.buf j) := by
  rw [modify_apply]
  split
  · rename_i e; rw [e, hf]
  · rfl

theorem modify_contents (c : Bcache P) (i j : BufId) {f : Buf P → Buf P}
    (hf : ∀ b, (f b).key = b.key ∧ (f b).valid = b.valid ∧ (f b).dirty = b.dirty ∧
      (f b).data = b.data) :
    ((c.modify i f).buf j).key = (c.buf j).key ∧ ((c.modify i f).buf j).valid = (c.buf j).valid ∧
      ((c.modify i f).buf j).dirty = (c.buf j).dirty ∧
      ((c.modify i f).buf j).data = (c.buf j).data :=
  ⟨modify_field _ c i j fun b => (hf b).1, modify_field _ c i j fun b => (hf b).2.1,
    modify_field _ c i j fun b => (hf b).2.2.1, modify_field _ c i j fun b => (hf b).2.2.2⟩

@[simp] theorem unref_buf (c : Bcache P) (i : BufId) :
    (c.unref i).buf = (c.modify i (fun b => { b with refcnt := b.refcnt - 1 })).buf := by
  simp only [unref]; split <;> rfl

end Bcache

/-! ## The order of the ring -/

/-- The ring threads all buffers; the buffers in `T` have different identities, and
any other buffer of such an identity stands behind it. -/
structure Tagged {P : Type} (c : Bcache P) (l : List BufId) (T : BufId → Prop) : Prop where
  ring : Ring.IsRing c.links none (l.map some)
  all : ∀ i, i ∈ l
  uniq : ∀ i j, T i → T j → (c.buf i).key = (c.buf j).key → i = j
  order : l.Pairwise fun i j => ¬ T i → T j → (c.buf i).key ≠ (c.buf j).key

/-- A hit: the first buffer with identity `k` gains a reference. -/
def Hit {P : Type} (c : Bcache P) (l : List BufId) (k : Key) (i : BufId) (c' : Bcache P) : Prop :=
  (c.buf i).key = k ∧ (∃ l₁ l₂, l = l₁ ++ i :: l₂ ∧ ∀ j ∈ l₁, (c.buf j).key ≠ k) ∧
    c' = c.modify i (fun b => { b with refcnt := b.refcnt + 1 })

/-- A miss: a clean buffer without references is recycled. -/
def Miss {P : Type} (c : Bcache P) (k : Key) (i : BufId) (c' : Bcache P) : Prop :=
  (∀ j, (c.buf j).key ≠ k) ∧ (c.buf i).refcnt = 0 ∧ (c.buf i).dirty = false ∧
    c' = c.modify i (fun b => { b with key := k, valid := false, dirty := false, refcnt := 1 })

/-- `binit` links the buffers in one after the other. -/
theorem ring_insert (is : List BufId) (hnd : is.Nodup) :
    ∃ l, Ring.IsRing (is.foldl (fun L i => L.insert none (some i)) (.alone none))
        (none : Node) (l.map some) ∧ l = is.reverse := by
  induction is using List.reverseRecOn with
  | nil => exact ⟨[], .alone none, rfl⟩
  | append_singleton is i ih =>
    obtain ⟨his, -, hi⟩ := nodup_append.mp hnd
    obtain ⟨l, hl, rfl⟩ := ih his
    rw [foldl_append, reverse_append]
    refine ⟨i :: is.reverse, hl.insert ?_, rfl⟩
    simp only [mem_cons, reduceCtorEq, mem_map, mem_reverse, Option.some.injEq,
      exists_eq_right, false_or]
    exact fun hm => hi i hm i mem_cons_self rfl

theorem find_join (l : List BufId) (p : BufId → Bool) :
    ((l.map some).find? (fun n : Node => n.any p)).join = l.find? p := by
  have hany : (fun n : Node => n.any p) ∘ some = p := rfl
  rw [List.find?_map, hany]
  cases l.find? p with
  | none | some => rfl

variable {k : Key}

namespace Tagged

variable {P : Type} {c c' : Bcache P} {l : List BufId} {T T' : BufId → Prop}

/-- After `binit` nothing is tagged. -/
theorem init (P : Type) : ∃ l, Tagged (Bcache.init P) l fun _ => False := by
  obtain ⟨l, hl, rfl⟩ := ring_insert (List.finRange NBUF) (nodup_finRange NBUF)
  exact ⟨_, hl, fun i => by simp, fun _ _ hi => hi.elim,
    pairwise_of_forall fun _ _ _ hj => hj.elim⟩

section

variable (h : Tagged c l T)
include h

theorem nodup : l.Nodup :=
  (nodup_cons.mp h.ring.nodup).2.of_map some

theorem length_lt : (l.map some).length < NBUF + 1 := by
  have := h.nodup.length_le_card
  rw [length_map]
  exact Nat.lt_succ_of_le this

theorem congr (hlinks : c'.links = c.links)
    (hkey : ∀ i, (c'.buf i).key = (c.buf i).key) (hT : ∀ i, T' i ↔ T i) : Tagged c' l T' := by
  refine ⟨hlinks ▸ h.ring, h.all, ?_, ?_⟩
  · intro i j hi hj hk
    rw [hkey, hkey] at hk
    exact h.uniq i j ((hT i).mp hi) ((hT j).mp hj) hk
  · refine h.order.imp fun {i j} hij hi hj => ?_
    rw [hkey, hkey]
    exact hij (fun hd => hi ((hT i).mpr hd)) ((hT j).mp hj)

/-- A buffer that becomes the tagged buffer of identity `k`, when no other tagged
buffer has it, nor any buffer before it. -/
theorem tag {f : Buf P → Buf P} (huniq : ∀ j, j ≠ i → T j → (c.buf j).key ≠ (f (c.buf i)).key)
    (hbefore : ∃ l₁ l₂, l = l₁ ++ i :: l₂ ∧ ∀ j ∈ l₁, (c.buf j).key ≠ (f (c.buf i)).key) :
    Tagged (c.modify i f) l fun j => j = i ∨ T j := by
  refine ⟨h.ring, h.all, ?_, ?_⟩
  · intro j m hj hm hk
    rcases eq_or_ne j i with rfl | hji <;> rcases eq_or_ne m j with rfl | hmj
    · rfl
    · rw [Bcache.modify_other _ _ hmj] at hk
      rw [Bcache.modify_same] at hk
      exact absurd hk.symm (huniq m hmj (hm.resolve_left hmj))
    · rfl
    · rw [Bcache.modify_other _ _ hji] at hk
      have hTj := hj.resolve_left hji
      rcases eq_or_ne m i with rfl | hmi
      · rw [Bcache.modify_same] at hk
        exact absurd hk (huniq j hji hTj)
      · rw [Bcache.modify_other _ _ hmi] at hk
        exact h.uniq j m hTj (hm.resolve_left hmi) hk
  · obtain ⟨l₁, l₂, rfl, hbefore⟩ := hbefore
    obtain ⟨-, hnd₂, hdisj⟩ := nodup_append.mp h.nodup
    have hne₁ : ∀ j ∈ l₁, j ≠ i := fun j hj => hdisj j hj i mem_cons_self
    have hne₂ : ∀ j ∈ l₂, j ≠ i := fun j hj e =>
      (nodup_cons.mp hnd₂).1 (e ▸ hj)
    obtain ⟨ho₁, ho₂, ho⟩ := pairwise_append.mp h.order
    obtain ⟨-, ho₂⟩ := pairwise_cons.mp ho₂
    refine pairwise_append.mpr ⟨?_, pairwise_cons.mpr ⟨?_, ?_⟩, ?_⟩
    · refine ho₁.imp_of_mem fun {a b} ha hb hab => ?_
      rw [Bcache.modify_other _ _ (hne₁ a ha), Bcache.modify_other _ _ (hne₁ b hb)]
      exact fun hna hTb => hab (fun hT => hna (.inr hT)) (hTb.resolve_left (hne₁ b hb))
    · intro j _ hd
      exact absurd (.inl rfl) hd
    · refine ho₂.imp_of_mem fun {a b} ha hb hab => ?_
      rw [Bcache.modify_other _ _ (hne₂ a ha), Bcache.modify_other _ _ (hne₂ b hb)]
      exact fun hna hTb => hab (fun hT => hna (.inr hT)) (hTb.resolve_left (hne₂ b hb))
    · intro a ha b hb
      rw [Bcache.modify_other _ _ (hne₁ a ha)]
      rcases mem_cons.mp hb with rfl | hb'
      · rw [Bcache.modify_same]
        exact fun _ _ => hbefore a ha
      · rw [Bcache.modify_other _ _ (hne₂ b hb')]
        exact fun hna hTb => ho a ha b hb (fun hT => hna (.inr hT))
          (hTb.resolve_left (hne₂ b hb'))

/-! ### bget -/

/-- The first loop of `bget` stops at the first buffer with that identity. -/
theorem cached_eq (k : Key) : c.cached k = l.find? (fun i => (c.buf i).key == k) := by
  rw [Bcache.cached, h.ring.search_next _ h.length_lt, find_join]

theorem unused_eq :
    c.unused = l.reverse.find? (fun i => (c.buf i).refcnt == 0 && !(c.buf i).dirty) := by
  rw [Bcache.unused, h.ring.search_prev _ h.length_lt, ← map_reverse, find_join]

/-- **What `bget` can do.** -/
theorem bget_cases (hb : c.bget k = some (i, c')) : Hit c l k i c' ∨ Miss c k i c' := by
  rw [Bcache.bget, h.cached_eq, h.unused_eq] at hb
  cases hf : l.find? (fun i => (c.buf i).key == k) with
  | some j =>
    rw [hf] at hb
    obtain ⟨rfl, rfl⟩ := Prod.mk.inj (Option.some.inj hb)
    obtain ⟨hk, l₁, l₂, hl, hbefore⟩ := List.find?_eq_some_iff_append.mp hf
    refine .inl ⟨by simpa using hk, ⟨l₁, l₂, hl, fun m hm => ?_⟩, rfl⟩
    simpa using hbefore m hm
  | none =>
    rw [hf] at hb
    cases hu : l.reverse.find? (fun i => (c.buf i).refcnt == 0 && !(c.buf i).dirty) with
    | none => rw [hu] at hb; cases hb
    | some j =>
      rw [hu] at hb
      obtain ⟨rfl, rfl⟩ := Prod.mk.inj (Option.some.inj hb)
      have hj := List.find?_some hu
      simp only [Bool.and_eq_true, beq_iff_eq, Bool.not_eq_true'] at hj
      refine .inr ⟨fun m => ?_, hj.1, hj.2, rfl⟩
      simpa using List.find?_eq_none.mp hf m (h.all m)

/-- If a tagged buffer has identity `k`, a hit finds that one. -/
theorem eq_of_hit {j : BufId} (hit : Hit c l k i c') (hj : T j)
    (hk : (c.buf j).key = k) : i = j := by
  obtain ⟨hi, ⟨l₁, l₂, rfl, hbefore⟩, -⟩ := hit
  by_cases hTi : T i
  · exact h.uniq i j hTi hj (hi.trans hk.symm)
  · -- an untagged buffer found first would stand before the tagged one
    have hmem : j ∈ l₁ ++ i :: l₂ := h.all j
    rcases mem_append.mp hmem with hm | hm
    · exact absurd hk (hbefore j hm)
    · rcases mem_cons.mp hm with rfl | hm
      · rfl
      · have := (pairwise_cons.mp (pairwise_append.mp h.order).2.1).1 j hm hTi hj
        exact absurd (hi.trans hk.symm) this

theorem hit (hit : Hit c l k i c') : Tagged c' l fun j => j = i ∨ T j := by
  have heq : ∀ j, T j → (c.buf j).key = k → i = j := fun j hj hk => h.eq_of_hit hit hj hk
  obtain ⟨rfl, hbefore, rfl⟩ := hit
  exact h.tag (fun j hj hT hk => hj (heq j hT hk).symm) hbefore

theorem miss (miss : Miss c k i c') : Tagged c' l fun j => j = i ∨ T j := by
  obtain ⟨hk, -, -, rfl⟩ := miss
  obtain ⟨l₁, l₂, hl⟩ := append_of_mem (h.all i)
  exact h.tag (fun j _ _ => hk j) ⟨l₁, l₂, hl, fun j _ => hk j⟩

/-! ### brelse -/

theorem front (hi : T i) :
    ∃ l', Tagged { c with links := (c.links.remove (some i)).insert none (some i) } l' T := by
  obtain ⟨l₁, l₂, rfl⟩ := append_of_mem (h.all i)
  have hring := h.ring
  rw [map_append, map_cons] at hring
  refine ⟨i :: (l₁ ++ l₂), ?_, fun j => ?_, h.uniq, ?_⟩
  · rw [map_cons, map_append]
    exact hring.front
  · have := h.all j
    simp only [mem_append, mem_cons] at this ⊢
    tauto
  · refine pairwise_cons.mpr ⟨fun j _ hd => absurd hi hd, ?_⟩
    exact h.order.sublist (.append_left (sublist_cons_self i l₂) l₁)

theorem unref (hi : T i) : ∃ l', Tagged (c.unref i) l' T := by
  have hkey : ∀ j, ((c.modify i fun b => { b with refcnt := b.refcnt - 1 }).buf j).key =
      (c.buf j).key := fun j => Bcache.modify_field Buf.key c i j fun _ => rfl
  have hc : Tagged (c.modify i fun b => { b with refcnt := b.refcnt - 1 }) l T :=
    h.congr rfl hkey fun _ => Iff.rfl
  simp only [Bcache.unref]
  split
  · exact hc.front hi
  · exact ⟨l, hc⟩

end

end Tagged

/-! ## The shape of the cache -/

/-- A buffer that caches nothing and that nobody references. -/
def Buf.Dead {P : Type} (b : Buf P) : Prop := b.valid = false ∧ b.dirty = false ∧ b.refcnt = 0

theorem Buf.live_of_valid {P : Type} {b : Buf P} (h : b.valid = true) : ¬ b.Dead :=
  fun hd => Bool.false_ne_true (hd.1.symm.trans h)

/-- What `bget` and `brelse` rely on.  The ring threads all buffers; live buffers
have different identities; a dead buffer still has the identity `binit` gave it,
and stands behind the live buffer of that identity, if there is one. -/
structure Shape {P : Type} (c : Bcache P) (l : List BufId) : Prop where
  ring : Ring.IsRing c.links none (l.map some)
  all : ∀ i, i ∈ l
  dead : ∀ i, (c.buf i).Dead → (c.buf i).key = (0, 0)
  uniq : ∀ i j, ¬ (c.buf i).Dead → ¬ (c.buf j).Dead → (c.buf i).key = (c.buf j).key → i = j
  order : l.Pairwise fun i j => (c.buf i).Dead → ¬ (c.buf j).Dead →
    (c.buf i).key ≠ (c.buf j).key

namespace Shape

variable {P : Type} {c c' : Bcache P} {l : List BufId}

theorem tagged (h : Shape c l) : Tagged c l fun i => ¬ (c.buf i).Dead :=
  ⟨h.ring, h.all, h.uniq, h.order.imp fun hij hi hj => hij (not_not.mp hi) hj⟩

theorem of_tagged {T : BufId → Prop} (h : Tagged c l T) (hT : ∀ i, T i ↔ ¬ (c.buf i).Dead)
    (hdead : ∀ i, (c.buf i).Dead → (c.buf i).key = (0, 0)) : Shape c l where
  ring := h.ring
  all := h.all
  dead := hdead
  uniq i j hi hj := h.uniq i j ((hT i).mpr hi) ((hT j).mpr hj)
  order := h.order.imp fun {i j} hij hi hj => hij (fun h => (hT i).mp h hi) ((hT j).mpr hj)

theorem init : ∃ l, Shape (Bcache.init P) l := by
  obtain ⟨l, hl⟩ := Tagged.init P
  have hdead : ∀ i, ((Bcache.init P).buf i).Dead := fun _ => ⟨rfl, rfl, rfl⟩
  exact ⟨l, of_tagged hl (fun i => ⟨False.elim, fun h => h (hdead i)⟩) fun _ _ => rfl⟩

section

variable (h : Shape c l)
include h

theorem modify_live {f : Buf P → Buf P} (hkey : (f (c.buf i)).key = (c.buf i).key)
    (hi : ¬ (c.buf i).Dead) (hi' : ¬ (f (c.buf i)).Dead) : Shape (c.modify i f) l := by
  have hkeys : ∀ j, ((c.modify i f).buf j).key = (c.buf j).key :=
    Bcache.forall_modify (p := fun j b => b.key = (c.buf j).key) hkey fun _ _ => rfl
  have hdead : ∀ j, ((c.modify i f).buf j).Dead ↔ (c.buf j).Dead :=
    Bcache.forall_modify (p := fun j b => b.Dead ↔ (c.buf j).Dead) (iff_of_false hi' hi)
      fun _ _ => Iff.rfl
  have ht : Tagged (c.modify i f) l fun j => ¬ (c.buf j).Dead :=
    h.tagged.congr rfl hkeys fun _ => Iff.rfl
  refine of_tagged ht (fun j => not_congr (hdead j).symm) fun j hj => ?_
  rw [hkeys]
  exact h.dead j ((hdead j).mp hj)

theorem revive {f : Buf P → Buf P} (hlive : ¬ (f (c.buf i)).Dead)
    (ht : Tagged (c.modify i f) l fun j => j = i ∨ ¬ (c.buf j).Dead) : Shape (c.modify i f) l := by
  refine of_tagged ht ?_ ?_
  · exact Bcache.forall_modify (p := fun j b => j = i ∨ ¬ (c.buf j).Dead ↔ ¬ b.Dead)
      (iff_of_true (.inl rfl) hlive) fun j hne => or_iff_right hne
  · exact Bcache.forall_modify (p := fun _ b => b.Dead → b.key = (0, 0)) (absurd · hlive)
      fun j _ => h.dead j

theorem bget_cases (hb : c.bget k = some (i, c')) :
    Hit c l k i c' ∨ Miss c k i c' := h.tagged.bget_cases hb

theorem hit (hit : Hit c l k i c') : Shape c' l := by
  have ht := h.tagged.hit hit
  obtain ⟨-, -, rfl⟩ := hit
  exact h.revive (fun hd => Nat.succ_ne_zero _ hd.2.2) ht

theorem miss (miss : Miss c k i c') : Shape c' l := by
  have ht := h.tagged.miss miss
  obtain ⟨-, -, -, rfl⟩ := miss
  exact h.revive (fun hd => Nat.one_ne_zero hd.2.2) ht

/-- `brelse`, of a buffer that has been read. -/
theorem unref (hv : (c.buf i).valid = true) : ∃ l', Shape (c.unref i) l' := by
  have hlive := Buf.live_of_valid hv
  obtain ⟨l', ht⟩ := h.tagged.unref hlive
  have hdead : ∀ j, ((c.unref i).buf j).Dead ↔ (c.buf j).Dead := by
    rw [Bcache.unref_buf]
    exact Bcache.forall_modify (p := fun j b => b.Dead ↔ (c.buf j).Dead)
      (iff_of_false (Buf.live_of_valid hv) hlive) fun _ _ => Iff.rfl
  refine ⟨l', of_tagged ht (fun j => not_congr (hdead j).symm) fun j hj => ?_⟩
  rw [Bcache.unref_buf, Bcache.modify_field (f := fun b => { b with refcnt := b.refcnt - 1 }) Buf.key c
    i j fun _ => rfl]
  exact h.dead j ((hdead j).mp hj)

end

end Shape

end Xv6.Bio
