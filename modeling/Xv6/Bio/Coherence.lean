/-
# `Xv6.Bio.Coherence` — every bread returns the bytes last left in the block

`Coherent lat s` says that the cache and the disk together hold the contents
`lat`: a valid buffer has the bytes of its block, and the disk has them too
unless a buffer is dirty or its holder is in the middle of a change.  Evicting a
buffer is then harmless, since a buffer without references and without `B_DIRTY`
agrees with the disk.

The one place where bytes are written that no process has just produced is
`install_trans`: it copies a log block over a home block.  That this changes
nothing needs the discipline of `Polite`, and is the invariant `Logged.copied`.
-/
import Xv6.Bio.Script

namespace Xv6.Bio

open Function (update update_apply update_eq_self update_of_ne update_self)

variable {P : Type}

/-- The cache and the disk hold the contents `lat`. -/
structure Coherent (lat : Key → Block) (s : Sys P) : Prop where
  data : ∀ i, (s.cache.buf i).valid = true → (s.cache.buf i).data = lat (s.cache.buf i).key
  disk : ∀ k, s.disk k = lat k ∨ ∃ i, (s.cache.buf i).key = k ∧ (s.cache.buf i).valid = true ∧
    ((s.cache.buf i).dirty = true ∨ s.unsaved i = true)
  unsaved : ∀ i, s.unsaved i = true → ∃ p, i ∈ s.held p

namespace Coherent

variable [Fintype P] {lat : Key → Block} {s s' : Sys P} {g : Geom} {i : BufId} {p : P} {k : Key}

/-- The disk has the bytes of a block, or its buffer has. -/
theorem there (h : Coherent lat s) (hl : Locks s.cache s.held s.call)
    (hi : ¬ (s.cache.buf i).Dead) : s.disk (s.cache.buf i).key = lat (s.cache.buf i).key ∨
      (s.cache.buf i).valid = true ∧ ((s.cache.buf i).dirty = true ∨ s.unsaved i = true) := by
  refine (h.disk _).imp_right fun ⟨j, hk, hv, hd⟩ => ?_
  obtain rfl := hl.eq_of_key (Buf.live_of_valid hv) hi hk
  exact ⟨hv, hd⟩

/-- **One buffer changes**, and perhaps its block. -/
theorem change (h : Coherent lat s) (hl : Locks s.cache s.held s.call) {f : Buf P → Buf P}
    {lat' : Key → Block} (hi : ¬ (s.cache.buf i).Dead) (hcache : s'.cache = s.cache.modify i f)
    (hkey : (f (s.cache.buf i)).key = (s.cache.buf i).key)
    (hother : ∀ k, k ≠ (s.cache.buf i).key → lat' k = lat k ∧ s'.disk k = s.disk k)
    (hdata : (f (s.cache.buf i)).valid = true →
      (f (s.cache.buf i)).data = lat' (s.cache.buf i).key)
    (hthere : s'.disk (s.cache.buf i).key = lat' (s.cache.buf i).key ∨
      (f (s.cache.buf i)).valid = true ∧ ((f (s.cache.buf i)).dirty = true ∨ s'.unsaved i = true))
    (hunsaved : ∀ j, j ≠ i → s'.unsaved j = s.unsaved j)
    (hheld : ∀ j, s'.unsaved j = true → ∃ p, j ∈ s'.held p) : Coherent lat' s' := by
  refine ⟨fun j hv => ?_, fun k => ?_, hheld⟩
  · rw [hcache] at hv ⊢
    rcases eq_or_ne j i with rfl | hj
    · rw [Bcache.modify_same] at hv ⊢
      rw [hkey]
      exact hdata hv
    · rw [Bcache.modify_other _ _ hj] at hv ⊢
      rw [(hother _ fun e => hj (hl.eq_of_key (Buf.live_of_valid hv) hi e)).1]
      exact h.data j hv
  · rw [hcache]
    rcases eq_or_ne k (s.cache.buf i).key with rfl | hk
    · refine hthere.imp_right fun hi => ⟨i, ?_⟩
      rw [Bcache.modify_same]
      exact ⟨hkey, hi⟩
    · rw [(hother k hk).1, (hother k hk).2]
      refine (h.disk k).imp_right fun ⟨j, hkj, hv, hd⟩ => ⟨j, ?_⟩
      have hj : j ≠ i := by rintro rfl; exact hk hkj.symm
      rw [Bcache.modify_other _ _ hj, hunsaved j hj]
      exact ⟨hkj, hv, hd⟩

theorem fill (h : Coherent lat s) (hl : Locks s.cache s.held s.call) (hi : s.Holds p k i)
    (data : Block) : Coherent (update lat k data) (s.fill i data) := by
  obtain ⟨hi, rfl⟩ := hi
  refine h.change hl (f := fun b => { b with data := data }) (hl.live_of_held hi) rfl rfl
    (fun k hk => ⟨update_of_ne hk .., rfl⟩)
    (fun _ => (update_self (s.cache.buf i).key data lat).symm)
    (.inr ⟨(hl.procs p).valid i (.inl hi), .inr (update_self ..)⟩)
    (fun j hj => update_of_ne hj ..) fun j hj => ?_
  rcases eq_or_ne j i with rfl | hne
  · exact ⟨p, hi⟩
  · exact h.unsaved j ((update_of_ne hne ..).symm.trans hj)

omit [Fintype P] in
/-- What a process outside a buffer call has left to do plays no part. -/
theorem pop [DecidableEq P] (h : Coherent lat s) (p : P) : Coherent lat (s.pop p) :=
  ⟨h.data, h.disk, h.unsaved⟩

omit [Fintype P] in
theorem held_of_update (h : Coherent lat s) {j : BufId} (hj : update s.unsaved i false j = true) :
    ∃ p, j ∈ s.held p := by
  rw [update_apply] at hj
  split at hj
  · cases hj
  · exact h.unsaved j hj

section

variable (h : Coherent lat s)
include h

omit [Fintype P] in
theorem congr {f : Buf P → Buf P} (hcache : s'.cache.buf = (s.cache.modify i f).buf)
    (hf : ∀ b, (f b).key = b.key ∧ (f b).valid = b.valid ∧ (f b).dirty = b.dirty ∧
      (f b).data = b.data) (hdisk : s'.disk = s.disk) (hunsaved : s'.unsaved = s.unsaved)
    (hheld : ∀ i, s.unsaved i = true → (∃ p, i ∈ s.held p) → ∃ p, i ∈ s'.held p) :
    Coherent lat s' := by
  have hbuf := fun j => Bcache.modify_contents s.cache i j hf
  rw [← hcache] at hbuf
  refine ⟨fun i => ?_, fun k => ?_, fun i hi => ?_⟩
  · obtain ⟨hk, hv, -, hd⟩ := hbuf i
    rw [hk, hv, hd]; exact h.data i
  · rw [hdisk, hunsaved]
    refine (h.disk k).imp_right fun ⟨i, hi⟩ => ⟨i, ?_⟩
    obtain ⟨hk, hv, hd, -⟩ := hbuf i
    rw [hk, hv, hd]; exact hi
  · rw [hunsaved] at hi; exact hheld i hi (h.unsaved i hi)

section

variable (hl : Locks s.cache s.held s.call)
include hl

/-- Evicting a buffer: it was clean and nobody's, so the disk has its bytes. -/
theorem bget {c : Bcache P}
    (hb : s.cache.bget k = some (i, c)) (call : P → Call) :
    Coherent lat { s with cache := c, call := call } := by
  obtain ⟨l, hs⟩ := hl.shape
  rcases hs.bget_cases hb with ⟨-, -, rfl⟩ | ⟨hmiss, hzero, hclean, rfl⟩
  · exact h.congr rfl (fun _ => ⟨rfl, rfl, rfl, rfl⟩) rfl rfl fun _ _ hp => hp
  · have hsaved : s.unsaved i = false := by
      by_contra hu
      obtain ⟨p, hp⟩ := h.unsaved i (by simpa using hu)
      exact (hl.refcnt_pos (refsOf_pos_of_mem hp)).ne' hzero
    refine ⟨fun j hv => ?_, fun k' => ?_, h.unsaved⟩
    · rcases eq_or_ne j i with rfl | hj
      · simp at hv
      · simp only [Bcache.modify_other _ _ hj] at hv ⊢; exact h.data j hv
    · refine (h.disk k').imp_right fun ⟨j, hk, hv, hd⟩ => ⟨j, ?_⟩
      have hj : j ≠ i := by rintro rfl; rw [hclean, hsaved] at hd; simp at hd
      simp only [Bcache.modify_other _ _ hj]
      exact ⟨hk, hv, hd⟩

theorem load (hp : s.call p = .loading k i)
    (held : P → List BufId) (call : P → Call) (script : P → List Act)
    (hheld : ∀ q, s.held q ⊆ held q) :
    Coherent lat { s with
      cache := s.cache.modify i (Buf.loaded s.disk), held := held, call := call, script := script } := by
  have hlive : ¬ (s.cache.buf i).Dead := hl.live (p := p) (refsOf_pos_of_call (by simp [hp, Call.refs]))
  have hthere := h.there hl hlive
  obtain ⟨hkey, -, -, hdirty, hvalid⟩ := Buf.loaded_fields s.disk (s.cache.buf i)
  refine h.change hl hlive rfl hkey (fun _ _ => ⟨rfl, rfl⟩) (fun _ => ?_) ?_ (fun _ _ => rfl)
    fun j hj => ?_
  · rw [Buf.loaded]
    cases hv : (s.cache.buf i).valid with
    | true => exact h.data i hv
    | false => exact hthere.resolve_right fun hd => Bool.false_ne_true (hv.symm.trans hd.1)
  · rw [hvalid, hdirty]
    exact hthere.imp_right fun hd => ⟨rfl, hd.2⟩
  · obtain ⟨q, hq⟩ := h.unsaved j hj
    exact ⟨q, hheld q hq⟩

theorem write (hi : i ∈ s.held p) :
    Coherent lat (s.write i) := by
  have hdata := h.data i ((hl.procs p).valid i (.inl hi))
  exact h.change hl (f := fun b => { b with dirty := false, valid := true }) (hl.live_of_held hi) rfl
    rfl (fun k hk => ⟨rfl, update_of_ne hk ..⟩) (fun _ => hdata)
    (.inl ((update_self ..).trans hdata)) (fun j hj => update_of_ne hj ..)
    fun _ => h.held_of_update

/-- `log_write`: the buffer becomes dirty instead of being written. -/
theorem record (hi : i ∈ s.held p)
    (log : Group.State P) (call : P → Call) :
    Coherent lat { s with
      log := log
      cache := s.cache.modify i (fun b => { b with dirty := true })
      unsaved := update s.unsaved i false
      call := call } := by
  have hv := (hl.procs p).valid i (.inl hi)
  exact h.change hl (f := fun b => { b with dirty := true }) (hl.live_of_held hi) rfl rfl
    (fun _ _ => ⟨rfl, rfl⟩) (h.data i) (.inr ⟨hv, .inl rfl⟩)
    (fun j hj => update_of_ne hj ..) fun _ => h.held_of_update

/-- **Every move keeps coherence**, if `install_trans` copies what is there already
and `commit` releases what it has saved. -/
theorem moves [DecidableEq P] {e : Event P} (hm : Moves g s e s')
    (hcopy : ∀ p dst src rest i, s.script p = .copyHome dst src :: rest → s.Holds p dst i →
      lat src = lat dst)
    (hsaved : ∀ p k rest i, s.script p = .brelse k :: rest → s.Holds p k i → s.unsaved i = false) :
    Coherent (leaves lat e) s' := by
  have held_data : ∀ {p : P} {k : Key} {i : BufId}, s.Holds p k i → (s.cache.buf i).data = lat k :=
    fun {p k i} hi => hi.2 ▸ h.data i ((hl.procs p).valid i (.inl hi.1))
  cases hm with
  | log | noBuffers | logWrite => exact ⟨h.data, h.disk, h.unsaved⟩
  | bget may bget => exact h.bget hl bget _
  | acquire => exact h.congr rfl (fun _ => ⟨rfl, rfl, rfl, rfl⟩) rfl rfl fun _ _ hp => hp
  | @load p k i call =>
    have := h.load hl call (update s.held p (i :: s.held p))
      (update s.call p .ready)
      (update s.script p (s.script p).tail) (fun q j hj => ?_)
    · obtain ⟨hdata, hdisk, hunsaved⟩ := this
      refine ⟨?_, ?_, ?_⟩ <;> simp only [Sys.goto, Sys.pop, Sys.load_cache, Sys.load_fields]
      · exact hdata
      · exact hdisk
      · exact hunsaved
    · rcases eq_or_ne q p with rfl | hq
      · rw [update_self]; exact List.mem_cons_of_mem _ hj
      · rwa [update_of_ne hq]
  | modify free holds => exact h.fill hl holds _
  | bwrite may holds => exact (h.write hl holds.1).pop _
  | record call key step => exact h.record hl ((hl.procs _).logging _ call) _ _
  | @release p k i may holds saved =>
    have hi : s.unsaved i = false := by
      rcases Scripts.script_of_may may with hs | ⟨rest, hs⟩
      · exact saved hs
      · exact hsaved p k rest i hs holds
    refine h.congr rfl (fun _ => ⟨rfl, rfl, rfl, rfl⟩) rfl rfl fun j hj hp => ?_
    obtain ⟨q, hq⟩ := hp
    have hji : j ≠ i := by rintro rfl; rw [hi] at hj; cases hj
    refine ⟨q, ?_⟩
    rcases eq_or_ne q p with rfl | hqp
    · simpa [Sys.goto] using (List.mem_erase_of_ne hji).mpr hq
    · simpa [Sys.goto, update_of_ne hqp] using hq
  | unref call =>
    exact h.congr (Bcache.unref_buf ..) (fun _ => ⟨rfl, rfl, rfl, rfl⟩) rfl rfl fun _ _ hp => hp
  | copyToLog call script holds | fillHead call script holds => exact (h.fill hl holds _).pop _
  | @copyHome p dst src rest i j call script holds holds' =>
    -- the bytes copied are those the block has, so nothing changes
    have := h.fill hl holds (s.cache.buf j).data
    rw [held_data holds', hcopy p dst src rest i script holds, update_eq_self] at this
    rw [held_data holds', hcopy p dst src rest i script holds]
    exact this.pop p

end

end

end Coherent

end Xv6.Bio
