/-
# `Xv6.Ide.Queue` — requests and the processes that wait for them

In both builds the queue holds, without repetition, the buffers for which a
process sleeps in `iderw`: a request comes in at the end, and an interrupt takes
out the first one and wakes its process.  This says nothing of the controllers;
`Xv6.Ide.Memory` and `Xv6.Ide.Pair` do.
-/
import Xv6.Ide.Driver

namespace Xv6.Ide

open Links List Option
open Function (update_of_ne update_self)

variable {P B : Type} {s s' : State P B} {l : List B} {p : P} {b : B} {c : Ctl}

/-- The queue `l` after an event. -/
def after (l : List B) : Event P B → List B
  | .iderw _ b => l ++ [b]
  | .ideintr => l.tail
  | .ideintr2 => l.tail
  | _ => l

/-- **The requests in the queue and the processes in `iderw`.** -/
structure Queued (s : State P B) (l : List B) : Prop where
  holds : s.queue.Holds l
  nodup : l.Nodup
  sleeper : ∀ b ∈ l, ∃ p, s.pc p = .asleep b
  asleep : ∀ p b, s.pc p = .asleep b → b ∈ l
  locked : ∀ p b, s.pc p = .asleep b ∨ s.pc p = .awake b → (s.buf b).lock = some p
  undone : ∀ b ∈ l, (s.buf b).done = false
  woken : ∀ p b, s.pc p = .awake b → (s.buf b).done = true

theorem queued_boot (buf : B → Buf P) (disk : Ctl → Bool → Disk) : Queued (boot buf disk) [] where
  holds := rfl
  nodup := nodup_nil
  sleeper := nofun
  asleep := nofun
  locked := by
    rintro p b (h | h) <;> cases h
  undone := nofun
  woken := nofun

/-! ## What the steps are -/

theorem startOn_eq (h : s.startOn c b = some s') :
    (s.buf b).blockno.toNat < FSSIZE ∧ s' = s.setCtl c ((s.ctl c).start (command (s.buf b))) := by
  unfold State.startOn at h
  split_ifs at h with hlt
  exact ⟨Nat.lt_of_not_le hlt, (Option.some.inj h).symm⟩

/-- Only the controllers have changed. -/
structure OnlyCtl (s s' : State P B) : Prop where
  buf : s'.buf = s.buf
  queue : s'.queue = s.queue
  pc : s'.pc = s.pc

theorem startOn_only (h : s.startOn c b = some s') : OnlyCtl s s' := by
  obtain ⟨-, rfl⟩ := startOn_eq h
  exact ⟨rfl, rfl, rfl⟩

theorem idestart_only {ide2 : Bool} (h : s.idestart ide2 b = some s') : OnlyCtl s s' := by
  unfold State.idestart at h
  split_ifs at h
  · cases h
    exact ⟨rfl, rfl, rfl⟩
  · exact startOn_only h
  · exact startOn_only h

/-- What a handler does: nothing, or the first request is complete and the next one is
started. -/
theorem handler_cases [DecidableEq B] {start : State P B → B → Option (State P B)}
    (h : s.handler c start = some s') (hq : s.queue.Holds l) :
    l = [] ∧ s' = s.setCtl c (s.ctl c).ack ∨
    ∃ b l', l = b :: l' ∧ (l' = [] ∧ s' = s.complete c b ∨
      ∃ b' l'', l' = b' :: l'' ∧ start (s.complete c b) b' = some s') := by
  unfold State.handler at h
  rw [hq.head] at h
  cases l with
  | nil => exact .inl ⟨rfl, (Option.some.inj h).symm⟩
  | cons b l' =>
    refine .inr ⟨b, l', rfl, ?_⟩
    have hpop : (s.complete c b).queue.head = l'.head? := Queue.Holds.head hq.pop
    simp only [List.head?_cons] at h
    rw [hpop] at h
    cases l' with
    | nil => exact .inl ⟨rfl, (Option.some.inj h).symm⟩
    | cons b' l'' => exact .inr ⟨b', l'', rfl, h⟩

/-- What a call of `iderw` does: the request is the last one, and if it is the only one it is
started. -/
theorem iderw_cases [DecidableEq P] [DecidableEq B] [Fintype B] {ide2 havedisk1 : Bool}
    (h : s.iderw ide2 havedisk1 p b = some s') :
    (s.buf b).done = false ∧ ∃ q t, s.queue.append (Fintype.card B + 1) b = some q ∧
      (s.setQueue q).startFirst ide2 b = some t ∧ OnlyCtl (s.setQueue q) t ∧
      s' = t.setPc p (.asleep b) := by
  unfold State.iderw at h
  split_ifs at h with h₁ h₂ h₃
  obtain ⟨q, hq, h⟩ := bind_eq_some_iff.mp h
  obtain ⟨t, ht, rfl⟩ := map_eq_some_iff.mp h
  have honly : OnlyCtl (s.setQueue q) t := by
    unfold State.startFirst at ht
    split_ifs at ht
    · exact idestart_only ht
    · cases ht
      exact ⟨rfl, rfl, rfl⟩
  have hdone : ¬ (t.buf b).done = true := by
    rw [honly.buf]
    exact h₂
  refine ⟨Bool.eq_false_iff.mpr h₂, q, t, hq, ht, honly, ?_⟩
  rw [State.await, if_neg hdone]

section

variable [DecidableEq P] [DecidableEq B] [Fintype B] {ide2 havedisk1 : Bool}

theorem resume_cases (hs : Ide.step ide2 havedisk1 s (.resume p) = some s') :
    ∃ b, s.pc p = .awake b ∧ s' = s.await p b := by
  unfold Ide.step at hs
  cases hp : s.pc p with
  | awake b =>
    simp only [hp] at hs
    exact ⟨b, rfl, (Option.some.inj hs).symm⟩
  | out | asleep =>
    simp only [hp] at hs
    cases hs

theorem execute_cases (hs : Ide.step ide2 havedisk1 s (.execute c) = some s') :
    ∃ cmd, (s.ctl c).active = some cmd ∧ (s.ctl c).irq = false ∧
      s' = s.setCtl c ((s.ctl c).execute cmd) := by
  unfold Ide.step at hs
  dsimp only at hs
  split at hs
  · rename_i cmd hact hirq
    exact ⟨cmd, hact, hirq, (Option.some.inj hs).symm⟩
  · cases hs

end

/-! ## The invariant -/

namespace Queued

variable (h : Queued s l)

include h

theorem free_of_holder (hp : s.Holder p b) (q : P) : s.pc q ≠ .asleep b ∧ s.pc q ≠ .awake b := by
  have hne : ∀ x, x = .asleep b ∨ x = .awake b → s.pc q ≠ x := by
    rintro x hx hq
    have hl := h.locked q b (by rw [hq]; exact hx)
    cases hp.2.symm.trans hl
    rw [hp.1] at hq
    rcases hx with rfl | rfl <;> cases hq
  exact ⟨hne _ (.inl rfl), hne _ (.inr rfl)⟩

theorem free_of_unlocked (hb : (s.buf b).lock = none) (q : P) :
    s.pc q ≠ .asleep b ∧ s.pc q ≠ .awake b := by
  refine ⟨fun hq => ?_, fun hq => ?_⟩
  · cases hb.symm.trans (h.locked q b (.inl hq))
  · cases hb.symm.trans (h.locked q b (.inr hq))

theorem not_mem (hb : ∀ q, s.pc q ≠ .asleep b) : b ∉ l := by
  intro hb'
  obtain ⟨q, hq⟩ := h.sleeper b hb'
  exact hb q hq

theorem setBuf [DecidableEq B] (hb : ∀ q, s.pc q ≠ .asleep b ∧ s.pc q ≠ .awake b) (x : Buf P) :
    Queued (s.setBuf b x) l := by
  have hbl : b ∉ l := h.not_mem fun q => (hb q).1
  have hkeep : ∀ {q c}, s.pc q = .asleep c ∨ s.pc q = .awake c → (s.setBuf b x).buf c = s.buf c := by
    intro q c hq
    refine update_of_ne ?_ ..
    rintro rfl
    exact hq.elim (hb q).1 (hb q).2
  refine ⟨h.holds, h.nodup, h.sleeper, h.asleep, fun q c hq => ?_, fun c hc => ?_, fun q c hq => ?_⟩
  · rw [hkeep hq]
    exact h.locked q c hq
  · rw [show (s.setBuf b x).buf c = s.buf c from
      update_of_ne (fun he : c = b => hbl (he ▸ hc)) ..]
    exact h.undone c hc
  · rw [hkeep (.inr hq)]
    exact h.woken q c hq

theorem onlyCtl (hs : OnlyCtl s s') : Queued s' l := by
  obtain ⟨hbuf, hqueue, hpc⟩ := hs
  refine ⟨?_, h.nodup, ?_, ?_, ?_, ?_, ?_⟩
  · rw [hqueue]
    exact h.holds
  · rw [hpc]
    exact h.sleeper
  · rw [hpc]
    exact h.asleep
  · rw [hpc, hbuf]
    exact h.locked
  · rw [hbuf]
    exact h.undone
  · rw [hpc, hbuf]
    exact h.woken

theorem iderw [DecidableEq P] [DecidableEq B] [Fintype B] {ide2 havedisk1 : Bool}
    (hp : s.Holder p b) (hs : s.iderw ide2 havedisk1 p b = some s') : Queued s' (l ++ [b]) := by
  obtain ⟨hdone, q, t, hq, -, honly, rfl⟩ := iderw_cases hs
  have hfree := h.free_of_holder hp
  have hbl : b ∉ l := h.not_mem fun r => (hfree r).1
  obtain ⟨q', hq', hholds⟩ := h.holds.append h.nodup hbl
    (Nat.lt_succ_of_le h.nodup.length_le_card)
  cases hq.symm.trans hq'
  have hpc : ∀ r, r ≠ p → (t.setPc p (.asleep b)).pc r = s.pc r := by
    intro r hr
    rw [show (t.setPc p (.asleep b)).pc r = t.pc r from update_of_ne hr .., honly.pc]
    rfl
  have hself : (t.setPc p (.asleep b)).pc p = .asleep b := update_self ..
  have hbuf : (t.setPc p (.asleep b)).buf = s.buf := honly.buf
  have hqueue : (t.setPc p (.asleep b)).queue = q := honly.queue
  refine ⟨hqueue ▸ hholds, ?_, fun c hc => ?_, fun r c hr => ?_, fun r c hr => ?_, fun c hc => ?_,
    fun r c hr => ?_⟩
  · exact nodup_append.mpr ⟨h.nodup, nodup_singleton b, fun c hc d hd he => by
      rw [mem_singleton.mp hd] at he
      exact hbl (he ▸ hc)⟩
  · rcases mem_append.mp hc with hc | hc
    · obtain ⟨r, hr⟩ := h.sleeper c hc
      have hrp : r ≠ p := by
        rintro rfl
        rw [hp.1] at hr
        cases hr
      exact ⟨r, (hpc r hrp).trans hr⟩
    · rw [mem_singleton.mp hc]
      exact ⟨p, hself⟩
  · rcases eq_or_ne r p with rfl | hrp
    · cases hself.symm.trans hr
      exact mem_append_right _ mem_cons_self
    · rw [hpc r hrp] at hr
      exact mem_append_left _ (h.asleep r c hr)
  · rw [hbuf]
    rcases eq_or_ne r p with rfl | hrp
    · rw [hself] at hr
      rcases hr with hr | hr
      · cases hr
        exact hp.2
      · cases hr
    · rw [hpc r hrp] at hr
      exact h.locked r c hr
  · rw [hbuf]
    rcases mem_append.mp hc with hc | hc
    · exact h.undone c hc
    · rw [mem_singleton.mp hc]
      exact hdone
  · rw [hbuf]
    rcases eq_or_ne r p with rfl | hrp
    · rw [hself] at hr
      cases hr
    · rw [hpc r hrp] at hr
      exact h.woken r c hr

theorem complete [DecidableEq B] {l' : List B} (hl : l = b :: l') : Queued (s.complete c b) l' := by
  subst hl
  obtain ⟨hb, hnd⟩ := nodup_cons.mp h.nodup
  have hpc : ∀ q, (s.complete c b).pc q = if s.pc q = .asleep b then .awake b else s.pc q :=
    fun _ => rfl
  have hbuf : ∀ d, d ≠ b → (s.complete c b).buf d = s.buf d := fun d hd =>
    State.complete_buf_other s c hd
  have hself : (s.complete c b).buf b = finish (s.ctl c) (s.buf b) := State.complete_buf_same s c b
  have hasleep : ∀ q d, (s.complete c b).pc q = .asleep d → d ≠ b ∧ s.pc q = .asleep d := by
    intro q d hq
    rw [hpc] at hq
    split_ifs at hq with hc
    refine ⟨?_, hq⟩
    rintro rfl
    exact hc hq
  have hawake : ∀ q d, (s.complete c b).pc q = .awake d →
      d = b ∧ s.pc q = .asleep b ∨ s.pc q = .awake d := by
    intro q d hq
    rw [hpc] at hq
    split_ifs at hq with hc
    · cases hq
      exact .inl ⟨rfl, hc⟩
    · exact .inr hq
  refine ⟨h.holds.pop, hnd, fun d hd => ?_, fun q d hq => ?_, fun q d hq => ?_, fun d hd => ?_,
    fun q d hq => ?_⟩
  · obtain ⟨q, hq⟩ := h.sleeper d (mem_cons_of_mem _ hd)
    refine ⟨q, ?_⟩
    rw [hpc, if_neg, hq]
    rw [hq]
    rintro ⟨⟩
    exact hb hd
  · obtain ⟨hne, hq⟩ := hasleep q d hq
    exact (mem_cons.mp (h.asleep q d hq)).resolve_left hne
  · have hlock : (s.buf d).lock = some q := by
      rcases hq with hq | hq
      · exact h.locked q d (.inl (hasleep q d hq).2)
      · rcases hawake q d hq with ⟨rfl, hq⟩ | hq
        · exact h.locked q d (.inl hq)
        · exact h.locked q d (.inr hq)
    rcases eq_or_ne d b with rfl | hd
    · rw [hself]
      exact hlock
    · rw [hbuf d hd]
      exact hlock
  · rw [hbuf d (fun he => hb (he ▸ hd))]
    exact h.undone d (mem_cons_of_mem _ hd)
  · rcases eq_or_ne d b with rfl | hd
    · rw [hself]
      rfl
    · rw [hbuf d hd]
      rcases hawake q d hq with ⟨rfl, -⟩ | hq
      · exact absurd rfl hd
      · exact h.woken q d hq

theorem handler [DecidableEq B] {start : State P B → B → Option (State P B)}
    (hstart : ∀ {t t' d}, start t d = some t' → OnlyCtl t t') (hs : s.handler c start = some s') :
    Queued s' l.tail := by
  rcases handler_cases hs h.holds with ⟨rfl, rfl⟩ | ⟨b, l', rfl, ⟨rfl, rfl⟩ | ⟨b', l'', rfl, hs⟩⟩
  · exact h.onlyCtl ⟨rfl, rfl, rfl⟩
  · exact h.complete rfl
  · exact (h.complete rfl).onlyCtl (hstart hs)

/-- A process that was woken finds its request done, and returns. -/
theorem resume [DecidableEq P] (hp : s.pc p = .awake b) :
    s.await p b = s.setPc p .out ∧ Queued (s.setPc p .out) l := by
  have hback : ∀ {q}, (s.setPc p .out).pc q ≠ .out → (s.setPc p .out).pc q = s.pc q := by
    intro q hq
    refine update_of_ne ?_ ..
    rintro rfl
    exact hq (update_self ..)
  refine ⟨by rw [State.await, if_pos (h.woken p b hp)], h.holds, h.nodup, fun c hc => ?_,
    fun q c hq => ?_, fun q c hq => ?_, h.undone, fun q c hq => ?_⟩
  · obtain ⟨q, hq⟩ := h.sleeper c hc
    have hqp : q ≠ p := by
      rintro rfl
      cases hp.symm.trans hq
    exact ⟨q, (update_of_ne hqp ..).trans hq⟩
  · exact h.asleep q c (hback (by rw [hq]; nofun) ▸ hq)
  · have hne : (s.setPc p .out).pc q ≠ .out := by
      rcases hq with hq | hq <;> rw [hq] <;> nofun
    rw [hback hne] at hq
    exact h.locked q c hq
  · exact h.woken q c (hback (by rw [hq]; nofun) ▸ hq)

theorem step [DecidableEq P] [DecidableEq B] [Fintype B] {ide2 havedisk1 : Bool} {e : Event P B}
    (hs : Ide.step ide2 havedisk1 s e = some s') : Queued s' (after l e) := by
  cases e with
  | lock p b =>
    obtain ⟨⟨-, hb⟩, hs⟩ := ite_none_right_eq_some.mp hs
    cases hs
    exact h.setBuf (h.free_of_unlocked hb) _
  | unlock | store =>
    obtain ⟨hp, hs⟩ := ite_none_right_eq_some.mp hs
    cases hs
    exact h.setBuf (h.free_of_holder hp) _
  | iderw p b =>
    obtain ⟨hp, hs⟩ := ite_none_right_eq_some.mp hs
    exact h.iderw hp hs
  | resume p =>
    obtain ⟨b, hp, rfl⟩ := resume_cases hs
    obtain ⟨heq, h'⟩ := h.resume hp
    rw [heq]
    exact h'
  | execute c =>
    obtain ⟨cmd, -, -, rfl⟩ := execute_cases hs
    exact h.onlyCtl ⟨rfl, rfl, rfl⟩
  | ideintr =>
    obtain ⟨-, hs⟩ := ite_none_right_eq_some.mp hs
    exact h.handler idestart_only hs
  | ideintr2 =>
    obtain ⟨-, hs⟩ := ite_none_right_eq_some.mp hs
    exact h.handler startOn_only hs

end Queued

end Xv6.Ide
