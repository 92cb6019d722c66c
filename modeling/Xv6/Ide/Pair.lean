/-
# `Xv6.Ide.Pair` — the right controller

With `HW4_ide2` both controllers share one queue.  `iderw` and `ideintr` start a
request through `idestart`, which looks at the device; `ideintr2` starts it through
`idestart2`, which does not.  As long as `ideintr2` finds a request for its own
controller next in the queue, or none, every request is started where it belongs.
-/
import Xv6.Ide.Memory
import Xv6.Ide.Queue

namespace Xv6.Ide

open Links List
open Function (update)

variable {P B : Type} {s s' : State P B} {l l' : List B} {p : P} {b : B} {c : Ctl}

/-- **The first request is on the controller of its device, and no other command is.** -/
structure Placed (s : State P B) (l : List B) : Prop where
  known : ∀ b ∈ l, (s.buf b).dev ≤ 3
  first : ∀ b ∈ l.head?, (s.buf b).blockno.toNat < FSSIZE ∧
    (s.ctl (owner (s.buf b).dev)).active = some (command (s.buf b))
  idle : ∀ c, (∀ b ∈ l.head?, c ≠ owner (s.buf b).dev) → (s.ctl c).active = none
  irq : ∀ c, (s.ctl c).irq = true → (s.ctl c).active ≠ none

/-- Requests are for the devices 0 to 3, and at an interrupt of the second controller the
request after the first one is for that controller. -/
def Proper (s : State P B) : Event P B → Prop
  | .iderw _ b => (s.buf b).dev ≤ 3
  | .ideintr2 => ∀ b ∈ s.queue.head, ∀ b' ∈ s.queue.next b, owner (s.buf b').dev = .secondary
  | _ => True

instance (s : State P B) : (e : Event P B) → Decidable (Proper s e)
  | .iderw _ b => inferInstanceAs (Decidable ((s.buf b).dev ≤ 3))
  | .ideintr2 => inferInstanceAs (Decidable
      (∀ b ∈ s.queue.head, ∀ b' ∈ s.queue.next b, owner (s.buf b').dev = .secondary))
  | .lock _ _ => .isTrue trivial
  | .unlock _ _ => .isTrue trivial
  | .store .. => .isTrue trivial
  | .resume _ => .isTrue trivial
  | .execute _ => .isTrue trivial
  | .ideintr => .isTrue trivial

namespace Placed

variable (h : Placed s l)

include h

theorem congr (hbuf : ∀ b ∈ l, s'.buf b = s.buf b) (hctl : s'.ctl = s.ctl) : Placed s' l := by
  have hhead : ∀ b ∈ l.head?, s'.buf b = s.buf b := fun b hb => hbuf b (mem_of_mem_head? hb)
  refine ⟨fun b hb => ?_, fun b hb => ?_, fun c hc => ?_, fun c hc => ?_⟩
  · rw [hbuf b hb]
    exact h.known b hb
  · rw [hhead b hb, hctl]
    exact h.first b hb
  · rw [hctl]
    refine h.idle c fun b hb => ?_
    rw [← hhead b hb]
    exact hc b hb
  · rw [hctl] at hc ⊢
    exact h.irq c hc

/-- An interrupt comes from the controller of the first request. -/
theorem owner_of_irq (hirq : (s.ctl c).irq = true) : ∃ b ∈ l.head?, c = owner (s.buf b).dev := by
  by_contra hne
  refine h.irq c hirq (h.idle c fun b hb hc => hne ⟨b, hb, hc⟩)

end Placed

/-- A command is started where it belongs, when no other is on. -/
theorem placed_start (l' : List B) (hknown : ∀ d ∈ b :: l', (s.buf d).dev ≤ 3)
    (hidle : ∀ c, (s.ctl c).active = none) (hirq : ∀ c, (s.ctl c).irq = false)
    (hs : s.startOn (owner (s.buf b).dev) b = some s') : Placed s' (b :: l') := by
  obtain ⟨hlt, rfl⟩ := startOn_eq hs
  refine ⟨hknown, ?_, fun c hc => ?_, fun c hc => ?_⟩
  · rintro _ ⟨⟩
    refine ⟨hlt, ?_⟩
    rw [show (s.setCtl _ _).buf b = s.buf b from rfl, State.setCtl_same]
    rfl
  · have hne : c ≠ owner (s.buf b).dev := hc b rfl
    rw [State.setCtl_other _ _ hne]
    exact hidle c
  · rcases eq_or_ne c (owner (s.buf b).dev) with rfl | hne
    · rw [State.setCtl_same] at hc
      cases hc
    · rw [State.setCtl_other _ _ hne, hirq] at hc
      cases hc

theorem idestart_known (hb : (s.buf b).dev ≤ 3) :
    s.idestart true b = s.startOn (owner (s.buf b).dev) b := by
  unfold State.idestart
  rw [if_neg fun hc => absurd hb (UInt32.not_le.mpr hc.2), if_pos rfl]

section

variable [DecidableEq P] [DecidableEq B] [Fintype B]

namespace Placed

variable (h : Placed s l)

include h

theorem iderw {havedisk1 : Bool} (hq : Queued s l) (hp : s.Holder p b) (hb : (s.buf b).dev ≤ 3)
    (hs : s.iderw true havedisk1 p b = some s') : Placed s' (l ++ [b]) := by
  have hq' := hq.iderw hp hs
  obtain ⟨-, q, t, hqa, ht, honly, rfl⟩ := iderw_cases hs
  have hqueue : (t.setPc p (.asleep b)).queue = q := honly.queue
  have hhead : q.head = (l ++ [b]).head? := hqueue ▸ hq'.holds.head
  unfold State.startFirst at ht
  rw [show (s.setQueue q).queue.head = q.head from rfl, hhead] at ht
  cases l with
  | nil =>
    rw [if_pos (show ([] ++ [b] : List B).head? = some b from rfl),
      idestart_known (show ((s.setQueue q).buf b).dev ≤ 3 from hb)] at ht
    have hidle : ∀ c, ((s.setQueue q).ctl c).active = none := fun c => h.idle c nofun
    refine (placed_start [] ?_ hidle (fun c => ?_) ht).congr (fun _ _ => rfl) rfl
    · intro d hd
      rw [mem_singleton.mp hd]
      exact hb
    · exact Bool.eq_false_iff.mpr fun hirq => h.irq c hirq (h.idle c nofun)
  | cons d l =>
    have hdb : d ≠ b := by
      rintro rfl
      exact (nodup_cons.mp hq'.nodup).1 (mem_append_right _ mem_cons_self)
    rw [if_neg (show (d :: l ++ [b]).head? ≠ some b from fun he => hdb (Option.some.inj he))] at ht
    cases ht
    refine ⟨fun e he => ?_, h.first, h.idle, h.irq⟩
    rcases mem_append.mp he with he | he
    · exact h.known e he
    · rw [mem_singleton.mp he]
      exact hb

omit [DecidableEq P] [Fintype B] in
theorem handler {start : State P B → B → Option (State P B)} (hq : Queued s l)
    (hirq : (s.ctl c).irq = true) (hs : s.handler c start = some s')
    (hstart : ∀ b b' l', l = b :: b' :: l' → start (s.complete c b) b' = some s' →
      (s.complete c b).startOn (owner ((s.complete c b).buf b').dev) b' = some s') :
    Placed s' l.tail := by
  obtain ⟨b, hb, rfl⟩ := h.owner_of_irq hirq
  -- after the first request no command is on
  have hother : ∀ {d}, d ≠ owner (s.buf b).dev → (s.ctl d).active = none := by
    intro d hd
    refine h.idle d fun e he => ?_
    cases hb.symm.trans he
    exact hd
  have hidle : ∀ d, ((s.complete (owner (s.buf b).dev) b).ctl d).active = none ∧
      ((s.complete (owner (s.buf b).dev) b).ctl d).irq = false := by
    intro d
    show (update s.ctl _ (s.ctl (owner (s.buf b).dev)).ack d).active = none ∧
      (update s.ctl _ (s.ctl (owner (s.buf b).dev)).ack d).irq = false
    rcases eq_or_ne d (owner (s.buf b).dev) with rfl | hd
    · rw [Function.update_self]
      exact ⟨rfl, rfl⟩
    · rw [Function.update_of_ne hd]
      exact ⟨hother hd, Bool.eq_false_iff.mpr fun hi => h.irq d hi (hother hd)⟩
  rcases handler_cases hs hq.holds with ⟨rfl, -⟩ | ⟨b₁, l', rfl, ⟨rfl, rfl⟩ | ⟨b', l'', rfl, hs⟩⟩
  · cases hb
  · cases hb
    exact ⟨nofun, nofun, fun d _ => (hidle d).1, fun d hd => by rw [(hidle d).2] at hd; cases hd⟩
  · cases hb
    refine placed_start _ (fun d hd => ?_) (fun d => (hidle d).1) (fun d => (hidle d).2)
      (hstart b b' l'' rfl hs)
    have hdb : d ≠ b := by
      rintro rfl
      exact (nodup_cons.mp hq.nodup).1 hd
    rw [State.complete_buf_other _ _ hdb]
    exact h.known d (mem_cons_of_mem _ hd)

omit [DecidableEq P] [DecidableEq B] [Fintype B] in
theorem execute {cmd : Command} (hact : (s.ctl c).active = some cmd) :
    Placed (s.setCtl c ((s.ctl c).execute cmd)) l := by
  have hsame : ∀ d, ((s.setCtl c ((s.ctl c).execute cmd)).ctl d).active = (s.ctl d).active := by
    intro d
    rcases eq_or_ne d c with rfl | hd
    · rw [State.setCtl_same, hact]
      unfold Controller.execute
      split <;> rfl
    · rw [State.setCtl_other _ _ hd]
  refine ⟨h.known, fun b hb => ?_, fun d hd => ?_, fun d hd => ?_⟩
  · rw [hsame]
    exact h.first b hb
  · rw [hsame]
    exact h.idle d hd
  · rw [hsame]
    rcases eq_or_ne d c with rfl | hdc
    · rw [hact]
      nofun
    · rw [State.setCtl_other _ _ hdc] at hd
      exact h.irq d hd

/-- **A step that is proper.** -/
theorem step {havedisk1 : Bool} {e : Event P B} (hq : Queued s l) (he : Proper s e)
    (hs : Ide.step true havedisk1 s e = some s') : Placed s' (after l e) := by
  -- stores to a buffer that is not in the queue
  have hset : ∀ {b x}, b ∉ l → Placed (s.setBuf b x) l := by
    intro b x hbl
    refine h.congr (fun d hd => State.setBuf_other _ _ ?_) rfl
    rintro rfl
    exact hbl hd
  cases e with
  | lock p b =>
    obtain ⟨⟨hp, hb⟩, hs⟩ := Option.ite_none_right_eq_some.mp hs
    cases hs
    exact hset (hq.not_mem fun r => (hq.free_of_unlocked hb r).1)
  | unlock | store =>
    obtain ⟨hp, hs⟩ := Option.ite_none_right_eq_some.mp hs
    cases hs
    exact hset (hq.not_mem fun r => (hq.free_of_holder hp r).1)
  | iderw p b =>
    obtain ⟨hp, hs⟩ := Option.ite_none_right_eq_some.mp hs
    exact h.iderw hq hp he hs
  | resume p =>
    obtain ⟨b, -, rfl⟩ := resume_cases hs
    exact h.congr (fun _ _ => rfl) rfl
  | execute c =>
    obtain ⟨cmd, hact, -, rfl⟩ := execute_cases hs
    exact h.execute hact
  | ideintr =>
    obtain ⟨hirq, hs⟩ := Option.ite_none_right_eq_some.mp hs
    refine h.handler hq hirq hs fun b b' l' hl hstart => ?_
    rw [idestart_known] at hstart
    · exact hstart
    · have hbb : b' ≠ b := by
        rintro rfl
        rw [hl] at hq
        exact (nodup_cons.mp hq.nodup).1 mem_cons_self
      rw [State.complete_buf_other _ _ hbb]
      exact h.known b' (hl ▸ mem_cons_of_mem _ mem_cons_self)
  | ideintr2 =>
    obtain ⟨⟨-, hirq⟩, hs⟩ := Option.ite_none_right_eq_some.mp hs
    refine h.handler hq hirq hs fun b b' l' hl hstart => ?_
    subst hl
    have hbb : b' ≠ b := by
      rintro rfl
      exact (nodup_cons.mp hq.nodup).1 mem_cons_self
    have hown := he b hq.holds.1 b' hq.holds.2.1
    rw [State.complete_buf_other _ _ hbb, hown]
    exact hstart

end Placed

/-- **Every request is started on the controller of its device**, in every run in which the
interrupts of the second controller find a request for it next in the queue: the first request
is on that controller with the right drive bit, no other command is on, and an interrupt, whose
handler takes the data from its own controller, comes from that controller. -/
theorem right_controller {havedisk1 : Bool} {buf : B → Buf P} {disk : Ctl → Bool → Disk}
    {es : List (Event P B)} (h : Runs true havedisk1 buf disk es s)
    (hes : ∀ pre e post t, es = pre ++ e :: post → Runs true havedisk1 buf disk pre t → Proper t e) :
    ∃ l, s.queue.Holds l ∧
      (∀ b ∈ l.head?, (s.ctl (owner (s.buf b).dev)).active = some (command (s.buf b)) ∧
        (command (s.buf b)).drive = driveOf (s.buf b).dev ∧
        ∀ c, c ≠ owner (s.buf b).dev → (s.ctl c).active = none) ∧
      ∀ c, (s.ctl c).irq = true → ∃ b ∈ l.head?, c = owner (s.buf b).dev := by
  have hI : ∃ l, Queued s l ∧ Placed s l := by
    refine h.guarded (I := fun s => ∃ l, Queued s l ∧ Placed s l) ?_ ?_ hes
    · exact ⟨[], queued_boot buf disk, nofun, nofun, fun _ _ => rfl, nofun⟩
    · rintro _ s e s' - ⟨l, hq, hp⟩ he hs
      exact ⟨_, hq.step hs, hp.step hq he hs⟩
  obtain ⟨l, hq, hp⟩ := hI
  refine ⟨l, hq.holds, fun b hb => ?_, fun c hc => hp.owner_of_irq hc⟩
  obtain ⟨hlt, hact⟩ := hp.first b hb
  refine ⟨hact, command_drive hlt, fun c hc => hp.idle c fun d hd => ?_⟩
  cases hb.symm.trans hd
  exact hc

end

/-- Two processes read block 3, of device `d` and then of device `e`. -/
def twoReads (d e : UInt32) : List (Event (Fin 2) (Fin 2)) :=
  [.lock 0 0, .store 0 0 false false d 3 Bytes.Buffer.zero, .lock 1 1,
    .store 1 1 false false e 3 Bytes.Buffer.zero, .iderw 0 0, .iderw 1 1]

theorem right_controller_same : ∃ s l,
    Runs true true blankBuf blankDisk (twoReads 2 3 ++ [.execute .secondary, .ideintr2]) s ∧
    s.queue.Holds l ∧ ∀ b ∈ l.head?, (s.ctl (owner (s.buf b).dev)).active = some (command (s.buf b)) := by
  obtain ⟨s, hrun⟩ : ∃ s, Runs true true blankBuf blankDisk
    (twoReads 2 3 ++ [.execute .secondary, .ideintr2]) s := Trace.exists_run (by decide)
  obtain ⟨l, hl, hfirst, -⟩ := right_controller hrun (Trace.guard_of_checks (by decide))
  exact ⟨s, l, hrun, hl, fun b hb => (hfirst b hb).1⟩

/-- **The wrong controller**: behind a request for device 2, one for device 1 is started on the
second controller. -/
theorem ideintr2_starts_wrong : ∃ s,
    Runs true true blankBuf blankDisk (twoReads 2 1 ++ [.execute .secondary, .ideintr2]) s ∧
    s.queue.head = some 1 ∧ (s.buf 1).dev = 1 ∧ owner (s.buf 1).dev = .primary ∧
    (s.ctl .primary).active.isSome = false ∧ (s.ctl .secondary).active.isSome = true :=
  Trace.exists_of_exec (by decide)

end Xv6.Ide
