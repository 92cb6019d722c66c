/-
# `Xv6.Ide.Refine` — the driver behaves like a disk in memory

The driver of the default build follows the machine of `Xv6.Ide.Memory`: a call is
served at the moment the controller carries out the command.  From then to the end
of the interrupt handler the buffer is behind; everything else agrees at every
step.
-/
import Xv6.Ide.Memory
import Xv6.Ide.Queue

namespace Xv6.Ide

open Links List Option
open Function (update update_of_ne update_self)

variable {P B : Type}

/-! ## The invariant of the controller -/

variable {s s' : State P B} {l : List B} {p : P} {b : B}

/-- **The command on the primary controller is the one of the first request**, and an
interrupt means that it has been carried out. -/
structure Driven (s : State P B) (l : List B) : Prop where
  active : (s.ctl .primary).active = l.head?.map fun b => command (s.buf b)
  inRange : ∀ b ∈ l.head?, (s.buf b).blockno.toNat < FSSIZE
  idle : (s.ctl .secondary).active = none
  result : (s.ctl .primary).irq = true → l ≠ [] ∧ (s.ctl .primary).err = false ∧
    ∀ b ∈ l.head?, (s.buf b).dirty = false → (s.ctl .primary).data =
      (s.ctl .primary).disk (driveOf (s.buf b).dev) (s.buf b).blockno.toNat

namespace Driven

variable (h : Driven s l)

include h

theorem congr (hbuf : ∀ b ∈ l.head?, s'.buf b = s.buf b) (hctl : s'.ctl = s.ctl) : Driven s' l := by
  have hmap : l.head?.map (fun b => command (s'.buf b)) = l.head?.map fun b => command (s.buf b) := by
    cases l with
    | nil => rfl
    | cons b l => exact congrArg (fun x => some (command x)) (hbuf b rfl)
  refine ⟨?_, fun b hb => ?_, ?_, fun hirq => ?_⟩
  · rw [hctl, hmap]
    exact h.active
  · rw [hbuf b hb]
    exact h.inRange b hb
  · rw [hctl]
    exact h.idle
  · rw [hctl] at hirq ⊢
    obtain ⟨hne, herr, hdata⟩ := h.result hirq
    refine ⟨hne, herr, fun b hb => ?_⟩
    rw [hbuf b hb]
    exact hdata b hb

/-- The command of the first request has been carried out. -/
theorem executed {cmd : Command} (hact : (s.ctl .primary).active = some cmd) :
    ∃ b l', l = b :: l' ∧ cmd = command (s.buf b) ∧
      Driven (s.setCtl .primary ((s.ctl .primary).execute cmd)) l := by
  have hact' := h.active
  rw [hact] at hact'
  cases l with
  | nil => cases hact'
  | cons b l' =>
    have hcmd : cmd = command (s.buf b) := Option.some.inj hact'
    have hlt := h.inRange b rfl
    refine ⟨b, l', rfl, hcmd, ?_⟩
    refine ⟨?_, h.inRange, ?_, fun _ => ?_⟩
    · rw [State.setCtl_same, hcmd]
      unfold Controller.execute
      split <;> rfl
    · rw [State.setCtl_other _ _ (show Ctl.secondary ≠ .primary by decide)]
      exact h.idle
    · rw [State.setCtl_same]
      refine ⟨nofun, ?_, ?_⟩
      · unfold Controller.execute
        split <;> rfl
      · rintro _ ⟨⟩ hd
        have hop : cmd.op = .read := by
          rw [hcmd]
          exact if_neg (Bool.not_eq_true _ ▸ hd)
        unfold Controller.execute
        rw [hop, hcmd]
        rw [command_drive hlt, command_sector hlt]
        rfl

end Driven

/-- A command is started on the primary controller. -/
theorem driven_start (l' : List B) (hidle : (s.ctl .secondary).active = none)
    (hs : s.startOn .primary b = some s') : Driven s' (b :: l') := by
  obtain ⟨hlt, rfl⟩ := startOn_eq hs
  refine ⟨?_, ?_, ?_, fun hirq => ?_⟩
  · rw [State.setCtl_same]
    rfl
  · rintro _ ⟨⟩
    exact hlt
  · rw [State.setCtl_other _ _ (show Ctl.secondary ≠ .primary by decide)]
    exact hidle
  · rw [State.setCtl_same] at hirq
    cases hirq

theorem idestart_default (s : State P B) (b : B) : s.idestart false b = s.startOn .primary b := by
  unfold State.idestart
  rw [if_neg nofun, if_neg nofun]

section

variable [DecidableEq P] [DecidableEq B] [Fintype B] {havedisk1 : Bool}

/-- A request when there are others is not started, and alone it is. -/
theorem Driven.iderw (h : Driven s l) (hq : Queued s l) (hp : s.Holder p b)
    (hs : s.iderw false havedisk1 p b = some s') :
    Driven s' (l ++ [b]) ∧ (s'.ctl .primary).irq = (s.ctl .primary).irq ∧
      (l ≠ [] → s'.ctl = s.ctl) ∧ (s'.ctl .primary).disk = (s.ctl .primary).disk := by
  have hq' := hq.iderw hp hs
  obtain ⟨-, q, t, hqa, ht, honly, rfl⟩ := iderw_cases hs
  have hqueue : (t.setPc p (.asleep b)).queue = q := honly.queue
  have hhead : q.head = (l ++ [b]).head? := hqueue ▸ hq'.holds.head
  unfold State.startFirst at ht
  rw [show (s.setQueue q).queue.head = q.head from rfl, hhead] at ht
  cases l with
  | nil =>
    rw [if_pos (show ([] ++ [b] : List B).head? = some b from rfl), idestart_default] at ht
    have hd := driven_start [] (show ((s.setQueue q).ctl .secondary).active = none from h.idle) ht
    obtain ⟨-, rfl⟩ := startOn_eq ht
    have hirq : (s.ctl .primary).irq = false :=
      Bool.eq_false_iff.mpr fun hirq => (h.result hirq).1 rfl
    exact ⟨hd.congr (fun _ _ => rfl) rfl, hirq.symm, fun hne => absurd rfl hne, rfl⟩
  | cons c l =>
    have hcb : c ≠ b := by
      rintro rfl
      exact (nodup_cons.mp hq'.nodup).1 (mem_append_right _ mem_cons_self)
    rw [if_neg (show (c :: l ++ [b]).head? ≠ some b from fun he => hcb (Option.some.inj he))] at ht
    cases ht
    refine ⟨⟨h.active, h.inRange, h.idle, fun hirq => ?_⟩, rfl, fun _ => rfl, rfl⟩
    exact ⟨nofun, (h.result hirq).2⟩

omit [DecidableEq P] [Fintype B] in
/-- The first request is complete, and the next one is started. -/
theorem Driven.ideintr (h : Driven s l) (hq : Queued s l) (hirq : (s.ctl .primary).irq = true)
    (hs : s.ideintr false = some s') : ∃ b l', l = b :: l' ∧ Driven s' l' ∧
      OnlyCtl (s.complete .primary b) s' ∧ (s'.ctl .primary).irq = false ∧
      (s'.ctl .primary).disk = (s.ctl .primary).disk := by
  have hidle : ∀ b, ((s.complete .primary b).ctl .secondary).active = none := fun _ => h.idle
  rcases handler_cases hs hq.holds with ⟨rfl, rfl⟩ | ⟨b, l', rfl, ⟨rfl, rfl⟩ | ⟨b', l'', rfl, hs⟩⟩
  · exact absurd rfl (h.result hirq).1
  · refine ⟨b, [], rfl, ⟨rfl, nofun, hidle b, nofun⟩, ⟨rfl, rfl, rfl⟩, rfl, rfl⟩
  · rw [idestart_default] at hs
    have hd := driven_start l'' (hidle b) hs
    obtain ⟨-, rfl⟩ := startOn_eq hs
    exact ⟨b, _, rfl, hd, ⟨rfl, rfl, rfl⟩, rfl, rfl⟩

/-! ## The simulation -/

/-- The command of the request `b` has been carried out, and its interrupt not handled yet. -/
def State.Ahead (s : State P B) (l : List B) (b : B) : Prop :=
  (s.ctl .primary).irq = true ∧ l.head? = some b

instance (s : State P B) (l : List B) (b : B) : Decidable (s.Ahead l b) :=
  inferInstanceAs (Decidable (_ ∧ _))

/-- A buffer as the machine on memory disks has it. -/
def State.shown (s : State P B) (l : List B) (b : B) : Buf P :=
  if s.Ahead l b then finish (s.ctl .primary) (s.buf b) else s.buf b

/-- Where a process is on that machine. -/
def State.place (s : State P B) (l : List B) (p : P) : MemPc B :=
  match s.pc p with
  | .out => .out
  | .asleep b => if s.Ahead l b then .served b else .called b
  | .awake b => .served b

/-- **The two machines agree.** -/
structure Mirrors (s : State P B) (l : List B) (t : MemState P B) : Prop where
  disk : t.disk = (s.ctl .primary).disk
  buf : t.buf = s.shown l
  pc : t.pc = s.place l
  calls : t.calls.map Prod.snd = if (s.ctl .primary).irq = true then l.tail else l
  waits : ∀ x ∈ t.calls, s.pc x.1 = .asleep x.2

variable {t : MemState P B}

omit [DecidableEq P] [Fintype B] in
theorem shown_of_not_mem (hb : b ∉ l) : s.shown l b = s.buf b :=
  if_neg fun h => hb (mem_of_mem_head? h.2)

namespace Mirrors

variable (h : Mirrors s l t)

include h

omit [DecidableEq P] [Fintype B] in
theorem pc_out (hp : s.pc p = .out) : t.pc p = .out := by
  rw [h.pc, State.place, hp]

omit [DecidableEq P] [Fintype B] in
theorem setBuf (hb : b ∉ l) (x : Buf P) : Mirrors (s.setBuf b x) l (t.setBuf b x) := by
  refine ⟨h.disk, ?_, h.pc, h.calls, h.waits⟩
  funext c
  show update t.buf b x c = _
  rcases eq_or_ne c b with rfl | hc
  · rw [shown_of_not_mem hb, update_self, State.setBuf_same]
  · rw [update_of_ne hc, h.buf]
    unfold State.shown
    rw [State.setBuf_other _ _ hc]
    rfl

theorem iderw (hd : Driven s l) (hq : Queued s l) (hp : s.Holder p b)
    (hs : s.iderw false havedisk1 p b = some s') :
    Mirrors s' (l ++ [b]) ⟨t.buf, t.disk, t.calls ++ [(p, b)], update t.pc p (.called b)⟩ := by
  obtain ⟨-, hirq, hctl, hdisk⟩ := hd.iderw hq hp hs
  obtain ⟨-, q, u, -, -, honly, rfl⟩ := iderw_cases hs
  have hbuf : (u.setPc p (.asleep b)).buf = s.buf := honly.buf
  have hpc : ∀ r, r ≠ p → (u.setPc p (.asleep b)).pc r = s.pc r := by
    intro r hr
    rw [State.setPc_other _ _ hr, honly.pc]
    rfl
  have hbl : b ∉ l := hq.not_mem fun r => (hq.free_of_holder hp r).1
  have hahead : ∀ c, (u.setPc p (.asleep b)).Ahead (l ++ [b]) c ↔ s.Ahead l c := by
    intro c
    unfold State.Ahead
    rw [hirq]
    refine and_congr_right fun hi => ?_
    have hne := (hd.result hi).1
    rw [List.head?_append_of_ne_nil _ hne]
  have hnot : ¬ s.Ahead l b := fun ha => hbl (mem_of_mem_head? ha.2)
  refine ⟨h.disk.trans hdisk.symm, ?_, ?_, ?_, fun x hx => ?_⟩
  · rw [h.buf]
    funext c
    unfold State.shown
    by_cases ha : s.Ahead l c
    · have hne := (hd.result ha.1).1
      rw [if_pos ha, if_pos ((hahead c).mpr ha), hbuf, hctl hne]
    · rw [if_neg ha, if_neg (mt (hahead c).mp ha), hbuf]
  · funext r
    show update t.pc p (.called b) r = _
    rcases eq_or_ne r p with rfl | hr
    · rw [update_self, State.place, State.setPc_same]
      exact (if_neg (mt (hahead b).mp hnot)).symm
    · rw [update_of_ne hr, h.pc]
      unfold State.place
      rw [hpc r hr]
      cases s.pc r with
      | asleep c => exact if_congr (hahead c).symm rfl rfl
      | _ => rfl
  · rw [map_append, h.calls, hirq]
    split
    · next hi =>
        have hne := (hd.result hi).1
        rw [tail_append_of_ne_nil hne]
        rfl
    · rfl
  · rcases mem_append.mp hx with hx | hx
    · have hxp : x.1 ≠ p := by
        intro he
        have hw := h.waits x hx
        rw [he, hp.1] at hw
        cases hw
      rw [hpc _ hxp]
      exact h.waits x hx
    · rw [mem_singleton.mp hx, State.setPc_same]

omit [DecidableEq P] [Fintype B] in
/-- The interrupt handler: the driver's buffer catches up. -/
theorem ideintr (hd : Driven s l) (hq : Queued s l) (hirq : (s.ctl .primary).irq = true)
    (hs : s.ideintr false = some s') : Mirrors s' l.tail t := by
  obtain ⟨b, l', rfl, -, honly, hirq', hdisk⟩ := hd.ideintr hq hirq hs
  have hahead : s.Ahead (b :: l') b := ⟨hirq, rfl⟩
  have hne : ∀ {c}, c ≠ b → ¬ s.Ahead (b :: l') c := fun hc ha => hc (Option.some.inj ha.2).symm
  have hnot : ∀ c, ¬ s'.Ahead l' c := by
    rintro c ⟨hi, -⟩
    rw [hirq'] at hi
    cases hi
  have hcalls : t.calls.map Prod.snd = l' := h.calls.trans (if_pos hirq)
  rw [tail_cons]
  refine ⟨h.disk.trans hdisk.symm, ?_, ?_, ?_, fun x hx => ?_⟩
  · rw [h.buf]
    funext c
    unfold State.shown
    rw [if_neg (hnot c), honly.buf]
    rcases eq_or_ne c b with rfl | hc
    · rw [if_pos hahead]
      exact (update_self c (finish (s.ctl .primary) (s.buf c)) s.buf).symm
    · rw [if_neg (hne hc)]
      exact (update_of_ne hc (finish (s.ctl .primary) (s.buf b)) s.buf).symm
  · rw [h.pc]
    funext r
    unfold State.place
    rw [honly.pc]
    show _ = match (if s.pc r = .asleep b then .awake b else s.pc r : Pc B) with
      | .out => MemPc.out
      | .asleep c => if s'.Ahead l' c then .served c else .called c
      | .awake c => .served c
    cases hr : s.pc r with
    | out | awake => rw [if_neg nofun]
    | asleep c =>
      rcases eq_or_ne c b with rfl | hc
      · rw [if_pos rfl]
        exact if_pos hahead
      · rw [if_neg (fun he => hc (Pc.asleep.inj he))]
        show (if s.Ahead (b :: l') c then MemPc.served c else .called c) =
          if s'.Ahead l' c then .served c else .called c
        rw [if_neg (hne hc), if_neg (hnot c)]
  · rw [hcalls, if_neg (by rw [hirq']; nofun)]
  · have hw := h.waits x hx
    have hxb : x.2 ≠ b := by
      rintro rfl
      have hmem : x.2 ∈ t.calls.map Prod.snd := mem_map_of_mem hx
      rw [hcalls] at hmem
      exact (nodup_cons.mp hq.nodup).1 hmem
    rw [honly.pc]
    show (if s.pc x.1 = .asleep b then .awake b else s.pc x.1) = _
    rw [hw, if_neg (fun he => hxb (Pc.asleep.inj he))]

omit [Fintype B] in
theorem execute {cmd : Command} (hd : Driven s l) (hq : Queued s l)
    (hact : (s.ctl .primary).active = some cmd) (hirq : (s.ctl .primary).irq = false) :
    ∃ t', memStep t .serve = some t' ∧
      Mirrors (s.setCtl .primary ((s.ctl .primary).execute cmd)) l t' := by
  obtain ⟨b, l', rfl, rfl, -⟩ := hd.executed hact
  have hlt := hd.inRange b rfl
  have hcalls : t.calls.map Prod.snd = b :: l' := h.calls.trans (if_neg (by rw [hirq]; nofun))
  have hnot : ∀ c, ¬ s.Ahead (b :: l') c := by
    rintro c ⟨hi, -⟩
    rw [hirq] at hi
    cases hi
  have hbuf : ∀ c, t.buf c = s.buf c := by
    intro c
    rw [h.buf]
    exact if_neg (hnot c)
  obtain ⟨⟨p, b'⟩, rest, hcons, hb, hrest⟩ := map_eq_cons_iff.mp hcalls
  cases hb
  have hp : s.pc p = .asleep b' := h.waits (p, b') (by rw [hcons]; exact mem_cons_self)
  have hlock := hq.locked p b' (.inl hp)
  have hserve := serveOn_execute (by rw [hlock]; nofun) (hq.undone b' mem_cons_self) hlt (s.ctl .primary)
  have hirq' : ((s.ctl .primary).execute (command (s.buf b'))).irq = true := by
    unfold Controller.execute
    split <;> rfl
  have hahead : ∀ c, (s.setCtl .primary ((s.ctl .primary).execute (command (s.buf b')))).Ahead
      (b' :: l') c ↔ c = b' := by
    intro c
    exact ⟨fun ha => (Option.some.inj ha.2).symm, fun hc => ⟨hirq', congrArg some hc.symm⟩⟩
  refine ⟨⟨update t.buf b' (finish ((s.ctl .primary).execute (command (s.buf b'))) (s.buf b')),
    ((s.ctl .primary).execute (command (s.buf b'))).disk, rest, update t.pc p (.served b')⟩, ?_, ?_, ?_, ?_, ?_,
    fun x hx => ?_⟩
  · unfold memStep
    simp only [hcons, hbuf, h.disk, hserve]
  · rw [State.setCtl_same]
  · funext c
    show update t.buf b' _ c = _
    rcases eq_or_ne c b' with rfl | hc
    · rw [update_self]
      exact (if_pos ((hahead c).mpr rfl)).symm
    · rw [update_of_ne hc, hbuf]
      exact (if_neg (mt (hahead c).mp hc)).symm
  · funext r
    show update t.pc p _ r = _
    rcases eq_or_ne r p with rfl | hr
    · rw [update_self]
      unfold State.place
      rw [show (s.setCtl .primary _).pc r = s.pc r from rfl, hp]
      exact (if_pos ((hahead b').mpr rfl)).symm
    · rw [update_of_ne hr, h.pc]
      unfold State.place
      rw [show (s.setCtl .primary _).pc r = s.pc r from rfl]
      cases hpc : s.pc r with
      | out | awake => rfl
      | asleep c =>
        have hc : c ≠ b' := by
          rintro rfl
          cases hlock.symm.trans (hq.locked r c (.inl hpc))
          exact hr rfl
        exact (if_neg (hnot c)).trans (if_neg (mt (hahead c).mp hc)).symm
  · rw [State.setCtl_same, if_pos hirq']
    exact hrest
  · exact h.waits x (by rw [hcons]; exact mem_cons_of_mem _ hx)

omit [Fintype B] in
theorem resume (hp : s.pc p = .awake b) :
    memStep t (.ret p) = some ⟨t.buf, t.disk, t.calls, update t.pc p .out⟩ ∧
      Mirrors (s.setPc p .out) l ⟨t.buf, t.disk, t.calls, update t.pc p .out⟩ := by
  have ht : t.pc p = .served b := by rw [h.pc, State.place, hp]
  refine ⟨by unfold memStep; simp only [ht], h.disk, h.buf, ?_, h.calls, fun x hx => ?_⟩
  · funext r
    show update t.pc p .out r = _
    unfold State.place
    rcases eq_or_ne r p with rfl | hr
    · rw [update_self, State.setPc_same]
    · rw [update_of_ne hr, State.setPc_other _ _ hr, h.pc]
      rfl
  · have hw := h.waits x hx
    have hxp : x.1 ≠ p := by
      rintro rfl
      cases hp.symm.trans hw
    rw [State.setPc_other _ _ hxp]
    exact hw

end Mirrors

/-! ## Runs -/

/-- What the machine on memory disks does in a step of the driver. -/
def memEvent : Event P B → Option (MemEvent P B)
  | .lock p b => some (.lock p b)
  | .unlock p b => some (.unlock p b)
  | .store p b valid dirty dev blockno data => some (.store p b valid dirty dev blockno data)
  | .iderw p b => some (.call p b)
  | .resume p => some (.ret p)
  | .execute _ => some .serve
  | .ideintr => none
  | .ideintr2 => none

/-- The default build has no second handler. -/
theorem step_ideintr2_default : Ide.step false havedisk1 s .ideintr2 = none := by
  unfold Ide.step
  exact if_neg fun h => Bool.false_ne_true h.1

/-- All that is known of the driver with queue `l`. -/
structure Sound (s : State P B) (l : List B) (t : MemState P B) : Prop where
  queued : Queued s l
  driven : Driven s l
  mirrors : Mirrors s l t

/-- **A step of the driver is a step on memory disks**, or, for an interrupt, none. -/
theorem Sound.step {e : Event P B} (h : Sound s l t) (hs : Ide.step false havedisk1 s e = some s') :
    ∃ t', Sound s' (after l e) t' ∧
      match memEvent e with
      | some f => memStep t f = some t'
      | none => t' = t := by
  have hq' := h.queued.step hs
  have hq := h.queued
  have hd := h.driven
  have hm := h.mirrors
  -- stores to a buffer that is not in the queue
  have hset : ∀ {b x}, b ∉ l → Driven (s.setBuf b x) l ∧ Mirrors (s.setBuf b x) l (t.setBuf b x) := by
    intro b x hbl
    refine ⟨hd.congr (fun c hc => State.setBuf_other _ _ ?_) rfl, hm.setBuf hbl x⟩
    rintro rfl
    exact hbl (mem_of_mem_head? hc)
  have hbuf : ∀ {b}, b ∉ l → t.buf b = s.buf b := by
    intro b hbl
    rw [hm.buf, shown_of_not_mem hbl]
  have hholder : ∀ {p b}, s.Holder p b → b ∉ l ∧ t.Holder p b := by
    intro p b hp
    have hbl := hq.not_mem fun r => (hq.free_of_holder hp r).1
    refine ⟨hbl, hm.pc_out hp.1, ?_⟩
    rw [hbuf hbl]
    exact hp.2
  cases e with
  | lock p b =>
    obtain ⟨⟨hp, hb⟩, hs⟩ := ite_none_right_eq_some.mp hs
    cases hs
    have hbl : b ∉ l := hq.not_mem fun r => (hq.free_of_unlocked hb r).1
    refine ⟨_, ⟨hq', (hset hbl).1, (hset hbl).2⟩, ?_⟩
    rw [← hbuf hbl] at hb ⊢
    exact if_pos ⟨hm.pc_out hp, hb⟩
  | unlock p b =>
    obtain ⟨hp, hs⟩ := ite_none_right_eq_some.mp hs
    cases hs
    obtain ⟨hbl, hp'⟩ := hholder hp
    refine ⟨_, ⟨hq', (hset hbl).1, (hset hbl).2⟩, ?_⟩
    rw [← hbuf hbl]
    exact if_pos hp'
  | store p b valid dirty dev blockno data =>
    obtain ⟨hp, hs⟩ := ite_none_right_eq_some.mp hs
    cases hs
    obtain ⟨hbl, hp'⟩ := hholder hp
    exact ⟨_, ⟨hq', (hset hbl).1, (hset hbl).2⟩, if_pos hp'⟩
  | iderw p b =>
    obtain ⟨hp, hs⟩ := ite_none_right_eq_some.mp hs
    exact ⟨_, ⟨hq', (hd.iderw hq hp hs).1, hm.iderw hd hq hp hs⟩, if_pos (hholder hp).2⟩
  | resume p =>
    obtain ⟨b, hp, rfl⟩ := resume_cases hs
    rw [(hq.resume hp).1] at hq' ⊢
    obtain ⟨hstep, hm'⟩ := hm.resume hp
    exact ⟨_, ⟨hq', hd.congr (fun _ _ => rfl) rfl, hm'⟩, hstep⟩
  | execute c =>
    obtain ⟨cmd, hact, hirq, rfl⟩ := execute_cases hs
    cases c with
    | primary =>
      obtain ⟨t', ht', hm'⟩ := hm.execute hd hq hact hirq
      obtain ⟨-, -, -, -, hd'⟩ := hd.executed hact
      exact ⟨t', ⟨hq', hd', hm'⟩, ht'⟩
    | secondary =>
      rw [hd.idle] at hact
      cases hact
  | ideintr =>
    obtain ⟨hirq, hs⟩ := ite_none_right_eq_some.mp hs
    obtain ⟨b, l', rfl, hd', -⟩ := hd.ideintr hq hirq hs
    exact ⟨t, ⟨hq', hd', hm.ideintr hd hq hirq hs⟩, rfl⟩
  | ideintr2 =>
    cases hs

omit [DecidableEq P] [Fintype B] in
theorem sound_boot (buf : B → Buf P) (disk : Ctl → Bool → Disk) :
    Sound (boot buf disk) [] (memBoot buf (disk .primary)) := by
  refine ⟨queued_boot buf disk, ⟨rfl, nofun, rfl, nofun⟩, rfl, ?_, rfl, rfl, nofun⟩
  funext b
  exact (if_neg nofun).symm

/-- The buffer of a new request. -/
def Event.request : Event P B → Option B
  | .iderw _ b => some b
  | _ => none

/-- An interrupt of the primary controller. -/
def Event.isIntr : Event P B → Bool
  | .ideintr => true
  | _ => false

/-- The buffers for which `iderw` was called, in order. -/
def requests (es : List (Event P B)) : List B := es.filterMap Event.request

/-- The number of interrupts. -/
def interrupts (es : List (Event P B)) : Nat := es.countP Event.isIntr

omit [DecidableEq P] [DecidableEq B] [Fintype B] in
theorem requests_concat (es : List (Event P B)) (e : Event P B) :
    requests (es ++ [e]) = requests es ++ e.request.toList := by
  unfold requests
  rw [filterMap_append]
  cases h : e.request with
  | none => rw [filterMap_cons_none h]; rfl
  | some b => rw [filterMap_cons_some h]; rfl

omit [DecidableEq P] [DecidableEq B] [Fintype B] in
theorem interrupts_concat (es : List (Event P B)) (e : Event P B) :
    interrupts (es ++ [e]) = interrupts es + if e.isIntr = true then 1 else 0 := by
  unfold interrupts
  rw [countP_append, countP_cons, countP_nil, Nat.zero_add]

/-- **Runs of the driver**: the queue holds the requests that were not completed, and there is
a run on memory disks. -/
theorem sound_of_run {buf : B → Buf P} {disk : Ctl → Bool → Disk} {es : List (Event P B)}
    (h : Runs false havedisk1 buf disk es s) :
    ∃ t, Sound s ((requests es).drop (interrupts es)) t ∧ interrupts es ≤ (requests es).length ∧
      Trace.Run memStep (memBoot buf (disk .primary)) (es.filterMap memEvent) t := by
  induction h with
  | nil => exact ⟨_, sound_boot buf disk, Nat.le_refl _, .nil⟩
  | @snoc es s s' e _ hs ih =>
    obtain ⟨t, hsound, hle, hrun⟩ := ih
    obtain ⟨t', hsound', hstep⟩ := hsound.step hs
    have hqueue : (requests (es ++ [e])).drop (interrupts (es ++ [e])) =
        after ((requests es).drop (interrupts es)) e ∧
        interrupts (es ++ [e]) ≤ (requests (es ++ [e])).length := by
      rw [requests_concat, interrupts_concat]
      cases e with
      | iderw p b =>
        refine ⟨drop_append_of_le_length hle, ?_⟩
        rw [length_append]
        exact Nat.le_add_right_of_le hle
      | ideintr =>
        obtain ⟨hirq, -⟩ := ite_none_right_eq_some.mp hs
        have hlt := length_pos_iff.mpr (hsound.driven.result hirq).1
        rw [length_drop] at hlt
        rw [show (Event.ideintr : Event P B).request.toList = [] from rfl, append_nil, after,
          tail_drop]
        exact ⟨rfl, Nat.lt_of_sub_pos hlt⟩
      | ideintr2 =>
        cases hs
      | _ =>
        rw [show Option.toList (Event.request _) = [] from rfl, append_nil]
        exact ⟨rfl, hle⟩
    rw [hqueue.1]
    refine ⟨t', hsound', hqueue.2, ?_⟩
    rw [filterMap_append]
    cases he : memEvent e with
    | some f =>
      rw [he] at hstep
      rw [filterMap_cons_some he]
      exact .snoc f hrun hstep
    | none =>
      rw [he] at hstep
      rw [filterMap_cons_none he, show t' = t from hstep]
      exact (append_nil (es.filterMap memEvent)).symm ▸ hrun

/-- **The interrupt-driven driver behaves like the one in memory.**  The queue holds the
requests that were not completed, in order and without repetition; the command on the
controller is the one for its head.  There is a run on memory disks, with the same calls in the
same order, that has the same disks, and the same buffers outside the queue.  A process that
returns from `iderw` has been served in that run, and its buffer is valid and not dirty. -/
theorem driver_like_memory {havedisk1 : Bool} {buf : B → Buf P} {disk : Ctl → Bool → Disk}
    {es : List (Event P B)} (h : Runs false havedisk1 buf disk es s) : ∃ l t,
      s.queue.Holds l ∧ l.Nodup ∧ l = (requests es).drop (interrupts es) ∧
      (s.ctl .primary).active = l.head?.map (fun b => command (s.buf b)) ∧
      Trace.Run memStep (memBoot buf (disk .primary)) (es.filterMap memEvent) t ∧
      t.disk = (s.ctl .primary).disk ∧ (∀ b, b ∉ l → t.buf b = s.buf b) ∧
      ∀ p s', step false havedisk1 s (.resume p) = some s' → ∃ b, s.pc p = .awake b ∧
        s'.pc p = .out ∧ t.pc p = .served b ∧ (s'.buf b).valid = true ∧ (s'.buf b).dirty = false ∧
        s'.buf b = t.buf b := by
  obtain ⟨t, ⟨hq, hd, hm⟩, -, hrun⟩ := sound_of_run h
  refine ⟨_, t, hq.holds, hq.nodup, rfl, hd.active, hrun, hm.disk, fun b hb => ?_, fun p s' hs => ?_⟩
  · rw [hm.buf, shown_of_not_mem hb]
  · obtain ⟨b, hp, rfl⟩ := resume_cases hs
    have hdone := hq.woken p b hp
    have hb : b ∉ (requests es).drop (interrupts es) := by
      intro hb
      rw [hq.undone b hb] at hdone
      cases hdone
    obtain ⟨hvalid, hdirty⟩ := Bool.and_eq_true_iff.mp hdone
    rw [(hq.resume hp).1]
    refine ⟨b, hp, State.setPc_same .., ?_, hvalid, (Bool.not_eq_true' _).mp hdirty, ?_⟩
    · rw [hm.pc, State.place, hp]
    · rw [hm.buf, shown_of_not_mem hb]
      rfl

end

/-- Two processes, one writes block 3 and the other reads it. -/
def writeAndRead : List (Event (Fin 2) (Fin 2)) :=
  [.lock 0 0, .store 0 0 true true 1 3 Bytes.Buffer.zero, .lock 1 1,
    .store 1 1 false false 1 3 Bytes.Buffer.zero, .iderw 0 0, .iderw 1 1, .execute .primary,
    .ideintr, .execute .primary, .resume 0, .ideintr, .resume 1]

theorem driver_like_memory_two : ∃ s t, Runs false true blankBuf blankDisk writeAndRead s ∧
    Trace.Run memStep (memBoot blankBuf (blankDisk .primary)) (writeAndRead.filterMap memEvent) t ∧
    t.disk = (s.ctl .primary).disk := by
  obtain ⟨s, hrun⟩ : ∃ s, Runs false true blankBuf blankDisk writeAndRead s :=
    Trace.exists_run (by decide)
  obtain ⟨l, t, -, -, -, -, hmem, heq, -⟩ := driver_like_memory hrun
  exact ⟨s, t, hrun, hmem, heq⟩

end Xv6.Ide
