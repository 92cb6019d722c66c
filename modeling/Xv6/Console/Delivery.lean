/-
# `Xv6.Console.Delivery` — every committed byte is delivered once, in order

The bytes reads take are, in the order they are taken, a first part of the committed
input.  A call that returns was given the bytes it took.  So when calls do not
overlap, what they return is the committed input without the `^D`s, piece by piece.
Calls that do overlap take turns at the input: a call that sleeps with some bytes
copied can be overtaken, and then no order of the returned pieces is the input.
-/
import Xv6.Console.Discipline

namespace Xv6.Console

open List

variable {P : Type} [DecidableEq P] {es : List (Event P)}

/-- The bytes returned, in the order of the returns. -/
def Host.returned (h : Host P) : List UInt8 := h.results.flatMap fun r => r.value.getD []

/-- The bytes taken, without the `^D`s. -/
def Host.text (h : Host P) : List UInt8 := (h.log.map Prod.snd).filter (· ≠ C 'D')

/-! ## Calls that do not overlap -/

/-- A call starts when no other is in progress, and nobody is killed. -/
def Alone (h : Host P) : Event P → Prop
  | .read _ _ => ∀ q, h.reader q = .out
  | .kill _ => False
  | .intr _ => True
  | .resume _ => True

/-- The call `c` of `p` is the only one, and with what it has so far the bytes returned are
the bytes taken. -/
structure Only (h : Host P) (p : P) (c : Call) : Prop where
  out : ∀ q, q ≠ p → h.reader q = .out
  text : h.returned ++ c.got = h.text

/-- Between two calls, or in one. -/
def Serial (h : Host P) : Prop :=
  ((∀ q, h.reader q = .out) ∧ h.returned = h.text) ∨
    ∃ p c, (h.reader p).call = some c ∧ Only h p c

omit [DecidableEq P] in
/-- The only call is the one of the process that moves. -/
theorem Serial.only {h : Host P} {p : P} {c : Call} (hs : Serial h)
    (hp : (h.reader p).call = some c) : Only h p c := by
  rcases hs with ⟨hout, -⟩ | ⟨q, d, hq, honly⟩
  · rw [hout p] at hp
    cases hp
  · by_cases hqp : q = p
    · subst hqp
      rw [hq] at hp
      cases hp
      exact honly
    · rw [honly.out p fun hc => hqp hc.symm] at hp
      cases hp

omit [DecidableEq P] in
theorem Serial.wakeup {h : Host P} (hs : Serial h) : Serial h.wakeup := by
  rcases hs with ⟨hout, htext⟩ | ⟨p, c, hp, honly⟩
  · refine .inl ⟨fun q => ?_, htext⟩
    change (h.reader q).wake = .out
    rw [hout q]
    rfl
  · refine .inr ⟨p, c, (Reader.call_wake _).trans hp, fun q hq => ?_, honly.text⟩
    change (h.reader q).wake = .out
    rw [honly.out q hq]
    rfl

omit [DecidableEq P] in
theorem text_append (log : List (Nat × UInt8)) (id : Nat) (m : List UInt8) :
    ((log ++ m.map (Prod.mk id)).map Prod.snd).filter (· ≠ C 'D') =
      (log.map Prod.snd).filter (· ≠ C 'D') ++ m.filter (· ≠ C 'D') := by
  rw [map_append, filter_append, map_map]
  congr 2
  exact map_id m

omit [DecidableEq P] in
theorem filter_eof {m : List UInt8} (h : C 'D' ∉ m) : m.filter (· ≠ C 'D') = m := by
  rw [filter_eq_self]
  intro b hb
  exact decide_eq_true fun hc => h (hc ▸ hb)

/-- The only call makes a turn. -/
theorem Only.turn {h : Host P} {p : P} {c : Call} (ho : Only h p c) (hk : h.killed p = false)
    {m rest : List UInt8} {o : Progress} (hout : Line.Outcome c.left c.got m rest o) :
    Serial (h.turn p c m o) := by
  have hreader : ∀ {r : Reader} {q : P}, q ≠ p → Function.update h.reader p r q = .out :=
    fun hq => (Function.update_of_ne hq _ _).trans (ho.out _ hq)
  have hfinish : ∀ bs, h.returned ++ bs = h.text ++ m.filter (· ≠ C 'D') →
      Serial (h.finish p c m (some bs)) := by
    intro bs hbs
    refine .inl ⟨fun q => ?_, ?_⟩
    · by_cases hq : q = p
      · subst hq
        exact Function.update_self ..
      · exact hreader hq
    · rw [Host.text, Host.finish, text_append, Host.returned, flatMap_append]
      simpa [Host.returned, Host.text] using hbs
  cases hout with
  | eof hn hgot hm =>
    refine hfinish [] ?_
    rw [hm, ← ho.text, hgot]
    simp
  | done hlen heof hline hend =>
    refine hfinish _ ?_
    rw [filter_eof heof, ← ho.text, append_assoc]
  | wait left hleft hlen heof hline =>
    rw [Host.turn, hk, if_neg Bool.false_ne_true]
    refine .inr ⟨p, ⟨c.id, c.size, left, c.got ++ m⟩, ?_, fun q hq => hreader hq, ?_⟩
    · simp [Host.sleep, Reader.call]
    · rw [Host.text, Host.sleep, text_append, filter_eof heof]
      change h.returned ++ (c.got ++ m) = h.text ++ m
      rw [← ho.text, append_assoc]

theorem Host.turn_killed (h : Host P) (p : P) (c : Call) (m : List UInt8) (o : Progress) :
    (h.turn p c m o).killed = h.killed := by
  cases o with
  | done bs => rfl
  | wait left got =>
    rw [Host.turn]
    split
    · rfl
    · rfl

omit [DecidableEq P] in
theorem Line.read_outcome (l : Line) (n : Nat) (got : List UInt8) :
    ∃ rest, Outcome n got (l.read n got).2.2 rest (l.read n got).1 := by
  obtain ⟨m, -, ht, -, ho⟩ := l.copyOut_outcome n got
  refine ⟨(l.copyOut n got).2.pending, ?_⟩
  rw [Line.read]
  rw [ht, drop_left]
  exact ho

/-- **Calls that do not overlap.** -/
theorem serial_of_run {s : State Line P} (h : Runs tty Line.empty es s)
    (hG : ∀ pre e post t, es = pre ++ e :: post → Runs tty Line.empty pre t → Alone t.host e) :
    Serial s.host := by
  have hI : Serial s.host ∧ ∀ p, s.host.killed p = false := by
    refine h.guarded (I := fun s => Serial s.host ∧ ∀ p, s.host.killed p = false)
      ⟨.inl ⟨fun _ => rfl, rfl⟩, fun _ => rfl⟩ ?_ hG
    rintro es s e s' - ⟨hser, hkill⟩ hG hs
    cases stepped_of_step tty hs with
    | intr cs =>
      split
      · exact ⟨hser.wakeup, hkill⟩
      · exact ⟨hser, hkill⟩
    | read p n hp =>
      obtain ⟨rest, ho⟩ := s.dev.read_outcome (s.host.newCall n).left (s.host.newCall n).got
      have htext : s.host.returned = s.host.text := by
        rcases hser with ⟨-, htext⟩ | ⟨q, c, hq, -⟩
        · exact htext
        · rw [hG q] at hq
          cases hq
      have honly : Only s.host.enter p (s.host.newCall n) :=
        ⟨fun q _ => hG q, (append_nil _).trans htext⟩
      refine ⟨honly.turn (hkill p) ho, fun q => ?_⟩
      rw [Device.turn, Host.turn_killed]
      exact hkill q
    | resume p c hc =>
      obtain ⟨rest, ho⟩ := s.dev.read_outcome c.left c.got
      refine ⟨(hser.only (by rw [hc]; rfl)).turn (hkill p) ho, fun q => ?_⟩
      rw [Device.turn, Host.turn_killed]
      exact hkill q
    | kill p => exact hG.elim
  exact hI.1

/-! ## The console -/

/-- The indices are in order, as wrapping counters. -/
theorem Input.Holds.bounds {i : Input} {l : Line} (h : i.Holds l) :
    i.e - i.w ≤ i.e - i.r ∧ i.e - i.r ≤ UInt32.ofNat INPUT_BUF ∧ i.w - i.r ≤ i.e - i.r := by
  refine ⟨?_, ?_, ?_⟩
  · rw [UInt32.le_iff_toNat_le, h.sub_w, h.sub_r, Line.used]
    exact Nat.le_add_left _ _
  · rw [UInt32.le_iff_toNat_le, h.sub_r]
    exact h.used_le
  · rw [UInt32.le_iff_toNat_le, h.w_sub_r, h.sub_r, Line.used]
    exact Nat.le_add_right _ _

/-- **The line discipline of the console.**  Run the lists of `Line` under the same events.
The history is the same.  The three indices keep their order.  The bytes taken, in the order
they are taken, are a first part of the committed input.  Each call that returns bytes returns
those it took, up to its size, a newline or a `^D`; the `^D` after some bytes is left to the
next call, and the call that finds it first returns nothing and takes it.  When calls do not
overlap and nobody is killed, the bytes returned are, between calls, the bytes taken without
the `^D`s. -/
theorem line_discipline {s : State Input P} (h : Runs console Input.init es s) :
    ∃ t : State Line P, Runs tty Line.empty es t ∧ t.host = s.host ∧
      (s.dev.e - s.dev.w ≤ s.dev.e - s.dev.r ∧ s.dev.e - s.dev.r ≤ UInt32.ofNat INPUT_BUF ∧
        s.dev.w - s.dev.r ≤ s.dev.e - s.dev.r) ∧
      s.host.log.map Prod.snd <+: t.dev.committed ∧
      (∀ r ∈ s.host.results, ∀ bs, r.value = some bs →
        Delivered s.host.log t.dev.committed r bs) ∧
      ((∀ pre e post u, es = pre ++ e :: post → Runs console Input.init pre u →
          Alone u.host e) →
        (∀ p, s.host.reader p = .out) → s.host.returned = s.host.text) := by
  obtain ⟨t, ht, hd, hh⟩ := console_refines.run .init h
  have hk := kept_of_run ht
  rw [hh] at hk
  refine ⟨t, ht, hh, hd.bounds, ?_, hk.results, fun hG hout => ?_⟩
  · rw [hk.log]
    exact prefix_append _ _
  · have hser : Serial t.host := by
      refine serial_of_run ht fun pre e post v he hv => ?_
      obtain ⟨u, -, hu, -, -⟩ := h.split he
      obtain ⟨v', hv', -, hh'⟩ := console_refines.run .init hu
      have hvv : v = v' :=
        Option.some.inj ((Trace.exec_of_run hv).symm.trans (Trace.exec_of_run hv'))
      rw [hvv, hh']
      exact hG pre e post u he hu
    rw [hh] at hser
    rcases hser with ⟨-, htext⟩ | ⟨p, c, hp, -⟩
    · exact htext
    · rw [hout p] at hp
      cases hp

/-- A line with a character erased, then a line killed and a `^D` after one character. -/
def edited : List (Event Unit) :=
  [.read () 10, .intr [97, 98, 8, 99, 10], .resume (), .intr [100, 21, 101, 4], .read () 10,
    .read () 10]

instance (h : Host Unit) : ∀ e : Event Unit, Decidable (Alone h e)
  | .read _ _ => inferInstanceAs (Decidable (∀ q, h.reader q = .out))
  | .kill _ => .isFalse id
  | .intr _ => .isTrue trivial
  | .resume _ => .isTrue trivial

theorem line_discipline_edited : ∃ (s : State Input Unit) (t : State Line Unit),
    Runs console Input.init edited s ∧ Runs tty Line.empty edited t ∧ t.host = s.host ∧
      s.host.log.map Prod.snd <+: t.dev.committed ∧ s.host.returned = s.host.text ∧
      s.host.results.map Result.value = [some [97, 99, 10], some [101], some []] := by
  obtain ⟨s, hs, hout, hres⟩ : ∃ s, Runs console Input.init edited s ∧
      (∀ p, s.host.reader p = .out) ∧
      s.host.results.map Result.value = [some [97, 99, 10], some [101], some []] :=
    Trace.exists_of_exec (by decide)
  obtain ⟨t, ht, hh, -, hlog, -, hserial⟩ := line_discipline hs
  exact ⟨s, t, hs, ht, hh, hlog, hserial (Trace.guard_of_checks (by decide)) hout, hres⟩

/-- The first call takes a full buffer and sleeps for more; the second takes the first byte of
the next line. -/
def overtaken : List (Event Bool) :=
  [.read true 200, .intr (List.replicate 128 97), .resume true, .read false 1, .intr [98, 10],
    .resume false, .resume true]

/-- What the two calls return: in neither order is it a first part of the input. -/
theorem overtaken_out_of_order : ∃ (s : State Input Bool) (t : State Line Bool) (a b : List UInt8),
    Runs console Input.init overtaken s ∧ Runs tty Line.empty overtaken t ∧
      (∀ p, s.host.reader p = .out) ∧ s.host.results.map Result.value = [some a, some b] ∧
      ¬ (a ++ b <+: t.dev.committed) ∧ ¬ (b ++ a <+: t.dev.committed) := by
  obtain ⟨s, hs, hout, hres⟩ : ∃ s, Runs console Input.init overtaken s ∧
      (∀ p, s.host.reader p = .out) ∧ s.host.results.map Result.value =
        [some [98], some (List.replicate 128 97 ++ [10])] :=
    Trace.exists_of_exec (by decide +kernel)
  obtain ⟨t, ht, hcom⟩ : ∃ t, Runs tty Line.empty overtaken t ∧
      t.dev.committed = List.replicate 128 97 ++ [98, 10] :=
    Trace.exists_of_exec (by decide +kernel)
  refine ⟨s, t, _, _, hs, ht, hout, hres, ?_, ?_⟩
  · rw [hcom]
    decide +kernel
  · rw [hcom]
    decide +kernel

end Xv6.Console
