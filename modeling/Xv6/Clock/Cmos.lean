/-
# `Xv6.Clock.Cmos` — reading the clock

`fill_rtcdate` and `cmostime` of `lapic.c`.  The clock has a register for each of six
fields and they are read one at a time; between any two reads the clock may move on and
change any of them.  `cmostime` reads all of them twice and takes what it has read if it
was the same both times.

Time is counted in reads of a register, and a `History` has the registers at each.  What
`cmostime` takes was shown by the clock at one instant, provided that the clock moved on
at most once while the two passes were made: one of the two passes is then on one side of
that update.
-/
import Mathlib.Data.UInt

namespace Xv6.Clock

/-! ## The registers -/

abbrev Regs : Type := UInt8 → UInt8

/-- The registers at each read. -/
abbrev History : Type := Nat → Regs

structure Rtcdate where
  second : UInt32
  minute : UInt32
  hour : UInt32
  day : UInt32
  month : UInt32
  year : UInt32
  deriving DecidableEq

def CMOS_STATA : UInt8 := 0x0a
def CMOS_STATB : UInt8 := 0x0b
/-- RTC update in progress. -/
def CMOS_UIP : UInt32 := 0x80

def SECS : UInt8 := 0x00
def MINS : UInt8 := 0x02
def HOURS : UInt8 := 0x04
def DAY : UInt8 := 0x07
def MONTH : UInt8 := 0x08
def YEAR : UInt8 := 0x09

def shown (regs : Regs) : Rtcdate where
  second := (regs SECS).toUInt32
  minute := (regs MINS).toUInt32
  hour := (regs HOURS).toUInt32
  day := (regs DAY).toUInt32
  month := (regs MONTH).toUInt32
  year := (regs YEAR).toUInt32

/-! ## The program -/

/-- `cmos_read(reg)`, as the read number `t`. -/
def cmosRead (clock : History) (t : Nat) (reg : UInt8) : UInt32 := (clock t reg).toUInt32

/-- `fill_rtcdate`, from the read number `t` on. -/
def fillRtcdate (clock : History) (t : Nat) : Rtcdate where
  second := cmosRead clock t SECS
  minute := cmosRead clock (t + 1) MINS
  hour := cmosRead clock (t + 2) HOURS
  day := cmosRead clock (t + 3) DAY
  month := cmosRead clock (t + 4) MONTH
  year := cmosRead clock (t + 5) YEAR

/-- `cmos_read(CMOS_STATA) & CMOS_UIP`. -/
def uip (clock : History) (t : Nat) : Prop := cmosRead clock t CMOS_STATA &&& CMOS_UIP ≠ 0

instance (clock : History) (t : Nat) : Decidable (uip clock t) := inferInstanceAs (Decidable (_ ≠ _))

/-- The loop of `cmostime`, from the read number `t` on and in at most `n` turns: `t1`, and the
number of the first read of the turn in which it was taken. -/
def cmosLoop (clock : History) : Nat → Nat → Option (Rtcdate × Nat)
  | 0, _ => none
  | n + 1, t =>
    if uip clock (t + 6) then cmosLoop clock n (t + 7)
    else if fillRtcdate clock t = fillRtcdate clock (t + 7) then some (fillRtcdate clock t, t)
    else cmosLoop clock n (t + 13)

def conv (x : UInt32) : UInt32 := (x >>> 4) * 10 + (x &&& 0xf)

/-- `bcd`, for what was read from status register B. -/
def bcd (sb : UInt32) : Prop := sb &&& (1 : UInt32) <<< 2 = 0

instance (sb : UInt32) : Decidable (bcd sb) := inferInstanceAs (Decidable (_ = _))

/-- What is made of `t1`. -/
def finish (sb : UInt32) (t1 : Rtcdate) : Rtcdate :=
  let t : Rtcdate := if bcd sb then
      ⟨conv t1.second, conv t1.minute, conv t1.hour, conv t1.day, conv t1.month, conv t1.year⟩
    else t1
  { t with year := t.year + 2000 }

/-- `cmostime`; the first read is of status register B. -/
def cmostime (clock : History) (n : Nat) : Option Rtcdate :=
  (cmosLoop clock n 1).map fun r => finish (cmosRead clock 0 CMOS_STATB) r.1

/-! ## One update at most -/

/-- From the read `a` to the read `b` there is at most one update: what is shown changes at most
once from a read to the next. -/
def OneUpdate (clock : History) (a b : Nat) : Prop :=
  ∀ i j, a ≤ i → i < b → a ≤ j → j < b → shown (clock (i + 1)) ≠ shown (clock i) →
    shown (clock (j + 1)) ≠ shown (clock j) → i = j

variable {clock : History} {a b t t₀ n : Nat} {d : Rtcdate}

/-- Without an update the clock shows one thing. -/
theorem shown_same (h : ∀ i, a ≤ i → i < b → shown (clock (i + 1)) = shown (clock i)) :
    ∀ i, a ≤ i → i ≤ b → shown (clock i) = shown (clock a) := by
  intro i hi
  induction i, hi using Nat.le_induction with
  | base => exact fun _ => rfl
  | succ i hi ih =>
    intro hle
    rw [h i hi hle]
    exact ih (Nat.le_of_succ_le hle)

/-- There is a read from which on the clock shows what it shows at the end, and before which it
shows what it showed at the start. -/
theorem OneUpdate.split (h : OneUpdate clock a b) :
    ∃ u, (∀ i, a ≤ i → i < u → i ≤ b → shown (clock i) = shown (clock a)) ∧
      ∀ i, a ≤ i → u ≤ i → i ≤ b → shown (clock i) = shown (clock b) := by
  by_cases hex : ∃ j, a ≤ j ∧ j < b ∧ shown (clock (j + 1)) ≠ shown (clock j)
  · obtain ⟨j, haj, hjb, hj⟩ := hex
    have hstill : ∀ i, a ≤ i → i < b → i ≠ j → shown (clock (i + 1)) = shown (clock i) := by
      intro i hai hib hne
      by_contra hi
      exact hne (h i j hai hib haj hjb hi hj)
    refine ⟨j + 1, fun i hai hij _ => ?_, fun i _ hji hib => ?_⟩
    · exact shown_same (fun k hk hkj => hstill k hk (hkj.trans hjb) hkj.ne) i hai
        (Nat.le_of_lt_succ hij)
    · have hafter := shown_same fun k hk hkb =>
        hstill k (haj.trans (Nat.le_of_succ_le hk)) hkb (Nat.ne_of_gt hk)
      rw [hafter i hji hib, hafter b hjb (Nat.le_refl b)]
  · have hstill : ∀ i, a ≤ i → i < b → shown (clock (i + 1)) = shown (clock i) := by
      intro i hai hib
      by_contra hi
      exact hex ⟨i, hai, hib, hi⟩
    have hsame := shown_same hstill
    refine ⟨a, fun i hai hia _ => absurd hai (Nat.not_le_of_lt hia), fun i hai _ hib => ?_⟩
    rw [hsame i hai hib, hsame b (hai.trans hib) (Nat.le_refl b)]

/-- A pass during which the clock shows one thing. -/
theorem fillRtcdate_eq (h : ∀ i, t ≤ i → i ≤ t + 5 → shown (clock i) = d) :
    fillRtcdate clock t = d := by
  have hfield : ∀ i, i ≤ 5 → shown (clock (t + i)) = d := fun i hi => h _ (by omega) (by omega)
  rw [fillRtcdate]
  congr 1
  · exact congrArg Rtcdate.second (hfield 0 (by decide))
  · exact congrArg Rtcdate.minute (hfield 1 (by decide))
  · exact congrArg Rtcdate.hour (hfield 2 (by decide))
  · exact congrArg Rtcdate.day (hfield 3 (by decide))
  · exact congrArg Rtcdate.month (hfield 4 (by decide))
  · exact congrArg Rtcdate.year (hfield 5 (by decide))

/-- What the loop takes was read twice. -/
theorem cmosLoop_twice (h : cmosLoop clock n t = some (d, t₀)) :
    t ≤ t₀ ∧ fillRtcdate clock t₀ = d ∧ fillRtcdate clock (t₀ + 7) = d := by
  induction n generalizing t with
  | zero => cases h
  | succ n ih =>
    rw [cmosLoop] at h
    split at h
    · obtain ⟨hle, hd⟩ := ih h
      exact ⟨by omega, hd⟩
    · split at h
      · rename_i heq
        cases h
        exact ⟨Nat.le_refl _, rfl, heq.symm⟩
      · obtain ⟨hle, hd⟩ := ih h
        exact ⟨by omega, hd⟩

/-- **`cmostime` never returns a torn time.**  If the clock is updated at most once during the
thirteen reads of the turn in which the loop takes `t1`, then `t1` is, field for field, what the
clock showed at one of these reads, and `cmostime` returns that time. -/
theorem cmostime_untorn (h : cmosLoop clock n 1 = some (d, t₀)) (hone : OneUpdate clock t₀ (t₀ + 12)) :
    ∃ u, t₀ ≤ u ∧ u ≤ t₀ + 12 ∧ d = shown (clock u) ∧
      cmostime clock n = some (finish (cmosRead clock 0 CMOS_STATB) (shown (clock u))) := by
  obtain ⟨-, hfirst, hsecond⟩ := cmosLoop_twice h
  have htime : cmostime clock n = some (finish (cmosRead clock 0 CMOS_STATB) d) := by
    rw [cmostime, h]
    rfl
  obtain ⟨u, hbefore, hafter⟩ := hone.split
  by_cases hu : u ≤ t₀ + 7
  · -- the second pass is behind the update
    have hd : d = shown (clock (t₀ + 12)) := by
      rw [← hsecond]
      exact fillRtcdate_eq fun i hi hle => hafter i (by omega) (by omega) (by omega)
    exact ⟨t₀ + 12, by omega, Nat.le_refl _, hd, hd ▸ htime⟩
  · -- the first pass is before it
    have hd : d = shown (clock t₀) := by
      rw [← hfirst]
      exact fillRtcdate_eq fun i hi hle => hbefore i hi (by omega) (by omega)
    exact ⟨t₀, Nat.le_refl _, by omega, hd, hd ▸ htime⟩

/-- A clock that shows 5 seconds, and 6 from the ninth read on. -/
def tick : History := fun t reg => if reg = SECS then (if t < 9 then 5 else 6) else 0

/-- The update comes after the seconds were read for the second time. -/
theorem cmostime_untorn_tick : ∃ u, 1 ≤ u ∧ u ≤ 13 ∧
    cmostime tick 1 = some (finish (cmosRead tick 0 CMOS_STATB) (shown (tick u))) := by
  have hone : OneUpdate tick 1 13 := by
    have hat : ∀ i, shown (tick (i + 1)) ≠ shown (tick i) → i = 8 := by
      intro i hi
      by_contra hne
      refine hi ?_
      have hsame : (i + 1 < 9) = (i < 9) := by
        rw [eq_iff_iff]
        omega
      simp only [shown, tick, hsame]
    intro i j _ _ _ _ hi hj
    rw [hat i hi, hat j hj]
  have htaken : cmosLoop tick 1 1 = some (⟨5, 0, 0, 0, 0, 0⟩, 1) := by decide
  obtain ⟨u, h₁, h₂, -, hu⟩ := cmostime_untorn htaken hone
  exact ⟨u, h₁, h₂, hu⟩

end Xv6.Clock
