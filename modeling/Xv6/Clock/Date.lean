/-
# `Xv6.Clock.Date` — setting the clock and reading it

`setdate` of `proc.c` checks the fields of a date, encodes them in BCD digit by digit and
stores one byte of each in its register; `getdate` reads the registers with `cmostime`,
which decodes them and adds 2000 to the year.

The year is the one field `setdate` does not check.  Only its last two digits are in the
byte that is stored, so a year comes back as it was set exactly from 2000 to 2099, and in
those years the rule for February, every fourth year, is the one of the calendar.
-/
import Mathlib.Tactic.IntervalCases
import Xv6.Clock.Cmos
import Xv6.Lib.Fuel

namespace Xv6.Clock

/-! ## The programs -/

/-- `x << k`; `wide` is what the machine makes of a shift by 32 and more, which C leaves
open. -/
def shiftLeft (wide : UInt32 → Nat → UInt32) (x : UInt32) (k : Nat) : UInt32 :=
  if k < 32 then x <<< UInt32.ofNat k else wide x k

/-- The loop of `tobcd`, in at most `n` turns. -/
def tobcdLoop (wide : UInt32 → Nat → UInt32) : Nat → UInt32 → Nat → UInt32 → UInt32
  | 0, _, _, conv => conv
  | n + 1, x, i, conv =>
    if 0 < x then tobcdLoop wide n (x / 10) (i + 1) (conv + shiftLeft wide (x % 10) (4 * i))
    else conv

/-- `tobcd(x)`; ten digits are enough (`tobcdLoop_enough`). -/
def tobcd (wide : UInt32 → Nat → UInt32) (x : UInt32) : UInt32 := tobcdLoop wide 10 x 0 0

/-- `max_day[month-1]`. -/
def maxDay (year month : UInt32) : UInt32 :=
  let isleap : UInt32 := if year % 4 = 0 then 1 else 0
  [31, 28 + isleap, 31, 30, 31, 30, 31, 31, 30, 31, 30, 31].getD (month - 1).toNat 0

/-- `outb(0x70, index)` and `outb(0x71, v)`: bit 7 of the index masks the NMI. -/
def cmosWrite (regs : Regs) (index : UInt8) (v : UInt32) : Regs :=
  Function.update regs (index &&& 0x7f) v.toUInt8

/-- The stores of `setdate`. -/
def store (wide : UInt32 → Nat → UInt32) (r : Rtcdate) (regs : Regs) : Regs :=
  let regs := cmosWrite regs (0x80 ||| 0x09) (tobcd wide r.year)
  let regs := cmosWrite regs (0x80 ||| 0x08) (tobcd wide r.month)
  let regs := cmosWrite regs (0x80 ||| 0x07) (tobcd wide r.day)
  let regs := cmosWrite regs (0x80 ||| 0x04) (tobcd wide r.hour)
  let regs := cmosWrite regs (0x80 ||| 0x02) (tobcd wide r.minute)
  cmosWrite regs (0x80 ||| 0x00) (tobcd wide r.second)

/-- `setdate(r)`: -1, or the registers after it. -/
def setdate (wide : UInt32 → Nat → UInt32) (r : Rtcdate) (regs : Regs) : Option Regs :=
  if r.second < 0 ∨ 60 ≤ r.second then none
  else if r.minute < 0 ∨ 60 ≤ r.minute then none
  else if r.hour < 0 ∨ 23 < r.hour then none
  else if r.month ≤ 0 ∨ 12 < r.month then none
  else if r.day ≤ 0 ∨ 31 < r.day then none
  else if maxDay r.year r.month < r.day then none
  else some (store wide r regs)

/-- `getdate`, which is `cmostime`. -/
def getdate (clock : History) (n : Nat) : Option Rtcdate := cmostime clock n

/-! ## The calendar -/

/-- A leap year of the Gregorian calendar. -/
def Leap (year : Nat) : Prop := year % 4 = 0 ∧ (year % 100 ≠ 0 ∨ year % 400 = 0)

instance (year : Nat) : Decidable (Leap year) := inferInstanceAs (Decidable (_ ∧ _))

def days (leap : Prop) [Decidable leap] (month : Nat) : Nat :=
  if month = 2 then if leap then 29 else 28
  else if month = 4 ∨ month = 6 ∨ month = 9 ∨ month = 11 then 30
  else 31

/-- A date and a time, with the days of February by the given rule. -/
structure DateBy (leap : Prop) [Decidable leap] (r : Rtcdate) : Prop where
  second : r.second.toNat < 60
  minute : r.minute.toNat < 60
  hour : r.hour.toNat < 24
  month : 1 ≤ r.month.toNat ∧ r.month.toNat ≤ 12
  day : 1 ≤ r.day.toNat ∧ r.day.toNat ≤ days leap r.month.toNat

/-- A date of the Gregorian calendar and a time of day. -/
def Valid (r : Rtcdate) : Prop := DateBy (Leap r.year.toNat) r

/-- What `setdate` checks: a date, if every fourth year had a 29th of February. -/
def Checked (r : Rtcdate) : Prop := DateBy (r.year.toNat % 4 = 0) r

/-! ## What is accepted -/

variable {wide : UInt32 → Nat → UInt32} {r : Rtcdate} {regs regs' : Regs}

theorem maxDay_toNat {year month : UInt32} (h₁ : 1 ≤ month.toNat) (h₂ : month.toNat ≤ 12) :
    (maxDay year month).toNat = days (year.toNat % 4 = 0) month.toNat := by
  have hleap : (year % 4 = 0) ↔ year.toNat % 4 = 0 := by
    rw [← UInt32.toNat_inj, UInt32.toNat_mod]
    exact Iff.rfl
  have hsub : (month - 1).toNat = month.toNat - 1 := by
    rw [UInt32.toNat_sub_of_le]
    · rfl
    · exact UInt32.le_iff_toNat_le.mpr h₁
  rw [maxDay, hsub]
  simp only [hleap]
  generalize month.toNat = m at *
  interval_cases m <;> by_cases h4 : year.toNat % 4 = 0 <;> simp [h4, days]

theorem days_le (leap : Prop) [Decidable leap] (month : Nat) : days leap month ≤ 31 := by
  rw [days]
  split
  · split <;> decide
  · split <;> decide

/-- **What `setdate` accepts.** -/
theorem setdate_eq_some :
    setdate wide r regs = some regs' ↔ Checked r ∧ regs' = store wide r regs := by
  have hmax : 1 ≤ r.month.toNat → r.month.toNat ≤ 12 → (maxDay r.year r.month < r.day ↔
      days (r.year.toNat % 4 = 0) r.month.toNat < r.day.toNat) := by
    intro h₁ h₂
    rw [UInt32.lt_iff_toNat_lt, maxDay_toNat h₁ h₂]
  have hdays := days_le (r.year.toNat % 4 = 0) r.month.toNat
  rw [setdate]
  simp only [UInt32.lt_iff_toNat_lt, UInt32.le_iff_toNat_le, UInt32.toNat_ofNat, Nat.reduceMod,
    Nat.reducePow] at hmax ⊢
  constructor
  · intro h
    split at h; · cases h
    split at h; · cases h
    split at h; · cases h
    split at h; · cases h
    split at h; · cases h
    split at h; · cases h
    exact ⟨⟨by omega, by omega, by omega, by omega, by omega⟩, (Option.some.inj h).symm⟩
  · rintro ⟨⟨hs, hm, hh, hmo, hd⟩, rfl⟩
    rw [if_neg (by omega), if_neg (by omega), if_neg (by omega), if_neg (by omega), if_neg (by omega),
      if_neg]
    omega

theorem Valid.checked (h : Valid r) : Checked r := by
  refine ⟨h.second, h.minute, h.hour, h.month, h.day.1, h.day.2.trans ?_⟩
  rw [days, days]
  split
  · split
    · rename_i hleap
      rw [if_pos hleap.1]
    · split <;> decide
  · exact Nat.le_refl _

/-- From 2000 to 2099 every fourth year is a leap year. -/
theorem Checked.valid (h : Checked r) (h₁ : 2000 ≤ r.year.toNat) (h₂ : r.year.toNat < 2100) :
    Valid r := by
  have hleap : Leap r.year.toNat ↔ r.year.toNat % 4 = 0 := by
    rw [Leap]
    omega
  refine ⟨h.second, h.minute, h.hour, h.month, h.day.1, h.day.2.trans ?_⟩
  simp only [hleap, Nat.le_refl]

/-! ## What comes back -/

/-- A number of up to eight digits is encoded without a wide shift. -/
theorem tobcdLoop_wide (wide wide' : UInt32 → Nat → UInt32) (n : Nat) {x : UInt32} {i : Nat}
    (hx : x.toNat < 10 ^ (8 - i)) (c : UInt32) :
    tobcdLoop wide n x i c = tobcdLoop wide' n x i c := by
  induction n generalizing x i c with
  | zero => rfl
  | succ n ih =>
    rw [tobcdLoop, tobcdLoop]
    split
    · rename_i hpos
      have hpos' : 0 < x.toNat := UInt32.lt_iff_toNat_lt.mp hpos
      have hi : i < 8 := by
        by_contra hi
        rw [Nat.sub_eq_zero_of_le (Nat.le_of_not_lt hi), Nat.pow_zero] at hx
        omega
      have hshift : shiftLeft wide (x % 10) (4 * i) = shiftLeft wide' (x % 10) (4 * i) := by
        rw [shiftLeft, shiftLeft, if_pos (by omega), if_pos (by omega)]
      rw [hshift]
      refine ih ?_ _
      show x.toNat / 10 < _
      rw [show 8 - i = 8 - (i + 1) + 1 by omega, Nat.pow_succ] at hx
      omega
    · rfl

/-- The byte of a register, decoded. -/
def byteBack (wide : UInt32 → Nat → UInt32) (x : UInt32) : UInt32 :=
  conv (tobcd wide x).toUInt8.toUInt32

theorem byteBack_wide {x : UInt32} (hx : x.toNat < 10 ^ 8) :
    byteBack wide x = byteBack (fun _ _ => 0) x := by
  rw [byteBack, tobcd, tobcdLoop_wide wide (fun _ _ => 0) 10 hx, ← tobcd, ← byteBack]

/-- Two digits come back. -/
theorem byteBack_two {x : UInt32} (hx : x.toNat < 100) : byteBack wide x = x := by
  have hall : ∀ n, n < 100 → byteBack (fun _ _ => 0) (.ofNat n) = .ofNat n := by decide +kernel
  rw [byteBack_wide (by omega), ← UInt32.ofNat_toNat (x := x)]
  exact hall _ hx

/-- **The year that comes back** is the one that was set from 2000 to 2099 and no other. -/
theorem byteBack_year (wide : UInt32 → Nat → UInt32) (y : UInt32) :
    byteBack wide y + 2000 = y ↔ 2000 ≤ y.toNat ∧ y.toNat < 2100 := by
  have hnear : ∀ n, n < 166 → (byteBack (fun _ _ => 0) (.ofNat (2000 + n)) + 2000 =
      UInt32.ofNat (2000 + n) ↔ n < 100) := by decide +kernel
  by_cases hy : 2000 ≤ y.toNat ∧ y.toNat < 2166
  · obtain ⟨n, hn⟩ := Nat.exists_eq_add_of_le hy.1
    have := hnear n (by omega)
    rw [← hn, UInt32.ofNat_toNat] at this
    rw [byteBack_wide (by omega), this]
    omega
  · -- a decoded byte is at most 165
    refine ⟨fun h => absurd ?_ hy, fun h => absurd ⟨h.1, by omega⟩ hy⟩
    have hbyte := (tobcd wide y).toUInt8.toNat_lt
    have hconv : (byteBack wide y).toNat ≤ 165 := by
      rw [byteBack]
      generalize (tobcd wide y).toUInt8 = b at hbyte
      have hall : ∀ n, n < 256 → (conv (UInt8.ofNat n).toUInt32).toNat ≤ 165 := by decide +kernel
      rw [← UInt8.ofNat_toNat (x := b)]
      exact hall _ hbyte
    have hsum := congrArg UInt32.toNat h
    change ((byteBack wide y).toNat + 2000) % 4294967296 = _ at hsum
    omega

theorem shown_store (wide : UInt32 → Nat → UInt32) (r : Rtcdate) (regs : Regs) :
    shown (store wide r regs) = ⟨(tobcd wide r.second).toUInt8.toUInt32,
      (tobcd wide r.minute).toUInt8.toUInt32, (tobcd wide r.hour).toUInt8.toUInt32,
      (tobcd wide r.day).toUInt8.toUInt32, (tobcd wide r.month).toUInt8.toUInt32,
      (tobcd wide r.year).toUInt8.toUInt32⟩ := rfl

theorem store_statB (wide : UInt32 → Nat → UInt32) (r : Rtcdate) (regs : Regs) :
    store wide r regs CMOS_STATB = regs CMOS_STATB := rfl

/-! ## Setting and reading -/

/-- From the call of `getdate` on the clock is not updated: the registers are as `setdate` has left
them, and at some check the update flag is clear. -/
structure Still (clock : History) (regs : Regs) : Prop where
  shown : ∀ t, shown (clock t) = shown regs
  statB : ∀ t, clock t CMOS_STATB = regs CMOS_STATB
  clear : ∃ m, ¬ uip clock (1 + 7 * m + 6)

/-- The loop ends with what is shown, at the latest when the flag is clear. -/
theorem cmosLoop_still {clock : History} {d : Rtcdate} (h : ∀ t, shown (clock t) = d) {m t : Nat}
    (hm : ¬ uip clock (t + 7 * m + 6)) : Fuel.Ends (fun n => cmosLoop clock n t) fun r => r.1 = d := by
  have hfill : ∀ t, fillRtcdate clock t = d := fun t => fillRtcdate_eq fun i _ _ => h i
  have hturn : ∀ t, ¬ uip clock (t + 6) →
      Fuel.Ends (fun n => cmosLoop clock n t) fun r => r.1 = d := by
    intro t hclear
    refine .now (r := (d, t)) (fun n => ?_) rfl
    rw [cmosLoop, if_neg hclear, hfill, hfill, if_pos rfl]
  induction m generalizing t with
  | zero => exact hturn t hm
  | succ m ih =>
    by_cases hup : uip clock (t + 6)
    · have hclear : ¬ uip clock (t + 7 + 7 * m + 6) := by
        rwa [show t + 7 + 7 * m + 6 = t + 7 * (m + 1) + 6 by omega]
      refine .later (fun n => ?_) (ih hclear)
      rw [cmosLoop, if_pos hup]
    · exact hturn t hup

/-- **What `getdate` returns** while the clock stands still after `setdate`. -/
theorem getdate_store {clock : History} (h : Still clock (store wide r regs))
    (hB : bcd (regs CMOS_STATB).toUInt32) :
    Fuel.Ends (getdate clock) (· = ⟨byteBack wide r.second, byteBack wide r.minute,
      byteBack wide r.hour, byteBack wide r.day, byteBack wide r.month,
      byteBack wide r.year + 2000⟩) := by
  obtain ⟨m, hm⟩ := h.clear
  obtain ⟨n, ⟨d, t⟩, hloop, hd⟩ := cmosLoop_still h.shown hm
  have hsb : bcd (cmosRead clock 0 CMOS_STATB) := by
    rw [cmosRead, h.statB, store_statB]
    exact hB
  refine ⟨n, _, fun k hk => ?_, rfl⟩
  have htaken : cmosLoop clock k 1 = some (d, t) := hloop k hk
  rw [getdate, cmostime, htaken, Option.map_some]
  rw [hd, finish, if_pos hsb, shown_store]
  rfl

/-- Setting and reading the clock with a date `r`: `setdate` accepts it exactly if it is a valid
date, and if it does then `getdate` returns it before the next update. -/
def RoundTrip (wide : UInt32 → Nat → UInt32) (r : Rtcdate) (regs : Regs) : Prop :=
  ((setdate wide r regs).isSome ↔ Valid r) ∧
    ∀ regs', setdate wide r regs = some regs' → ∀ clock, Still clock regs' →
      Fuel.Ends (getdate clock) (· = r)

/-- **Setting then reading the clock** is the identity exactly for the dates that `setdate` refuses
and for those of the years 2000 to 2099, whatever a shift by 32 and more gives and whatever was
in the registers, provided that status register B selects BCD. -/
theorem setdate_getdate (wide : UInt32 → Nat → UInt32) (r : Rtcdate) (regs : Regs)
    (hB : bcd (regs CMOS_STATB).toUInt32) :
    RoundTrip wide r regs ↔ (Checked r → 2000 ≤ r.year.toNat ∧ r.year.toNat < 2100) := by
  constructor
  · rintro ⟨-, hback⟩ hr
    -- a clock that stands still, with a clear update flag
    have hstill : Still (fun _ reg => if reg = CMOS_STATA then 0 else store wide r regs reg)
        (store wide r regs) := by
      refine ⟨fun _ => rfl, fun _ => rfl, 0, fun h => h ?_⟩
      rw [cmosRead, if_pos rfl]
      rfl
    obtain ⟨n, d, hd, rfl⟩ := hback _ (setdate_eq_some.mpr ⟨hr, rfl⟩) _ hstill
    obtain ⟨n', d', hd', rfl⟩ := getdate_store hstill hB
    have hsame := (hd (max n n') (Nat.le_max_left ..)).symm.trans (hd' _ (Nat.le_max_right ..))
    exact (byteBack_year wide d.year).mp (congrArg Rtcdate.year (Option.some.inj hsame)).symm
  · intro hyear
    refine ⟨?_, fun regs' hset clock hstill => ?_⟩
    · constructor
      · intro hsome
        obtain ⟨regs', hset⟩ := Option.isSome_iff_exists.mp hsome
        have hr := (setdate_eq_some.mp hset).1
        exact hr.valid (hyear hr).1 (hyear hr).2
      · intro hr
        exact Option.isSome_iff_exists.mpr ⟨_, setdate_eq_some.mpr ⟨hr.checked, rfl⟩⟩
    · obtain ⟨hr, rfl⟩ := setdate_eq_some.mp hset
      refine (getdate_store hstill hB).mono fun d hd => ?_
      have hdays := days_le (r.year.toNat % 4 = 0) r.month.toNat
      obtain ⟨hs, hm, hh, hmo, hday⟩ := hr
      rw [hd, byteBack_two (by omega), byteBack_two (by omega), byteBack_two (by omega),
        byteBack_two (by omega), byteBack_two (by omega), (byteBack_year wide _).mpr (hyear ⟨hs, hm, hh,
          hmo, hday⟩)]

/-- The last second of 2023. -/
theorem setdate_getdate_2023 : RoundTrip (fun _ _ => 0) ⟨59, 59, 23, 31, 12, 2023⟩ (fun _ => 0) :=
  (setdate_getdate _ _ _ (by decide)).mpr fun _ => by decide

/-- **1999 comes back as 2099**, and the 29th of February 2100, which is no date, is accepted. -/
theorem year_1999_lost : Valid ⟨59, 59, 23, 31, 12, 1999⟩ ∧
    (∃ regs, setdate (fun _ _ => 0) ⟨59, 59, 23, 31, 12, 1999⟩ (fun _ => 0) = some regs ∧
      Still (fun _ => regs) regs ∧
      getdate (fun _ => regs) 1 = some ⟨59, 59, 23, 31, 12, 2099⟩) ∧
    ¬ Valid ⟨0, 0, 0, 29, 2, 2100⟩ ∧
    (setdate (fun _ _ => 0) ⟨0, 0, 0, 29, 2, 2100⟩ (fun _ => 0)).isSome := by
  refine ⟨⟨by decide, by decide, by decide, by decide, by decide⟩, ⟨_, rfl, ⟨fun _ => rfl, fun _ => rfl,
    0, by decide⟩, by decide⟩, fun h => absurd h.day.2 (by decide), by decide⟩

end Xv6.Clock
