import Cajeta.Time.LocalDate
import Mathlib.Data.Int.GCD
import Mathlib.Tactic.Linarith

/-!
# Times of the day, date-times, instants and zones

All arithmetic is in wrapping 64-bit registers. The eight operations that add an amount of a unit
scale it to nanoseconds first.
-/

namespace Cajeta.Time
open Cells Wrapping

def dayNanos : Int := 86400000000000

@[ext] structure LocalTime where
  nanoOfDay : Int
  deriving DecidableEq

namespace LocalTime

/-- The common end of the four operations. -/
def wrapped (total : Int) : LocalTime :=
  let n := total.tmod dayNanos
  ⟨if n < 0 then n + dayNanos else n⟩

def plusNanos (t : LocalTime) (nanos : Int) : LocalTime := wrapped (i64 (t.nanoOfDay + nanos))

def plusSeconds (t : LocalTime) (seconds : Int) : LocalTime :=
  wrapped (i64 (t.nanoOfDay + i64 (seconds * 1000000000)))

def plusMinutes (t : LocalTime) (minutes : Int) : LocalTime :=
  wrapped (i64 (t.nanoOfDay + i64 (minutes * 60000000000)))

def plusHours (t : LocalTime) (hours : Int) : LocalTime :=
  wrapped (i64 (t.nanoOfDay + i64 (hours * 3600000000000)))

end LocalTime

structure Duration where
  nanos : Int
  deriving DecidableEq

structure ZoneOffset where
  totalSeconds : Int
  deriving DecidableEq

@[ext] structure Instant where
  epochSecond : Int
  nano : Int
  deriving DecidableEq

namespace Instant

/-- The common end of the operations that move an instant. -/
def moved (epochSecond total : Int) : Instant :=
  let s := i64 (epochSecond + total.tdiv 1000000000)
  let n := i32 (total.tmod 1000000000)
  if n < 0 then ⟨i64 (s - 1), n + 1000000000⟩ else ⟨s, n⟩

def plusNanos (t : Instant) (nanos : Int) : Instant := moved t.epochSecond (i64 (t.nano + nanos))

def plus (t : Instant) (d : Duration) : Instant := moved t.epochSecond (i64 (t.nano + d.nanos))

def minus (t : Instant) (d : Duration) : Instant := moved t.epochSecond (i64 (t.nano - d.nanos))

def between (start stop : Instant) : Duration :=
  let secs := i64 (stop.epochSecond - start.epochSecond)
  ⟨i64 (i64 (secs * 1000000000) + i32 (stop.nano - start.nano))⟩

end Instant

@[ext] structure LocalDateTime where
  epochDay : Int
  nanoOfDay : Int
  deriving DecidableEq

namespace LocalDateTime

/-- The common end of the four operations. -/
def carried (epochDay total : Int) : LocalDateTime :=
  let carry := total.tdiv dayNanos
  let nod := total.tmod dayNanos
  if nod < 0 then ⟨i64 (epochDay + (carry - 1)), nod + dayNanos⟩ else ⟨i64 (epochDay + carry), nod⟩

def plusNanos (t : LocalDateTime) (nanos : Int) : LocalDateTime :=
  carried t.epochDay (i64 (t.nanoOfDay + nanos))

def plusSeconds (t : LocalDateTime) (seconds : Int) : LocalDateTime :=
  carried t.epochDay (i64 (t.nanoOfDay + i64 (seconds * 1000000000)))

def plusMinutes (t : LocalDateTime) (minutes : Int) : LocalDateTime :=
  carried t.epochDay (i64 (t.nanoOfDay + i64 (minutes * 60000000000)))

def plusHours (t : LocalDateTime) (hours : Int) : LocalDateTime :=
  carried t.epochDay (i64 (t.nanoOfDay + i64 (hours * 3600000000000)))

def getYear (t : LocalDateTime) : Int := civilYear t.epochDay

def getMonthValue (t : LocalDateTime) : Int := civilMonth t.epochDay

def getDayOfMonth (t : LocalDateTime) : Int := civilDay t.epochDay

def getHour (t : LocalDateTime) : Int := i32 (t.nanoOfDay.tdiv 3600000000000)

def getMinute (t : LocalDateTime) : Int := i32 ((t.nanoOfDay.tdiv 60000000000).tmod 60)

def getSecond (t : LocalDateTime) : Int := i32 ((t.nanoOfDay.tdiv 1000000000).tmod 60)

def getNano (t : LocalDateTime) : Int := i32 (t.nanoOfDay.tmod 1000000000)

def toEpochSecond (t : LocalDateTime) (offset : ZoneOffset) : Int :=
  let secs := i64 (i64 (t.epochDay * 86400) + t.nanoOfDay.tdiv 1000000000)
  i64 (secs - offset.totalSeconds)

def toInstant (t : LocalDateTime) (offset : ZoneOffset) : Instant :=
  ⟨t.toEpochSecond offset, i32 (t.nanoOfDay.tmod 1000000000)⟩

end LocalDateTime

/-! ## Zoned date-times -/

@[ext] structure ZonedDateTime where
  epochSecond : Int
  nano : Int
  offsetSeconds : Int
  deriving DecidableEq

namespace ZonedDateTime

def ofInstant (instant : Instant) (offset : ZoneOffset) : ZonedDateTime :=
  ⟨instant.epochSecond, instant.nano, offset.totalSeconds⟩

def ofLocal (ldt : LocalDateTime) (offset : ZoneOffset) : ZonedDateTime :=
  ⟨ldt.toEpochSecond offset, ldt.getNano, offset.totalSeconds⟩

def localEpochDay (epochSecond offsetSeconds : Int) : Int :=
  let localSec := i64 (epochSecond + offsetSeconds)
  let q := localSec.tdiv 86400
  if localSec.tmod 86400 ≠ 0 ∧ localSec < 0 then q - 1 else q

def localNanoOfDay (epochSecond nano offsetSeconds : Int) : Int :=
  let localSec := i64 (epochSecond + offsetSeconds)
  let ed := localEpochDay epochSecond offsetSeconds
  let secOfDay := i64 (localSec - i64 (ed * 86400))
  i64 (i64 (secOfDay * 1000000000) + nano)

def toInstant (z : ZonedDateTime) : Instant := ⟨z.epochSecond, z.nano⟩

def toLocalDateTime (z : ZonedDateTime) : LocalDateTime :=
  ⟨localEpochDay z.epochSecond z.offsetSeconds, localNanoOfDay z.epochSecond z.nano z.offsetSeconds⟩

def getYear (z : ZonedDateTime) : Int := civilYear (localEpochDay z.epochSecond z.offsetSeconds)

def getMonthValue (z : ZonedDateTime) : Int :=
  civilMonth (localEpochDay z.epochSecond z.offsetSeconds)

def getDayOfMonth (z : ZonedDateTime) : Int :=
  civilDay (localEpochDay z.epochSecond z.offsetSeconds)

def getHour (z : ZonedDateTime) : Int :=
  i32 ((localNanoOfDay z.epochSecond z.nano z.offsetSeconds).tdiv 3600000000000)

def getMinute (z : ZonedDateTime) : Int :=
  i32 (((localNanoOfDay z.epochSecond z.nano z.offsetSeconds).tdiv 60000000000).tmod 60)

def getSecond (z : ZonedDateTime) : Int :=
  i32 (((localNanoOfDay z.epochSecond z.nano z.offsetSeconds).tdiv 1000000000).tmod 60)

def getNano (z : ZonedDateTime) : Int := z.nano

def plus (z : ZonedDateTime) (d : Duration) : ZonedDateTime :=
  let total := i64 (z.nano + d.nanos)
  let s := i64 (z.epochSecond + total.tdiv 1000000000)
  let n := i32 (total.tmod 1000000000)
  if n < 0 then ⟨i64 (s - 1), n + 1000000000, z.offsetSeconds⟩ else ⟨s, n, z.offsetSeconds⟩

end ZonedDateTime

/-!
## Adding an amount of a unit

The sum is taken in a 64-bit register before the day is taken out of it. A date-time is right
exactly when the sum has 64 bits. A time of the day forgets whole days, so it is also right when the
sum wraps a number of times that makes whole days.
-/

/-- The units that can be added. -/
inductive ClockUnit where
  | nanos
  | seconds
  | minutes
  | hours
  deriving DecidableEq

def ClockUnit.size : ClockUnit → Int
  | .nanos => 1
  | .seconds => 1000000000
  | .minutes => 60000000000
  | .hours => 3600000000000

def LocalTime.plusUnits (t : LocalTime) : ClockUnit → Int → LocalTime
  | .nanos => t.plusNanos
  | .seconds => t.plusSeconds
  | .minutes => t.plusMinutes
  | .hours => t.plusHours

def LocalDateTime.plusUnits (t : LocalDateTime) : ClockUnit → Int → LocalDateTime
  | .nanos => t.plusNanos
  | .seconds => t.plusSeconds
  | .minutes => t.plusMinutes
  | .hours => t.plusHours

def Normalized (nanoOfDay : Int) : Prop := 0 ≤ nanoOfDay ∧ nanoOfDay < dayNanos

variable {unit : ClockUnit} {amount : Int}

theorem LocalTime.wrapped_eq (total : Int) : LocalTime.wrapped total = ⟨total % dayNanos⟩ := by
  obtain ⟨-, hmod⟩ := floor_eq total (d := dayNanos) (by decide)
  unfold LocalTime.wrapped
  dsimp only
  rw [hmod]

theorem LocalDateTime.carried_eq (epochDay total : Int) :
    LocalDateTime.carried epochDay total =
      ⟨i64 (epochDay + total / dayNanos), total % dayNanos⟩ := by
  obtain ⟨hdiv, hmod⟩ := floor_eq total (d := dayNanos) (by decide)
  unfold LocalDateTime.carried
  dsimp only
  split at hdiv
  · next hneg =>
    rw [if_pos hneg] at hmod ⊢
    rw [← hdiv, hmod]
  · next hpos =>
    rw [if_neg hpos] at hmod ⊢
    rw [← hdiv, hmod]

theorem LocalTime.plusUnits_eq (t : LocalTime) (unit : ClockUnit) (amount : Int) :
    t.plusUnits unit amount = ⟨i64 (t.nanoOfDay + amount * unit.size) % dayNanos⟩ := by
  cases unit with
  | nanos =>
    rw [ClockUnit.size, Int.mul_one]
    exact LocalTime.wrapped_eq _
  | seconds | minutes | hours =>
    rw [← i64_add_i64]
    exact LocalTime.wrapped_eq _

theorem LocalDateTime.plusUnits_eq (t : LocalDateTime) (unit : ClockUnit) (amount : Int) :
    t.plusUnits unit amount = ⟨i64 (t.epochDay + i64 (t.nanoOfDay + amount * unit.size) / dayNanos),
      i64 (t.nanoOfDay + amount * unit.size) % dayNanos⟩ := by
  cases unit with
  | nanos =>
    rw [ClockUnit.size, Int.mul_one]
    exact LocalDateTime.carried_eq _ _
  | seconds | minutes | hours =>
    rw [← i64_add_i64 t.nanoOfDay]
    exact LocalDateTime.carried_eq _ _

def LocalDateTime.exact (t : LocalDateTime) (unit : ClockUnit) (amount : Int) : LocalDateTime :=
  ⟨t.epochDay + (t.nanoOfDay + amount * unit.size) / dayNanos,
    (t.nanoOfDay + amount * unit.size) % dayNanos⟩

theorem wraps_lt (hnod : Normalized nod) (hamount : Fits64 amount) (hfits : Fits64 w)
    (hwrap : nod + amount * unit.size = w + 18446744073709551616 * k) :
    -dayNanos < k ∧ k < dayNanos := by
  unfold Normalized dayNanos at hnod
  unfold Fits64 at hamount hfits
  unfold dayNanos
  cases unit <;> dsimp only [ClockUnit.size] at hwrap <;> omega

theorem same_nano (hmod : w % dayNanos = total % dayNanos) :
    total - w = 86400000000000 * (total / dayNanos - w / dayNanos) := by
  have hw := Int.mul_ediv_add_emod w dayNanos
  have htotal := Int.mul_ediv_add_emod total dayNanos
  rw [Int.mul_sub]
  change 86400000000000 * (w / dayNanos) + w % dayNanos = w at hw
  change 86400000000000 * (total / dayNanos) + total % dayNanos = total at htotal
  omega

theorem LocalDateTime.plusUnits_exact_iff (t : LocalDateTime) (hnod : Normalized t.nanoOfDay)
    (hamount : Fits64 amount) (hday : Fits64 (t.exact unit amount).epochDay) :
    t.plusUnits unit amount = t.exact unit amount ↔
      Fits64 (t.nanoOfDay + amount * unit.size) := by
  unfold LocalDateTime.exact at hday ⊢
  dsimp only at hday
  rw [LocalDateTime.plusUnits_eq]
  constructor
  · intro heq
    obtain ⟨k, hk, hfits⟩ := exists_wrap (t.nanoOfDay + amount * unit.size)
    have hlt := wraps_lt hnod hamount hfits hk
    obtain ⟨w, hw⟩ : ∃ w, w = i64 (t.nanoOfDay + amount * unit.size) := ⟨_, rfl⟩
    obtain ⟨total, htotal⟩ : ∃ total, total = t.nanoOfDay + amount * unit.size := ⟨_, rfl⟩
    rw [← hw] at hk hfits heq
    rw [← htotal] at hk heq ⊢
    have hdays : i64 (t.epochDay + w / dayNanos) = t.epochDay + total / dayNanos :=
      congrArg LocalDateTime.epochDay heq
    have hnanos : w % dayNanos = total % dayNanos := congrArg LocalDateTime.nanoOfDay heq
    obtain ⟨j, hj, -⟩ := exists_wrap (t.epochDay + w / dayNanos)
    rw [hdays] at hj
    have hapart := same_nano hnanos
    clear hw htotal heq hdays hday hnod hamount hnanos
    generalize w / dayNanos = before at hj hapart
    generalize total / dayNanos = after at hj hapart
    unfold dayNanos at hlt
    -- the days differ by a multiple of 2^64, so the wraps are a multiple of the nanoseconds of a
    -- day
    have hwraps : k = -86400000000000 * j := by omega
    have hzero : k = 0 := by omega
    have heq : total = w := by omega
    rw [heq]
    exact hfits
  · intro hfits
    rw [i64_eq hfits, i64_eq hday]

/-- The number of times that a sum wraps. -/
def wraps (total : Int) : Int := (total + 9223372036854775808) / 18446744073709551616

theorem LocalTime.plusUnits_exact_iff (t : LocalTime) (unit : ClockUnit) (amount : Int) :
    t.plusUnits unit amount = ⟨(t.nanoOfDay + amount * unit.size) % dayNanos⟩ ↔
      1318359375 ∣ wraps (t.nanoOfDay + amount * unit.size) := by
  rw [LocalTime.plusUnits_eq]
  obtain ⟨k, hk, hfits⟩ := exists_wrap (t.nanoOfDay + amount * unit.size)
  obtain ⟨w, hw⟩ : ∃ w, w = i64 (t.nanoOfDay + amount * unit.size) := ⟨_, rfl⟩
  obtain ⟨total, htotal⟩ : ∃ total, total = t.nanoOfDay + amount * unit.size := ⟨_, rfl⟩
  rw [← hw] at hk hfits ⊢
  rw [← htotal] at hk ⊢
  have hwraps : wraps total = k := by
    unfold wraps
    unfold Fits64 at hfits
    omega
  rw [hwraps, LocalTime.mk.injEq]
  constructor
  · intro hmod
    have hapart := same_nano hmod
    have hdvd : (1318359375 : Int) ∣ 281474976710656 * k := by
      refine ⟨total / dayNanos - w / dayNanos, ?_⟩
      have hscaled : (65536 : Int) * (281474976710656 * k) =
          65536 * (1318359375 * (total / dayNanos - w / dayNanos)) := by linarith
      exact Int.eq_of_mul_eq_mul_left (by decide) hscaled
    exact Int.dvd_of_dvd_mul_right_of_gcd_one hdvd (by decide)
  · rintro ⟨c, rfl⟩
    have hdays : total = w + dayNanos * (281474976710656 * c) := by
      unfold dayNanos
      omega
    rw [hdays, Int.add_mul_emod_self_left]

/-- When the eight operations are exact. A date-time whose exact day does not fit is not asked for.
-/
theorem plusUnits_exact (t : LocalDateTime) (amount : Int) (hnod : Normalized t.nanoOfDay)
    (hamount : Fits64 amount) :
    (∀ unit, Fits64 (t.exact unit amount).epochDay →
      (t.plusUnits unit amount = t.exact unit amount ↔
        Fits64 (t.nanoOfDay + amount * unit.size))) ∧
    ∀ unit, (LocalTime.mk t.nanoOfDay).plusUnits unit amount =
        ⟨(t.nanoOfDay + amount * unit.size) % dayNanos⟩ ↔
      1318359375 ∣ wraps (t.nanoOfDay + amount * unit.size) :=
  ⟨fun _ hday => t.plusUnits_exact_iff hnod hamount hday,
    fun unit => (LocalTime.mk t.nanoOfDay).plusUnits_exact_iff unit amount⟩

/-- The last nanosecond of a day and one unit more. -/
theorem plusUnits_exact_midnight :
    (∀ unit, Fits64 ((LocalDateTime.mk 0 86399999999999).exact unit 1).epochDay →
      ((LocalDateTime.mk 0 86399999999999).plusUnits unit 1 =
        (LocalDateTime.mk 0 86399999999999).exact unit 1 ↔
          Fits64 (86399999999999 + 1 * unit.size))) ∧
    ∀ unit, (LocalTime.mk 86399999999999).plusUnits unit 1 =
        ⟨(86399999999999 + 1 * unit.size) % dayNanos⟩ ↔
      1318359375 ∣ wraps (86399999999999 + 1 * unit.size) :=
  plusUnits_exact ⟨0, 86399999999999⟩ 1 ⟨by decide, by decide⟩ (by decide)

/-- 300 years of hours after the epoch. -/
theorem plusHours_centuries : Normalized (LocalDateTime.mk 0 0).nanoOfDay ∧ Fits64 2629800 ∧
    Fits64 ((LocalDateTime.mk 0 0).exact .hours 2629800).epochDay ∧
    (LocalDateTime.mk 0 0).plusHours 2629800 ≠ (LocalDateTime.mk 0 0).exact .hours 2629800 ∧
    (LocalTime.mk 0).plusHours 2629800 ≠ ⟨2629800 * 3600000000000 % dayNanos⟩ := by
  refine ⟨⟨by decide, by decide⟩, by decide, by decide, by decide, by decide⟩

end Cajeta.Time
