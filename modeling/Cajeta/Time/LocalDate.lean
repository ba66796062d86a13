import Cajeta.Lib.Cells
import Cajeta.Lib.Bytes
import Cajeta.Lib.Gregorian

/-!
# Calendar dates

A date is a number of days since 1970-01-01. The arithmetic is that of the source: 64-bit registers
that wrap, division toward zero, and a cast to 32 bits where a year leaves a register.
-/

namespace Cajeta.Time
open Cells Wrapping

/-- The message of a `DateTimeException`. -/
abbrev DateTimeM := Except String

def isLeapYear (year : Int) : Bool :=
  if year.tmod 4 ≠ 0 then false
  else if year.tmod 100 ≠ 0 then true
  else year.tmod 400 = 0

def lengthOfMonth (year month : Int) : Int :=
  if month = 2 then
    if isLeapYear year then 29 else 28
  else if month = 4 ∨ month = 6 ∨ month = 9 ∨ month = 11 then 30
  else 31

/-- Nothing can wrap here: the three fields have 32 bits. -/
def daysFromCivil (year month day : Int) : Int :=
  let y := if month ≤ 2 then year - 1 else year
  let era := if y ≥ 0 then y.tdiv 400 else (y - 399).tdiv 400
  let yoe := y - era * 400
  let mp := if month > 2 then month - 3 else month + 9
  let doy := (153 * mp + 2).tdiv 5 + day - 1
  let doe := yoe * 365 + yoe.tdiv 4 - yoe.tdiv 100 + doy
  era * 146097 + doe - 719468

/-! The prologue that the three accessors share. -/

def civilEra (z : Int) : Int :=
  let zz := i64 (z + 719468)
  if zz ≥ 0 then zz.tdiv 146097 else (i64 (zz - 146096)).tdiv 146097

def civilDoe (z : Int) : Int := i64 (i64 (z + 719468) - civilEra z * 146097)

def civilYoe (z : Int) : Int :=
  let doe := civilDoe z
  (doe - doe.tdiv 1460 + doe.tdiv 36524 - doe.tdiv 146096).tdiv 365

def civilDoy (z : Int) : Int :=
  let yoe := civilYoe z
  civilDoe z - (365 * yoe + yoe.tdiv 4 - yoe.tdiv 100)

def civilMp (z : Int) : Int := (5 * civilDoy z + 2).tdiv 153

def civilYear (z : Int) : Int :=
  let y := civilYoe z + civilEra z * 400
  let mp := civilMp z
  let m := if mp < 10 then mp + 3 else mp - 9
  i32 (if m ≤ 2 then y + 1 else y)

def civilMonth (z : Int) : Int :=
  let mp := civilMp z
  if mp < 10 then i32 (mp + 3) else i32 (mp - 9)

def civilDay (z : Int) : Int :=
  let mp := civilMp z
  i32 (civilDoy z - (153 * mp + 2).tdiv 5 + 1)

/-! ## Dates -/

@[ext] structure LocalDate where
  epochDay : Int
  deriving DecidableEq

def dayOfWeek (epochDay : Int) : Int :=
  let dow := (i64 (epochDay + 3)).tmod 7
  let dow := if dow < 0 then dow + 7 else dow
  i32 (dow + 1)

def clampDay (year month d : Int) : Int :=
  let maxD := lengthOfMonth year month
  if d > maxD then maxD else d

structure Period where
  years : Int
  months : Int
  days : Int

def Period.toTotalMonths (p : Period) : Int := i64 (p.years * 12 + p.months)

namespace LocalDate

def of (year month day : Int) : DateTimeM LocalDate :=
  if month < 1 ∨ month > 12 then .error "LocalDate: month out of range 1..12"
  else if day < 1 ∨ day > lengthOfMonth year month then
    .error "LocalDate: day out of range for month"
  else .ok ⟨daysFromCivil year month day⟩

def getYear (d : LocalDate) : Int := civilYear d.epochDay

def getMonthValue (d : LocalDate) : Int := civilMonth d.epochDay

def getDayOfMonth (d : LocalDate) : Int := civilDay d.epochDay

def getDayOfWeek (d : LocalDate) : Int := dayOfWeek d.epochDay

def plusDays (d : LocalDate) (days : Int) : LocalDate := ⟨i64 (d.epochDay + days)⟩

def plusMonths (d : LocalDate) (months : Int) : LocalDate :=
  let y := d.getYear
  let mi := i64 (d.getMonthValue - 1 + months)
  let ny := i64 (y + mi.tdiv 12)
  let nm := mi.tmod 12
  let ny' := if nm < 0 then i64 (ny - 1) else ny
  let nmo := i32 ((if nm < 0 then nm + 12 else nm) + 1)
  ⟨daysFromCivil (i32 ny') nmo (clampDay (i32 ny') nmo d.getDayOfMonth)⟩

def plusYears (d : LocalDate) (years : Int) : LocalDate :=
  let m := d.getMonthValue
  let ny := i64 (d.getYear + years)
  ⟨daysFromCivil (i32 ny) m (clampDay (i32 ny) m d.getDayOfMonth)⟩

def plus (d : LocalDate) (p : Period) : LocalDate :=
  let totalMonths := i64 (i64 (d.getYear * 12 + (d.getMonthValue - 1)) + p.toTotalMonths)
  let ny := totalMonths.tdiv 12
  let nm := totalMonths.tmod 12
  let ny' := if nm < 0 then i64 (ny - 1) else ny
  let nmo := i32 ((if nm < 0 then nm + 12 else nm) + 1)
  ⟨i64 (daysFromCivil (i32 ny') nmo (clampDay (i32 ny') nmo d.getDayOfMonth) + p.days)⟩

end LocalDate

end Cajeta.Time

/-!
## The civil calendar is the Gregorian calendar

The epoch day of three fields is the number of the date, counted from 1970-01-01, and the three
accessors are the fields of the date with that number.
-/

namespace Cajeta.Time
open Cells Gregorian Gregorian.Date Wrapping

theorem i32_of_fits (h : Fits32 x) : i32 x = x := by
  unfold Fits32 at h
  exact i32_eq (by omega) (by omega)

theorem tmod_eq_zero_iff (y d : Int) : y.tmod d = 0 ↔ y % d = 0 := by
  rw [← Int.dvd_iff_tmod_eq_zero, Int.dvd_iff_emod_eq_zero]

theorem isLeapYear_iff (y : Int) : isLeapYear y = true ↔ Leap y := by
  have h4 := tmod_eq_zero_iff y 4
  have h100 := tmod_eq_zero_iff y 100
  have h400 := tmod_eq_zero_iff y 400
  unfold isLeapYear Leap
  by_cases hfour : y % 4 = 0
  · by_cases hhundred : y % 100 = 0
    · rw [if_neg (not_not.mpr (h4.mpr hfour)), if_neg (not_not.mpr (h100.mpr hhundred)),
        decide_eq_true_eq, h400]
      simp [hfour, hhundred]
    · rw [if_neg (not_not.mpr (h4.mpr hfour)), if_pos fun h => hhundred (h100.mp h)]
      simp [hfour, hhundred]
  · rw [if_pos fun h => hfour (h4.mp h)]
    simp [hfour]

theorem lengthOfMonth_eq (y m : Int) : lengthOfMonth y m = monthLength y m := by
  unfold lengthOfMonth monthLength
  simp only [isLeapYear_iff]

theorem daysFromCivil_eq (hm : 1 ≤ m ∧ m ≤ 12) (y d : Int) :
    daysFromCivil y m d = numberOf y m d - 719468 := by
  have hera : (if marchYear y m ≥ 0 then (marchYear y m).tdiv 400
      else (marchYear y m - 399).tdiv 400) = marchYear y m / 400 :=
    era_eq (marchYear y m) (d := 400) (by omega)
  have hmonth : (if m > 2 then m - 3 else m + 9) = marchMonth m := by
    unfold marchMonth
    split_ifs <;> omega
  have hmem := marchMonth_mem hm
  have hstart : (153 * marchMonth m + 2).tdiv 5 = monthStart (marchMonth m) :=
    tdiv_of_nonneg (by omega) 5
  have hyoe : 0 ≤ marchYear y m - marchYear y m / 400 * 400 := by omega
  unfold daysFromCivil
  dsimp only
  rw [hmonth, hstart, ← marchYear, hera, tdiv_of_nonneg hyoe, tdiv_of_nonneg hyoe]
  unfold numberOf yearStart
  omega

section

variable {z : Int} {date : Date}

theorem number_parts (date : Date) : ∃ r, 0 ≤ r ∧
    r < 365 + (if Leap (marchYear date.year date.month % 400 + 1) then 1 else 0) ∧
    r = monthStart (marchMonth date.month) + date.day - 1 ∧
    date.number = 146097 * (marchYear date.year date.month / 400) +
      (yearStart (marchYear date.year date.month % 400) + r) := by
  have hday := date.dayOfYear_mem
  have hera := yearStart_era (marchYear date.year date.month / 400)
    (marchYear date.year date.month % 400)
  have hleap := leap_era (marchYear date.year date.month / 400)
    (marchYear date.year date.month % 400 + 1)
  rw [← Int.add_assoc] at hleap
  rw [Int.mul_ediv_add_emod] at hera hleap
  refine ⟨_, hday.1, ?_, rfl, ?_⟩
  · simp only [← hleap]
    exact hday.2
  · unfold number numberOf
    omega

theorem dayOfEra_mem (hyoe : 0 ≤ yoe ∧ yoe < 400) (hr : 0 ≤ r)
    (hr' : r < 365 + if Leap (yoe + 1) then 1 else 0) :
    0 ≤ yearStart yoe + r ∧ yearStart yoe + r < 146097 := by
  have hsucc := yearStart_succ yoe
  have hmono : yearStart (yoe + 1) ≤ 146097 := by
    unfold yearStart
    omega
  have hstart : 0 ≤ yearStart yoe := by
    unfold yearStart
    omega
  omega

theorem civil_prologue (hnumber : date.number = z + 719468) (hfits : Fits64 (z + 719468))
    (hfits' : Fits64 (z + 719468 - 146096)) :
    civilEra z = marchYear date.year date.month / 400 ∧
      civilYoe z = marchYear date.year date.month % 400 ∧
      civilDoy z = monthStart (marchMonth date.month) + date.day - 1 ∧
      civilMp z = marchMonth date.month := by
  obtain ⟨r, hr, hr', hday, hparts⟩ := number_parts date
  obtain ⟨yoe, hyoe⟩ : ∃ yoe, yoe = marchYear date.year date.month % 400 := ⟨_, rfl⟩
  rw [← hyoe] at hr' hparts ⊢
  have hmem : 0 ≤ yoe ∧ yoe < 400 := by omega
  have hdoe := dayOfEra_mem hmem hr hr'
  have hera : civilEra z = marchYear date.year date.month / 400 := by
    have hfloor := era_eq (z + 719468) (d := 146097) (by omega)
    unfold civilEra
    dsimp only
    rw [i64_eq hfits, i64_eq hfits']
    exact hfloor.trans (by omega)
  have hdoe' : civilDoe z = yearStart yoe + r := by
    have hsmall : z + 719468 - civilEra z * 146097 = yearStart yoe + r := by omega
    unfold civilDoe
    rw [i64_eq hfits, hsmall]
    exact i64_eq (by unfold Fits64; omega)
  have hyoe' : civilYoe z = yoe := by
    have hyear := yearOfEra_eq hmem hr hr' rfl
    unfold civilYoe
    dsimp only
    rw [hdoe', tdiv_of_nonneg hdoe.1, tdiv_of_nonneg hdoe.1, tdiv_of_nonneg hdoe.1,
      tdiv_of_nonneg (by omega)]
    exact hyear
  have hdoy : civilDoy z = r := by
    unfold civilDoy
    dsimp only
    rw [hyoe', hdoe', tdiv_of_nonneg hmem.1, tdiv_of_nonneg hmem.1]
    unfold yearStart
    omega
  have hmp : civilMp z = marchMonth date.month := by
    have hmonth := marchMonth_mem date.month_mem
    have hlength := monthStart_length (y := date.year) date.month_mem
    have hdate := date.day_mem
    have hle : r ≤ 365 := by split at hr' <;> omega
    unfold civilMp
    rw [hdoy, tdiv_of_nonneg (by omega), hday]
    by_cases hlast : marchMonth date.month = 11
    · rw [hlast] at hday ⊢
      unfold monthStart at hday ⊢
      omega
    · rw [if_neg hlast] at hlength
      unfold monthStart at hlength ⊢
      omega
  exact ⟨hera, hyoe', hdoy.trans hday, hmp⟩

theorem number_bounds (date : Date) (hyear : Fits32 date.year) :
    -800000000000 ≤ date.number ∧ date.number ≤ 800000000000 := by
  have hday := date.dayOfYear_mem
  unfold Fits32 at hyear
  unfold number numberOf yearStart
  have hmarch : date.year - 1 ≤ marchYear date.year date.month ∧
      marchYear date.year date.month ≤ date.year := by
    unfold marchYear
    split_ifs <;> omega
  split_ifs at hday <;> omega

theorem civil_fields (date : Date) (hyear : Fits32 date.year)
    (hnumber : date.number = z + 719468) :
    civilYear z = date.year ∧ civilMonth z = date.month ∧ civilDay z = date.day := by
  have hbounds := number_bounds date hyear
  obtain ⟨hera, hyoe, hdoy, hmp⟩ := civil_prologue hnumber (by unfold Fits64; omega)
    (by unfold Fits64; omega)
  have hmonth := date.month_mem
  have hday := date.day_mem
  have hlong := monthLength_le date.year date.month
  have hmarch := marchMonth_mem hmonth
  have hm : (if marchMonth date.month < 10 then marchMonth date.month + 3
      else marchMonth date.month - 9) = date.month := by
    unfold marchMonth
    split_ifs <;> omega
  refine ⟨?_, ?_, ?_⟩
  · unfold civilYear
    dsimp only
    rw [hera, hyoe, hmp, hm]
    refine (congrArg i32 ?_).trans (i32_of_fits hyear)
    unfold marchYear
    split_ifs <;> omega
  · unfold civilMonth
    dsimp only
    rw [hmp, ← apply_ite i32, hm]
    exact i32_of_fits (by unfold Fits32; omega)
  · unfold civilDay
    dsimp only
    rw [hdoy, hmp, tdiv_of_nonneg (by omega), i32_of_fits]
    · unfold monthStart
      omega
    · unfold Fits32 monthStart
      omega

/-- The fields of a date that the source accepts: the year has 32 bits. -/
def Valid (year month day : Int) : Prop :=
  Fits32 year ∧ (1 ≤ month ∧ month ≤ 12) ∧ 1 ≤ day ∧ day ≤ lengthOfMonth year month

def Valid.toDate (h : Valid y m d) : Date := ⟨y, m, d, h.2.1, by
  have hday := h.2.2
  rwa [lengthOfMonth_eq] at hday⟩

theorem Valid.number (h : Valid y m d) : h.toDate.number = daysFromCivil y m d + 719468 := by
  rw [daysFromCivil_eq h.2.1]
  change numberOf y m d = _
  omega

theorem valid_of_date (date : Date) (hyear : Fits32 date.year) :
    Valid date.year date.month date.day := by
  refine ⟨hyear, date.month_mem, ?_⟩
  rw [lengthOfMonth_eq]
  exact date.day_mem

/-- The year of an epoch day has 32 bits. -/
def YearFits (z : Int) : Prop := ∃ date : Date, Fits32 date.year ∧ date.number = z + 719468

theorem civil_daysFromCivil (h : Valid y m d) :
    civilYear (daysFromCivil y m d) = y ∧ civilMonth (daysFromCivil y m d) = m ∧
      civilDay (daysFromCivil y m d) = d :=
  civil_fields h.toDate h.1 h.number

theorem civil_valid (h : YearFits z) : Valid (civilYear z) (civilMonth z) (civilDay z) ∧
    daysFromCivil (civilYear z) (civilMonth z) (civilDay z) = z := by
  obtain ⟨date, hyear, hnumber⟩ := h
  obtain ⟨hy, hm, hd⟩ := civil_fields date hyear hnumber
  rw [hy, hm, hd, daysFromCivil_eq date.month_mem]
  refine ⟨valid_of_date date hyear, ?_⟩
  unfold Date.number at hnumber
  omega

theorem YearFits.bounds (h : YearFits z) : -900000000000 ≤ z ∧ z ≤ 900000000000 := by
  obtain ⟨date, hyear, hnumber⟩ := h
  have hbounds := number_bounds date hyear
  omega

theorem YearFits.of_valid (h : Valid y m d) : YearFits (daysFromCivil y m d) :=
  ⟨h.toDate, h.1, h.number⟩

theorem of_eq (h : Valid y m d) : LocalDate.of y m d = .ok ⟨daysFromCivil y m d⟩ := by
  obtain ⟨-, hm, hd⟩ := h
  rw [LocalDate.of, if_neg (by omega), if_neg (by omega)]

def nextDay (y m d : Int) : Int × Int × Int :=
  if d < lengthOfMonth y m then (y, m, d + 1)
  else if m < 12 then (y, m + 1, 1)
  else (y + 1, 1, 1)

theorem daysFromCivil_nextDay (h : Valid y m d) :
    daysFromCivil (nextDay y m d).1 (nextDay y m d).2.1 (nextDay y m d).2.2 =
      daysFromCivil y m d + 1 := by
  have hnext := number_next h.toDate
  have hnumber := h.number
  have hfields : (h.toDate.next.year, h.toDate.next.month, h.toDate.next.day) = nextDay y m d := by
    unfold nextDay Date.next
    rw [lengthOfMonth_eq]
    unfold Valid.toDate
    dsimp only
    split_ifs <;> rfl
  rw [← hfields]
  dsimp only
  rw [daysFromCivil_eq h.toDate.next.month_mem]
  unfold Date.number at hnext
  unfold Date.number at hnumber
  omega

/-- Earlier in the calendar, by the fields. -/
def Earlier (y m d y' m' d' : Int) : Prop :=
  y < y' ∨ y = y' ∧ (m < m' ∨ m = m' ∧ d < d')

theorem daysFromCivil_lt_iff (h : Valid y m d) (h' : Valid y' m' d') :
    daysFromCivil y m d < daysFromCivil y' m' d' ↔ Earlier y m d y' m' d' := by
  have hlt := number_lt_iff (a := h.toDate) (b := h'.toDate)
  rw [h.number, h'.number] at hlt
  exact Iff.trans (by omega) hlt

/-! ## Days of the week -/

theorem dayOfWeek_eq (h : Fits64 (z + 3)) : dayOfWeek z = (z + 3) % 7 + 1 := by
  obtain ⟨-, hmod⟩ := floor_eq (z + 3) (d := 7) (by omega)
  have hlo := Int.emod_nonneg (z + 3) (show (7 : Int) ≠ 0 by omega)
  have hhi := Int.emod_lt_of_pos (z + 3) (show (0 : Int) < 7 by omega)
  unfold dayOfWeek
  dsimp only
  rw [i64_eq h, hmod]
  exact i32_of_fits (by unfold Fits32; omega)

theorem dayOfWeek_succ (h : Fits64 (z + 3)) (h' : Fits64 (z + 1 + 3)) :
    dayOfWeek (z + 1) = if dayOfWeek z = 7 then 1 else dayOfWeek z + 1 := by
  rw [dayOfWeek_eq h, dayOfWeek_eq h']
  split <;> omega

structure CivilBijection : Prop where
  fields : ∀ y m d, Valid y m d → civilYear (daysFromCivil y m d) = y ∧
    civilMonth (daysFromCivil y m d) = m ∧ civilDay (daysFromCivil y m d) = d
  days : ∀ z, YearFits z →
    LocalDate.of (civilYear z) (civilMonth z) (civilDay z) = .ok ⟨z⟩
  ordered : ∀ y m d y' m' d', Valid y m d → Valid y' m' d' →
    (daysFromCivil y m d < daysFromCivil y' m' d' ↔ Earlier y m d y' m' d')
  consecutive : ∀ y m d, Valid y m d →
    daysFromCivil (nextDay y m d).1 (nextDay y m d).2.1 (nextDay y m d).2.2 =
      daysFromCivil y m d + 1
  week : ∀ d : LocalDate, YearFits d.epochDay → (1 ≤ d.getDayOfWeek ∧ d.getDayOfWeek ≤ 7) ∧
    (d.plusDays 1).getDayOfWeek = if d.getDayOfWeek = 7 then 1 else d.getDayOfWeek + 1

/-- The civil-date conversion is an order-preserving bijection. -/
theorem civil_bijection : CivilBijection where
  fields _ _ _ h := civil_daysFromCivil h
  days z h := by
    obtain ⟨hvalid, hdays⟩ := civil_valid h
    rw [of_eq hvalid, hdays]
  ordered _ _ _ _ _ _ h h' := daysFromCivil_lt_iff h h'
  consecutive _ _ _ h := daysFromCivil_nextDay h
  week d h := by
    have hbounds := h.bounds
    have hnow : Fits64 (d.epochDay + 3) := by unfold Fits64; omega
    have hthen : Fits64 (d.epochDay + 1 + 3) := by unfold Fits64; omega
    have hplus : i64 (d.epochDay + 1) = d.epochDay + 1 := i64_eq (by unfold Fits64; omega)
    unfold LocalDate.getDayOfWeek LocalDate.plusDays
    dsimp only
    rw [hplus]
    refine ⟨?_, dayOfWeek_succ hnow hthen⟩
    rw [dayOfWeek_eq hnow]
    omega

end

end Cajeta.Time

/-!
## Adding months

Months are counted through from the year 0 on. The three ways to add months go to the same month, by
the floor of the same number, and take the same day of it.
-/

namespace Cajeta.Time
open Cells Wrapping

variable {d : LocalDate} {k : Int}

def LocalDate.monthIndex (d : LocalDate) : Int := 12 * d.getYear + (d.getMonthValue - 1)

def inMonth (index day : Int) : LocalDate :=
  ⟨daysFromCivil (index / 12) (index % 12 + 1)
    (min day (lengthOfMonth (index / 12) (index % 12 + 1)))⟩

theorem clampDay_eq (year month d : Int) :
    clampDay year month d = min d (lengthOfMonth year month) := by
  unfold clampDay
  dsimp only
  split <;> omega

theorem LocalDate.fields_valid (h : YearFits d.epochDay) :
    Valid d.getYear d.getMonthValue d.getDayOfMonth := (civil_valid h).1

theorem inMonth_of_parts (hyear : Fits32 (index / 12)) (hny : ny = index / 12)
    (hnm : nm = index % 12) (day : Int) :
    LocalDate.mk (daysFromCivil (i32 ny) (i32 (nm + 1)) (clampDay (i32 ny) (i32 (nm + 1)) day)) =
      inMonth index day := by
  have hmonth : i32 (index % 12 + 1) = index % 12 + 1 := i32_of_fits (by unfold Fits32; omega)
  rw [hny, hnm, i32_of_fits hyear, hmonth, clampDay_eq]
  rfl

theorem plusMonths_eq (h : YearFits d.epochDay) (hyear : Fits32 ((d.monthIndex + k) / 12)) :
    d.plusMonths k = inMonth (d.monthIndex + k) d.getDayOfMonth := by
  obtain ⟨hy, hm, -⟩ := d.fields_valid h
  unfold LocalDate.monthIndex at hyear ⊢
  unfold Fits32 at hy hyear
  have hmi : i64 (d.getMonthValue - 1 + k) = d.getMonthValue - 1 + k :=
    i64_eq (by unfold Fits64; omega)
  obtain ⟨hdiv, hmod⟩ := floor_eq (d.getMonthValue - 1 + k) (d := 12) (by omega)
  obtain ⟨hsum, -⟩ := tdiv_add_tmod (d.getMonthValue - 1 + k) (d := 12) (by omega)
  have hlt := Int.tmod_lt_of_pos (d.getMonthValue - 1 + k) (show (0 : Int) < 12 by omega)
  have hny : i64 (d.getYear + (d.getMonthValue - 1 + k).tdiv 12) =
      d.getYear + (d.getMonthValue - 1 + k).tdiv 12 := i64_eq (by
    unfold Fits64
    split at hdiv <;> omega)
  have hny' : i64 (d.getYear + (d.getMonthValue - 1 + k).tdiv 12 - 1) =
      d.getYear + (d.getMonthValue - 1 + k).tdiv 12 - 1 := i64_eq (by
    unfold Fits64
    split at hdiv <;> omega)
  unfold LocalDate.plusMonths
  dsimp only
  rw [hmi, hny, hny']
  refine inMonth_of_parts (by unfold Fits32; omega) ?_ ?_ _
  · split at hdiv <;> omega
  · split at hmod <;> omega

theorem plusYears_eq (h : YearFits d.epochDay) (hyear : Fits32 ((d.monthIndex + 12 * years) / 12)) :
    d.plusYears years = inMonth (d.monthIndex + 12 * years) d.getDayOfMonth := by
  obtain ⟨hy, hm, -⟩ := d.fields_valid h
  unfold LocalDate.monthIndex at hyear ⊢
  have hdiv : (12 * d.getYear + (d.getMonthValue - 1) + 12 * years) / 12 = d.getYear + years := by
    omega
  have hmod : (12 * d.getYear + (d.getMonthValue - 1) + 12 * years) % 12 + 1 = d.getMonthValue := by
    omega
  rw [hdiv] at hyear
  unfold LocalDate.plusYears inMonth
  dsimp only
  rw [hdiv, hmod, i64_eq hyear.fits64, i32_of_fits hyear, clampDay_eq]

theorem plus_eq (h : YearFits d.epochDay) (p : Period)
    (hyear : Fits32 ((d.monthIndex + (12 * p.years + p.months)) / 12)) :
    d.plus p =
      (inMonth (d.monthIndex + (12 * p.years + p.months)) d.getDayOfMonth).plusDays p.days := by
  obtain ⟨hy, hm, -⟩ := d.fields_valid h
  obtain ⟨index, hindex⟩ : ∃ index, index = d.monthIndex + (12 * p.years + p.months) := ⟨_, rfl⟩
  rw [← hindex] at hyear ⊢
  unfold LocalDate.monthIndex at hindex
  unfold Fits32 at hy hyear
  have htotal : i64 (i64 (d.getYear * 12 + (d.getMonthValue - 1)) + p.toTotalMonths) = index := by
    unfold Period.toTotalMonths
    rw [i64_add_i64, i64_i64_add]
    have heq : d.getYear * 12 + (d.getMonthValue - 1) + (p.years * 12 + p.months) =
      index := by omega
    rw [heq]
    exact i64_eq (by unfold Fits64; omega)
  obtain ⟨hdiv, hmod⟩ := floor_eq index (d := 12) (by omega)
  have hny : i64 (index.tdiv 12 - 1) = index.tdiv 12 - 1 := i64_eq (by
    unfold Fits64
    split at hdiv <;> omega)
  unfold LocalDate.plus
  dsimp only
  rw [htotal, hny]
  have hyear : Fits32 (index / 12) := by unfold Fits32; omega
  have hmonth := inMonth_of_parts hyear hdiv hmod d.getDayOfMonth
  unfold LocalDate.plusDays
  rw [← hmonth]

theorem inMonth_valid (hyear : Fits32 (index / 12)) (hday : 1 ≤ day) :
    Valid (index / 12) (index % 12 + 1)
      (min day (lengthOfMonth (index / 12) (index % 12 + 1))) := by
  have hpos := Gregorian.monthLength_pos (index / 12) (index % 12 + 1)
  rw [← lengthOfMonth_eq] at hpos
  exact ⟨hyear, by omega, by omega, by omega⟩

/-- What adding months to a date comes to. A year that the sum leads to has to have 32 bits. -/
structure MonthLaws (d : LocalDate) : Prop where
  period : ∀ p : Period, Fits32 ((d.monthIndex + (12 * p.years + p.months)) / 12) →
    d.plus p = (d.plusMonths (12 * p.years + p.months)).plusDays p.days
  years : ∀ years, Fits32 ((d.monthIndex + 12 * years) / 12) →
    d.plusYears years = d.plusMonths (12 * years)
  months : ∀ k, Fits32 ((d.monthIndex + k) / 12) →
    (d.plusMonths k).monthIndex = d.monthIndex + k ∧
    (d.plusMonths k).getDayOfMonth =
      min d.getDayOfMonth
        (lengthOfMonth (d.plusMonths k).getYear (d.plusMonths k).getMonthValue)

/-- The three ways to add months agree, and the sum is in the month that many months later. -/
theorem month_laws (d : LocalDate) (h : YearFits d.epochDay) : MonthLaws d where
  period p hyear := by rw [plus_eq h p hyear, plusMonths_eq h hyear]
  years years hyear := by rw [plusYears_eq h hyear, plusMonths_eq h hyear]
  months k hyear := by
    obtain ⟨-, -, hday⟩ := d.fields_valid h
    have hvalid := inMonth_valid hyear hday.1
    obtain ⟨hy, hm, hd⟩ := civil_daysFromCivil hvalid
    rw [plusMonths_eq h hyear]
    have hyear' : (inMonth (d.monthIndex + k) d.getDayOfMonth).getYear =
      (d.monthIndex + k) / 12 := hy
    have hmonth' : (inMonth (d.monthIndex + k) d.getDayOfMonth).getMonthValue =
        (d.monthIndex + k) % 12 + 1 := hm
    rw [hyear', hmonth']
    refine ⟨?_, hd⟩
    unfold LocalDate.monthIndex at hyear' hmonth' ⊢
    rw [hyear', hmonth']
    omega

/-- The last day of January of the leap year 0. -/
theorem month_laws_sample : YearFits (daysFromCivil 0 1 31) ∧ MonthLaws ⟨daysFromCivil 0 1 31⟩ := by
  have h : YearFits (daysFromCivil 0 1 31) :=
    YearFits.of_valid ⟨by decide, by decide, by decide, by decide⟩
  exact ⟨h, month_laws ⟨daysFromCivil 0 1 31⟩ h⟩

end Cajeta.Time
