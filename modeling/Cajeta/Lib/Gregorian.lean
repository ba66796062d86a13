import Mathlib.Tactic.Common
import Mathlib.Tactic.IntervalCases

/-!
# The proleptic Gregorian calendar

Dates of all years, before and after the year 0, and their numbers. A year is counted from March on,
so that its leap day is its last day and the lengths of the months in front of a month are one
polynomial.
-/

namespace Gregorian

def Leap (y : Int) : Prop := y % 4 = 0 ∧ (y % 100 ≠ 0 ∨ y % 400 = 0)

instance (y : Int) : Decidable (Leap y) := by
  unfold Leap
  infer_instance

def monthLength (y m : Int) : Int :=
  if m = 2 then if Leap y then 29 else 28
  else if m = 4 ∨ m = 6 ∨ m = 9 ∨ m = 11 then 30 else 31

theorem monthLength_pos (y m : Int) : 1 ≤ monthLength y m := by
  unfold monthLength
  split_ifs <;> omega

@[ext] structure Date where
  year : Int
  month : Int
  day : Int
  month_mem : 1 ≤ month ∧ month ≤ 12
  day_mem : 1 ≤ day ∧ day ≤ monthLength year month

namespace Date

def marchYear (y m : Int) : Int := if m ≤ 2 then y - 1 else y

def marchMonth (m : Int) : Int := if m ≤ 2 then m + 9 else m - 3

/-- The days in front of a year, and in front of a month of a year. -/
def yearStart (Y : Int) : Int := 365 * Y + Y / 4 - Y / 100 + Y / 400

def monthStart (mp : Int) : Int := (153 * mp + 2) / 5

def numberOf (y m d : Int) : Int :=
  yearStart (marchYear y m) + monthStart (marchMonth m) + d - 1

def number (d : Date) : Int := numberOf d.year d.month d.day

theorem yearStart_succ (Y : Int) :
    yearStart (Y + 1) = yearStart Y + 365 + if Leap (Y + 1) then 1 else 0 := by
  unfold yearStart Leap
  split_ifs <;> omega

theorem yearStart_lt {Y Y' : Int} (h : Y < Y') : yearStart Y + 365 ≤ yearStart Y' := by
  unfold yearStart
  omega

theorem marchMonth_mem (h : 1 ≤ m ∧ m ≤ 12) : 0 ≤ marchMonth m ∧ marchMonth m ≤ 11 := by
  unfold marchMonth
  split_ifs <;> omega

theorem monthStart_length (h : 1 ≤ m ∧ m ≤ 12) :
    monthStart (marchMonth m) + monthLength y m =
      if marchMonth m = 11 then 365 + if Leap (marchYear y m + 1) then 1 else 0
      else monthStart (marchMonth m + 1) := by
  obtain ⟨hlo, hhi⟩ := h
  interval_cases m <;> simp [marchMonth, monthStart, monthLength, marchYear]
  split_ifs <;> rfl

theorem dayOfYear_mem (d : Date) :
    0 ≤ monthStart (marchMonth d.month) + d.day - 1 ∧
      monthStart (marchMonth d.month) + d.day - 1 <
        365 + if Leap (marchYear d.year d.month + 1) then 1 else 0 := by
  obtain ⟨hm, hm'⟩ := marchMonth_mem d.month_mem
  have hlength := monthStart_length (y := d.year) d.month_mem
  have hday := d.day_mem
  have hstart : 0 ≤ monthStart (marchMonth d.month) := by
    unfold monthStart
    omega
  refine ⟨by omega, ?_⟩
  by_cases hlast : marchMonth d.month = 11
  · rw [if_pos hlast] at hlength
    omega
  · rw [if_neg hlast] at hlength
    have hnext : monthStart (marchMonth d.month + 1) ≤ 365 := by
      unfold monthStart
      omega
    split_ifs <;> omega

/-- Earlier in the calendar. -/
def Before (a b : Date) : Prop :=
  a.year < b.year ∨ a.year = b.year ∧ (a.month < b.month ∨ a.month = b.month ∧ a.day < b.day)

theorem number_lt {a b : Date} (h : Before a b) : a.number < b.number := by
  have ha := a.dayOfYear_mem
  have hb := b.dayOfYear_mem
  have hyears : marchYear a.year a.month < marchYear b.year b.month ∨
      marchYear a.year a.month = marchYear b.year b.month ∧
        (marchMonth a.month < marchMonth b.month ∨ a.month = b.month ∧ a.day < b.day) := by
    have hma := a.month_mem
    have hmb := b.month_mem
    unfold Before at h
    unfold marchYear marchMonth
    split_ifs <;> omega
  unfold number numberOf
  rcases hyears with hyear | ⟨hyear, hmonth | ⟨hmonth, hday⟩⟩
  · have hsucc := yearStart_succ (marchYear a.year a.month)
    rcases Int.lt_or_eq_of_le (Int.add_one_le_iff.mpr hyear) with hlt | heq
    · have hfar := yearStart_lt hlt
      omega
    · rw [← heq]
      omega
  · have hlength := monthStart_length (y := a.year) a.month_mem
    have hlast : marchMonth a.month ≠ 11 := by
      have hmem := marchMonth_mem b.month_mem
      omega
    rw [if_neg hlast] at hlength
    have hnext : monthStart (marchMonth a.month + 1) ≤ monthStart (marchMonth b.month) := by
      unfold monthStart
      omega
    have hda := a.day_mem
    have hdb := b.day_mem
    rw [hyear]
    omega
  · rw [hyear, hmonth]
    omega

theorem before_trichotomy (a b : Date) : Before a b ∨ a = b ∨ Before b a := by
  by_cases heq : a.year = b.year ∧ a.month = b.month ∧ a.day = b.day
  · obtain ⟨hy, hm, hd⟩ := heq
    exact .inr (.inl (Date.ext hy hm hd))
  · unfold Before
    omega

theorem number_lt_iff {a b : Date} : a.number < b.number ↔ Before a b := by
  refine ⟨fun hlt => ?_, number_lt⟩
  rcases before_trichotomy a b with h | rfl | h
  · exact h
  · exact absurd hlt (Int.lt_irrefl _)
  · exact absurd (number_lt h) (Int.lt_asymm hlt)

theorem monthLength_le (y m : Int) : monthLength y m ≤ 31 := by
  unfold monthLength
  split_ifs <;> omega

def next (d : Date) : Date :=
  if hday : d.day < monthLength d.year d.month then
    ⟨d.year, d.month, d.day + 1, d.month_mem, by have h := d.day_mem; omega⟩
  else if hmonth : d.month < 12 then
    ⟨d.year, d.month + 1, 1, by have h := d.month_mem; omega, le_refl 1, monthLength_pos _ _⟩
  else ⟨d.year + 1, 1, 1, by omega, le_refl 1, monthLength_pos _ _⟩

theorem number_next (d : Date) : d.next.number = d.number + 1 := by
  have hmem := d.month_mem
  have hday := d.day_mem
  have hlength := monthStart_length (y := d.year) hmem
  unfold next
  split
  · unfold number numberOf
    dsimp only
    omega
  · have hlast : d.day = monthLength d.year d.month := by omega
    split
    · -- February is the last month of a year from March on
      unfold number numberOf
      dsimp only
      by_cases htwo : d.month = 2
      · have hsucc := yearStart_succ (d.year - 1)
        rw [htwo] at hlength hlast ⊢
        simp [marchMonth, marchYear, monthStart] at hlength hsucc ⊢
        omega
      · have hyear : marchYear d.year (d.month + 1) = marchYear d.year d.month := by
          unfold marchYear
          split_ifs <;> omega
        have hmonth : marchMonth (d.month + 1) = marchMonth d.month + 1 := by
          unfold marchMonth
          split_ifs <;> omega
        have hne : marchMonth d.month ≠ 11 := by
          unfold marchMonth
          split_ifs <;> omega
        rw [if_neg hne] at hlength
        rw [hyear, hmonth]
        omega
    · have htwelve : d.month = 12 := by omega
      unfold number numberOf
      dsimp only
      rw [htwelve] at hlength hlast ⊢
      simp [marchMonth, marchYear, monthStart] at hlength ⊢
      omega

theorem yearStart_era (era yoe : Int) :
    yearStart (400 * era + yoe) = 146097 * era + yearStart yoe := by
  unfold yearStart
  omega

theorem leap_era (era yoe : Int) : Leap (400 * era + yoe) ↔ Leap yoe := by
  unfold Leap
  omega

theorem year_parts (hc : 0 ≤ c ∧ c ≤ 3) (hq : 0 ≤ q ∧ q ≤ 24) (hs : 0 ≤ s ∧ s ≤ 3) :
    yearStart (100 * c + 4 * q + s) = 36524 * c + 1461 * q + 365 * s ∧
      (Leap (100 * c + 4 * q + s + 1) ↔ s = 3 ∧ (q < 24 ∨ c = 3)) := by
  constructor
  · unfold yearStart
    omega
  · unfold Leap
    omega

theorem yearOfEra_eq (h : 0 ≤ yoe ∧ yoe < 400) (hr : 0 ≤ r)
    (hr' : r < 365 + if Leap (yoe + 1) then 1 else 0) (hdoe : doe = yearStart yoe + r) :
    (doe - doe / 1460 + doe / 36524 - doe / 146096) / 365 = yoe := by
  obtain ⟨c, q, s, rfl, hc, hq, hs⟩ : ∃ c q s, yoe = 100 * c + 4 * q + s ∧ (0 ≤ c ∧ c ≤ 3) ∧
      (0 ≤ q ∧ q ≤ 24) ∧ 0 ≤ s ∧ s ≤ 3 :=
    ⟨yoe / 100, yoe % 100 / 4, yoe % 4, by omega, by omega, by omega, by omega⟩
  obtain ⟨hstart, hleap⟩ := year_parts hc hq hs
  rw [hstart] at hdoe
  have hr366 : r ≤ 365 ∧ (r = 365 → s = 3 ∧ (q < 24 ∨ c = 3)) := by
    split at hr'
    · next hl => exact ⟨by omega, fun _ => hleap.mp hl⟩
    · omega
  -- the leap days before the year, and one more near its end
  have hfours : doe / 1460 = 25 * c + q + if 24 * c + q + 365 * s + r < 1460 then 0 else 1 := by
    split <;> omega
  have hcenturies : doe / 36524 - doe / 146096 = c := by
    by_cases hend : doe = 146096
    · subst hend
      omega
    · have hrest : 1461 * q + 365 * s + r < 36524 := by
        clear hfours hr'
        omega
      clear hfours hr' hleap
      omega
  split at hfours <;> omega

end Date

end Gregorian
