import Cajeta.Time.LocalDate
import Cajeta.Time.Clock

/-!
# Local and zoned time

An instant and an offset give back the local date-time when the local second has 64 bits. The
instants of a zoned date-time are moved by the same arithmetic as instants, and the time between two
instants is taken modulo 2^64, so it is the duration that was added even when the sum has wrapped.
-/

namespace Cajeta.Time
open Cells Wrapping

def LocalDateTime.localSecond (ldt : LocalDateTime) : Int :=
  ldt.epochDay * 86400 + ldt.nanoOfDay / 1000000000

def LocalDateTime.exactEpochSecond (ldt : LocalDateTime) (offset : ZoneOffset) : Int :=
  ldt.localSecond - offset.totalSeconds

section

variable {ldt : LocalDateTime} {offset : ZoneOffset}

theorem toEpochSecond_eq (hnod : Normalized ldt.nanoOfDay) :
    ldt.toEpochSecond offset = i64 (ldt.exactEpochSecond offset) := by
  unfold LocalDateTime.toEpochSecond LocalDateTime.exactEpochSecond LocalDateTime.localSecond
  dsimp only
  rw [i64_i64_sub, tdiv_of_nonneg hnod.1, Int.add_sub_assoc, i64_i64_add, ← Int.add_sub_assoc]

theorem LocalDateTime.getNano_eq (hnod : Normalized ldt.nanoOfDay) :
    ldt.getNano = ldt.nanoOfDay % 1000000000 := by
  unfold LocalDateTime.getNano
  rw [tmod_of_nonneg hnod.1]
  exact i32_of_fits (by unfold Fits32; omega)

theorem localEpochDay_eq (epochSecond offsetSeconds : Int) :
    ZonedDateTime.localEpochDay epochSecond offsetSeconds =
      i64 (epochSecond + offsetSeconds) / 86400 := by
  obtain ⟨hdiv, -⟩ := floor_eq (i64 (epochSecond + offsetSeconds)) (d := 86400) (by omega)
  obtain ⟨-, hpos, hneg⟩ := tdiv_add_tmod (i64 (epochSecond + offsetSeconds)) (d := 86400)
    (by omega)
  unfold ZonedDateTime.localEpochDay
  dsimp only
  rw [← hdiv]
  refine if_congr ?_ rfl rfl
  constructor
  · rintro ⟨hne, hlt⟩
    have hle := (hneg (Int.le_of_lt hlt)).2
    omega
  · intro hlt
    refine ⟨by omega, Int.not_le.mp fun hle => ?_⟩
    have hnonneg := (hpos hle).1
    omega

theorem localNanoOfDay_eq (hnano : 0 ≤ nano ∧ nano < 1000000000) (epochSecond offsetSeconds : Int) :
    ZonedDateTime.localNanoOfDay epochSecond nano offsetSeconds =
      i64 (epochSecond + offsetSeconds) % 86400 * 1000000000 + nano := by
  unfold ZonedDateTime.localNanoOfDay
  dsimp only
  rw [localEpochDay_eq, i64_sub_i64]
  generalize i64 (epochSecond + offsetSeconds) = localSec
  have hsec : localSec - localSec / 86400 * 86400 = localSec % 86400 := by omega
  have hlo := Int.emod_nonneg localSec (show (86400 : Int) ≠ 0 by omega)
  have hhi := Int.emod_lt_of_pos localSec (show (0 : Int) < 86400 by omega)
  rw [hsec, i64_i64_mul, i64_i64_add]
  exact i64_eq (by unfold Fits64; omega)

theorem toLocalDateTime_ofLocal (hnod : Normalized ldt.nanoOfDay) :
    (ZonedDateTime.ofLocal ldt offset).toLocalDateTime =
      ⟨i64 ldt.localSecond / 86400,
        i64 ldt.localSecond % 86400 * 1000000000 + ldt.nanoOfDay % 1000000000⟩ := by
  have hnano : 0 ≤ ldt.getNano ∧ ldt.getNano < 1000000000 := by
    rw [LocalDateTime.getNano_eq hnod]
    omega
  have hback : i64 (ldt.toEpochSecond offset + offset.totalSeconds) = i64 ldt.localSecond := by
    rw [toEpochSecond_eq hnod, i64_i64_add, LocalDateTime.exactEpochSecond, Int.sub_add_cancel]
  unfold ZonedDateTime.toLocalDateTime ZonedDateTime.ofLocal
  dsimp only
  rw [localEpochDay_eq, localNanoOfDay_eq hnano, hback, LocalDateTime.getNano_eq hnod]

theorem toLocalDateTime_ofLocal_iff (hnod : Normalized ldt.nanoOfDay) :
    (ZonedDateTime.ofLocal ldt offset).toLocalDateTime = ldt ↔ Fits64 ldt.localSecond := by
  have hsecond : 0 ≤ ldt.nanoOfDay / 1000000000 ∧ ldt.nanoOfDay / 1000000000 < 86400 := by
    unfold Normalized dayNanos at hnod
    omega
  rw [toLocalDateTime_ofLocal hnod, LocalDateTime.ext_iff]
  dsimp only
  constructor
  · rintro ⟨hday, -⟩
    obtain ⟨k, hk, hfits⟩ := exists_wrap ldt.localSecond
    -- the same day, so the register differs by less than a day
    have hzero : k = 0 := by
      unfold LocalDateTime.localSecond at hk hday
      omega
    rw [hk, hzero, Int.mul_zero, Int.add_zero]
    exact hfits
  · intro hfits
    rw [i64_eq hfits]
    unfold LocalDateTime.localSecond
    omega

/-- The fields that both views have. -/
structure SameFields (z : ZonedDateTime) (ldt : LocalDateTime) : Prop where
  year : z.getYear = ldt.getYear
  month : z.getMonthValue = ldt.getMonthValue
  day : z.getDayOfMonth = ldt.getDayOfMonth
  hour : z.getHour = ldt.getHour
  minute : z.getMinute = ldt.getMinute
  second : z.getSecond = ldt.getSecond
  nano : z.getNano = ldt.getNano

theorem sameFields_of_view (z : ZonedDateTime) (hview : z.toLocalDateTime = ldt)
    (hnano : z.getNano = ldt.getNano) : SameFields z ldt := by
  subst hview
  refine ⟨rfl, rfl, rfl, rfl, rfl, rfl, hnano⟩

end

/-! ## Instants -/

section

variable {t : Instant} {d : Duration}

theorem Instant.moved_eq (epochSecond total : Int) :
    Instant.moved epochSecond total =
      ⟨i64 (epochSecond + total / 1000000000), total % 1000000000⟩ := by
  obtain ⟨hdiv, hmod⟩ := floor_eq total (d := 1000000000) (by omega)
  obtain ⟨-, hpos, hneg⟩ := tdiv_add_tmod total (d := 1000000000) (by omega)
  have hn : i32 (total.tmod 1000000000) = total.tmod 1000000000 := by
    refine i32_of_fits ?_
    unfold Fits32
    rcases Int.le_total 0 total with h | h
    · have hrange := hpos h
      omega
    · have hrange := hneg h
      omega
  unfold Instant.moved
  dsimp only
  rw [hn, i64_i64_sub, Int.add_sub_assoc]
  split at hdiv
  · next hlt =>
    rw [if_pos hlt] at hmod ⊢
    rw [hdiv, hmod]
  · next hle =>
    rw [if_neg hle] at hmod ⊢
    rw [hdiv, hmod]

theorem Instant.moved_nano (epochSecond total : Int) :
    0 ≤ (Instant.moved epochSecond total).nano ∧
      (Instant.moved epochSecond total).nano < 1000000000 := by
  rw [Instant.moved_eq]
  dsimp only
  omega

theorem ZonedDateTime.toInstant_plus (z : ZonedDateTime) (d : Duration) :
    (z.plus d).toInstant = z.toInstant.plus d := by
  unfold ZonedDateTime.plus Instant.plus Instant.moved ZonedDateTime.toInstant
  dsimp only
  split <;> rfl

theorem Instant.between_plus (hnano : 0 ≤ t.nano ∧ t.nano < 1000000000) (hd : Fits64 d.nanos) :
    Instant.between t (t.plus d) = d := by
  unfold Instant.plus
  rw [Instant.moved_eq]
  obtain ⟨total, htotal⟩ : ∃ total, total = i64 (t.nano + d.nanos) := ⟨_, rfl⟩
  rw [← htotal]
  have hcast : i32 (total % 1000000000 - t.nano) = total % 1000000000 - t.nano :=
    i32_of_fits (by unfold Fits32; omega)
  have hsum : total / 1000000000 * 1000000000 + (total % 1000000000 - t.nano) = total - t.nano := by
    omega
  unfold Instant.between
  dsimp only
  rw [hcast, i64_i64_sub, add_sub_cancel_left, i64_i64_mul, i64_i64_add, hsum, htotal,
    i64_i64_sub, add_sub_cancel_left, i64_eq hd]

end

/-- The laws of local and zoned time at an offset and a local date-time whose epoch second has 64
bits. -/
theorem zoned_views (offset : ZoneOffset)
    (_hoffset : -64800 ≤ offset.totalSeconds ∧ offset.totalSeconds ≤ 64800) (ldt : LocalDateTime)
    (hnod : Normalized ldt.nanoOfDay) (_hsecond : Fits64 (ldt.exactEpochSecond offset)) :
    ((ZonedDateTime.ofLocal ldt offset).toLocalDateTime = ldt ∧
        SameFields (ZonedDateTime.ofLocal ldt offset) ldt ↔ Fits64 ldt.localSecond) ∧
      (∀ t : Instant, (ZonedDateTime.ofInstant t offset).toInstant = t) ∧
      (∀ (z : ZonedDateTime) (d : Duration), (z.plus d).toInstant = z.toInstant.plus d) ∧
      (∀ (t : Instant) (d : Duration), (0 ≤ (t.plus d).nano ∧ (t.plus d).nano < 1000000000) ∧
        0 ≤ (t.minus d).nano ∧ (t.minus d).nano < 1000000000) ∧
      ∀ (t : Instant) (d : Duration), 0 ≤ t.nano ∧ t.nano < 1000000000 → Fits64 d.nanos →
        Instant.between t (t.plus d) = d := by
  refine ⟨⟨fun h => (toLocalDateTime_ofLocal_iff hnod).mp h.1, fun h => ?_⟩, fun _ => rfl,
    ZonedDateTime.toInstant_plus, fun t d => ⟨Instant.moved_nano _ _, Instant.moved_nano _ _⟩,
    fun _ _ hnano hd => Instant.between_plus hnano hd⟩
  have hback : (ZonedDateTime.ofLocal ldt offset).toLocalDateTime = ldt :=
    (toLocalDateTime_ofLocal_iff hnod).mpr h
  exact ⟨hback, sameFields_of_view _ hback rfl⟩

/-- A second before the epoch, seen one hour east. -/
theorem zoned_views_east :
    (ZonedDateTime.ofLocal ⟨-1, 86399000000000⟩ ⟨3600⟩).toLocalDateTime = ⟨-1, 86399000000000⟩ :=
  ((zoned_views ⟨3600⟩ (by decide) ⟨-1, 86399000000000⟩ (by unfold Normalized; decide)
    (by decide)).1.mpr (by decide)).1

/-- The local second is 2^63, and the epoch second one less. -/
theorem toLocalDateTime_last : Normalized 55808000000000 ∧
    Fits64 ((LocalDateTime.mk 106751991167300 55808000000000).exactEpochSecond ⟨1⟩) ∧
    (ZonedDateTime.ofLocal ⟨106751991167300, 55808000000000⟩ ⟨1⟩).toLocalDateTime ≠
      ⟨106751991167300, 55808000000000⟩ := by
  refine ⟨by unfold Normalized; decide, by decide, by decide⟩

end Cajeta.Time
