import Qtl.DatetimeParse

/-! What datetime_from_iso8601 stores. The offset is taken off in 64 bits after all
tests, so the first and the last day of the calendar decide. -/
namespace Qtl.DatetimeStored
open Base.Calendar Base.Text Datetime DatetimeParse

def timeOfDay (s : Stamp) : Nat := ((s.hour * 60 + s.minute) * 60 + s.second) * 1000000 + Stamp.micros s.fraction

def firstDay : Date := ⟨1,1,1⟩

def lastDay : Date := ⟨9999,12,31⟩

def Representable (str : Nat → UInt8) (len dt : Nat) (s : Stamp) : Prop :=
  (datetimeFromIso8601 str len dt).2 ≤ maxDateTime ∧
    ((datetimeFromIso8601 str len dt).2 : Int) = s.localTime - s.zone.offset

def Inside (s : Stamp) : Prop :=
  (s.date = firstDay → s.zone.offset ≤ timeOfDay s) ∧
  (s.date = lastDay → (timeOfDay s : Int) - s.zone.offset < ticksPerDay)

section Bounds
variable {s : Stamp} {d : Date}

theorem firstDayNumber : dayNumber firstDay = 0 := rfl

theorem lastDayNumber : dayNumber lastDay = 3652058 := by
  have years : yearsDays 9998 = 3651694 := yearsDaysAt (by norm_num)
  rw [dayNumber,show lastDay.year - 1 = 9998 from rfl,years]
  rfl

theorem afterFirst (valid : d.Valid) (other : d ≠ firstDay) : 1 ≤ dayNumber d := by
  have first : firstDay.Valid := ⟨by decide,by decide,by decide,by decide,by decide⟩
  by_contra zero
  exact other (dayNumberInjective valid first (by rw [firstDayNumber]; omega))

theorem beforeLast (valid : d.Valid) (year : d.year ≤ 9999) (other : d ≠ lastDay) :
    dayNumber d < dayNumber lastDay := by
  have last : lastDay.Valid := ⟨by decide,by decide,by decide,by decide,by decide⟩
  have different : dayNumber d ≠ dayNumber lastDay := fun same => other (dayNumberInjective valid last same)
  have inside : dayNumber d < yearsDays 9999 := (dayNumberYear valid).trans_le (yearsDaysMono year)
  have years : yearsDays 9999 = 3652059 := yearsDaysAt (by norm_num)
  rw [lastDayNumber] at different ⊢
  omega

theorem localTimeSplit (s : Stamp) : s.localTime = dayNumber s.date * ticksPerDay + timeOfDay s := by
  rw [Stamp.localTime,timeOfDay,ticksPerDay]
  omega

theorem timeOfDayBound (valid : s.Valid) : timeOfDay s < ticksPerDay := by
  have hour := valid.hour
  have minute := valid.minute
  have second := valid.second
  have bound := nanosBound valid.digit valid.fraction
  have micros := nanosMicros valid.fraction
  rw [timeOfDay,ticksPerDay,← micros]
  omega

theorem offsetBound (valid : s.Valid) : -(ticksPerDay : Int) < s.zone.offset ∧ s.zone.offset < ticksPerDay := by
  have zone := valid.zone
  rw [ticksPerDay]
  cases z : s.zone with
  | utc letter => exact ⟨by simp [Zone.offset],by simp [Zone.offset]⟩
  | shifted west hour minute =>
    rw [z] at zone
    obtain ⟨hour23,minute59⟩ := zone
    simp only [Zone.offset]
    split <;> omega

theorem valueLow (valid : s.Valid) : 0 ≤ s.value ↔ (s.date = firstDay → s.zone.offset ≤ timeOfDay s) := by
  have offset := (offsetBound valid).2
  have split := localTimeSplit s
  rw [Stamp.value,split]
  by_cases first : s.date = firstDay
  · rw [first,firstDayNumber]
    simp
  · have later := afterFirst valid.date first
    have whole : ticksPerDay ≤ dayNumber s.date * ticksPerDay := Nat.le_mul_of_pos_left _ later
    simp only [first,false_implies,iff_true]
    push_cast
    omega

theorem valueHigh (valid : s.Valid) : s.value ≤ maxDateTime ↔
    (s.date = lastDay → (timeOfDay s : Int) - s.zone.offset < ticksPerDay) := by
  have offset := (offsetBound valid).1
  have time := timeOfDayBound valid
  have split := localTimeSplit s
  rw [Stamp.value,split]
  by_cases last : s.date = lastDay
  · rw [last,lastDayNumber,ticksPerDay,maxDateTime]
    simp only [true_implies]
    omega
  · have before := beforeLast valid.date valid.year last
    rw [lastDayNumber] at before
    simp only [last,false_implies,iff_true]
    rw [ticksPerDay] at time offset ⊢
    rw [maxDateTime]
    omega

theorem storedExactIff {v : Int} (low : -(ticksPerDay : Int) < v) (high : v < maxDateTime + ticksPerDay + 1) :
    (v % u64Range).toNat ≤ maxDateTime ∧ ((v % u64Range).toNat : Int) = v ↔ 0 ≤ v ∧ v ≤ maxDateTime := by
  rw [ticksPerDay,maxDateTime] at *
  have range : (u64Range : Int) = 18446744073709551616 := by simp [u64Range]
  rw [range]
  omega

end Bounds

theorem storedRepresentable (str : Nat → UInt8) (len dt : Nat) :
    ((datetimeFromIso8601 str len dt).1 = 0 → ∃ s : Stamp, s.Valid ∧ (List.range len).map str = s.text) ∧
    ∀ s : Stamp, s.Valid → (List.range len).map str = s.text →
      (datetimeFromIso8601 str len dt).1 = 0 ∧ (Representable str len dt s ↔ Inside s) := by
  refine ⟨acceptedStamp,fun s valid text => ?_⟩
  obtain ⟨rfl,placed⟩ := rangeMap.mp text
  have accepted := iso8601Accepts valid placed dt
  have offset := offsetBound valid
  have time := timeOfDayBound valid
  have split := localTimeSplit s
  have date : dayNumber s.date ≤ dayNumber lastDay := by
    by_cases last : s.date = lastDay
    · rw [last]
    · exact (beforeLast valid.date valid.year last).le
  rw [lastDayNumber] at date
  rw [Representable,accepted,Inside,← valueLow valid,← valueHigh valid]
  refine ⟨rfl,storedExactIff ?_ ?_⟩
  · rw [Stamp.value]
    omega
  · rw [Stamp.value,split]
    rw [ticksPerDay] at offset time ⊢
    rw [maxDateTime]
    omega

section Example

def firstHour : Stamp := ⟨firstDay,ascii 'T',0,0,0,[],.shifted false 1 0⟩

def memoryOf (text : List UInt8) (i : Nat) : UInt8 := text.getD i 0

/-- Midnight of the first day, one hour east: what is stored lies an hour before 2^64. -/
theorem firstHourWrapped : firstHour.Valid ∧ (List.range 25).map (memoryOf firstHour.text) = firstHour.text ∧
    datetimeFromIso8601 (memoryOf firstHour.text) 25 0 = (0,2^64 - 3600000000) ∧
    ¬ Representable (memoryOf firstHour.text) 25 0 firstHour := by
  have stored : datetimeFromIso8601 (memoryOf firstHour.text) 25 0 = (0,2^64 - 3600000000) := by decide
  refine ⟨⟨⟨by decide,by decide,by decide,by decide,by decide⟩,by decide,.inl rfl,by decide,by decide,by decide,
    by decide,by decide,⟨by decide,by decide⟩⟩,by decide,stored,fun ⟨bound,_⟩ => ?_⟩
  rw [stored] at bound
  exact absurd bound (by decide)

end Example

end Qtl.DatetimeStored
