import Qtl.Datetime

/-! datetime_to_tm: the broken-down time of a datetime from 1970 on. -/
namespace Qtl.DatetimeTm
open Base.Calendar Datetime

-- EPOCH_DATE_TIME of qtl.h
def epochDateTime : Nat := 62135596800000000

structure Tm where
  tmSec : Int
  tmMin : Int
  tmHour : Int
  tmMday : Int
  tmMon : Int
  tmYear : Int
  tmWday : Int
  tmYday : Int
  deriving DecidableEq, Repr

def datetimeToTm (dt : Nat) (tmp : Tm) : Nat × Tm :=
  if dt < (dt + u64Range - epochDateTime) % u64Range then (1,tmp)
  else
    let rdn := dt / ticksPerDay % u32Range
    let sod := dt % ticksPerDay / ticksPerSecond
    let ymd := (rdnToYmd rdn).val
    (0,⟨(sod % 60 : Nat),(sod / 60 % 60 : Nat),(sod / 60 / 60 : Nat),ymd.d,ymd.m - 1,ymd.y - 1900,
      (rdn % 7 : Nat),ymd.yday - 1⟩)

def epochDay : Date := ⟨1970,1,1⟩

-- Sunday is 0, and January 1 of 1970 was a Thursday.
def weekday (day : Nat) : Nat := ((day - dayNumber epochDay + 4 : Int) % 7).toNat

def newYear (year : Nat) : Date := ⟨year,1,1⟩

structure BrokenDown (dt : Nat) (tm : Tm) : Prop where
  year : tm.tmYear + 1900 = (datetimeDecode dt).year
  month : tm.tmMon + 1 = (datetimeDecode dt).month
  day : tm.tmMday = (datetimeDecode dt).day
  hour : tm.tmHour = (datetimeDecode dt).hour
  minute : tm.tmMin = (datetimeDecode dt).minute
  second : tm.tmSec = (datetimeDecode dt).second
  yday : tm.tmYday = dayNumber (datetimeDecode dt).date - dayNumber (newYear (datetimeDecode dt).year)

/-- What datetime_to_tm should do: UTC broken-down time from the epoch on, nothing before. -/
def TmRight (dt : Nat) (tmp : Tm) : Prop :=
  if epochDateTime ≤ dt then
    (datetimeToTm dt tmp).1 = 0 ∧ BrokenDown dt (datetimeToTm dt tmp).2 ∧
      (datetimeToTm dt tmp).2.tmWday = weekday (dt / ticksPerDay)
  else (datetimeToTm dt tmp).1 ≠ 0 ∧ (datetimeToTm dt tmp).2 = tmp

section Weekday
variable {day : Nat}

theorem epochDayNumber : dayNumber epochDay = 719162 := by
  have years : yearsDays 1969 = 719162 := yearsDaysAt (by norm_num)
  rw [dayNumber,show epochDay.year - 1 = 1969 from rfl,years]
  rfl

theorem weekdayNext (day : Nat) : weekday (day + 1) = (weekday day + 1) % 7 := by
  unfold weekday
  rw [epochDayNumber]
  omega

theorem weekdayNever (day : Nat) : day % 7 ≠ weekday day := by
  rw [weekday,epochDayNumber]
  omega

end Weekday

section Call
variable {dt : Nat} {tmp : Tm}

theorem epochWraps (bound : dt < u64Range) :
    dt < (dt + u64Range - epochDateTime) % u64Range ↔ dt < epochDateTime := by
  rw [u64Range] at bound ⊢
  rw [epochDateTime]
  omega

theorem toTmEarly (bound : dt < u64Range) (early : dt < epochDateTime) : datetimeToTm dt tmp = (1,tmp) :=
  if_pos ((epochWraps bound).mpr early)

theorem toTmLate (tmp : Tm) (bound : dt < yearsDays 65535 * ticksPerDay) (late : epochDateTime ≤ dt) :
    ∃ tm, datetimeToTm dt tmp = (0,tm) ∧ BrokenDown dt tm ∧ tm.tmWday = (dt / ticksPerDay % 7 : Nat) := by
  have days : dt / ticksPerDay < yearsDays 65535 := (Nat.div_lt_iff_lt_mul (by decide)).mpr bound
  obtain ⟨date,valid,year,number,found⟩ := rdnToYmdPure days
  rw [yearsDaysTotal] at days bound
  have small : dt / ticksPerDay % u32Range = dt / ticksPerDay := Nat.mod_eq_of_lt (by rw [u32Range]; omega)
  have inRange : dt < u64Range := by
    rw [ticksPerDay] at bound
    rw [u64Range]
    omega
  have notEarly : ¬ dt < (dt + u64Range - epochDateTime) % u64Range := by
    rw [epochWraps inRange]
    exact Nat.not_lt.mpr late
  have decoded : datetimeDecode dt = ⟨date.year,date.month,date.day,
      dt % ticksPerDay / ticksPerSecond / 60 / 60,dt % ticksPerDay / ticksPerSecond / 60 % 60,
      dt % ticksPerDay / ticksPerSecond % 60,dt % ticksPerDay % ticksPerSecond⟩ := by
    rw [datetimeDecode,small,found]
    rfl
  refine ⟨_,if_neg notEarly,?_,?_⟩
  · rw [small,found]
    constructor
    case year =>
      rw [decoded]
      exact Int.sub_add_cancel _ _
    case month =>
      rw [decoded]
      exact Int.sub_add_cancel _ _
    case day =>
      rw [decoded]
      rfl
    case yday =>
      have low := valid.dayLow
      rw [decoded]
      simp only [Fields.date,newYear,dayNumber,Base.FixedWidth.Machine.pureVal,Nat.sub_self,monthsDays]
      omega
    all_goals rw [decoded]
  · dsimp only
    rw [small]

theorem toTmFields (tmp : Tm) (bound : dt ≤ maxDateTime) :
    (epochDateTime ≤ dt → (datetimeToTm dt tmp).1 = 0 ∧ BrokenDown dt (datetimeToTm dt tmp).2) ∧
    (dt < epochDateTime → datetimeToTm dt tmp = (1,tmp)) := by
  refine ⟨fun late => ?_,toTmEarly ?_⟩
  · have inYears : dt < yearsDays 65535 * ticksPerDay := by
      rw [yearsDaysTotal,ticksPerDay]
      rw [maxDateTime] at bound
      omega
    obtain ⟨tm,same,fields,_⟩ := toTmLate tmp inYears late
    rw [same]
    exact ⟨rfl,fields⟩
  · rw [maxDateTime] at bound
    rw [u64Range]
    omega

theorem toTmBeforeEpoch (bound : dt ≤ maxDateTime) : TmRight dt tmp ↔ dt < epochDateTime := by
  have inYears : dt < yearsDays 65535 * ticksPerDay := by
    rw [yearsDaysTotal,ticksPerDay]
    rw [maxDateTime] at bound
    omega
  unfold TmRight
  split
  · rename_i late
    refine iff_of_false (fun right => ?_) (Nat.not_lt.mpr late)
    obtain ⟨_,_,wday⟩ := right
    obtain ⟨tm,same,_,told⟩ := toTmLate tmp inYears late
    rw [same,told] at wday
    exact weekdayNever _ (Int.ofNat_inj.mp wday)
  · rename_i early
    have early := Nat.lt_of_not_le early
    refine iff_of_true ?_ early
    rw [(toTmFields tmp bound).2 early]
    exact ⟨Nat.one_ne_zero,rfl⟩

end Call

section Example

def blank : Tm := ⟨0,0,0,0,0,0,0,0⟩

theorem toTmBeforeEpochLast : TmRight (epochDateTime - 1) blank ∧ ¬ TmRight (epochDateTime + 951827696000000) blank :=
  ⟨(toTmBeforeEpoch (by decide)).mpr (by decide),
    fun right => absurd ((toTmBeforeEpoch (by decide)).mp right) (by decide)⟩

/-- 1970-01-01 was a Thursday; the code says Wednesday. -/
theorem epochWednesday : (datetimeToTm epochDateTime blank).2.tmWday = 3 ∧
    weekday (epochDateTime / ticksPerDay) = 4 ∧
    ¬ TmRight epochDateTime blank := by
  refine ⟨by decide,?_,?_⟩
  · rw [weekday,epochDayNumber]
    decide
  · rw [toTmBeforeEpoch (by decide)]
    exact lt_irrefl _

end Example

end Qtl.DatetimeTm
