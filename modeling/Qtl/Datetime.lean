import Qtl.Base.Calendar
import Qtl.Base.FixedWidth

/-! qtl_datetime.c: datetimes as microseconds since 0001-01-01T00:00:00 and their
calendar fields. The 16 and 32-bit computations run in the machine that remembers
whether anything wrapped. -/
namespace Qtl.Datetime
open Base.Calendar Base.FixedWidth

abbrev u16 := unsigned 16
abbrev u32 := unsigned 32
abbrev i32 := signed 32

def ticksPerSecond : Nat := 1000000
def ticksPerDay : Nat := 86400000000
def u32Range : Nat := 2 ^ 32
def u64Range : Nat := 2 ^ 64

-- MAX_DATE_TIME of qtl.h
def maxDateTime : Nat := 315537897599999999

def daysPrecedingMonth (leap : Bool) : List Nat :=
  if leap then [0,0,31,60,91,121,152,182,213,244,274,305,335]
  else [0,0,31,59,90,120,151,181,212,243,273,304,334]

def dayOffset : List Nat := [0,306,337,0,31,61,92,122,153,184,214,245,275]

-- `y & 3` of an unsigned value is its remainder by 4
def leapYear (y : Nat) : Bool := y % 4 == 0 && (y % 100 != 0 || y % 400 == 0)

-- A month above 12 reads outside the table; no caller passes one.
def monthDays (y m : Nat) : Nat :=
  (if m = 2 ∧ leapYear y then [0,31,29,31,30,31,30,31,31,30,31,30,31]
  else [0,31,28,31,30,31,30,31,31,30,31,30,31]).getD m 0

section Pure
variable {x : Int}

theorem u16Pure (k : Nat) (same : x = k) (high : k < 65536) : u16 x = pure k := unsignedPure k same high

theorem u32Pure (k : Nat) (same : x = k) (high : k < 4294967296) : u32 x = pure k := unsignedPure k same high

theorem i32Pure (low : -2147483648 ≤ x) (high : x < 2147483648) : i32 x = pure x :=
  signedPure (by omega) (by omega)

end Pure

structure Ymd where
  y : Nat
  m : Nat
  d : Nat
  yday : Nat
  deriving DecidableEq, Repr

-- The end of rdn_to_ymd: month and day from the day `d` of a year that starts in March.
def marchToYmd (y d : Nat) : Machine Ymd := do
  let m ← i32 (535 * d)
  let m ← i32 (m + 48950)
  let m ← u16 (m / 16384)
  if m > 12 then
    let y ← u16 (y + 1)
    let m ← u16 (m - 12)
    let doy ← u16 (d - 306)
    let day ← u16 (d - dayOffset.getD m 0)
    return ⟨y,m,day,doy⟩
  else
    let doy ← u16 (d + 59 + if leapYear y then 1 else 0)
    let day ← u16 (d - dayOffset.getD m 0)
    return ⟨y,m,day,doy⟩

def rdnToYmd (rdn : Nat) : Machine Ymd := do
  let rdn ← u32 (rdn + 1)
  let Z ← u32 (rdn + 306)
  let H ← u32 (100 * Z)
  let H ← u32 (H - 25)
  let A := H / 3652425
  let B ← u32 (A - (A / 4 : Nat))
  let scaled ← u32 (100 * B)
  let scaled ← u32 (scaled + H)
  let y ← u16 (scaled / 36525 : Nat)
  let quarters ← i32 (1461 * y)
  let d ← u32 (B + Z)
  let d ← u32 (d - quarters / 4)
  let d ← u16 d
  marchToYmd y d

def ydToRdn (y d : Nat) : Machine Nat := do
  let y ← u16 (y - 1)
  let days ← i32 (365 * y)
  let days ← i32 (days + (y / 4 : Nat))
  let days ← i32 (days - (y / 100 : Nat))
  let days ← i32 (days + (y / 400 : Nat))
  let days ← i32 (days + d)
  u32 days

-- The first lines of ymd_to_rdn: whole years are carried out of the month.
def carryMonths (y m : Nat) : Machine (Nat × Nat) := do
  if m < 1 ∨ m > 12 then
    let y ← u16 (y + (m / 12 : Nat))
    let m := m % 12
    if m < 1 then
      let y ← u16 (y - 1)
      let m ← u16 (m + 12)
      return (y,m)
    else return (y,m)
  else return (y,m)

def ymdToRdn (y m d : Nat) : Machine Nat := do
  let (y,m) ← carryMonths y m
  let d ← i32 ((daysPrecedingMonth (leapYear y)).getD m 0 + d)
  let d ← i32 (d - 1)
  let d ← u16 d
  ydToRdn y d

def datetimeFromYmd (year month day : Nat) : Nat :=
  (ymdToRdn year month day).val * ticksPerDay % u64Range

def datetimeFromHmsu (hour minute second usec : Nat) : Nat :=
  let totalSeconds := hour * 3600 + minute * 60 + second
  (totalSeconds * ticksPerSecond + usec) % u64Range

structure Fields where
  year : Nat
  month : Nat
  day : Nat
  hour : Nat
  minute : Nat
  second : Nat
  usec : Nat
  deriving DecidableEq, Repr

-- `perday` and `sod` are below a day, so storing them in 32 and 16 bits loses nothing.
def datetimeDecode (dt : Nat) : Fields :=
  let rdn := dt / ticksPerDay % u32Range
  let ymd := (rdnToYmd rdn).val
  let perday := dt % ticksPerDay
  let usec := perday % ticksPerSecond
  let sod := perday / ticksPerSecond
  ⟨ymd.y,ymd.m,ymd.d,sod / 60 / 60,sod / 60 % 60,sod % 60,usec⟩

def encode (f : Fields) : Nat :=
  (datetimeFromYmd f.year f.month f.day + datetimeFromHmsu f.hour f.minute f.second f.usec) % u64Range

def Fields.date (f : Fields) : Date := ⟨f.year,f.month,f.day⟩

structure Fields.Valid (f : Fields) : Prop where
  date : f.date.Valid
  year : f.year ≤ 65535
  hour : f.hour < 24
  minute : f.minute < 60
  second : f.second < 60
  usec : f.usec < 1000000

def Fields.toList (f : Fields) : List Nat :=
  [f.year,f.month,f.day,f.hour,f.minute,f.second,f.usec]

theorem leapYearLeap (y : Nat) : leapYear y = isLeap y := rfl

theorem monthDaysLength {y m : Nat} (low : 1 ≤ m) (high : m ≤ 12) : monthDays y m = monthLength y m := by
  rw [monthDays,leapYearLeap]
  cases leap : isLeap y <;> interval_cases m <;> simp [monthLength,leap]

theorem precedingDays {y m : Nat} (low : 1 ≤ m) (high : m ≤ 12) :
    (daysPrecedingMonth (leapYear y)).getD m 0 = monthsDays y (m - 1) := by
  rw [daysPrecedingMonth,leapYearLeap]
  cases leap : isLeap y <;> interval_cases m <;> simp [monthsDays,monthLength,leap]

section March
variable {n a b c e f y m : Nat}

theorem marchTable (day : f ≤ 365) (month : (535 * (f + 1) + 48950) / 16384 = m) :
    3 ≤ m ∧ m ≤ 14 ∧ if m > 12 then
      306 ≤ f ∧ dayOffset.getD (m - 12) 0 ≤ f ∧
        f < dayOffset.getD (m - 12) 0 + (if m = 13 then 31 else if f = 365 then 29 else 28)
    else f < 306 ∧ dayOffset.getD m 0 ≤ f ∧ f < dayOffset.getD m 0 + monthLength 1 m := by
  have low : 3 ≤ m := by omega
  have high : m ≤ 14 := by omega
  refine ⟨low,high,?_⟩
  interval_cases m <;> simp [dayOffset,monthLength] <;> first | omega | (split <;> omega)

theorem yearsDaysTotal : yearsDays 65535 = 23936166 := yearsDaysAt (by norm_num)

theorem marchMonths (low : 3 ≤ m) (high : m ≤ 12) :
    monthsDays y (m - 1) = 59 + (if isLeap y then 1 else 0) + dayOffset.getD m 0 ∧
    monthLength y m = monthLength 1 m := by
  cases leap : isLeap y <;> interval_cases m <;> simp [monthsDays,monthLength,leap,dayOffset]

theorem marchToYmdMonth (day : f ≤ 365) (month : (535 * (f + 1) + 48950) / 16384 = m) :
    marchToYmd y (f + 1) = if m > 12 then do
      let y ← u16 (y + 1)
      let m ← u16 (m - 12)
      let doy ← u16 ((f + 1 : Nat) - 306)
      let day ← u16 ((f + 1 : Nat) - dayOffset.getD m 0)
      return ⟨y,m,day,doy⟩
    else do
      let doy ← u16 ((f + 1 : Nat) + 59 + if leapYear y then 1 else 0)
      let day ← u16 ((f + 1 : Nat) - dayOffset.getD m 0)
      return ⟨y,m,day,doy⟩ := by
  rw [marchToYmd,i32Pure (by omega) (by omega),pure_bind,i32Pure (by omega) (by omega),pure_bind,
    u16Pure m (by omega) (by omega),pure_bind]

def FoundDate (y f : Nat) (found : Machine Ymd) : Prop :=
  ∃ date : Date, date.Valid ∧ date.year ≤ 65535 ∧ dayNumber date + 306 = yearsDays y + f ∧
    found = pure ⟨date.year,date.month,date.day,monthsDays date.year (date.month - 1) + date.day⟩

-- January and February belong to the next year; only there the leap day counts.
theorem marchLate (day : f ≤ 365) (bound : yearsDays y + f < yearsDays 65535 + 306)
    (leapDay : f = 365 → isLeap (y + 1) = true) (month : (535 * (f + 1) + 48950) / 16384 = m) (after : m > 12) :
    FoundDate y f (marchToYmd y (f + 1)) := by
  have closed := yearsDaysClosed y
  rw [yearsDaysTotal] at bound
  obtain ⟨_,high,table⟩ := marchTable day month
  rw [if_pos after] at table
  obtain ⟨late,from',upto⟩ := table
  have year : y + 1 ≤ 65535 := by omega
  have first : monthsDays (y + 1) (m - 12 - 1) + 306 = dayOffset.getD (m - 12) 0 := by
    obtain rfl | rfl : m = 13 ∨ m = 14 := by omega
    · rfl
    · rfl
  have short : f < dayOffset.getD (m - 12) 0 + monthLength (y + 1) (m - 12) := by
    obtain rfl | rfl : m = 13 ∨ m = 14 := by omega
    · exact upto
    · by_cases last : f = 365
      · rw [monthLength,if_pos rfl,if_pos (leapDay last)]
        rwa [if_neg (by decide),if_pos last] at upto
      · rw [if_neg (by decide),if_neg last] at upto
        rw [monthLength,if_pos rfl]
        split <;> omega
  rw [marchToYmdMonth day month,if_pos after,u16Pure (y + 1) (by omega) (by omega),pure_bind,
    u16Pure (m - 12) (by omega) (by omega),pure_bind]
  generalize dayOffset.getD (m - 12) 0 = o at from' upto first short ⊢
  rw [u16Pure (f - 305) (by omega) (by omega),pure_bind,u16Pure (f + 1 - o) (by omega) (by omega),pure_bind]
  have valid : Date.Valid ⟨y + 1,m - 12,f + 1 - o⟩ := by
    constructor <;> dsimp only <;> omega
  refine ⟨⟨y + 1,m - 12,f + 1 - o⟩,valid,year,?_,?_⟩
  · rw [dayNumber]
    dsimp only
    rw [Nat.add_sub_cancel]
    omega
  · dsimp only
    rw [show f - 305 = monthsDays (y + 1) (m - 12 - 1) + (f + 1 - o) by omega]

theorem marchEarly (day : f ≤ 365) (bound : yearsDays y + f < yearsDays 65535 + 306)
    (started : 306 ≤ yearsDays y + f) (month : (535 * (f + 1) + 48950) / 16384 = m) (before : ¬ m > 12) :
    FoundDate y f (marchToYmd y (f + 1)) := by
  have closed := yearsDaysClosed y
  rw [yearsDaysTotal] at bound
  obtain ⟨low,_,table⟩ := marchTable day month
  rw [if_neg before] at table
  obtain ⟨early,from',upto⟩ := table
  obtain ⟨k,rfl⟩ : ∃ k, y = k + 1 := by
    cases y with
    | zero => exact absurd started (by rw [yearsDays]; omega)
    | succ k => exact ⟨k,rfl⟩
  have grown : yearsDays (k + 1) = yearsDays k + (365 + if isLeap (k + 1) then 1 else 0) := by
    rw [yearsDays,leapLength]
  obtain ⟨first,length⟩ := marchMonths (y := k + 1) low (Nat.le_of_not_lt before)
  rw [← length] at upto
  have doy : ((f + 1 : Nat) : Int) + 59 + (if leapYear (k + 1) then 1 else 0) =
      (f + 60 + (if isLeap (k + 1) then 1 else 0) : Nat) := by
    rw [leapYearLeap]
    split <;> omega
  have leapBound : (if isLeap (k + 1) then 1 else 0) ≤ 1 := by split <;> omega
  rw [marchToYmdMonth day month,if_neg before,u16Pure _ doy (by omega),pure_bind]
  generalize dayOffset.getD m 0 = o at from' upto first ⊢
  rw [u16Pure (f + 1 - o) (by omega) (by omega),pure_bind]
  generalize (if isLeap (k + 1) then 1 else 0) = leap at first grown leapBound ⊢
  have valid : Date.Valid ⟨k + 1,m,f + 1 - o⟩ := by
    constructor <;> dsimp only <;> omega
  have year : k + 1 ≤ 65535 := by omega
  refine ⟨⟨k + 1,m,f + 1 - o⟩,valid,year,?_,?_⟩
  · rw [dayNumber]
    dsimp only
    rw [Nat.add_sub_cancel]
    omega
  · dsimp only
    rw [show f + 60 + leap = monthsDays (k + 1) (m - 1) + (f + 1 - o) by omega]

theorem marchToYmdPure (day : f ≤ 365) (bound : yearsDays y + f < yearsDays 65535 + 306)
    (started : 306 ≤ yearsDays y + f) (leapDay : f = 365 → isLeap (y + 1) = true) :
    FoundDate y f (marchToYmd y (f + 1)) := by
  by_cases after : (535 * (f + 1) + 48950) / 16384 > 12
  · exact marchLate day bound leapDay rfl after
  · exact marchEarly day bound started rfl after

theorem rdnToYmdPure {rdn : Nat} (bound : rdn < yearsDays 65535) : ∃ date : Date, date.Valid ∧
    date.year ≤ 65535 ∧ dayNumber date = rdn ∧
    rdnToYmd rdn = pure ⟨date.year,date.month,date.day,monthsDays date.year (date.month - 1) + date.day⟩ := by
  obtain ⟨a,b,c,e,f,blocks⟩ := blocksExist (rdn + 306)
  have years := blocksYears blocks
  have leapDay := blocksLeap blocks
  obtain ⟨whole,century,four,one,day,_⟩ := blocks
  generalize marchY : marchYear a b c e = y at years leapDay
  have split : y = 400 * a + 100 * b + 4 * c + e := marchY.symm
  obtain ⟨date,valid,year,number,found⟩ := marchToYmdPure day (by omega) (by omega) leapDay
  refine ⟨date,valid,year,by omega,?_⟩
  rw [← found]
  rw [yearsDaysTotal] at bound
  have closed := yearsDaysClosed y
  have hA : (100 * (rdn + 307) - 25) / 3652425 = 4 * a + b := by omega
  have hy : (100 * (3 * a + b) + (100 * (rdn + 307) - 25)) / 36525 = y := by omega
  rw [rdnToYmd,u32Pure (rdn + 1) (by omega) (by omega),pure_bind,
    u32Pure (rdn + 307) (by omega) (by omega),pure_bind,
    u32Pure (100 * (rdn + 307)) (by omega) (by omega),pure_bind,
    u32Pure (100 * (rdn + 307) - 25) (by omega) (by omega),pure_bind]
  dsimp only
  rw [hA,u32Pure (3 * a + b) (by omega) (by omega),pure_bind,
    u32Pure (100 * (3 * a + b)) (by omega) (by omega),pure_bind,
    u32Pure (100 * (3 * a + b) + (100 * (rdn + 307) - 25)) (by omega) (by omega),pure_bind,
    u16Pure y (by rw [hy]) (by omega),pure_bind,i32Pure (by omega) (by omega),pure_bind,
    u32Pure (3 * a + b + (rdn + 307)) (by omega) (by omega),pure_bind,
    u32Pure (f + 1) (by omega) (by omega),pure_bind,u16Pure (f + 1) rfl (by omega),pure_bind]

end March

section Encode
variable {date : Date}

theorem ymdToRdnPure (valid : date.Valid) (year : date.year ≤ 65535) :
    ymdToRdn date.year date.month date.day = pure (dayNumber date) := by
  have low := valid.monthLow
  have high := valid.monthHigh
  have first := valid.year
  have dayLow := valid.dayLow
  have inside := dayInYear valid
  have closed := yearsDaysClosed (date.year - 1)
  have long : yearLength date.year ≤ 366 := by rw [leapLength]; split <;> omega
  have carried : carryMonths date.year date.month = pure (date.year,date.month) := if_neg (by omega)
  rw [ymdToRdn,carried,pure_bind]
  dsimp only
  rw [precedingDays low high,i32Pure (by omega) (by omega),pure_bind,i32Pure (by omega) (by omega),pure_bind,
    u16Pure (monthsDays date.year (date.month - 1) + (date.day - 1)) (by omega) (by omega),pure_bind,
    ydToRdn,u16Pure (date.year - 1) (by omega) (by omega),pure_bind,i32Pure (by omega) (by omega),pure_bind,
    i32Pure (by omega) (by omega),pure_bind,i32Pure (by omega) (by omega),pure_bind,
    i32Pure (by omega) (by omega),pure_bind,i32Pure (by omega) (by omega),pure_bind]
  exact u32Pure _ (by rw [dayNumber]; omega) (by rw [dayNumber]; omega)

theorem dayNumberBound (valid : date.Valid) (year : date.year ≤ 65535) : dayNumber date < yearsDays 65535 :=
  (dayNumberYear valid).trans_le (yearsDaysMono year)

theorem datetimeFromYmdDay (valid : date.Valid) (year : date.year ≤ 65535) :
    datetimeFromYmd date.year date.month date.day = dayNumber date * ticksPerDay := by
  have bound := dayNumberBound valid year
  rw [yearsDaysTotal] at bound
  rw [datetimeFromYmd,ymdToRdnPure valid year,Machine.pureVal]
  exact Nat.mod_eq_of_lt (by rw [ticksPerDay,u64Range]; omega)

def Fields.time (f : Fields) : Nat := ((f.hour * 60 + f.minute) * 60 + f.second) * ticksPerSecond + f.usec

variable {f f' : Fields}

theorem validDay (valid : f.Valid) : f.day ≤ monthDays f.year f.month := by
  have low : 1 ≤ f.month := valid.date.monthLow
  have high : f.month ≤ 12 := valid.date.monthHigh
  rw [monthDaysLength low high]
  exact valid.date.dayHigh

theorem timeBound (valid : f.Valid) : f.time < ticksPerDay := by
  obtain ⟨_,_,hour,minute,second,usec⟩ := valid
  rw [Fields.time,ticksPerDay,ticksPerSecond]
  omega

theorem datetimeFromHmsuTime (valid : f.Valid) : datetimeFromHmsu f.hour f.minute f.second f.usec = f.time := by
  have bound := timeBound valid
  rw [Fields.time,ticksPerDay,ticksPerSecond] at bound
  rw [datetimeFromHmsu,Fields.time,ticksPerSecond,u64Range]
  omega

theorem datetimeFromYmdDate (valid : f.Valid) :
    datetimeFromYmd f.date.year f.date.month f.date.day = dayNumber f.date * ticksPerDay := by
  have year : f.date.year ≤ 65535 := valid.year
  exact datetimeFromYmdDay valid.date year

theorem dateBound (valid : f.Valid) : dayNumber f.date < 23936166 := by
  have year : f.date.year ≤ 65535 := valid.year
  have bound := dayNumberBound valid.date year
  rwa [yearsDaysTotal] at bound

theorem encodeExact (valid : f.Valid) : encode f = dayNumber f.date * ticksPerDay + f.time := by
  have bound := dateBound valid
  have time := timeBound valid
  have days : datetimeFromYmd f.year f.month f.day = dayNumber f.date * ticksPerDay := datetimeFromYmdDate valid
  rw [encode,datetimeFromHmsuTime valid,days]
  refine Nat.mod_eq_of_lt ?_
  rw [ticksPerDay] at *
  rw [u64Range]
  omega

theorem datetimeDecodeExact {dt : Nat} (bound : dt < yearsDays 65535 * ticksPerDay) :
    (datetimeDecode dt).Valid ∧ dayNumber (datetimeDecode dt).date = dt / ticksPerDay ∧
    (datetimeDecode dt).time = dt % ticksPerDay := by
  have days : dt / ticksPerDay < yearsDays 65535 := (Nat.div_lt_iff_lt_mul (by decide)).mpr bound
  obtain ⟨date,valid,year,number,found⟩ := rdnToYmdPure days
  have small : dt / ticksPerDay % u32Range = dt / ticksPerDay := by
    rw [yearsDaysTotal] at days
    exact Nat.mod_eq_of_lt (by rw [u32Range]; omega)
  have decoded : datetimeDecode dt = ⟨date.year,date.month,date.day,
      dt % ticksPerDay / ticksPerSecond / 60 / 60,dt % ticksPerDay / ticksPerSecond / 60 % 60,
      dt % ticksPerDay / ticksPerSecond % 60,dt % ticksPerDay % ticksPerSecond⟩ := by
    rw [datetimeDecode,small,found]
    rfl
  rw [decoded]
  refine ⟨⟨valid,year,?_,?_,?_,?_⟩,number,?_⟩
  · rw [ticksPerDay,ticksPerSecond]
    dsimp only
    omega
  · exact Nat.mod_lt _ (by decide)
  · exact Nat.mod_lt _ (by decide)
  · exact Nat.mod_lt _ (by decide)
  · rw [Fields.time,ticksPerDay,ticksPerSecond]
    dsimp only
    omega

theorem encodeDecode {dt : Nat} (bound : dt < yearsDays 65535 * ticksPerDay) :
    encode (datetimeDecode dt) = dt := by
  obtain ⟨valid,days,time⟩ := datetimeDecodeExact bound
  rw [encodeExact valid,days,time]
  exact Nat.div_add_mod' dt ticksPerDay

theorem encodeBound (valid : f.Valid) : encode f < yearsDays 65535 * ticksPerDay := by
  have bound := dayNumberBound valid.date valid.year
  have time := timeBound valid
  rw [encodeExact valid]
  rw [ticksPerDay] at *
  omega

theorem timeInjective (valid : f.Valid) (valid' : f'.Valid) (same : f.time = f'.time) :
    f.hour = f'.hour ∧ f.minute = f'.minute ∧ f.second = f'.second ∧ f.usec = f'.usec := by
  obtain ⟨_,_,_,minute,second,usec⟩ := valid
  obtain ⟨_,_,_,minute',second',usec'⟩ := valid'
  rw [Fields.time,Fields.time,ticksPerSecond] at same
  omega

theorem decodeEncode (valid : f.Valid) : datetimeDecode (encode f) = f := by
  obtain ⟨valid',days,time⟩ := datetimeDecodeExact (encodeBound valid)
  have bound := timeBound valid
  rw [encodeExact valid] at days time ⊢
  have sameDate : (datetimeDecode (dayNumber f.date * ticksPerDay + f.time)).date = f.date := by
    rw [encodeExact valid] at valid'
    refine dayNumberInjective valid'.date valid.date (days.trans ?_)
    rw [Nat.mul_comm,Nat.mul_add_div (by decide),Nat.div_eq_of_lt bound,Nat.add_zero]
  have sameTime : (datetimeDecode (dayNumber f.date * ticksPerDay + f.time)).time = f.time := by
    rw [time,Nat.mul_comm,Nat.mul_add_mod,Nat.mod_eq_of_lt bound]
  rw [encodeExact valid] at valid'
  obtain ⟨hour,minute,second,usec⟩ := timeInjective valid' valid sameTime
  generalize datetimeDecode (dayNumber f.date * ticksPerDay + f.time) = g at *
  cases f
  cases g
  cases sameDate
  cases hour
  cases minute
  cases second
  cases usec
  rfl

theorem toListLt (valid : f.Valid) (valid' : f'.Valid) : f.toList < f'.toList ↔
    Earlier f.date f'.date ∨ f.date = f'.date ∧ f.time < f'.time := by
  obtain ⟨_,_,_,minute,second,usec⟩ := valid
  obtain ⟨_,_,_,minute',second',usec'⟩ := valid'
  have times : f.time < f'.time ↔ f.hour < f'.hour ∨ f.hour = f'.hour ∧ (f.minute < f'.minute ∨
      f.minute = f'.minute ∧ (f.second < f'.second ∨ f.second = f'.second ∧ f.usec < f'.usec)) := by
    rw [Fields.time,Fields.time,ticksPerSecond]
    omega
  have fields : f.toList < f'.toList ↔ f.year < f'.year ∨ f.year = f'.year ∧ (f.month < f'.month ∨
      f.month = f'.month ∧ (f.day < f'.day ∨ f.day = f'.day ∧ f.time < f'.time)) := by
    rw [times]
    simp only [Fields.toList,List.cons_lt_cons_iff,List.lt_irrefl,and_false,or_false]
  rw [fields,Earlier,Fields.date,Fields.date,Date.mk.injEq]
  dsimp only
  grind

theorem decodeOrder {dt dt' : Nat} (bound : dt < yearsDays 65535 * ticksPerDay)
    (bound' : dt' < yearsDays 65535 * ticksPerDay) :
    dt < dt' ↔ (datetimeDecode dt).toList < (datetimeDecode dt').toList := by
  obtain ⟨valid,days,time⟩ := datetimeDecodeExact bound
  obtain ⟨valid',days',time'⟩ := datetimeDecodeExact bound'
  have sameDate : (datetimeDecode dt).date = (datetimeDecode dt').date ↔ dt / ticksPerDay = dt' / ticksPerDay := by
    rw [← days,← days']
    exact ⟨congrArg dayNumber,dayNumberInjective valid.date valid'.date⟩
  rw [toListLt valid valid',← dayNumberLt valid.date valid'.date,days,days',time,time',sameDate]
  rw [ticksPerDay]
  omega

end Encode

theorem decodeEncodeInverse :
    (∀ dt, dt < yearsDays 65535 * ticksPerDay →
      (datetimeDecode dt).Valid ∧
      (datetimeDecode dt).day ≤ monthDays (datetimeDecode dt).year (datetimeDecode dt).month ∧
      encode (datetimeDecode dt) = dt) ∧
    (∀ f : Fields, f.Valid → datetimeDecode (encode f) = f) ∧
    (∀ dt dt', dt < yearsDays 65535 * ticksPerDay → dt' < yearsDays 65535 * ticksPerDay →
      (dt < dt' ↔ (datetimeDecode dt).toList < (datetimeDecode dt').toList)) ∧
    (∀ rdn, rdn < yearsDays 65535 → (rdnToYmd rdn).exact = true) ∧
    ∀ date : Date, date.Valid → date.year ≤ 65535 → (ymdToRdn date.year date.month date.day).exact = true := by
  refine ⟨fun dt bound => ?_,fun f => decodeEncode,fun dt dt' => decodeOrder,fun rdn bound => ?_,
    fun date valid year => ?_⟩
  · obtain ⟨valid,_⟩ := datetimeDecodeExact bound
    exact ⟨valid,validDay valid,encodeDecode bound⟩
  · obtain ⟨_,_,_,_,found⟩ := rdnToYmdPure bound
    rw [found,Machine.pureExact]
  · rw [ymdToRdnPure valid year,Machine.pureExact]

end Qtl.Datetime
