import Qtl.DatetimeParse

/-! datetime_format: the bytes it writes are the text of a stamp, and what
datetime_from_iso8601 makes of that text. The number of microseconds is printed as if
it counted nanoseconds, and the fields are those of UTC whatever the offset. -/
namespace Qtl.DatetimeFormat
open Base.Calendar Base.Text Datetime DatetimeParse

/- The date and time up to the seconds, in the order of the source. `sec` is below a
day, so `v /= 10` and `v /= 6` walk from the seconds to the hours. -/
def dateTimeWrites (sec y m d : Nat) : List Write :=
  let v := sec % ticksPerSecond
  [(18,digitByte (v % 10)),(17,digitByte (v / 10 % 6)),(16,ascii ':'),
    (15,digitByte (v / 10 / 6 % 10)),(14,digitByte (v / 10 / 6 / 10 % 6)),(13,ascii ':'),
    (12,digitByte (v / 10 / 6 / 10 / 6 % 10)),(11,digitByte (v / 10 / 6 / 10 / 6 / 10 % 10)),(10,ascii 'T'),
    (9,digitByte (d % 10)),(8,digitByte (d / 10 % 10)),(7,ascii '-'),
    (6,digitByte (m % 10)),(5,digitByte (m / 10 % 10)),(4,ascii '-'),
    (3,digitByte (y % 10)),(2,digitByte (y / 10 % 10)),(1,digitByte (y / 10 / 10 % 10)),
    (0,digitByte (y / 10 / 10 / 10 % 10))]

-- The switch falls through from case `k` to case 1.
def digitWrites (p : Nat) : (k v : Nat) → List Write
  | 0, _ => []
  | k + 1, v => (p + (k + 1),digitByte (v % 10)) :: digitWrites p k (v / 10)

def fractionWrites (p precision nsec : Nat) : List Write × Nat :=
  if precision = 0 then ([],p)
  else
    let v := nsec / pow10.getD (9 - precision) 0
    (digitWrites p precision v ++ [(p,ascii '.')],p + (1 + precision))

def zoneWrites (p : Nat) (zoneOffset : Int) : List Write × Nat :=
  if zoneOffset = 0 then ([(p,ascii 'Z')],p + 1)
  else
    let v := zoneOffset.natAbs
    ([(p,if zoneOffset < 0 then ascii '-' else ascii '+'),
      (p + 5,digitByte (v % 10)),(p + 4,digitByte (v / 10 % 6)),(p + 3,ascii ':'),
      (p + 2,digitByte (v / 10 / 6 % 10)),(p + 1,digitByte (v / 10 / 6 / 10 % 10))],p + 6)

def timestampWrites (ymd : Ymd) (sec nsec : Nat) (zoneOffset : Int) (precision : Nat) : List Write :=
  let (fraction,p) := fractionWrites 19 precision nsec
  let (zone,p) := zoneWrites p zoneOffset
  dateTimeWrites sec ymd.y ymd.m ymd.d ++ fraction ++ zone ++ [(p,0)]

-- The length of the form with `Z`, whatever the offset.
def dlenOf (precision : Nat) : Nat := if precision = 0 then 20 else 20 + (1 + precision)

def timestampFormatInternal (len dt : Nat) (zoneOffset : Int) (precision : Nat) : Nat × List Write :=
  let dlen := dlenOf precision
  if dlen ≥ len then (0,[])
  else
    let sec := dt % ticksPerDay / ticksPerSecond
    let rdn := dt / ticksPerDay % u32Range
    let nsec := dt % ticksPerDay % ticksPerSecond
    (dlen,timestampWrites (rdnToYmd rdn).val sec nsec zoneOffset precision)

def precisionOf (f : Nat) : Nat :=
  if f = 0 then 0
  else if f % 1000000 = 0 then 3
  else if f % 1000 = 0 then 6
  else 9

-- The offset is a long; the callee takes an int32_t.
def datetimeFormat (len dt : Nat) (offset : Int) : Nat × List Write :=
  let f := dt % ticksPerDay % ticksPerSecond
  timestampFormatInternal len dt (i32 offset).val (precisionOf f)

def ParsesBack (dst : Nat → UInt8) (len dt : Nat) (offset : Int) (out : Nat) : Prop :=
  let (dlen,writes) := datetimeFormat len dt offset
  dlen ≠ 0 ∧ ∃ n, Terminated (applyWrites dst writes) n ∧
    datetimeFromIso8601 (applyWrites dst writes) n out = (0,dt)

section Laid
variable {p precision sec y m d v : Nat}

def zoneOf (offset : Int) : Zone :=
  if offset = 0 then .utc (ascii 'Z')
  else .shifted (decide (offset < 0)) (offset.natAbs / 60) (offset.natAbs % 60)

/-- The stamp that is written: UTC fields, and the microseconds in the place of nanoseconds. -/
def stampOf (f : Fields) (offset : Int) (precision : Nat) : Stamp :=
  ⟨f.date,ascii 'T',f.hour,f.minute,f.second,digits precision (f.usec / 10 ^ (9 - precision)),zoneOf offset⟩

theorem dateTimeWritesLaid {s : Stamp} (day : sec < 86400) (date : s.date = ⟨y,m,d⟩)
    (hour : s.hour = sec / 60 / 60) (minute : s.minute = sec / 60 % 60) (second : s.second = sec % 60)
    (separator : s.separator = ascii 'T') : (dateTimeWrites sec y m d).Perm (laid 0 s.dateTimeText) := by
  have kept : sec % ticksPerSecond = sec := Nat.mod_eq_of_lt (by rw [ticksPerSecond]; omega)
  have h0 : sec / 10 / 6 / 10 / 6 % 10 = sec / 60 / 60 % 10 := by omega
  have h1 : sec / 10 / 6 / 10 / 6 / 10 % 10 = sec / 60 / 60 / 10 % 10 := by omega
  have m0 : sec / 10 / 6 % 10 = sec / 60 % 60 % 10 := by omega
  have m1 : sec / 10 / 6 / 10 % 6 = sec / 60 % 60 / 10 % 10 := by omega
  have s0 : sec % 10 = sec % 60 % 10 := by omega
  have s1 : sec / 10 % 6 = sec % 60 / 10 % 10 := by omega
  have reversed : dateTimeWrites sec y m d = (laid 0 s.dateTimeText).reverse := by
    rw [dateTimeWrites,kept,h0,h1,m0,m1,s0,s1,Stamp.dateTimeText,date,hour,minute,second,separator]
    simp only [digitText,digits,laid,List.nil_append,List.cons_append,List.map_cons,List.map_nil,List.reverse_cons,
      List.reverse_nil,Nat.reduceAdd]
  rw [reversed]
  exact List.reverse_perm _

theorem digitWritesLaid : digitWrites p precision v = (laid (p + 1) (digitText precision v)).reverse := by
  induction precision generalizing v with
  | zero => rfl
  | succ k ih =>
    have text : digitText (k + 1) v = digitText k (v / 10) ++ [digitByte (v % 10)] := by
      rw [digitText,digits,List.map_append]
      rfl
    rw [digitWrites,ih,text,laidAppend,List.reverse_append,digitTextLength,Nat.add_assoc,Nat.add_comm 1 k]
    rfl

theorem fractionWritesLaid {nsec : Nat} {ds : List Nat}
    (same : ds = digits precision (nsec / 10 ^ (9 - precision))) :
    (fractionWrites p precision nsec).1.Perm (laid p (Stamp.fractionText ds)) ∧
    (fractionWrites p precision nsec).2 = p + (Stamp.fractionText ds).length := by
  subst same
  cases precision with
  | zero => exact ⟨.refl _,rfl⟩
  | succ k =>
    have some : digits (k + 1) (nsec / 10 ^ (9 - (k + 1))) ≠ [] := by simp [digits]
    rw [fractionWrites,if_neg (Nat.succ_ne_zero k),Stamp.fractionText,if_neg some,← digitText,
      pow10At (Nat.sub_le _ _)]
    dsimp only
    rw [digitWritesLaid]
    refine ⟨?_,by simp [Nat.add_comm]⟩
    exact List.perm_append_comm.trans ((List.reverse_perm _).cons _)

theorem zoneWritesLaid (offset : Int) :
    (zoneWrites p offset).1.Perm (laid p (zoneOf offset).text) ∧
    (zoneWrites p offset).2 = p + (zoneOf offset).text.length := by
  unfold zoneWrites zoneOf
  split
  · exact ⟨.refl _,rfl⟩
  · generalize offset.natAbs = v
    have h0 : v / 10 / 6 % 10 = v / 60 % 10 := by omega
    have h1 : v / 10 / 6 / 10 % 10 = v / 60 / 10 % 10 := by omega
    have m0 : v % 10 = v % 60 % 10 := by omega
    have m1 : v / 10 % 6 = v % 60 / 10 % 10 := by omega
    refine ⟨?_,by simp [Zone.text]⟩
    have sign : (if decide (offset < 0) = true then ascii '-' else ascii '+') =
        if offset < 0 then ascii '-' else ascii '+' := by simp
    dsimp only
    rw [h0,h1,m0,m1,Zone.text,sign]
    exact (List.reverse_perm (laid (p + 1) (digitText 2 (v / 60) ++ [ascii ':'] ++ digitText 2 (v % 60)))).cons _

theorem timestampWritesLaid {ymd : Ymd} {nsec : Nat} {offset : Int} (day : sec < 86400) :
    (timestampWrites ymd sec nsec offset precision).Perm (laid 0 ((stampOf
      ⟨ymd.y,ymd.m,ymd.d,sec / 60 / 60,sec / 60 % 60,sec % 60,nsec⟩ offset precision).text ++ [0])) := by
  generalize stamp : stampOf _ offset precision = s
  have front : (dateTimeWrites sec ymd.y ymd.m ymd.d).Perm (laid 0 s.dateTimeText) := by
    rw [← stamp]
    exact dateTimeWritesLaid day rfl rfl rfl rfl rfl
  have shown : s.fraction = digits precision (nsec / 10 ^ (9 - precision)) := by rw [← stamp,stampOf]
  have zoned : s.zone = zoneOf offset := by rw [← stamp,stampOf]
  obtain ⟨fraction,fractionEnd⟩ : _ ∧ (fractionWrites 19 precision _).2 = _ := fractionWritesLaid shown
  obtain ⟨zone,zoneEnd⟩ : _ ∧ (zoneWrites (19 + (Stamp.fractionText s.fraction).length) offset).2 = _ :=
    zoneWritesLaid offset
  rw [← zoned] at zone zoneEnd
  have length : 0 + s.text.length = 19 + (Stamp.fractionText s.fraction).length + s.zone.text.length := by
    rw [Nat.zero_add,textLength]
  have front' : 0 + (s.dateTimeText ++ Stamp.fractionText s.fraction).length =
      19 + (Stamp.fractionText s.fraction).length := by
    rw [Nat.zero_add,List.length_append,dateTimeLength]
  rw [timestampWrites]
  dsimp only
  rw [fractionEnd,zoneEnd,laidAppend,length,Stamp.text,laidAppend,front',laidAppend,dateTimeLength]
  exact ((front.append fraction).append zone).append (.refl _)

theorem dlenPositive (precision : Nat) : dlenOf precision ≠ 0 := by
  unfold dlenOf
  split <;> omega

theorem formatLaid {len : Nat} (dt : Nat) (offset : Int) (room : dlenOf precision < len) :
    (timestampFormatInternal len dt offset precision).1 ≠ 0 ∧
    (timestampFormatInternal len dt offset precision).2.Perm
      (laid 0 ((stampOf (datetimeDecode dt) offset precision).text ++ [0])) := by
  have day : dt % ticksPerDay / ticksPerSecond < 86400 := by
    rw [ticksPerDay,ticksPerSecond]
    omega
  rw [timestampFormatInternal,if_neg (Nat.not_le_of_lt room),datetimeDecode]
  exact ⟨dlenPositive precision,timestampWritesLaid day⟩

end Laid

section Value
variable {f : Fields} {dt len out precision : Nat} {offset : Int} {dst : Nat → UInt8}

theorem zoneOfValid (low : -1439 ≤ offset) (high : offset ≤ 1439) : (zoneOf offset).Valid := by
  unfold zoneOf
  split
  · exact .inl rfl
  · exact ⟨by omega,by omega⟩

theorem zoneOfOffset (offset : Int) : (zoneOf offset).offset = offset * 60000000 := by
  unfold zoneOf
  split
  · rename_i zero
    rw [zero]
    rfl
  · have whole : ((offset.natAbs / 60 : Nat) : Int) * 60 + (offset.natAbs % 60 : Nat) = offset.natAbs := by omega
    rw [Zone.offset,whole]
    by_cases west : offset < 0
    · rw [if_pos (decide_eq_true west)]
      omega
    · rw [if_neg (by simp [west])]
      omega

theorem stampOfValid (valid : f.Valid) (year : f.year ≤ 9999) (low : -1439 ≤ offset) (high : offset ≤ 1439)
    (precise : precision ≤ 9) : (stampOf f offset precision).Valid where
  date := valid.date
  year := year
  separator := .inl rfl
  hour := Nat.le_of_lt_succ valid.hour
  minute := Nat.le_of_lt_succ valid.minute
  second := Nat.le_of_lt_succ valid.second
  fraction := (digitsLength precision _).trans_le precise
  digit := fun _ => digitsSmall
  zone := zoneOfValid low high

theorem precisionOfExact {u : Nat} (small : u < 1000000) :
    precisionOf u ≤ 9 ∧ u / 10 ^ (9 - precisionOf u) * 10 ^ (9 - precisionOf u) = u ∧
    u / 10 ^ (9 - precisionOf u) < 10 ^ precisionOf u := by
  unfold precisionOf
  split
  · rename_i zero
    subst zero
    decide
  · split
    · omega
    · split
      · exact ⟨by decide,by omega,by omega⟩
      · exact ⟨by decide,by omega,by omega⟩

theorem stampOfMicros (small : f.usec < 1000000) :
    Stamp.micros (stampOf f offset (precisionOf f.usec)).fraction = f.usec / 1000 := by
  obtain ⟨precise,exact,fits⟩ := precisionOfExact small
  have length := digitsLength (precisionOf f.usec) (f.usec / 10 ^ (9 - precisionOf f.usec))
  rw [stampOf,← nanosMicros (length.trans_le precise),nanos,length,ofDigitsDigits fits,exact]

theorem u64RangeValue : (u64Range : Int) = 18446744073709551616 := by
  rw [u64Range]
  norm_num

def parsedValue (dt : Nat) (offset : Int) : Nat :=
  ((dt - dt % 1000000 + dt % 1000000 / 1000 : Nat) - offset * 60000000 : Int) % u64Range |>.toNat

theorem parsedValueIff (bound : dt ≤ maxDateTime) (low : -1439 ≤ offset) (high : offset ≤ 1439) :
    parsedValue dt offset = dt ↔ (dt % 1000000 : Nat) + offset * 60000000 = (dt % 1000000 / 1000 : Nat) := by
  rw [parsedValue,u64RangeValue]
  rw [maxDateTime] at bound
  have part : dt % 1000000 ≤ dt := Nat.mod_le _ _
  have small : dt % 1000000 < 1000000 := Nat.mod_lt _ (by decide)
  generalize dt % 1000000 = f at part small ⊢
  have exact : ((dt - f + f / 1000 : Nat) : Int) - offset * 60000000 = dt ↔
      (f : Int) + offset * 60000000 = (f / 1000 : Nat) := by omega
  rw [← exact]
  have above : ((dt - f + f / 1000 : Nat) : Int) - offset * 60000000 ≤ 400000000000000000 := by omega
  have below : -400000000000000000 ≤ ((dt - f + f / 1000 : Nat) : Int) - offset * 60000000 := by omega
  generalize ((dt - f + f / 1000 : Nat) : Int) - offset * 60000000 = x at above below ⊢
  omega

theorem decodeBound (bound : dt ≤ maxDateTime) : dt < yearsDays 65535 * ticksPerDay := by
  rw [yearsDaysTotal,ticksPerDay]
  rw [maxDateTime] at bound
  omega

theorem yearOfDays {n : Nat} (early : dayNumber f.date < yearsDays n) : f.year ≤ n := by
  by_contra late
  have years : n ≤ f.date.year - 1 := Nat.le_sub_one_of_lt (Nat.lt_of_not_le late)
  have before := yearsDaysMono years
  rw [dayNumber] at early
  omega

theorem dayUsec (dt : Nat) : dt % ticksPerDay % ticksPerSecond = dt % 1000000 := by
  rw [ticksPerDay,ticksPerSecond]
  omega

theorem decodeUsec (dt : Nat) : (datetimeDecode dt).usec = dt % 1000000 := by
  rw [datetimeDecode,← dayUsec]

theorem decodeYear (bound : dt ≤ maxDateTime) : (datetimeDecode dt).year ≤ 9999 := by
  obtain ⟨_,days,_⟩ := datetimeDecodeExact (decodeBound bound)
  have last : yearsDays 9999 = 3652059 := yearsDaysAt (by norm_num)
  refine yearOfDays ?_
  rw [days,last,ticksPerDay]
  rw [maxDateTime] at bound
  omega

theorem stampOfLocalTime (offset : Int) (valid : f.Valid) : (stampOf f offset (precisionOf f.usec)).localTime + f.usec =
    dayNumber f.date * ticksPerDay + f.time + f.usec / 1000 := by
  have head : (stampOf f offset (precisionOf f.usec)).localTime =
      (((dayNumber f.date * 24 + f.hour) * 60 + f.minute) * 60 + f.second) * 1000000 +
        Stamp.micros (stampOf f offset (precisionOf f.usec)).fraction := rfl
  rw [head,stampOfMicros valid.usec,Fields.time,ticksPerDay,ticksPerSecond]
  omega

theorem stampOfValue (bound : dt ≤ maxDateTime) (offset : Int) :
    ((stampOf (datetimeDecode dt) offset (precisionOf (datetimeDecode dt).usec)).value % u64Range).toNat =
      parsedValue dt offset := by
  obtain ⟨valid,days,time⟩ := datetimeDecodeExact (decodeBound bound)
  have whole := stampOfLocalTime offset valid
  rw [days,time,Nat.div_add_mod',decodeUsec] at whole
  have local' : (stampOf (datetimeDecode dt) offset (precisionOf (datetimeDecode dt).usec)).localTime =
      dt - dt % 1000000 + dt % 1000000 / 1000 := by
    rw [decodeUsec]
    omega
  have zone : (stampOf (datetimeDecode dt) offset (precisionOf (datetimeDecode dt).usec)).zone = zoneOf offset := rfl
  rw [Stamp.value,local',zone,zoneOfOffset,parsedValue]

theorem formatParsed (room : dlenOf (precisionOf (dt % 1000000)) < len) (bound : dt ≤ maxDateTime)
    (low : -1439 ≤ offset) (high : offset ≤ 1439) :
    (datetimeFormat len dt offset).1 ≠ 0 ∧ ∃ n, Terminated (applyWrites dst (datetimeFormat len dt offset).2) n ∧
      datetimeFromIso8601 (applyWrites dst (datetimeFormat len dt offset).2) n out = (0,parsedValue dt offset) := by
  obtain ⟨valid,_⟩ := datetimeDecodeExact (decodeBound bound)
  have kept : (i32 offset).val = offset := by
    rw [i32Pure (by omega) (by omega)]
    rfl
  obtain ⟨precise,_⟩ := precisionOfExact valid.usec
  rw [← decodeUsec] at room
  rw [datetimeFormat,kept,dayUsec,← decodeUsec]
  obtain ⟨written,perm⟩ := formatLaid dt offset room
  have stampValid := stampOfValid valid (decodeYear bound) low high precise
  have placed : Placed (applyWrites dst _) 0 _ := permPlaced perm
  refine ⟨written,_,placedTerminated placed (textNonzero stampValid),?_⟩
  rw [← stampOfValue bound offset]
  exact iso8601Accepts stampValid (placedAppend.mp placed).1 out

theorem parsesBackIff (room : dlenOf (precisionOf (dt % 1000000)) < len) (bound : dt ≤ maxDateTime)
    (low : -1439 ≤ offset) (high : offset ≤ 1439) :
    ParsesBack dst len dt offset out ↔ parsedValue dt offset = dt := by
  obtain ⟨written,n,ended,parsed⟩ : _ ∧ ∃ n, Terminated (applyWrites dst _) n ∧ datetimeFromIso8601 _ n out = _ :=
    formatParsed room bound low high
  constructor
  · rintro ⟨_,m,ended',back⟩
    rw [terminatedUnique ended' ended] at back
    exact congrArg Prod.snd (parsed.symm.trans back)
  · intro same
    rw [same] at parsed
    exact ⟨written,n,ended,parsed⟩

theorem dlenBound {u : Nat} (small : u < 1000000) : dlenOf (precisionOf u) ≤ 30 := by
  obtain ⟨precise,_⟩ := precisionOfExact small
  unfold dlenOf
  split <;> omega

end Value

section RoundTrip
variable {dst : Nat → UInt8} {len dt out : Nat} {offset : Int}

theorem utcRoundTripWhole (room : 31 ≤ len) (bound : dt ≤ maxDateTime) :
    ParsesBack dst len dt 0 out ↔ dt % 1000000 = 0 := by
  have small : dt % 1000000 < 1000000 := Nat.mod_lt _ (by decide)
  rw [parsesBackIff (Nat.lt_of_le_of_lt (dlenBound small) room) bound (by decide) (by decide),
    parsedValueIff bound (by decide) (by decide)]
  omega

-- 2000-02-29T12:34:56Z
def leapDay : Nat := 63087424496 * 1000000

theorem utcRoundTripWholeLeapDay : ParsesBack (fun _ => 0) 31 leapDay 0 0 ∧
    ¬ ParsesBack (fun _ => 0) 31 (leapDay + 250000) 0 0 :=
  ⟨(utcRoundTripWhole (Nat.le_refl 31) (by decide)).mpr (by decide),
    fun back => absurd ((utcRoundTripWhole (Nat.le_refl 31) (by decide)).mp back) (by decide)⟩

theorem utcMicrosecondLost : ¬ ParsesBack (fun _ => 0) 31 1 0 0 := by
  rw [parsesBackIff (by decide) (by decide) (by decide) (by decide)]
  decide

/-- With an offset no whole second comes back, since the fields written are those of UTC. -/
theorem offsetChangesInstant (room : 26 ≤ len) (bound : dt ≤ maxDateTime) (whole : dt % 1000000 = 0)
    (low : -1439 ≤ offset) (high : offset ≤ 1439) (shifted : offset ≠ 0) : ¬ ParsesBack dst len dt offset out := by
  have fits : dlenOf (precisionOf (dt % 1000000)) < len := by
    rw [whole]
    exact Nat.lt_of_lt_of_le (by decide) room
  rw [parsesBackIff fits bound low high,parsedValueIff bound low high,whole]
  omega

theorem offsetChangesInstantHour : ¬ ParsesBack (fun _ => 0) 26 7200000000 60 0 :=
  offsetChangesInstant (Nat.le_refl 26) (by decide) (by decide) (by decide) (by decide) (by decide)

theorem offsetHourShifted : ¬ ParsesBack (fun _ => 0) 26 7200000000 60 0 ∧ parsedValue 7200000000 60 = 3600000000 := by
  rw [parsesBackIff (by decide) (by decide) (by decide) (by decide)]
  decide

end RoundTrip

end Qtl.DatetimeFormat
