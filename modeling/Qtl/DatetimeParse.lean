import Qtl.Base.Text
import Qtl.Datetime

/-! datetime_from_iso8601: the scanner as the source orders its reads and tests, and
the timestamps it is meant for. `fetch` reads one byte of the string, so that a reader
that stops at the end of the buffer can be put in its place. -/
namespace Qtl.DatetimeParse
open Base.Calendar Base.Text Datetime

inductive Stop where
  | rejected | outside
  deriving DecidableEq, Repr

abbrev Fetch := Nat → Except Stop UInt8

def demand (p : Prop) [Decidable p] : Except Stop Unit := if p then .ok () else .error .rejected

def ascii (c : Char) : UInt8 := c.toUInt8

def pow10 : List Nat := [1,10,100,1000,10000,100000,1000000,10000000,100000000,1000000000]

def parse2d (fetch : Fetch) (i : Nat) : Except Stop Nat := do
  let d0 := digitOf (← fetch (i + 0))
  demand (d0 ≤ 9)
  let d1 := digitOf (← fetch (i + 1))
  demand (d1 ≤ 9)
  return d0 * 10 + d1

def parse4d (fetch : Fetch) (i : Nat) : Except Stop Nat := do
  let d0 := digitOf (← fetch (i + 0))
  demand (d0 ≤ 9)
  let d1 := digitOf (← fetch (i + 1))
  demand (d1 ≤ 9)
  let d2 := digitOf (← fetch (i + 2))
  demand (d2 ≤ 9)
  let d3 := digitOf (← fetch (i + 3))
  demand (d3 ≤ 9)
  return d0 * 1000 + d1 * 100 + d2 * 10 + d3

def scanFields (fetch : Fetch) (len : Nat) : Except Stop Fields := do
  demand (20 ≤ len)
  demand ((← fetch 4) = ascii '-')
  demand ((← fetch 7) = ascii '-')
  demand ((← fetch 13) = ascii ':')
  demand ((← fetch 16) = ascii ':')
  let ch ← fetch 10
  demand (ch = ascii 'T' ∨ ch = ascii ' ' ∨ ch = ascii 't')
  let year ← parse4d fetch 0
  demand (1 ≤ year)
  let month ← parse2d fetch 5
  demand (1 ≤ month ∧ month ≤ 12)
  let day ← parse2d fetch 8
  demand (1 ≤ day ∧ day ≤ 31)
  let hour ← parse2d fetch 11
  demand (hour ≤ 23)
  let min ← parse2d fetch 14
  demand (min ≤ 59)
  let sec ← parse2d fetch 17
  demand (sec ≤ 59)
  demand (¬ (day > 28 ∧ day > monthDays year month))
  return ⟨year,month,day,hour,min,sec,0⟩

/- The digit loop, with the number of bytes up to `end`; it returns the position after
the digits and the accumulator. -/
def scanDigits (fetch : Fetch) : (left cur nsec : Nat) → Except Stop (Nat × Nat)
  | 0, cur, nsec => return (cur,nsec)
  | left + 1, cur, nsec => do
      let digit := digitOf (← fetch cur)
      if digit > 9 then return (cur,nsec)
      else scanDigits fetch left (cur + 1) ((nsec * 10 + digit) % u32Range)

def scanFraction (fetch : Fetch) (len : Nat) (ch : UInt8) (cur : Nat) :
    Except Stop (Nat × UInt8 × Nat) := do
  if ch = ascii '.' then
    let start := cur
    let (cur,nsec) ← scanDigits fetch (len - cur) cur 0
    let ndigits := cur - start
    demand (1 ≤ ndigits ∧ ndigits ≤ 9)
    let nsec := nsec * pow10.getD (9 - ndigits) 0 % u32Range
    demand (cur ≠ len)
    return (nsec,← fetch cur,cur + 1)
  else return (0,ch,cur)

def scanZone (fetch : Fetch) (len : Nat) (ch : UInt8) (cur : Nat) : Except Stop (Int × Nat) := do
  if ch = ascii 'Z' ∨ ch = ascii 'z' then return (0,cur)
  else
    demand (len ≤ cur + 5)
    demand (ch = ascii '+' ∨ ch = ascii '-')
    demand ((← fetch (cur + 2)) = ascii ':')
    let zoneHour ← parse2d fetch (cur + 0)
    demand (zoneHour ≤ 23)
    let zoneMin ← parse2d fetch (cur + 3)
    demand (zoneMin ≤ 59)
    let offset : Int := (zoneHour * 60 + zoneMin) * 60 * ticksPerSecond
    return (if ch = ascii '-' then -offset else offset,cur + 5)

def scan (fetch : Fetch) (len : Nat) : Except Stop Nat := do
  let f ← scanFields fetch len
  let ch ← fetch 19
  let (nsec,ch,cur) ← scanFraction fetch len ch 20
  let (offset,cur) ← scanZone fetch len ch cur
  demand (cur = len)
  return ((encode {f with usec := nsec / 1000} - offset) % u64Range).toNat

-- Memory without an end: whatever lies behind the string is read as well.
def plain (str : Nat → UInt8) : Fetch := fun i => .ok (str i)

def datetimeFromIso8601 (str : Nat → UInt8) (len dt : Nat) : Nat × Nat :=
  match scan (plain str) len with
  | .ok value => (0,value)
  | .error _ => (1,dt)

inductive Zone where
  | utc (letter : UInt8)
  | shifted (west : Bool) (hour minute : Nat)

structure Stamp where
  date : Date
  separator : UInt8
  hour : Nat
  minute : Nat
  second : Nat
  fraction : List Nat
  zone : Zone

namespace Zone

def text : Zone → List UInt8
  | utc letter => [letter]
  | shifted west hour minute =>
      [if west then ascii '-' else ascii '+'] ++ digitText 2 hour ++ [ascii ':'] ++ digitText 2 minute

def Valid : Zone → Prop
  | utc letter => letter = ascii 'Z' ∨ letter = ascii 'z'
  | shifted _ hour minute => hour ≤ 23 ∧ minute ≤ 59

def offset : Zone → Int
  | utc _ => 0
  | shifted west hour minute =>
      let minutes : Int := hour * 60 + minute
      (if west then -minutes else minutes) * 60000000

end Zone

namespace Stamp

def fractionText (ds : List Nat) : List UInt8 := if ds = [] then [] else ascii '.' :: ds.map digitByte

def dateTimeText (s : Stamp) : List UInt8 :=
  digitText 4 s.date.year ++ [ascii '-'] ++ digitText 2 s.date.month ++ [ascii '-'] ++
    digitText 2 s.date.day ++ [s.separator] ++ digitText 2 s.hour ++ [ascii ':'] ++
    digitText 2 s.minute ++ [ascii ':'] ++ digitText 2 s.second

def text (s : Stamp) : List UInt8 := s.dateTimeText ++ fractionText s.fraction ++ s.zone.text

structure Valid (s : Stamp) : Prop where
  date : s.date.Valid
  year : s.date.year ≤ 9999
  separator : s.separator = ascii 'T' ∨ s.separator = ascii ' ' ∨ s.separator = ascii 't'
  hour : s.hour ≤ 23
  minute : s.minute ≤ 59
  second : s.second ≤ 59
  fraction : s.fraction.length ≤ 9
  digit : ∀ d ∈ s.fraction, d ≤ 9
  zone : s.zone.Valid

def micros (ds : List Nat) : Nat := ofDigits ds * 1000000 / 10 ^ ds.length

def localTime (s : Stamp) : Nat :=
  (((dayNumber s.date * 24 + s.hour) * 60 + s.minute) * 60 + s.second) * 1000000 + micros s.fraction

def value (s : Stamp) : Int := s.localTime - s.zone.offset

end Stamp

section Reads
variable {str : Nat → UInt8} {i n len : Nat}

theorem bindOkIff {α β : Type} {x : Except Stop α} {f : α → Except Stop β} {r : β} :
    (x >>= f) = .ok r ↔ ∃ a, x = .ok a ∧ f a = .ok r := by
  cases x with
  | error stop => exact ⟨nofun,fun ⟨_,h,_⟩ => nomatch h⟩
  | ok a => exact ⟨fun h => ⟨a,rfl,h⟩,fun ⟨_,h,h'⟩ => by cases h; exact h'⟩

theorem demandOk {p : Prop} [Decidable p] {u : Unit} : demand p = .ok u ↔ p := by
  unfold demand
  split <;> simp [*]

theorem plainOk {b : UInt8} : plain str i = .ok b ↔ str i = b := by simp [plain]

theorem returnOk {α : Type} {a b : α} : (pure a : Except Stop α) = .ok b ↔ a = b := by
  simp [pure,Except.pure]

theorem parse2dIff : parse2d (plain str) i = .ok n ↔ n < 100 ∧ Placed str i (digitText 2 n) := by
  simp only [parse2d,bindOkIff,demandOk,plainOk,returnOk,exists_eq_left',exists_const,digitText,digits,
    List.nil_append,List.cons_append,List.map_cons,List.map_nil,placedCons,placedNil,and_true,Nat.add_zero]
  rw [digitIff (by omega),digitIff (by omega)]
  omega

theorem parse4dIff : parse4d (plain str) i = .ok n ↔ n < 10000 ∧ Placed str i (digitText 4 n) := by
  simp only [parse4d,bindOkIff,demandOk,plainOk,returnOk,exists_eq_left',exists_const,digitText,digits,
    List.nil_append,List.cons_append,List.map_cons,List.map_nil,placedCons,placedNil,and_true,Nat.add_zero,
    Nat.add_assoc,Nat.reduceAdd]
  rw [digitIff (by omega),digitIff (by omega),digitIff (by omega),digitIff (by omega)]
  omega

def Stamp.fields (s : Stamp) (usec : Nat) : Fields :=
  ⟨s.date.year,s.date.month,s.date.day,s.hour,s.minute,s.second,usec⟩

structure DateTimeValid (s : Stamp) : Prop where
  date : s.date.Valid
  year : s.date.year ≤ 9999
  separator : s.separator = ascii 'T' ∨ s.separator = ascii ' ' ∨ s.separator = ascii 't'
  hour : s.hour ≤ 23
  minute : s.minute ≤ 59
  second : s.second ≤ 59

theorem monthLengthRange (y m : Nat) : 28 ≤ monthLength y m ∧ monthLength y m ≤ 31 := by
  unfold monthLength
  split
  · split <;> omega
  · split <;> omega

theorem dayTests {y m d : Nat} (low : 1 ≤ m) (high : m ≤ 12) :
    d ≤ 31 ∧ ¬ (d > 28 ∧ d > monthDays y m) ↔ d ≤ monthLength y m := by
  have range := monthLengthRange y m
  rw [monthDaysLength low high]
  omega

theorem scanFieldsIff {f : Fields} : scanFields (plain str) len = .ok f ↔ 20 ≤ len ∧
    ∃ s, DateTimeValid s ∧ Placed str 0 s.dateTimeText ∧ f = s.fields 0 := by
  simp only [scanFields,bindOkIff,demandOk,plainOk,returnOk,exists_eq_left',exists_const,parse2dIff,parse4dIff,
    Stamp.dateTimeText,placedAppend,placedCons,placedNil,and_true,digitTextLength,List.length_append,
    List.length_singleton,Nat.reduceAdd]
  constructor
  · rintro ⟨long,dash4,dash7,colon13,colon16,separator,y,⟨_,year⟩,year1,m,⟨_,month⟩,⟨month1,month12⟩,d,⟨_,day⟩,
      ⟨day1,day31⟩,h,⟨_,hour⟩,hour23,i,⟨_,minute⟩,minute59,s,⟨_,second⟩,second59,inMonth,rfl⟩
    have days := (dayTests month1 month12).mp ⟨day31,inMonth⟩
    refine ⟨long,⟨⟨y,m,d⟩,str 10,h,i,s,[],.utc 0⟩,?_,?_,rfl⟩
    · exact ⟨⟨year1,month1,month12,day1,days⟩,by dsimp only; omega,separator,hour23,minute59,second59⟩
    · exact ⟨⟨⟨⟨⟨⟨⟨⟨⟨⟨year,dash4⟩,month⟩,dash7⟩,day⟩,rfl⟩,hour⟩,colon13⟩,minute⟩,colon16⟩,second⟩
  · rintro ⟨long,s,⟨date,year9999,separator,hour23,minute59,second59⟩,
      ⟨⟨⟨⟨⟨⟨⟨⟨⟨⟨year,dash4⟩,month⟩,dash7⟩,day⟩,sep⟩,hour⟩,colon13⟩,minute⟩,colon16⟩,second⟩,rfl⟩
    have days := (dayTests date.monthLow date.monthHigh).mpr date.dayHigh
    have month12 := date.monthHigh
    refine ⟨long,dash4,dash7,colon13,colon16,sep ▸ separator,_,⟨by omega,year⟩,date.year,_,⟨by omega,month⟩,
      ⟨date.monthLow,month12⟩,_,⟨by omega,day⟩,⟨date.dayLow,days.1⟩,_,⟨by omega,hour⟩,hour23,_,
      ⟨by omega,minute⟩,minute59,_,⟨by omega,second⟩,second59,days.2,rfl⟩

end Reads

section Fraction
variable {str : Nat → UInt8} {i cur left nsec len : Nat} {ds : List Nat}

theorem scanDigitsRun (small : ∀ d ∈ ds, d ≤ 9) (placed : Placed str cur (ds.map digitByte))
    (room : ds.length ≤ left) (stop : ds.length = left ∨ 9 < digitOf (str (cur + ds.length))) :
    scanDigits (plain str) left cur nsec =
      .ok (cur + ds.length,ds.foldl (fun n d => (n * 10 + d) % u32Range) nsec) := by
  induction ds generalizing left cur nsec with
  | nil =>
    cases left with
    | zero => rfl
    | succ left =>
      have other : 9 < digitOf (str cur) := by simpa using stop
      rw [scanDigits,plain]
      exact if_pos other
  | cons d rest ih =>
    cases left with
    | zero => simp at room
    | succ left =>
      obtain ⟨here,later⟩ := placedCons.mp placed
      have digit := (digitIff (small d List.mem_cons_self)).mp here
      have low := small d List.mem_cons_self
      have size : cur + 1 + rest.length = cur + (d :: rest).length := by rw [List.length_cons]; omega
      rw [scanDigits,plain]
      change (if digitOf (str cur) > 9 then _ else _) = _
      rw [if_neg (by omega),digit,List.foldl_cons,← size]
      refine ih (fun x mem => small x (List.mem_cons_of_mem _ mem)) later (Nat.le_of_succ_le_succ room) ?_
      rw [size]
      exact stop.imp_left Nat.succ.inj

theorem digitsRun (str : Nat → UInt8) (left cur : Nat) : ∃ ds : List Nat, (∀ d ∈ ds, d ≤ 9) ∧
    Placed str cur (ds.map digitByte) ∧ ds.length ≤ left ∧
    (ds.length = left ∨ 9 < digitOf (str (cur + ds.length))) := by
  induction left generalizing cur with
  | zero => exact ⟨[],by simp,placedNil,Nat.le_refl _,.inl rfl⟩
  | succ left ih =>
    by_cases digit : digitOf (str cur) ≤ 9
    · obtain ⟨ds,small,placed,room,stop⟩ := ih (cur + 1)
      refine ⟨digitOf (str cur) :: ds,?_,placedCons.mpr ⟨(byteOfDigit _).symm,placed⟩,Nat.succ_le_succ room,?_⟩
      · intro d mem
        rcases List.mem_cons.mp mem with rfl | mem
        · exact digit
        · exact small d mem
      · rw [List.length_cons,show cur + (ds.length + 1) = cur + 1 + ds.length by omega]
        exact stop.imp_left (congrArg Nat.succ)
    · exact ⟨[],by simp,placedNil,Nat.zero_le _,.inr (Nat.lt_of_not_le digit)⟩

theorem accumulated (ds : List Nat) :
    ds.foldl (fun n d => (n * 10 + d) % u32Range) 0 = ofDigits ds % u32Range := by
  induction ds using List.reverseRecOn with
  | nil => rfl
  | append_singleton ds d ih =>
    rw [List.foldl_append,ih,ofDigitsSnoc]
    simp only [List.foldl_cons,List.foldl_nil]
    rw [Nat.add_mod,Nat.mul_mod,Nat.mod_mod,← Nat.mul_mod,← Nat.add_mod]

def nanos (ds : List Nat) : Nat := ofDigits ds * 10 ^ (9 - ds.length)

theorem nanosBound (small : ∀ d ∈ ds, d ≤ 9) (short : ds.length ≤ 9) : nanos ds < 10 ^ 9 := by
  have bound := ofDigitsBound small
  calc nanos ds < 10 ^ ds.length * 10 ^ (9 - ds.length) :=
        Nat.mul_lt_mul_of_pos_right bound (Nat.pow_pos (by decide))
    _ = 10 ^ 9 := by rw [← Nat.pow_add,Nat.add_sub_cancel' short]

theorem nanosMicros (short : ds.length ≤ 9) : nanos ds / 1000 = Stamp.micros ds := by
  rw [nanos,Stamp.micros]
  generalize ofDigits ds = v
  generalize ds.length = k at short
  interval_cases k <;> simp <;> omega

theorem pow10At {k : Nat} (small : k ≤ 9) : pow10.getD k 0 = 10 ^ k := by
  interval_cases k <;> rfl

theorem scaled (small : ∀ d ∈ ds, d ≤ 9) (short : ds.length ≤ 9) :
    ofDigits ds % u32Range * pow10.getD (9 - ds.length) 0 % u32Range = nanos ds := by
  have bound := ofDigitsBound small
  have total := nanosBound small short
  have wide : 10 ^ ds.length ≤ 10 ^ 9 := Nat.pow_le_pow_right (by decide) short
  have kept : ofDigits ds % u32Range = ofDigits ds := Nat.mod_eq_of_lt (by rw [u32Range]; omega)
  rw [kept,pow10At (Nat.sub_le _ _),← nanos]
  exact Nat.mod_eq_of_lt (by rw [u32Range]; omega)

theorem scanFractionPlaced (small : ∀ d ∈ ds, d ≤ 9) (short : ds.length ≤ 9)
    (placed : Placed str i (Stamp.fractionText ds)) (inside : i + (Stamp.fractionText ds).length < len)
    (other : 9 < digitOf (str (i + (Stamp.fractionText ds).length)))
    (undotted : str (i + (Stamp.fractionText ds).length) ≠ ascii '.') :
    scanFraction (plain str) len (str i) (i + 1) = .ok (nanos ds,
      str (i + (Stamp.fractionText ds).length),i + (Stamp.fractionText ds).length + 1) := by
  by_cases empty : ds = []
  · subst empty
    exact if_neg undotted
  · rw [Stamp.fractionText,if_neg empty] at placed inside other undotted ⊢
    obtain ⟨dot,placed⟩ := placedCons.mp placed
    have size : i + (ascii '.' :: ds.map digitByte).length = i + 1 + ds.length := by
      rw [List.length_cons,List.length_map]
      omega
    rw [size] at inside other undotted ⊢
    have least := List.length_pos_iff.mpr empty
    have room : ds.length ≤ len - (i + 1) := by omega
    rw [scanFraction,if_pos dot,bindOkIff]
    refine ⟨_,scanDigitsRun small placed room (.inr other),?_⟩
    dsimp only
    rw [Nat.add_sub_cancel_left,accumulated,scaled small short]
    refine bindOkIff.mpr ⟨(),demandOk.mpr ⟨least,short⟩,bindOkIff.mpr ⟨(),demandOk.mpr (by omega),?_⟩⟩
    rfl

theorem scanFractionSound {ch : UInt8}
    (h : scanFraction (plain str) len (str i) (i + 1) = .ok (nsec,ch,cur)) :
    ∃ ds, (∀ d ∈ ds, d ≤ 9) ∧ ds.length ≤ 9 ∧ Placed str i (Stamp.fractionText ds) ∧ nsec = nanos ds ∧
      ch = str (i + (Stamp.fractionText ds).length) ∧ cur = i + (Stamp.fractionText ds).length + 1 := by
  unfold scanFraction at h
  split at h
  · rename_i dot
    obtain ⟨ds,small,placed,room,stop⟩ := digitsRun str (len - (i + 1)) (i + 1)
    obtain ⟨_,run,h⟩ := bindOkIff.mp h
    rw [scanDigitsRun small placed room stop] at run
    cases run
    dsimp only at h
    rw [Nat.add_sub_cancel_left,accumulated] at h
    obtain ⟨_,digits,h⟩ := bindOkIff.mp h
    obtain ⟨least,short⟩ := demandOk.mp digits
    have some : ds ≠ [] := List.length_pos_iff.mp least
    rw [scaled small short] at h
    obtain ⟨_,_,h⟩ := bindOkIff.mp h
    cases h
    have text : Stamp.fractionText ds = ascii '.' :: ds.map digitByte := if_neg some
    have size : i + (Stamp.fractionText ds).length = i + 1 + ds.length := by
      rw [text,List.length_cons,List.length_map]
      omega
    refine ⟨ds,small,short,?_,rfl,by rw [size],by rw [size]⟩
    rw [text]
    exact placedCons.mpr ⟨dot,placed⟩
  · cases h
    exact ⟨[],by simp,by simp,placedNil,rfl,rfl,rfl⟩

end Fraction

section Whole
variable {str : Nat → UInt8} {i len : Nat}

theorem scanZoneIff {offset : Int} : scanZone (plain str) len (str i) (i + 1) = .ok (offset,len) ↔
    ∃ z : Zone, z.Valid ∧ Placed str i z.text ∧ i + z.text.length = len ∧ offset = z.offset := by
  have plus : ¬ (ascii '+' = ascii 'Z' ∨ ascii '+' = ascii 'z') := by decide
  have minus : ¬ (ascii '-' = ascii 'Z' ∨ ascii '-' = ascii 'z') := by decide
  constructor
  · intro h
    unfold scanZone at h
    split at h
    · rename_i letter
      cases h
      exact ⟨.utc (str i),letter,placedCons.mpr ⟨rfl,placedNil⟩,rfl,rfl⟩
    · simp only [bindOkIff,demandOk,plainOk,returnOk,exists_eq_left',exists_const,parse2dIff] at h
      obtain ⟨_,sign,colon,h,⟨_,hour⟩,hour23,m,⟨_,minute⟩,minute59,same⟩ := h
      cases same
      by_cases west : str i = ascii '-'
      · refine ⟨.shifted true h m,⟨hour23,minute59⟩,?_,by simp [Zone.text],?_⟩
        · simp only [Zone.text,if_true,placedAppend,placedCons,placedNil,and_true,digitTextLength,
            List.length_append,List.length_singleton]
          exact ⟨⟨⟨west,hour⟩,colon⟩,minute⟩
        · simp only [Zone.offset,west,ticksPerSecond,if_true]
          omega
      · refine ⟨.shifted false h m,⟨hour23,minute59⟩,?_,by simp [Zone.text],?_⟩
        · simp only [Zone.text,Bool.false_eq_true,if_false,placedAppend,placedCons,placedNil,and_true,
            digitTextLength,List.length_append,List.length_singleton]
          exact ⟨⟨⟨sign.resolve_right west,hour⟩,colon⟩,minute⟩
        · simp only [Zone.offset,west,ticksPerSecond,Bool.false_eq_true,if_false]
          omega
  · rintro ⟨z,valid,placed,size,rfl⟩
    cases z with
    | utc letter =>
      obtain ⟨here,_⟩ := placedCons.mp placed
      cases size
      exact if_pos (here ▸ valid)
    | shifted west h m =>
      obtain ⟨hour23,minute59⟩ := valid
      simp only [Zone.text,placedAppend,placedCons,placedNil,and_true,digitTextLength,
        List.length_append,List.length_singleton] at placed size
      obtain ⟨⟨⟨sign,hour⟩,colon⟩,minute⟩ := placed
      have shifted : ¬ (str i = ascii 'Z' ∨ str i = ascii 'z') := by cases west <;> rwa [sign]
      rw [scanZone,if_neg shifted]
      simp only [bindOkIff,demandOk,plainOk,returnOk,exists_eq_left',exists_const,parse2dIff]
      refine ⟨by omega,?_,colon,h,⟨by omega,hour⟩,hour23,m,⟨by omega,minute⟩,minute59,?_⟩
      · cases west
        · exact .inl sign
        · exact .inr sign
      · have apart : ascii '+' ≠ ascii '-' := by decide
        rw [sign,Prod.mk.injEq]
        refine ⟨?_,by omega⟩
        cases west <;> simp only [Zone.offset,ticksPerSecond,apart,Bool.false_eq_true,if_true,if_false] <;> omega

theorem digitsNonzero {ds : List Nat} (small : ∀ d ∈ ds, d ≤ 9) : 0 ∉ ds.map digitByte := by
  intro mem
  obtain ⟨d,digit,zero⟩ := List.mem_map.mp mem
  exact digitByteNonzero (small d digit) zero

theorem digitTextNonzero (width n : Nat) : 0 ∉ digitText width n := digitsNonzero (fun _ => digitsSmall)

theorem dateTimeLength (s : Stamp) : s.dateTimeText.length = 19 := by simp [Stamp.dateTimeText]

theorem textLength (s : Stamp) : s.text.length = 19 + (Stamp.fractionText s.fraction).length + s.zone.text.length := by
  simp only [Stamp.text,List.length_append,dateTimeLength]

theorem placedText {s : Stamp} : Placed str 0 s.text ↔ Placed str 0 s.dateTimeText ∧
    Placed str 19 (Stamp.fractionText s.fraction) ∧
    Placed str (19 + (Stamp.fractionText s.fraction).length) s.zone.text := by
  simp only [Stamp.text,placedAppend,List.length_append,dateTimeLength,Nat.zero_add,and_assoc]

theorem encodeLocalTime {s : Stamp} (valid : s.Valid) :
    encode (s.fields (nanos s.fraction / 1000)) = s.localTime := by
  have bound := nanosBound valid.digit valid.fraction
  rw [nanosMicros valid.fraction]
  have small : Stamp.micros s.fraction < 1000000 := by
    rw [← nanosMicros valid.fraction]
    omega
  generalize micros : Stamp.micros s.fraction = u at small ⊢
  have fieldsValid : (s.fields u).Valid :=
    ⟨valid.date,valid.year.trans (by decide),Nat.lt_succ_of_le valid.hour,Nat.lt_succ_of_le valid.minute,
      Nat.lt_succ_of_le valid.second,small⟩
  have date : (s.fields u).date = s.date := rfl
  have time : (s.fields u).time = ((s.hour * 60 + s.minute) * 60 + s.second) * 1000000 + u := rfl
  rw [encodeExact fieldsValid,date,time,Stamp.localTime,micros,ticksPerDay]
  omega

theorem zoneStart {z : Zone} (valid : z.Valid) (placed : Placed str i z.text) :
    9 < digitOf (str i) ∧ str i ≠ ascii '.' ∧ 1 ≤ z.text.length := by
  cases z with
  | utc letter =>
    obtain ⟨here,_⟩ := placedCons.mp placed
    rw [here]
    rcases valid with rfl | rfl <;> exact ⟨by decide,by decide,Nat.le_refl _⟩
  | shifted west h m =>
    obtain ⟨here,_⟩ := placedCons.mp placed
    rw [here]
    cases west <;> exact ⟨by decide,by decide,by simp [Zone.text]⟩

theorem scanIff {v : Nat} : scan (plain str) len = .ok v ↔
    ∃ s : Stamp, s.Valid ∧ s.text.length = len ∧ Placed str 0 s.text ∧
      v = (s.value % u64Range).toNat := by
  constructor
  · intro h
    obtain ⟨f,fields,h⟩ := bindOkIff.mp h
    obtain ⟨ch,read,h⟩ := bindOkIff.mp h
    cases plainOk.mp read
    obtain ⟨⟨nsec,ch,cur⟩,fraction,h⟩ := bindOkIff.mp h
    obtain ⟨⟨offset,cur'⟩,zone,h⟩ := bindOkIff.mp h
    obtain ⟨_,ended,stored⟩ := bindOkIff.mp h
    cases demandOk.mp ended
    obtain ⟨_,⟨d,sep,hh,mm,ss,_,_⟩,⟨date,year,separator,hour,minute,second⟩,front,rfl⟩ := scanFieldsIff.mp fields
    obtain ⟨ds,small,short,middle,rfl,rfl,rfl⟩ := scanFractionSound fraction
    obtain ⟨z,zoneValid,back,size,rfl⟩ := scanZoneIff.mp zone
    have valid : Stamp.Valid ⟨d,sep,hh,mm,ss,ds,z⟩ :=
      ⟨date,year,separator,hour,minute,second,short,small,zoneValid⟩
    have whole := encodeLocalTime valid
    have length := textLength ⟨d,sep,hh,mm,ss,ds,z⟩
    dsimp only at length
    rw [size] at length
    refine ⟨⟨d,sep,hh,mm,ss,ds,z⟩,valid,length,placedText.mpr ⟨front,middle,back⟩,?_⟩
    rw [Stamp.value,← whole]
    exact (returnOk.mp stored).symm
  · rintro ⟨s,valid,size,placed,rfl⟩
    rw [textLength] at size
    obtain ⟨front,middle,back⟩ := placedText.mp placed
    obtain ⟨other,undotted,least⟩ := zoneStart valid.zone back
    have fields : scanFields (plain str) len = .ok (s.fields 0) :=
      scanFieldsIff.mpr ⟨by omega,s,⟨valid.date,valid.year,valid.separator,valid.hour,valid.minute,
        valid.second⟩,front,rfl⟩
    have inside : 19 + (Stamp.fractionText s.fraction).length < len := by omega
    have fraction := scanFractionPlaced valid.digit valid.fraction middle inside other undotted
    have zone := scanZoneIff.mpr ⟨s.zone,valid.zone,back,size,rfl⟩
    refine bindOkIff.mpr ⟨s.fields 0,fields,bindOkIff.mpr ⟨str 19,plainOk.mpr rfl,?_⟩⟩
    refine bindOkIff.mpr ⟨_,fraction,bindOkIff.mpr ⟨_,zone,?_⟩⟩
    refine bindOkIff.mpr ⟨(),demandOk.mpr rfl,?_⟩
    rw [Stamp.value,← encodeLocalTime valid]
    rfl

theorem signsNonzero : 0 ≠ ascii '-' ∧ 0 ≠ ascii ':' ∧ 0 ≠ ascii '.' ∧ 0 ≠ ascii '+' := by decide

theorem zoneNonzero {z : Zone} (valid : z.Valid) : 0 ∉ z.text := by
  cases z with
  | utc letter => rcases valid with rfl | rfl <;> decide
  | shifted west h m =>
    cases west <;> simp only [Zone.text,List.mem_append,List.mem_singleton,digitTextNonzero,signsNonzero,or_self,
      if_true,Bool.false_eq_true,if_false,not_false_eq_true]

theorem textNonzero {s : Stamp} (valid : s.Valid) : 0 ∉ s.text := by
  have separator : 0 ≠ s.separator := by
    rcases valid.separator with same | same | same <;> rw [same] <;> decide
  have front : 0 ∉ s.dateTimeText := by
    simp only [Stamp.dateTimeText,List.mem_append,List.mem_singleton,digitTextNonzero,signsNonzero,separator,
      or_self,not_false_eq_true]
  have fraction : 0 ∉ Stamp.fractionText s.fraction := by
    unfold Stamp.fractionText
    split
    · exact List.not_mem_nil
    · simp only [List.mem_cons,signsNonzero,digitsNonzero valid.digit,or_self,not_false_eq_true]
  simp only [Stamp.text,List.mem_append,front,fraction,zoneNonzero valid.zone,or_self,not_false_eq_true]

theorem iso8601Accepts {s : Stamp} (valid : s.Valid) (placed : Placed str 0 s.text) (dt : Nat) :
    datetimeFromIso8601 str s.text.length dt = (0,(s.value % u64Range).toNat) := by
  have ran : scan (plain str) s.text.length = .ok (s.value % u64Range).toNat := scanIff.mpr ⟨s,valid,rfl,placed,rfl⟩
  rw [datetimeFromIso8601,ran]

theorem acceptedStamp {dt : Nat} (zero : (datetimeFromIso8601 str len dt).1 = 0) :
    ∃ s : Stamp, s.Valid ∧ (List.range len).map str = s.text := by
  unfold datetimeFromIso8601 at zero
  split at zero
  · rename_i ran
    obtain ⟨s,valid,size,placed,_⟩ := scanIff.mp ran
    exact ⟨s,valid,rangeMap.mpr ⟨size,placed⟩⟩
  · cases zero

end Whole

/-- datetime_from_iso8601 accepts the stamps of the grammar and nothing else, stores
their value modulo 2^64, and leaves `*dt` alone otherwise. -/
theorem iso8601Exact (str : Nat → UInt8) (len dt : Nat) :
    ((datetimeFromIso8601 str len dt).1 = 0 ↔
      ∃ s : Stamp, s.Valid ∧ (List.range len).map str = s.text) ∧
    (∀ s : Stamp, s.Valid → (List.range len).map str = s.text →
      datetimeFromIso8601 str len dt = (0,(s.value % u64Range).toNat)) ∧
    ((datetimeFromIso8601 str len dt).1 ≠ 0 → (datetimeFromIso8601 str len dt).2 = dt) := by
  have accepted (s : Stamp) (valid : s.Valid) (text : (List.range len).map str = s.text) :
      datetimeFromIso8601 str len dt = (0,(s.value % u64Range).toNat) := by
    obtain ⟨rfl,placed⟩ := rangeMap.mp text
    exact iso8601Accepts valid placed dt
  refine ⟨⟨acceptedStamp,fun ⟨s,valid,text⟩ => by rw [accepted s valid text]⟩,accepted,fun failed => ?_⟩
  unfold datetimeFromIso8601 at failed ⊢
  split
  · rename_i ran
    rw [ran] at failed
    exact absurd rfl failed
  · rfl

end Qtl.DatetimeParse
