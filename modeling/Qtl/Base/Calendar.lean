import Mathlib.Order.Basic
import Mathlib.Tactic.IntervalCases

/-! The proleptic Gregorian calendar from January 1 of year 1, which is day 0. -/
namespace Qtl.Base.Calendar

def isLeap (y : Nat) : Bool := y % 4 == 0 && (y % 100 != 0 || y % 400 == 0)

def yearLength (y : Nat) : Nat := if isLeap y then 366 else 365

def monthLength (y m : Nat) : Nat :=
  if m = 2 then (if isLeap y then 29 else 28)
  else if m = 4 ∨ m = 6 ∨ m = 9 ∨ m = 11 then 30 else 31

def yearsDays : Nat → Nat
  | 0 => 0
  | n + 1 => yearsDays n + yearLength (n + 1)

def monthsDays (y : Nat) : Nat → Nat
  | 0 => 0
  | n + 1 => monthsDays y n + monthLength y (n + 1)

structure Date where
  year : Nat
  month : Nat
  day : Nat
  deriving DecidableEq, Repr

structure Date.Valid (d : Date) : Prop where
  year : 1 ≤ d.year
  monthLow : 1 ≤ d.month
  monthHigh : d.month ≤ 12
  dayLow : 1 ≤ d.day
  dayHigh : d.day ≤ monthLength d.year d.month

def dayNumber (d : Date) : Nat := yearsDays (d.year - 1) + monthsDays d.year (d.month - 1) + (d.day - 1)

theorem leapLength (y : Nat) : yearLength y = 365 + (if isLeap y then 1 else 0) := by
  unfold yearLength; split <;> rfl

theorem isLeapIff (y : Nat) : isLeap y = true ↔ y % 4 = 0 ∧ (y % 100 ≠ 0 ∨ y % 400 = 0) := by
  simp [isLeap]

theorem leapTally (y : Nat) : (if isLeap y then 1 else 0) + (if 100 ∣ y then 1 else 0) =
    (if 4 ∣ y then 1 else 0) + (if 400 ∣ y then 1 else 0) := by
  have hundred : 100 ∣ y → 4 ∣ y := Nat.dvd_trans (by decide)
  have cycle : 400 ∣ y → 100 ∣ y := Nat.dvd_trans (by decide)
  simp only [isLeapIff,← Nat.dvd_iff_mod_eq_zero,ne_eq]
  by_cases four : 4 ∣ y <;> by_cases century : 100 ∣ y <;> simp_all [Nat.add_comm]

theorem yearsDaysClosed (n : Nat) : yearsDays n + n / 100 = 365 * n + n / 4 + n / 400 := by
  induction n with
  | zero => rfl
  | succ n ih =>
    have tally := leapTally (n + 1)
    rw [yearsDays,leapLength,Nat.succ_div,Nat.succ_div,Nat.succ_div]
    omega

theorem yearsDaysAt {n k : Nat} (closed : k + n / 100 = 365 * n + n / 4 + n / 400) : yearsDays n = k := by
  have := yearsDaysClosed n
  omega

theorem monthsDaysYear (y : Nat) : monthsDays y 12 = yearLength y := by
  unfold yearLength
  cases leap : isLeap y <;> simp [monthsDays,monthLength,leap]

theorem monthsDaysMono {y n m : Nat} (h : n ≤ m) : monthsDays y n ≤ monthsDays y m := by
  induction m, h using Nat.le_induction with
  | base => exact le_refl _
  | succ m _ ih => exact ih.trans (Nat.le_add_right ..)

theorem yearsDaysMono {n m : Nat} (h : n ≤ m) : yearsDays n ≤ yearsDays m := by
  induction m, h using Nat.le_induction with
  | base => exact le_refl _
  | succ m _ ih => exact ih.trans (Nat.le_add_right ..)

section Order
variable {d d' : Date}

theorem dayInMonth (valid : d.Valid) : monthsDays d.year (d.month - 1) + d.day ≤ monthsDays d.year d.month := by
  obtain ⟨k,month⟩ : ∃ k, d.month = k + 1 := Nat.exists_eq_add_of_le' valid.monthLow
  have high := valid.dayHigh
  rw [month,Nat.add_sub_cancel,monthsDays]
  rw [month] at high
  omega

theorem dayInYear (valid : d.Valid) : monthsDays d.year (d.month - 1) + d.day ≤ yearLength d.year := by
  rw [← monthsDaysYear]
  exact (dayInMonth valid).trans (monthsDaysMono valid.monthHigh)

theorem dayNumberYear (valid : d.Valid) : dayNumber d < yearsDays d.year := by
  obtain ⟨k,year⟩ : ∃ k, d.year = k + 1 := Nat.exists_eq_add_of_le' valid.year
  have inside := dayInYear valid
  have low := valid.dayLow
  rw [dayNumber,year,Nat.add_sub_cancel,yearsDays]
  rw [year] at inside
  omega

def Earlier (d d' : Date) : Prop :=
  d.year < d'.year ∨ d.year = d'.year ∧ (d.month < d'.month ∨ d.month = d'.month ∧ d.day < d'.day)

theorem dayNumberEarlier (valid : d.Valid) (h : Earlier d d') : dayNumber d < dayNumber d' := by
  rcases h with year | ⟨year,month | ⟨month,day⟩⟩
  · have before := dayNumberYear valid
    have later : yearsDays d.year ≤ yearsDays (d'.year - 1) := yearsDaysMono (by omega)
    rw [dayNumber,dayNumber] at *
    omega
  · have inside := dayInMonth valid
    have later : monthsDays d.year d.month ≤ monthsDays d.year (d'.month - 1) := monthsDaysMono (by omega)
    have low := valid.dayLow
    rw [dayNumber,dayNumber,← year]
    omega
  · have low := valid.dayLow
    rw [dayNumber,dayNumber,← year,← month]
    omega

theorem earlierTotal (d d' : Date) : Earlier d d' ∨ d = d' ∨ Earlier d' d := by
  obtain ⟨y,m,a⟩ := d
  obtain ⟨y',m',a'⟩ := d'
  simp only [Earlier,Date.mk.injEq]
  omega

theorem dayNumberLt (valid : d.Valid) (valid' : d'.Valid) : dayNumber d < dayNumber d' ↔ Earlier d d' := by
  refine ⟨fun less => ?_,dayNumberEarlier valid⟩
  rcases earlierTotal d d' with h | rfl | h
  · exact h
  · exact absurd less (lt_irrefl _)
  · exact absurd (dayNumberEarlier valid' h) less.asymm

theorem dayNumberInjective (valid : d.Valid) (valid' : d'.Valid) (same : dayNumber d = dayNumber d') : d = d' := by
  rcases earlierTotal d d' with h | h | h
  · exact absurd same (dayNumberEarlier valid h).ne
  · exact h
  · exact absurd same (dayNumberEarlier valid' h).ne'

end Order

section March

/-- A day counted from March 1 of year 0 in 400, 100, 4 and 1 year blocks: `f` is the
day of a year that starts in March, so that a leap day comes last. -/
structure Blocks (n a b c e f : Nat) : Prop where
  whole : n = 146097 * a + 36524 * b + 1461 * c + 365 * e + f
  century : b ≤ 3
  four : c ≤ 24
  one : e ≤ 3
  day : f ≤ 365
  leap : f = 365 → e = 3 ∧ (c = 24 → b = 3)

theorem cappedBlocks {size : Nat} (k r : Nat) (pos : 0 < size) :
    ∃ q rest, r = size * q + rest ∧ q ≤ k ∧ (rest < size ∨ q = k) := by
  by_cases few : r / size ≤ k
  · exact ⟨r / size,r % size,(Nat.div_add_mod r size).symm,few,.inl (Nat.mod_lt r pos)⟩
  · have many : size * k ≤ r :=
      (Nat.mul_le_mul_left size (Nat.le_of_not_le few)).trans (Nat.mul_div_le r size)
    exact ⟨k,r - size * k,(Nat.add_sub_of_le many).symm,Nat.le_refl k,.inr rfl⟩

theorem blocksExist (n : Nat) : ∃ a b c e f, Blocks n a b c e f := by
  have start := Nat.div_add_mod n 146097
  have short := Nat.mod_lt n (show 146097 > 0 by decide)
  generalize n / 146097 = a at start
  generalize n % 146097 = r at start short
  obtain ⟨b,r₁,rfl,century,last⟩ : ∃ q rest, r = 36524 * q + rest ∧ _ := cappedBlocks 3 r (by decide)
  obtain ⟨c,r₂,rfl,four,last₁⟩ : ∃ q rest, r₁ = 1461 * q + rest ∧ _ := cappedBlocks 24 r₁ (by decide)
  obtain ⟨e,f,rfl,one,last₂⟩ : ∃ q rest, r₂ = 365 * q + rest ∧ _ := cappedBlocks 3 r₂ (by decide)
  refine ⟨a,b,c,e,f,by omega,century,four,one,by omega,fun leap => ⟨by omega,fun closing => by omega⟩⟩

variable {n a b c e f : Nat}

def marchYear (a b c e : Nat) : Nat := 400 * a + 100 * b + 4 * c + e

theorem blocksYears (h : Blocks n a b c e f) : yearsDays (marchYear a b c e) + f = n := by
  have closed := yearsDaysClosed (marchYear a b c e)
  obtain ⟨whole,century,four,one,_,_⟩ := h
  have fours : marchYear a b c e / 4 = 100 * a + 25 * b + c := by unfold marchYear; omega
  have centuries : marchYear a b c e / 100 = 4 * a + b := by unfold marchYear; omega
  have cycles : marchYear a b c e / 400 = a := by unfold marchYear; omega
  rw [fours,centuries,cycles,marchYear] at closed
  rw [marchYear]
  omega

theorem blocksLeap (h : Blocks n a b c e f) (last : f = 365) : isLeap (marchYear a b c e + 1) = true := by
  obtain ⟨whole,century,four,one,day,leap⟩ := h
  obtain ⟨he,hc⟩ := leap last
  rw [isLeapIff]
  unfold marchYear
  omega

end March

end Qtl.Base.Calendar
