import Qtl.Datetime

/-! datetime_from_ymd on months and days outside the calendar. Years and months carry
exactly; the day of the year passes through 16 bits. -/
namespace Qtl.DatetimeNormalise
open Base.Calendar Base.FixedWidth Datetime

section Bind
variable {α β : Type} {x : Machine α} {f : α → Machine β}

theorem bindVal : (x >>= f).val = (f x.val).val := rfl

theorem u16Wraps (k : Nat) : (u16 k).val = k % 65536 := by
  change (((k : Int) % 2 ^ 16)).toNat = k % 65536
  omega

end Bind

variable {year month day y m days : Nat}

theorem carryYear (yearFits : year < 65536) (monthFits : month < 65536) (low : 1 ≤ m) (high : m ≤ 12)
    (carried : 12 * y + m = 12 * year + month) (first : 1 ≤ y) (last : y ≤ 65535) :
    (carryMonths year month).val = (y,m) := by
  have lift (k : Nat) : (u16 k).val = k % 65536 := u16Wraps k
  unfold carryMonths
  split
  · rename_i outside
    have whole : ((year : Int) + (month / 12 : Nat)) = (year + month / 12 : Nat) := by push_cast; rfl
    rw [bindVal,whole,lift]
    dsimp only
    split
    · rename_i none
      have december : m = 12 := by omega
      -- a year carried to 65536 wraps to 0 and is taken back by the borrow
      have borrowed : (u16 (((year + month / 12) % 65536 : Nat) - 1)).val = y := by
        change ((((year + month / 12) % 65536 : Nat) - 1 : Int) % 2 ^ 16).toNat = y
        omega
      have full : (u16 ((month % 12 : Nat) + 12)).val = m := by
        change (((month % 12 : Nat) + 12 : Int) % 2 ^ 16).toNat = m
        omega
      rw [bindVal,bindVal,borrowed,full]
      rfl
    · have years : (year + month / 12) % 65536 = y := by omega
      have months : month % 12 = m := by omega
      rw [years,months]
      rfl
  · have same : year = y ∧ month = m := by omega
    rw [same.1,same.2]
    rfl

theorem ydToRdnExact (first : 1 ≤ y) (last : y ≤ 65535) (short : days < 65536) :
    ydToRdn y days = pure (yearsDays (y - 1) + days) := by
  have closed := yearsDaysClosed (y - 1)
  rw [ydToRdn,u16Pure (y - 1) (by omega) (by omega),pure_bind,i32Pure (by omega) (by omega),pure_bind,
    i32Pure (by omega) (by omega),pure_bind,i32Pure (by omega) (by omega),pure_bind,
    i32Pure (by omega) (by omega),pure_bind,i32Pure (by omega) (by omega),pure_bind]
  exact u32Pure _ (by omega) (by omega)

theorem monthsDaysBound (high : m ≤ 12) : monthsDays y (m - 1) ≤ 366 := by
  have inside : monthsDays y (m - 1) ≤ monthsDays y 12 := monthsDaysMono (by omega)
  rw [monthsDaysYear,leapLength] at inside
  split at inside <;> omega

-- The day of the year as the code passes it on, from 0; -1 becomes 65535.
def dayPassed (before day : Nat) : Nat := (before + day + 65535) % 65536

theorem ymdToRdnPassed (yearFits : year < 65536) (monthFits : month < 65536) (dayFits : day < 65536)
    (low : 1 ≤ m) (high : m ≤ 12) (carried : 12 * y + m = 12 * year + month) (first : 1 ≤ y) (last : y ≤ 65535) :
    (ymdToRdn year month day).val = yearsDays (y - 1) + dayPassed (monthsDays y (m - 1)) day := by
  have bound : monthsDays y (m - 1) ≤ 366 := monthsDaysBound high
  have passed : (u16 ((monthsDays y (m - 1) : Int) + day - 1)).val = dayPassed (monthsDays y (m - 1)) day := by
    change (((monthsDays y (m - 1) : Int) + day - 1) % 2 ^ 16).toNat = _
    rw [dayPassed]
    omega
  have short : dayPassed (monthsDays y (m - 1)) day < 65536 := Nat.mod_lt _ (by decide)
  rw [ymdToRdn,bindVal,carryYear yearFits monthFits low high carried first last]
  dsimp only
  rw [precedingDays low high,i32Pure (by omega) (by omega),pure_bind,i32Pure (by omega) (by omega),pure_bind,
    bindVal,passed,ydToRdnExact first last short]
  rfl

/-- Out-of-range months and days normalise exactly when the day of the year that they
make lies between 1 and 65536. -/
theorem ymdNormalised (yearFits : year < 65536) (monthFits : month < 65536) (dayFits : day < 65536)
    (low : 1 ≤ m) (high : m ≤ 12) (carried : 12 * y + m = 12 * year + month) (first : 1 ≤ y) (last : y ≤ 65535)
    (started : 1 ≤ yearsDays (y - 1) + monthsDays y (m - 1) + day) :
    datetimeFromYmd year month day = (yearsDays (y - 1) + monthsDays y (m - 1) + day - 1) * ticksPerDay ↔
      1 ≤ monthsDays y (m - 1) + day ∧ monthsDays y (m - 1) + day ≤ 65536 := by
  have bound : monthsDays y (m - 1) ≤ 366 := monthsDaysBound high
  have years : yearsDays (y - 1) ≤ yearsDays 65535 := yearsDaysMono (by omega)
  rw [yearsDaysTotal] at years
  have short : dayPassed (monthsDays y (m - 1)) day < 65536 := Nat.mod_lt _ (by decide)
  have fits : (yearsDays (y - 1) + dayPassed (monthsDays y (m - 1)) day) * ticksPerDay < u64Range := by
    rw [ticksPerDay,u64Range]
    omega
  rw [datetimeFromYmd,ymdToRdnPassed yearFits monthFits dayFits low high carried first last,Nat.mod_eq_of_lt fits,
    Nat.mul_left_inj (by decide),dayPassed]
  omega

theorem ymdNormalisedLeap : datetimeFromYmd 1999 14 30 =
      (yearsDays (2000 - 1) + monthsDays 2000 (2 - 1) + 30 - 1) * ticksPerDay ↔
    1 ≤ monthsDays 2000 (2 - 1) + 30 ∧ monthsDays 2000 (2 - 1) + 30 ≤ 65536 := by
  have years : 1 ≤ yearsDays (2000 - 1) + monthsDays 2000 (2 - 1) + 30 := Nat.le_add_left_of_le (by decide)
  exact ymdNormalised (by decide) (by decide) (by decide) (by decide) (by decide) (by decide) (by decide)
    (by decide) years

/-- Day 0 of January 2000 should be December 31 of 1999; it comes out 65536 days later. -/
theorem dayZeroMisplaced : datetimeFromYmd 2000 1 0 = (yearsDays 1999 + 65535) * ticksPerDay ∧
    datetimeFromYmd 2000 1 0 ≠ (yearsDays (2000 - 1) + monthsDays 2000 (1 - 1) + 0 - 1) * ticksPerDay := by
  have years : yearsDays 1999 = 730119 := yearsDaysAt (by norm_num)
  have computed : datetimeFromYmd 2000 1 0 = (730119 + 65535) * ticksPerDay := by decide
  rw [computed,years,show monthsDays 2000 (1 - 1) = 0 from rfl]
  decide

end Qtl.DatetimeNormalise
