import Qtl.DatetimeFormat

/-! What datetime_format may write and what it returns. The length is computed for the
form with `Z`, while a form with an offset is five bytes longer. -/
namespace Qtl.DatetimeBuffer
open Base.Text Datetime DatetimeParse DatetimeFormat

structure Documented (s : Stamp) : Prop where
  valid : s.Valid
  separator : s.separator = ascii 'T'
  fraction : s.fraction.length ∈ [0,3,6,9]
  zone : s.zone ≠ .utc (ascii 'z')

structure Respects (dst : Nat → UInt8) (len dt : Nat) (offset : Int) : Prop where
  inside : ∀ w ∈ (datetimeFormat len dt offset).2, w.1 < len
  refused : (datetimeFormat len dt offset).1 = 0 → (datetimeFormat len dt offset).2 = []
  written : (datetimeFormat len dt offset).1 ≠ 0 → ∃ s, Documented s ∧
    s.text.length = (datetimeFormat len dt offset).1 ∧
    Placed (applyWrites dst (datetimeFormat len dt offset).2) 0 s.text ∧
    Terminated (applyWrites dst (datetimeFormat len dt offset).2) (datetimeFormat len dt offset).1

def zForm (dt : Nat) : Nat :=
  if dt % 1000000 = 0 then 20
  else if dt % 1000 = 0 then 27
  else 30

section Lengths
variable {len dt precision : Nat} {offset : Int} {f : Fields}

theorem zFormLength (dt : Nat) : dlenOf (precisionOf (dt % 1000000)) = zForm dt := by
  have wide : dt % 1000000 % 1000000 = dt % 1000000 := Nat.mod_mod _ _
  have narrow : dt % 1000000 % 1000 = dt % 1000 := Nat.mod_mod_of_dvd dt (by decide)
  unfold precisionOf zForm
  rw [wide,narrow]
  split_ifs <;> rfl

theorem precisionCases (dt : Nat) : precisionOf (dt % 1000000) ∈ [0,3,6,9] := by
  unfold precisionOf
  split_ifs <;> simp

theorem stampOfLength (f : Fields) (offset : Int) (precision : Nat) :
    (stampOf f offset precision).text.length = dlenOf precision + if offset = 0 then 0 else 5 := by
  have fraction : (Stamp.fractionText (stampOf f offset precision).fraction).length + 20 = dlenOf precision := by
    cases precision with
    | zero => rfl
    | succ k =>
      have some : (stampOf f offset (k + 1)).fraction ≠ [] := by simp [stampOf,digits]
      rw [Stamp.fractionText,if_neg some,List.length_cons,List.length_map,stampOf,digitsLength,dlenOf,
        if_neg (Nat.succ_ne_zero k)]
      omega
  have zone : (stampOf f offset precision).zone.text.length = 1 + if offset = 0 then 0 else 5 := by
    rw [stampOf,zoneOf]
    split <;> simp [Zone.text]
  rw [textLength,zone]
  omega

theorem formatShort (short : len ≤ zForm dt) : datetimeFormat len dt offset = (0,[]) := by
  rw [datetimeFormat,dayUsec,timestampFormatInternal,zFormLength]
  exact if_pos short

theorem formatLong (long : zForm dt < len) (low : -1439 ≤ offset) (high : offset ≤ 1439) :
    (datetimeFormat len dt offset).1 = zForm dt ∧ (datetimeFormat len dt offset).2.Perm
      (laid 0 ((stampOf (datetimeDecode dt) offset (precisionOf (dt % 1000000))).text ++ [0])) := by
  have kept : (i32 offset).val = offset := by
    rw [i32Pure (by omega) (by omega)]
    rfl
  rw [← zFormLength] at long ⊢
  rw [datetimeFormat,dayUsec,kept]
  refine ⟨?_,(formatLaid dt offset long).2⟩
  rw [timestampFormatInternal,if_neg (Nat.not_le_of_lt long)]

theorem writesPositions (long : zForm dt < len) (low : -1439 ≤ offset) (high : offset ≤ 1439) (i : Nat) :
    i ∈ (datetimeFormat len dt offset).2.map Prod.fst ↔ i ≤ zForm dt + if offset = 0 then 0 else 5 := by
  have perm := (formatLong long low high).2.map Prod.fst
  rw [perm.mem_iff,laidPositions,List.length_append,stampOfLength,zFormLength,List.mem_range'_1,List.length_singleton]
  omega

end Lengths

section Call
variable {dst : Nat → UInt8} {len dt : Nat} {offset : Int}

theorem stampOfDocumented (bound : dt ≤ maxDateTime) (low : -1439 ≤ offset) (high : offset ≤ 1439) :
    Documented (stampOf (datetimeDecode dt) offset (precisionOf (dt % 1000000))) := by
  obtain ⟨valid,_⟩ := datetimeDecodeExact (decodeBound bound)
  have precise := (precisionOfExact (Nat.mod_lt dt (by decide : 0 < 1000000))).1
  refine ⟨stampOfValid valid (decodeYear bound) low high precise,rfl,?_,?_⟩
  · rw [stampOf,digitsLength]
    exact precisionCases dt
  · rw [stampOf,zoneOf]
    split
    · exact fun same => absurd (Zone.utc.inj same) (by decide)
    · intro same
      cases same

theorem offsetOverruns (long : zForm dt < len) (short : len ≤ zForm dt + 5) (low : -1439 ≤ offset)
    (high : offset ≤ 1439) (shifted : offset ≠ 0) : ∃ w ∈ (datetimeFormat len dt offset).2, len ≤ w.1 := by
  have last := (writesPositions long low high (zForm dt + 5)).mpr (by simp [shifted])
  obtain ⟨w,mem,same⟩ := List.mem_map.mp last
  exact ⟨w,mem,short.trans_eq same.symm⟩

theorem formatRespects (bound : dt ≤ maxDateTime) (low : -1439 ≤ offset) (high : offset ≤ 1439) :
    Respects dst len dt offset ↔ offset = 0 ∨ len ≤ zForm dt := by
  rcases Nat.lt_or_ge (zForm dt) len with long | short
  · obtain ⟨returned,perm⟩ := formatLong long low high
    have documented := stampOfDocumented bound low high
    have placed : Placed (applyWrites dst (datetimeFormat len dt offset).2) 0 _ := permPlaced perm
    have ended := placedTerminated placed (textNonzero documented.valid)
    have length := stampOfLength (datetimeDecode dt) offset (precisionOf (dt % 1000000))
    rw [zFormLength] at length
    constructor
    · intro respects
      have positive : (datetimeFormat len dt offset).1 ≠ 0 := by
        rw [returned,← zFormLength]
        exact dlenPositive _
      obtain ⟨_,_,_,_,here⟩ := respects.written positive
      have same := terminatedUnique here ended
      rw [returned,length] at same
      by_contra other
      rw [not_or] at other
      rw [if_neg other.1] at same
      omega
    · intro utc
      have zero := utc.resolve_right (Nat.not_le_of_lt long)
      rw [if_pos zero,Nat.add_zero] at length
      refine ⟨fun w mem => ?_,fun none => ?_,fun _ => ?_⟩
      · have position := (writesPositions long low high w.1).mp (List.mem_map_of_mem mem)
        rw [if_pos zero] at position
        omega
      · rw [returned,← zFormLength] at none
        exact absurd none (dlenPositive _)
      · rw [returned]
        exact ⟨_,documented,length,(placedAppend.mp placed).1,length ▸ ended⟩
  · refine iff_of_true ?_ (.inr short)
    constructor <;> rw [formatShort short] <;> simp

end Call

section Example

theorem formatRespectsLeapDay : Respects (fun _ => 0) 21 leapDay 0 ∧ Respects (fun _ => 0) 27 (leapDay + 250000) 345 ∧
    ¬ Respects (fun _ => 0) 28 (leapDay + 250000) 345 := by
  refine ⟨(formatRespects (by decide) (by decide) (by decide)).mpr (.inl rfl),
    (formatRespects (by decide) (by decide) (by decide)).mpr (.inr (by decide)),fun respects => ?_⟩
  have allowed := (formatRespects (by decide) (by decide) (by decide)).mp respects
  exact absurd allowed (by decide)

/-- A buffer of 21 bytes is overrun by five, and the length returned is five too short. -/
theorem hourEastOverruns : (datetimeFormat 21 0 60).1 = 20 ∧ (25,0) ∈ (datetimeFormat 21 0 60).2 ∧
    Terminated (applyWrites (fun _ => 1) (datetimeFormat 21 0 60).2) 25 ∧ ¬ Respects (fun _ => 1) 21 0 60 := by
  have outside : (25,0) ∈ (datetimeFormat 21 0 60).2 := by decide
  refine ⟨by decide,outside,?_,fun respects => absurd (respects.inside _ outside) (by decide)⟩
  unfold Terminated
  decide

end Example

end Qtl.DatetimeBuffer
