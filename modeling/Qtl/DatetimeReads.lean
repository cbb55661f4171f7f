import Qtl.DatetimeParse

/-! Which bytes datetime_from_iso8601 reads. Its test `cur + 5 < end` turns away a zone
that is too long and lets one that is too short pass. -/
namespace Qtl.DatetimeReads
open Base.Text Datetime DatetimeParse

def bounded (str : Nat → UInt8) (len : Nat) : Fetch := fun i => if i < len then .ok (str i) else .error .outside

def Inside (str : Nat → UInt8) (len : Nat) : Prop := scan (bounded str len) len ≠ .error .outside

def Cut (tail : List UInt8) : Prop :=
  tail.length ≤ 2 ∨ ∃ hour ≤ 23, ∃ ds : List Nat, ds.length ≤ 1 ∧ (∀ d ∈ ds, d ≤ 9) ∧
    tail = digitText 2 hour ++ [ascii ':'] ++ ds.map digitByte

def Sign (b : UInt8) : Prop := b = ascii '+' ∨ b = ascii '-'

structure Truncated (bytes : List UInt8) (s : Stamp) (sign : UInt8) (tail : List UInt8) : Prop where
  dateTime : DateTimeValid s
  fraction : s.fraction.length ≤ 9
  digit : ∀ d ∈ s.fraction, d ≤ 9
  signed : Sign sign
  cut : Cut tail
  text : bytes = s.dateTimeText ++ Stamp.fractionText s.fraction ++ sign :: tail

def Agrees {α : Type} (x y : Except Stop α) : Prop := x = y ∧ x ≠ .error .outside

section Agreement
variable {α β : Type} {x y : Except Stop α} {f g : α → Except Stop β} {str : Nat → UInt8} {i cur len left nsec : Nat}

theorem agreesBind (h : Agrees x y) (next : ∀ a, x = .ok a → Agrees (f a) (g a)) : Agrees (x >>= f) (y >>= g) := by
  obtain ⟨rfl,calm⟩ := h
  cases x with
  | error stop => exact ⟨rfl,fun outside => calm (by cases outside; rfl)⟩
  | ok a => exact next a rfl

theorem agreesDemand (p : Prop) [Decidable p] : Agrees (demand p) (demand p) := by
  refine ⟨rfl,?_⟩
  unfold demand
  split <;> simp

theorem agreesReturn (a : α) : Agrees (pure a) (pure a) := ⟨rfl,nofun⟩

theorem agreesFetch (inside : i < len) : Agrees (bounded str len i) (plain str i) := by
  rw [bounded,if_pos inside]
  exact ⟨rfl,nofun⟩

theorem agreesParse2d (inside : i + 1 < len) : Agrees (parse2d (bounded str len) i) (parse2d (plain str) i) :=
  agreesBind (agreesFetch (Nat.lt_of_succ_lt inside)) (fun _ _ => agreesBind (agreesDemand _) (fun _ _ =>
    agreesBind (agreesFetch inside) (fun _ _ => agreesBind (agreesDemand _) (fun _ _ => agreesReturn _))))

theorem agreesParse4d (inside : i + 3 < len) : Agrees (parse4d (bounded str len) i) (parse4d (plain str) i) :=
  agreesBind (agreesFetch (by omega)) (fun _ _ => agreesBind (agreesDemand _) (fun _ _ =>
    agreesBind (agreesFetch (by omega)) (fun _ _ => agreesBind (agreesDemand _) (fun _ _ =>
    agreesBind (agreesFetch (by omega)) (fun _ _ => agreesBind (agreesDemand _) (fun _ _ =>
    agreesBind (agreesFetch inside) (fun _ _ => agreesBind (agreesDemand _) (fun _ _ => agreesReturn _))))))))

-- The length is tested first, and nothing from position 19 on is read here.
theorem agreesFields (str : Nat → UInt8) (len : Nat) :
    Agrees (scanFields (bounded str len) len) (scanFields (plain str) len) := by
  refine agreesBind (agreesDemand _) (fun _ long => ?_)
  have long := demandOk.mp long
  iterate 4 refine agreesBind (agreesFetch (by omega)) (fun _ _ => agreesBind (agreesDemand _) (fun _ _ => ?_))
  refine agreesBind (agreesFetch (by omega)) (fun _ _ => agreesBind (agreesDemand _) (fun _ _ => ?_))
  refine agreesBind (agreesParse4d (by omega)) (fun _ _ => agreesBind (agreesDemand _) (fun _ _ => ?_))
  iterate 5 refine agreesBind (agreesParse2d (by omega)) (fun _ _ => agreesBind (agreesDemand _) (fun _ _ => ?_))
  exact agreesBind (agreesDemand _) (fun _ _ => agreesReturn _)

theorem agreesDigits (room : cur + left ≤ len) :
    Agrees (scanDigits (bounded str len) left cur nsec) (scanDigits (plain str) left cur nsec) := by
  induction left generalizing cur nsec with
  | zero => exact agreesReturn _
  | succ left ih =>
    refine agreesBind (agreesFetch (by omega)) (fun b _ => ?_)
    dsimp only
    split
    · exact agreesReturn _
    · exact ih (by omega)

theorem scanDigitsBound {fetch : Fetch} {r : Nat × Nat} (ran : scanDigits fetch left cur nsec = .ok r) :
    r.1 ≤ cur + left := by
  induction left generalizing cur nsec with
  | zero =>
    cases ran
    exact le_rfl
  | succ left ih =>
    obtain ⟨b,_,later⟩ := bindOkIff.mp ran
    dsimp only at later
    split at later
    · cases later
      exact Nat.le_add_right _ _
    · exact (ih later).trans_eq (by omega)

theorem agreesFraction (str : Nat → UInt8) (ch : UInt8) (room : cur ≤ len) :
    Agrees (scanFraction (bounded str len) len ch cur) (scanFraction (plain str) len ch cur) := by
  unfold scanFraction
  split
  · refine agreesBind (agreesDigits (by omega)) (fun r ran => ?_)
    have bound := scanDigitsBound ran
    obtain ⟨cur',nsec⟩ := r
    refine agreesBind (agreesDemand _) (fun _ _ => agreesBind (agreesDemand _) (fun _ more => ?_))
    have more := demandOk.mp more
    exact agreesBind (agreesFetch (by omega)) (fun _ _ => agreesReturn _)
  · exact agreesReturn _

end Agreement

section Outside
variable {α β : Type} {x : Except Stop α} {f : α → Except Stop β} {str : Nat → UInt8} {i n cur len : Nat} {ch : UInt8}

theorem bindOutside : (x >>= f) = .error .outside ↔ x = .error .outside ∨ ∃ a, x = .ok a ∧ f a = .error .outside := by
  cases x with
  | error stop => exact ⟨fun h => .inl (by cases h; rfl),fun h => by rcases h with h | ⟨_,h,_⟩ <;> cases h; rfl⟩
  | ok a => exact ⟨fun h => .inr ⟨a,rfl,h⟩,fun h => by rcases h with h | ⟨_,h,h'⟩ <;> cases h; exact h'⟩

theorem demandOutside (p : Prop) [Decidable p] : demand p = .error .outside ↔ False :=
  iff_false_intro (agreesDemand p).2

theorem returnOutside (a : α) : (pure a : Except Stop α) = .error .outside ↔ False := iff_false_intro nofun

theorem boundedOutside : bounded str len i = .error .outside ↔ len ≤ i := by
  unfold bounded
  split <;> simp <;> omega

theorem boundedOk {b : UInt8} : bounded str len i = .ok b ↔ i < len ∧ str i = b := by
  unfold bounded
  split <;> simp [*]

theorem parse2dOutside : parse2d (bounded str len) i = .error .outside ↔
    len ≤ i ∨ len = i + 1 ∧ digitOf (str i) ≤ 9 := by
  simp only [parse2d,bindOutside,demandOutside,returnOutside,boundedOutside,boundedOk,demandOk,Nat.add_zero,
    and_false,exists_false,or_false,false_or,exists_const,exists_and_left,and_assoc,exists_eq_left']
  omega

theorem parse2dBounded : parse2d (bounded str len) i = .ok n ↔ i + 1 < len ∧ parse2d (plain str) i = .ok n := by
  by_cases inside : i + 1 < len
  · rw [(agreesParse2d inside).1]
    exact (and_iff_right inside).symm
  · refine iff_of_false (fun ran => ?_) (fun h => inside h.1)
    simp only [parse2d,bindOkIff,boundedOk] at ran
    obtain ⟨_,_,_,_,_,⟨more,_⟩,_⟩ := ran
    exact inside more

theorem placedRange : Placed str i ((List.range' i n).map str) := by
  intro k inside
  simp

theorem cutIff (start : cur ≤ len) : (∃ tail, Cut tail ∧ cur + tail.length = len ∧ Placed str cur tail) ↔
    len ≤ cur + 2 ∨ str (cur + 2) = ascii ':' ∧ ∃ hour ≤ 23, Placed str cur (digitText 2 hour) ∧
      (len = cur + 3 ∨ len = cur + 4 ∧ digitOf (str (cur + 3)) ≤ 9) := by
  constructor
  · rintro ⟨tail,short | ⟨hour,small,ds,one,digit,rfl⟩,size,placed⟩
    · exact .inl (by omega)
    · rw [placedAppend,placedAppend] at placed
      simp only [List.length_append,digitTextLength,List.length_singleton,List.length_map,placedCons] at placed size
      obtain ⟨⟨front,colon,_⟩,rest⟩ := placed
      refine .inr ⟨colon,hour,small,front,?_⟩
      cases ds with
      | nil => exact .inl size.symm
      | cons d ds =>
        have last : ds = [] := List.length_eq_zero_iff.mp (Nat.le_zero.mp (Nat.le_of_succ_le_succ one))
        subst last
        have low := digit d List.mem_cons_self
        have byte := (placedCons.mp rest).1
        exact .inr ⟨size.symm,by rw [(digitIff low).mp byte]; exact low⟩
  · rintro (short | ⟨colon,hour,small,front,rest⟩)
    · exact ⟨(List.range' cur (len - cur)).map str,.inl (by simp; omega),by simp; omega,placedRange⟩
    · have text (ds : List Nat) : Placed str cur (digitText 2 hour ++ [ascii ':'] ++ ds.map digitByte) ↔
          Placed str (cur + 3) (ds.map digitByte) := by
        rw [placedAppend,placedAppend]
        simp [front,colon]
      rcases rest with short | ⟨short,digit⟩
      · exact ⟨_,.inr ⟨hour,small,[],by simp,by simp,rfl⟩,by simp [short],(text []).mpr placedNil⟩
      · refine ⟨_,.inr ⟨hour,small,[digitOf (str (cur + 3))],by simp,by simpa using digit,rfl⟩,by simp [short],?_⟩
        exact (text _).mpr (placedCons.mpr ⟨(byteOfDigit _).symm,placedNil⟩)

theorem scanZoneOutside (start : cur ≤ len) : scanZone (bounded str len) len ch cur = .error .outside ↔
    Sign ch ∧ ∃ tail, Cut tail ∧ cur + tail.length = len ∧ Placed str cur tail := by
  rw [cutIff start]
  unfold scanZone
  split
  · rename_i letter
    refine iff_of_false (fun none => by cases none) (fun h => ?_)
    rcases letter with rfl | rfl <;> exact absurd h.1 (by unfold Sign; decide)
  · simp only [bindOutside,demandOutside,returnOutside,boundedOutside,boundedOk,demandOk,parse2dOutside,
      parse2dBounded,parse2dIff,and_false,exists_false,or_false,false_or,exists_const,and_assoc,exists_and_left,
      exists_eq_left']
    constructor
    · rintro ⟨_,sign,short | ⟨more,colon,early | ⟨_,hour,_,front,small,rest⟩⟩⟩
      · exact ⟨sign,.inl short⟩
      · exact absurd more (by omega)
      · exact ⟨sign,.inr ⟨colon,hour,small,front,by omega⟩⟩
    · rintro ⟨sign,short | ⟨colon,hour,small,front,rest⟩⟩
      · exact ⟨by omega,sign,.inl short⟩
      · exact ⟨by omega,sign,.inr ⟨by omega,colon,.inr ⟨by omega,hour,by omega,front,small,by omega⟩⟩⟩

end Outside

section Whole
variable {str : Nat → UInt8} {len : Nat}

theorem scanOutside : scan (bounded str len) len = .error .outside ↔ ∃ f nsec ch cur,
    scanFields (plain str) len = .ok f ∧ scanFraction (plain str) len (str 19) 20 = .ok (nsec,ch,cur) ∧
    scanZone (bounded str len) len ch cur = .error .outside := by
  obtain ⟨fieldsSame,fieldsInside⟩ := agreesFields str len
  rw [fieldsSame] at fieldsInside
  constructor
  · intro outside
    unfold scan at outside
    rw [fieldsSame,bindOutside] at outside
    obtain ⟨f,fields,outside⟩ := outside.resolve_left fieldsInside
    have long := (scanFieldsIff.mp fields).1
    obtain ⟨fractionSame,fractionInside⟩ := agreesFraction str (str 19) long
    rw [fractionSame] at fractionInside
    rw [(agreesFetch (by omega)).1,plain,bindOutside] at outside
    obtain ⟨ch,same,outside⟩ := outside.resolve_left (fun none => by cases none)
    cases same
    rw [fractionSame,bindOutside] at outside
    obtain ⟨⟨nsec,ch,cur⟩,fraction,outside⟩ := outside.resolve_left fractionInside
    refine ⟨f,nsec,ch,cur,fields,fraction,?_⟩
    rcases bindOutside.mp outside with zone | ⟨⟨offset,cur'⟩,_,ended⟩
    · exact zone
    · rw [bindOutside] at ended
      rcases ended with ended | ⟨_,_,last⟩
      · exact absurd ended (agreesDemand _).2
      · cases last
  · rintro ⟨f,nsec,ch,cur,fields,fraction,zone⟩
    have long := (scanFieldsIff.mp fields).1
    have fractionSame := (agreesFraction str (str 19) long).1
    refine bindOutside.mpr (.inr ⟨f,fieldsSame.trans fields,bindOutside.mpr (.inr ⟨str 19,?_,?_⟩)⟩)
    · exact (agreesFetch (by omega)).1
    · exact bindOutside.mpr (.inr ⟨_,fractionSame.trans fraction,bindOutside.mpr (.inl zone)⟩)

theorem truncatedIff : (∃ s sign tail, Truncated ((List.range len).map str) s sign tail) ↔
    ∃ f nsec ch cur, scanFields (plain str) len = .ok f ∧
      scanFraction (plain str) len (str 19) 20 = .ok (nsec,ch,cur) ∧ cur ≤ len ∧
      Sign ch ∧ ∃ tail, Cut tail ∧ cur + tail.length = len ∧ Placed str cur tail := by
  constructor
  · rintro ⟨s,sign,tail,valid,short,digit,signed,cut,text⟩
    obtain ⟨size,placed⟩ := rangeMap.mp text
    simp only [placedAppend,placedCons,List.length_append,List.length_cons,dateTimeLength,Nat.zero_add] at size placed
    obtain ⟨⟨front,middle⟩,here,back⟩ := placed
    have start : 9 < digitOf sign ∧ sign ≠ ascii '.' := by rcases signed with rfl | rfl <;> decide
    rw [← here] at start signed
    refine ⟨_,_,_,_,scanFieldsIff.mpr ⟨by omega,s,valid,front,rfl⟩,
      scanFractionPlaced digit short middle (by omega) start.1 start.2,by omega,signed,tail,cut,by omega,back⟩
  · rintro ⟨f,nsec,ch,cur,fields,fraction,_,signed,tail,cut,size,back⟩
    obtain ⟨_,s,valid,front,_⟩ := scanFieldsIff.mp fields
    obtain ⟨ds,digit,short,middle,_,rfl,rfl⟩ := scanFractionSound fraction
    refine ⟨{s with fraction := ds},_,tail,?_,short,digit,signed,cut,rangeMap.mpr ⟨?_,?_⟩⟩
    · exact ⟨valid.date,valid.year,valid.separator,valid.hour,valid.minute,valid.second⟩
    · simp only [List.length_append,List.length_cons,dateTimeLength]
      omega
    · simp only [placedAppend,placedCons,List.length_append,dateTimeLength,Nat.zero_add]
      exact ⟨⟨front,middle⟩,trivial,back⟩

theorem scanFractionBound {ch ch' : UInt8} {cur cur' nsec : Nat} (room : cur ≤ len)
    (ran : scanFraction (plain str) len ch cur = .ok (nsec,ch',cur')) : cur' ≤ len := by
  unfold scanFraction at ran
  split at ran
  · obtain ⟨⟨c,n⟩,digits,ran⟩ := bindOkIff.mp ran
    have bound := scanDigitsBound digits
    obtain ⟨_,_,ran⟩ := bindOkIff.mp ran
    obtain ⟨_,more,ran⟩ := bindOkIff.mp ran
    have more := demandOk.mp more
    cases ran
    omega
  · cases ran
    exact room

theorem readsInside (str : Nat → UInt8) (len : Nat) :
    Inside str len ↔ ¬ ∃ s sign tail, Truncated ((List.range len).map str) s sign tail := by
  rw [Inside,Ne,not_iff_not,scanOutside,truncatedIff]
  refine exists_congr (fun f => exists_congr (fun nsec => exists_congr (fun ch => exists_congr (fun cur => ?_))))
  refine and_congr_right (fun fields => and_congr_right (fun fraction => ?_))
  have start := scanFractionBound (scanFieldsIff.mp fields).1 fraction
  rw [scanZoneOutside start]
  exact (and_iff_right start).symm

end Whole

section Same
variable {α β : Type} {x y : Except Stop α} {f g : α → Except Stop β} {str : Nat → UInt8} {i len cur : Nat}

def Follows (x y : Except Stop α) : Prop := x ≠ .error .outside → x = y

theorem followsBind (h : Follows x y) (next : ∀ a, Follows (f a) (g a)) : Follows (x >>= f) (y >>= g) := by
  intro inside
  have first := h (fun outside => inside (bindOutside.mpr (.inl outside)))
  subst first
  cases x with
  | error stop => rfl
  | ok a => exact next a inside

theorem followsFetch (str : Nat → UInt8) (len i : Nat) : Follows (bounded str len i) (plain str i) := by
  unfold bounded
  split
  · exact fun _ => rfl
  · exact fun inside => absurd rfl inside

theorem followsSame (x : Except Stop α) : Follows x x := fun _ => rfl

theorem followsDigits (left cur nsec : Nat) :
    Follows (scanDigits (bounded str len) left cur nsec) (scanDigits (plain str) left cur nsec) := by
  induction left generalizing cur nsec with
  | zero => exact followsSame _
  | succ left ih =>
    refine followsBind (followsFetch _ _ _) (fun b => ?_)
    dsimp only
    split
    · exact followsSame _
    · exact ih _ _

theorem followsFraction (ch : UInt8) :
    Follows (scanFraction (bounded str len) len ch cur) (scanFraction (plain str) len ch cur) := by
  unfold scanFraction
  split
  · exact followsBind (followsDigits _ _ _) (fun _ => followsBind (followsSame _) (fun _ =>
      followsBind (followsSame _) (fun _ => followsBind (followsFetch _ _ _) (fun _ => followsSame _))))
  · exact followsSame _

theorem followsZone (ch : UInt8) :
    Follows (scanZone (bounded str len) len ch cur) (scanZone (plain str) len ch cur) := by
  have number (i : Nat) : Follows (parse2d (bounded str len) i) (parse2d (plain str) i) :=
    followsBind (followsFetch _ _ _) (fun _ => followsBind (followsSame _) (fun _ =>
      followsBind (followsFetch _ _ _) (fun _ => followsBind (followsSame _) (fun _ => followsSame _))))
  unfold scanZone
  split
  · exact followsSame _
  · refine followsBind (followsSame _) (fun _ => followsBind (followsSame _) (fun _ => ?_))
    refine followsBind (followsFetch _ _ _) (fun _ => followsBind (followsSame _) (fun _ => ?_))
    refine followsBind (number _) (fun _ => followsBind (followsSame _) (fun _ => ?_))
    exact followsBind (number _) (fun _ => followsBind (followsSame _) (fun _ => followsSame _))

theorem insideSame (inside : Inside str len) : scan (bounded str len) len = scan (plain str) len := by
  refine followsBind (fun _ => (agreesFields _ _).1) (fun f => followsBind (followsFetch _ _ _) (fun ch => ?_)) inside
  refine followsBind (followsFraction _) (fun r => ?_)
  obtain ⟨nsec,ch,cur⟩ := r
  exact followsBind (followsZone _) (fun _ => followsSame _)

end Same

section Example

-- 2013-12-31T23:59:59+
def cutStamp : List UInt8 :=
  (⟨⟨2013,12,31⟩,ascii 'T',23,59,59,[],.utc 0⟩ : Stamp).dateTimeText ++ [ascii '+']

theorem cutZoneOutside : cutStamp.length = 20 ∧ ¬ Inside (fun i => cutStamp.getD i 0) 20 :=
  ⟨rfl,fun inside => inside rfl⟩

end Example

end Qtl.DatetimeReads
