import Qtl.Base.Trace
import Qtl.Spsc

/-! The ring between whole calls, at every capacity an unsigned int can hold: what its
observers tell about the items written and not yet read. -/
namespace Qtl.SpscIdle
open Base.Window Spsc
open Base.Trace (Run)

variable {α : Type}

inductive Call (α : Type) where
  | write (e : α)
  | read

inductive Entry (α : Type) where
  | wrote (e : α)
  | refused (e : α)
  | gave (item : α)
  | empty

def perform (q : SpscQueue α) : Call α → Option (Entry α × SpscQueue α)
  | .write e =>
      let (q,ret) := spscQueueWrite q e
      some (if ret then .wrote e else .refused e,q)
  | .read =>
      let (q,item) := spscQueueRead q
      some (match item with | some e => .gave e | none => .empty,q)

abbrev Step : SpscQueue α → Entry α → SpscQueue α → Prop := Base.Trace.Moves perform

def written : List (Entry α) → List α := List.filterMap (fun entry => match entry with
  | .wrote e => some e
  | _ => none)

def given : List (Entry α) → List α := List.filterMap (fun entry => match entry with
  | .gave e => some e
  | _ => none)

def unread (trace : List (Entry α)) : Nat := (written trace).length - (given trace).length

-- `null` tells which items are null pointers; a peek that returns one looks like an empty ring.
structure Agree (null : α → Bool) (q : SpscQueue α) (k : Nat) : Prop where
  size : spscQueueSize q = k
  isEmpty : spscQueueIsEmpty q = true ↔ k = 0
  read : (spscQueueRead q).2 = none ↔ k = 0
  peek : (spscQueuePeek q).all null = true ↔ k = 0
  isFull : spscQueueIsFull q = true ↔ k = q.capacity - 1
  write : ∀ e, (spscQueueWrite q e).2 = false ↔ k = q.capacity - 1
  readFailed : (spscQueueRead q).2 = none → (spscQueueRead q).1 = q
  writeFailed : ∀ e, (spscQueueWrite q e).2 = false → (spscQueueWrite q e).1 = q

def Near (q : SpscQueue α) : Prop :=
  (q.readPos ≤ q.writePos → q.writePos < q.readPos + 2^31) ∧
  (q.writePos < q.readPos → q.readPos ≤ q.writePos + 2^31)

section Size
variable {capacity readPos writePos : Nat}

theorem asIntNegative (x : Int) :
    (x % (uintRange : Int)).bmod uintRange < 0 ↔ 2^31 ≤ x % (uintRange : Int) := by
  rw [Int.emod_bmod,Int.bmod_def]
  have range : (uintRange : Int) = 4294967296 := by simp [uintRange]
  rw [range]
  split_ifs <;> omega

theorem asIntWraps (x : Int) :
    (x % (uintRange : Int)).bmod uintRange % (uintRange : Int) = x % (uintRange : Int) := by
  rw [Int.emod_bmod,Int.bmod_emod]

theorem sizeBetweenUnsigned : sizeBetween capacity readPos writePos =
    ((if 2^31 ≤ ((writePos : Int) - readPos) % (uintRange : Int) then (writePos : Int) - readPos + capacity
      else (writePos : Int) - readPos) % (uintRange : Int)).toNat := by
  unfold sizeBetween
  dsimp only
  by_cases negative : 2^31 ≤ ((writePos : Int) - readPos) % (uintRange : Int)
  · rw [if_pos ((asIntNegative _).mpr negative),if_pos negative,asIntWraps,Int.add_emod,asIntWraps,← Int.add_emod]
  · rw [if_neg (mt (asIntNegative _).mp negative),if_neg negative,asIntWraps]

theorem sizeBetweenIff (fits : capacity < uintRange) (hr : readPos < capacity) (hw : writePos < capacity) :
    sizeBetween capacity readPos writePos = distance capacity readPos writePos ↔
      (readPos ≤ writePos → writePos < readPos + 2^31) ∧ (writePos < readPos → readPos ≤ writePos + 2^31) := by
  have range : (uintRange : Int) = 4294967296 := by simp [uintRange]
  have fits' : capacity < 4294967296 := fits
  rw [sizeBetweenUnsigned,range,distance]
  split_ifs <;> omega

end Size

section Observers
variable {null : α → Bool} {q q' : SpscQueue α} {trace : List (Entry α)} {entry : Entry α}

theorem sizeIff (ok : Ok q) : spscQueueSize q = (live q).length ↔ Near q := by
  rw [spscQueueSize,live,windowLength]
  exact sizeBetweenIff ok.fits ok.readLt ok.writeLt

theorem isFullExact (ok : Ok q) : spscQueueIsFull q = true ↔ (live q).length = q.capacity - 1 := by
  rw [live,windowFull ok.readLt ok.writeLt,spscQueueIsFull,beq_iff_eq,nextRecordAdvance ok.fits ok.writeLt]

theorem readNone (ok : Ok q) : (spscQueueRead q).2 = none ↔ (live q).length = 0 := by
  rw [(readExact ok).1,List.head?_eq_none_iff,List.length_eq_zero_iff]

theorem readFailedSame (failed : (spscQueueRead q).2 = none) : (spscQueueRead q).1 = q := by
  simp only [spscQueueRead] at failed ⊢
  split at failed <;> simp_all

theorem peekNull (ok : Ok q) : ((spscQueuePeek q).all null = true ↔ (live q).length = 0) ↔
    ∀ e ∈ (live q).head?, null e = false := by
  rw [peekExact ok]
  cases live q with
  | nil => simp
  | cons e rest => simp

theorem agreeIff (ok : Ok q) :
    Agree null q (live q).length ↔ Near q ∧ ∀ e ∈ (live q).head?, null e = false := by
  refine ⟨fun agree => ⟨(sizeIff ok).mp agree.size,(peekNull ok).mp agree.peek⟩,fun ⟨near,front⟩ => ?_⟩
  exact ⟨(sizeIff ok).mpr near,by rw [isEmptyExact ok,List.length_eq_zero_iff],readNone ok,(peekNull ok).mpr front,
    isFullExact ok,fun e => writeRefused ok,readFailedSame,fun e => writeRefusedSame⟩

theorem performed (ok : Ok q) (step : Step q entry q') : Ok q' ∧ q'.capacity = q.capacity ∧
    live q ++ written [entry] = given [entry] ++ live q' := by
  obtain ⟨call,done⟩ := step
  cases call with
  | write e =>
    simp only [perform,Option.some.injEq,Prod.mk.injEq] at done
    obtain ⟨rfl,rfl⟩ := done
    refine ⟨writeOk ok e,?_,?_⟩
    · simp only [spscQueueWrite]
      split <;> rfl
    · cases ret : (spscQueueWrite q e).2 with
      | true => simp [writeAppends ok ret,written,given]
      | false => simp [writeRefusedSame ret,written,given]
  | read =>
    simp only [perform,Option.some.injEq,Prod.mk.injEq] at done
    obtain ⟨rfl,rfl⟩ := done
    obtain ⟨item,rest⟩ := readExact ok
    refine ⟨readOk ok,?_,?_⟩
    · simp only [spscQueueRead]
      split <;> rfl
    · rw [item,rest]
      cases live q <;> simp [written,given]

theorem runLive {size : Nat} {memory : Option (Nat → α)} (fits : size < uintRange)
    (accepted : spscQueueInit memory size = some q) (run : Run Step q trace q') :
    Ok q' ∧ q'.capacity = size ∧ written trace = given trace ++ live q' := by
  obtain ⟨ok,capacity,none⟩ := initOk fits accepted
  refine Base.Trace.runInvariant (fun trace q' => Ok q' ∧ q'.capacity = size ∧ written trace = given trace ++ live q')
    ⟨ok,capacity,by rw [none]; rfl⟩ ?_ run
  rintro trace q entry q' ⟨ok,capacity,whole⟩ step
  obtain ⟨ok',same,here⟩ := performed ok step
  refine ⟨ok',same.trans capacity,?_⟩
  simp only [written,given,List.filterMap_append] at whole here ⊢
  rw [whole,List.append_assoc,here,List.append_assoc]

theorem observersAgree {size : Nat} {memory : Option (Nat → α)} (fits : size < uintRange)
    (accepted : spscQueueInit memory size = some q) (run : Run Step q trace q') :
    Agree null q' (unread trace) ↔ Near q' ∧ ∀ e ∈ (live q').head?, null e = false := by
  obtain ⟨ok,_,whole⟩ := runLive fits accepted run
  have left : unread trace = (live q').length := by
    rw [unread,whole,List.length_append,Nat.add_sub_cancel_left]
  rw [left,agreeIff ok]

theorem smallNear (ok : Ok q) (small : q.capacity ≤ 2^31) : Near q := by
  have readLt := ok.readLt
  have writeLt := ok.writeLt
  exact ⟨fun _ => by omega,fun _ => by omega⟩

end Observers

section Wide

def slots : Option (Nat → Nat) := some (fun _ => 0)

theorem observersAgreeOne : ∃ q : SpscQueue Nat, Run Step ⟨2,fun _ => 0,0,0⟩ [.wrote 7] q ∧
    (Agree (fun _ => false) q 1 ↔ Near q ∧ ∀ e ∈ (live q).head?, false = false) := by
  have run : Run Step (⟨2,fun _ => 0,0,0⟩ : SpscQueue Nat) [.wrote 7] _ := Base.Trace.runSingle ⟨.write 7,rfl⟩
  have accepted : spscQueueInit slots 2 = some ⟨2,fun _ => 0,0,0⟩ := rfl
  exact ⟨_,run,observersAgree (by decide) accepted run⟩

theorem writesRun {size : Nat} (fits : size < uintRange) (n : Nat) (room : n < size) :
    ∃ records, Run Step (⟨size,fun _ => 0,0,0⟩ : SpscQueue Nat) (List.replicate n (.wrote 7))
      ⟨size,records,0,n⟩ := by
  induction n with
  | zero => exact ⟨_,.nil⟩
  | succ n ih =>
    obtain ⟨records,run⟩ := ih (Nat.lt_of_succ_lt room)
    have next : nextRecord (⟨size,records,0,n⟩ : SpscQueue Nat) n = n + 1 := by
      rw [nextRecordAdvance fits (Nat.lt_of_succ_lt room)]
      exact if_neg room.ne
    refine ⟨Function.update records n 7,?_⟩
    rw [List.replicate_succ']
    refine .snoc run ⟨.write 7,?_⟩
    simp [perform,spscQueueWrite,next]

/-- In a ring of 2^31 + 1 slots that 2^31 writes have filled, the size is told to be 1. -/
theorem fullRingSizeOne : ∃ q : SpscQueue Nat,
    Run Step ⟨2^31 + 1,fun _ => 0,0,0⟩ (List.replicate (2^31) (.wrote 7)) q ∧
    spscQueueSize q = 1 ∧ unread (List.replicate (2^31) (Entry.wrote 7)) = 2^31 ∧
    ¬ Agree (fun _ => false) q (unread (List.replicate (2^31) (Entry.wrote 7))) := by
  have fits : 2^31 + 1 < uintRange := by decide
  have told : sizeBetween (2^31 + 1) 0 (2^31) = 1 := by decide
  obtain ⟨records,run⟩ := writesRun fits (2^31) (Nat.lt_succ_self _)
  have size : spscQueueSize (⟨2^31 + 1,records,0,2^31⟩ : SpscQueue Nat) = 1 := told
  have count (n : Nat) : unread (List.replicate n (Entry.wrote 7)) = n := by
    simp [unread,written,given]
  refine ⟨_,run,size,count _,fun agree => ?_⟩
  have told := agree.size
  rw [size,count] at told
  exact absurd told (by decide)

end Wide

end Qtl.SpscIdle
