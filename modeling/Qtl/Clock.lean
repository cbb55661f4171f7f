import Qtl.ReminderQueue

/-! qtl_clock.c: a clock of its own with two types and two modes. clock_new assigns
every member but `time`, which stays what malloc left there. -/
namespace Qtl.Clock
open Base (OrderedTree)
open Base.OrderedTree
open Base.Trace (Run)
open ReminderQueue

inductive ClockType where | kClockTypeLocal | kClockTypeExchange
  deriving DecidableEq, Repr

inductive ClockMode where | kClockModeRealtime | kClockModeSimulation
  deriving DecidableEq, Repr

def minDateTime : Nat := 0

structure CtfClock (τ : Type) where
  type : ClockType
  mode : ClockMode
  time : Nat
  queue : τ

section Functions
variable {τ : Type} {reminders : Nat → Reminder} (rb : OrderedTree τ RbNode (rbNodeComp reminders))

-- `memory` is what malloc left in `time`, or none; `queueMemory` whether reminder_queue_new has memory.
def clockNew (type : ClockType) (memory : Option Nat) (queueMemory : Bool) : Option (CtfClock τ) := do
  let time ← memory
  if queueMemory then some ⟨type,.kClockModeSimulation,time,reminderQueueNew rb⟩ else none

def clockGetDatetime (utcNow : Nat) (c : CtfClock τ) : Nat :=
  if c.type = .kClockTypeLocal then c.time
  else if c.mode ≠ .kClockModeRealtime then c.time
  else utcNow

def clockSetDatetime (c : CtfClock τ) (time : Nat) : CtfClock τ :=
  if c.type = .kClockTypeExchange then
    if time < c.time then c else {c with time := time}
  else if c.mode ≠ .kClockModeSimulation then c
  else if time < c.time then c
  else {c with time := time}

def clockSetMode (c : CtfClock τ) (mode : ClockMode) : CtfClock τ :=
  let c := {c with mode := mode}
  if mode = .kClockModeSimulation then {c with time := minDateTime} else c

def clockClear (c : CtfClock τ) : CtfClock τ :=
  {c with queue := reminderQueueClear rb c.queue, time := minDateTime}

end Functions

inductive Turn where
  | setDatetime (time : Nat)
  | setMode (mode : ClockMode)
  | clear
  deriving DecidableEq, Repr

structure Move (τ : Type) where
  before : CtfClock τ
  turn : Turn
  after : CtfClock τ

def Turn.resets : Turn → Bool
  | .setMode .kClockModeSimulation => true
  | .clear => true
  | _ => false

def passed (time : Nat) : Turn → Nat
  | .setDatetime t => max time t
  | turn => if turn.resets then minDateTime else time

def latest (turns : List Turn) : Nat := turns.foldl passed minDateTime

def Settled (left : Nat) (turns : List Turn) : Prop :=
  (∃ turn ∈ turns, turn.resets = true) ∨ left ≤ latest turns

structure Kept {τ : Type} (move : Move τ) : Prop where
  refused : ∀ time, move.turn = .setDatetime time → time < move.before.time → move.after = move.before
  forward : move.turn.resets = false → move.after.mode = .kClockModeSimulation → ∀ utcNow,
    clockGetDatetime utcNow move.before ≤ clockGetDatetime utcNow move.after

section Run
variable {τ : Type} {reminders : Nat → Reminder} (rb : OrderedTree τ RbNode (rbNodeComp reminders))

def serve (c : CtfClock τ) : Turn → CtfClock τ
  | .setDatetime time => clockSetDatetime c time
  | .setMode mode => clockSetMode c mode
  | .clear => clockClear rb c

def perform (c : CtfClock τ) (turn : Turn) : Option (Move τ × CtfClock τ) :=
  some (⟨c,turn,serve rb c turn⟩,serve rb c turn)

abbrev Step : CtfClock τ → Move τ → CtfClock τ → Prop := Base.Trace.Moves (perform rb)

def turns (trace : List (Move τ)) : List Turn := trace.map Move.turn

variable {rb} {c c' : CtfClock τ} {time left utcNow : Nat} {turn : Turn} {trace : List (Move τ)} {move : Move τ}

theorem latestSnoc (before : List Turn) (turn : Turn) : latest (before ++ [turn]) = passed (latest before) turn := by
  rw [latest,List.foldl_append]
  rfl

theorem getSimulation (simulation : c.mode = .kClockModeSimulation) : clockGetDatetime utcNow c = c.time := by
  unfold clockGetDatetime
  split_ifs <;> simp_all

theorem setSimulation (simulation : c.mode = .kClockModeSimulation) (time : Nat) :
    (clockSetDatetime c time).time = max c.time time := by
  have both : clockSetDatetime c time = if time < c.time then c else {c with time := time} := by
    simp [clockSetDatetime,simulation]
  rw [both]
  split
  · rename_i early
    exact (max_eq_left early.le).symm
  · rename_i late
    exact (max_eq_right (Nat.le_of_not_lt late)).symm

theorem setRefused (early : time < c.time) : clockSetDatetime c time = c := by
  unfold clockSetDatetime
  split_ifs <;> rfl

theorem setKeepsMode (c : CtfClock τ) (time : Nat) : (clockSetDatetime c time).mode = c.mode := by
  unfold clockSetDatetime
  split_ifs <;> rfl

theorem serveKept (c : CtfClock τ) (turn : Turn) : Kept ⟨c,turn,serve rb c turn⟩ := by
  cases turn with
  | setDatetime t =>
    refine ⟨fun time same early => ?_,fun _ simulation utcNow => ?_⟩
    · cases same
      exact setRefused early
    · have after : (clockSetDatetime c t).mode = .kClockModeSimulation := simulation
      have before : c.mode = .kClockModeSimulation := (setKeepsMode c t).symm.trans after
      dsimp only [serve]
      rw [getSimulation before,getSimulation after,setSimulation before]
      exact le_max_left _ _
  | setMode mode =>
    refine ⟨nofun,fun still simulation => ?_⟩
    cases mode with
    | kClockModeSimulation => cases still
    | kClockModeRealtime => cases simulation
  | clear => exact ⟨nofun,nofun⟩

def remains (left : Nat) (turns : List Turn) : Nat := if turns.any Turn.resets then minDateTime else left

theorem remainsSnoc (before : List Turn) : remains left (before ++ [turn]) =
    if turn.resets then minDateTime else remains left before := by
  rw [remains,List.any_append,List.any_cons,List.any_nil,Bool.or_false]
  cases turn.resets with
  | true => simp
  | false => simp [remains]

theorem settledIff : Settled left (turns trace) ↔ remains left (turns trace) ≤ latest (turns trace) := by
  rw [Settled,← List.any_eq_true,remains]
  split
  · rename_i reset
    simp [reset,minDateTime]
  · rename_i none
    simp [none]

def Holds (left : Nat) (trace : List (Move τ)) (c : CtfClock τ) : Prop :=
  c.mode = .kClockModeSimulation → c.time = max (remains left (turns trace)) (latest (turns trace))

theorem serveHolds (held : Holds left trace c) (turn : Turn) :
    Holds left (trace ++ [⟨c,turn,serve rb c turn⟩]) (serve rb c turn) := by
  have snoc : turns (trace ++ [⟨c,turn,serve rb c turn⟩]) = turns trace ++ [turn] := List.map_append
  intro simulation
  rw [snoc,remainsSnoc,latestSnoc]
  cases turn with
  | setDatetime t =>
    have before : c.mode = .kClockModeSimulation := (setKeepsMode c t).symm.trans simulation
    change (clockSetDatetime c t).time = max (remains left (turns trace)) (max (latest (turns trace)) t)
    rw [setSimulation before,held before,max_assoc]
  | setMode mode =>
    cases mode with
    | kClockModeSimulation => rfl
    | kClockModeRealtime => cases simulation
  | clear => rfl

theorem runHolds {type : ClockType} {queueMemory : Bool} (made : clockNew rb type (some left) queueMemory = some c)
    (run : Run (Step rb) c trace c') : Holds left trace c' ∧ ∀ move ∈ trace, Kept move := by
  have start : Holds left [] c := by
    obtain ⟨_,same⟩ : queueMemory = true ∧ _ = c := by simpa [clockNew] using made
    rw [← same]
    exact fun _ => (max_eq_left (Nat.zero_le _)).symm
  refine Base.Trace.runLabels (Holds left) Kept start ?_ run
  rintro trace c move c' held ⟨turn,done⟩
  cases done
  exact ⟨serveHolds held turn,serveKept c turn⟩

/-- In a simulation the clock reads the latest time passed since the last reset exactly
as far as the contents malloc left for it lie behind. -/
theorem clockReadsLatest {type : ClockType} {queueMemory : Bool}
    (made : clockNew rb type (some left) queueMemory = some c) (run : Run (Step rb) c trace c') :
    (∀ move ∈ trace, Kept move) ∧ (c'.mode = .kClockModeSimulation → ∀ utcNow,
      (clockGetDatetime utcNow c' = latest (turns trace) ↔ Settled left (turns trace))) := by
  obtain ⟨held,kept⟩ := runHolds made run
  refine ⟨kept,fun simulation utcNow => ?_⟩
  rw [getSimulation simulation,held simulation,settledIff]
  exact sup_eq_right

end Run

section Example

def noReminders (_ : Nat) : Reminder := ⟨0,0,0⟩

abbrev tree := searchTree (rbNodeRanked noReminders)

def switches : List Turn := [.setMode .kClockModeRealtime,.setMode .kClockModeSimulation,.setDatetime 4,.setDatetime 3]

theorem clockReadsLatestSwitched : ∃ c trace c', clockNew tree .kClockTypeExchange (some 9) true = some c ∧
    Run (Step tree) c trace c' ∧ turns trace = switches ∧
    (clockGetDatetime 100 c' = latest (turns trace) ↔ Settled 9 (turns trace)) := by
  have made : clockNew tree .kClockTypeExchange (some 9) true =
    some ⟨.kClockTypeExchange,.kClockModeSimulation,9,⟨.leaf,.nil⟩⟩ := rfl
  have played : (Base.Trace.play (perform tree) ⟨.kClockTypeExchange,.kClockModeSimulation,9,⟨.leaf,.nil⟩⟩
      switches).map (fun r => (turns r.1,r.2.mode)) = some (switches,.kClockModeSimulation) := rfl
  obtain ⟨trace,c',run,seen⟩ := Base.Trace.playSeen _ _ played
  obtain ⟨turned,simulation⟩ := Prod.mk.inj seen
  exact ⟨_,trace,c',made,run,turned,(clockReadsLatest made run).2 simulation 100⟩

theorem newClockReadsMemory : (clockNew tree .kClockTypeLocal (some 5) true).map
    (fun c => (c.mode,clockGetDatetime 0 c)) = some (.kClockModeSimulation,5) ∧ latest [] ≠ 5 := ⟨rfl,by decide⟩

end Example

end Qtl.Clock
