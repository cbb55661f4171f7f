import Qtl.Bus

/-! The two clocks of a bus under its setters. The setter and the getter of the local
time test the mode in opposite ways. -/
namespace Qtl.BusClocks
open Bus
open Base.Trace (Run)

variable {σ : Type}

inductive Turn where
  | setMode (mode : EventBusMode)
  | setDatetime (time : Nat)
  | setExchangeDatetime (time : Nat)
  deriving DecidableEq, Repr

structure Move (σ : Type) where
  before : EventBus σ
  turn : Turn
  after : EventBus σ

def serve (b : EventBus σ) : Turn → EventBus σ
  | .setMode mode => eventBusSetMode b mode
  | .setDatetime time => eventBusSetDatetime b time
  | .setExchangeDatetime time => eventBusSetExchangeDatetime b time

def perform (b : EventBus σ) (turn : Turn) : Option (Move σ × EventBus σ) := some (⟨b,turn,serve b turn⟩,serve b turn)

abbrev Step : EventBus σ → Move σ → EventBus σ → Prop := Base.Trace.Moves perform

def simulatedTime (move : Move σ) : Option Nat := match move.turn with
  | .setDatetime time => if move.before.mode = .kSimulation then some time else none
  | _ => none

def exchangeTime (move : Move σ) : Option Nat := match move.turn with
  | .setExchangeDatetime time => some time
  | _ => none

def latest (initial : Nat) (times : List Nat) : Nat := times.foldl max initial

structure Kept (move : Move σ) : Prop where
  exchangeLeft : ∀ time, move.turn = .setDatetime time →
    eventBusGetExchangeDatetime move.after = eventBusGetExchangeDatetime move.before
  localLeft : ∀ time, move.turn = .setExchangeDatetime time →
    move.after.localClockDatetime = move.before.localClockDatetime
  localForward : move.before.localClockDatetime ≤ move.after.localClockDatetime
  exchangeForward : eventBusGetExchangeDatetime move.before ≤ eventBusGetExchangeDatetime move.after

/-- In a simulation the bus shows the latest times, whatever the wall clock is. -/
structure Law (b : EventBus σ) (trace : List (Move σ)) (b' : EventBus σ) : Prop where
  localTime : b'.mode = .kSimulation → ∀ utcNow,
    (eventBusGetDatetime utcNow b').2 = latest b.localClockDatetime (trace.filterMap simulatedTime)
  exchangeTime : eventBusGetExchangeDatetime b' = latest b.exchangeClockDatetime (trace.filterMap exchangeTime)
  kept : ∀ move ∈ trace, Kept move

variable {b b' : EventBus σ} {trace : List (Move σ)} {time initial : Nat}

theorem latestMove (time : Move σ → Option Nat) (move : Move σ) :
    latest initial ((trace ++ [move]).filterMap time) =
      (time move).elim (latest initial (trace.filterMap time)) (max (latest initial (trace.filterMap time))) := by
  rw [List.filterMap_append,latest,List.foldl_append]
  cases h : time move <;> simp [h,latest]

theorem setDatetimeLocal (b : EventBus σ) (time : Nat) : (eventBusSetDatetime b time).localClockDatetime =
    if b.mode = .kSimulation then max b.localClockDatetime time else b.localClockDatetime := by
  rw [setDatetimeMax]
  split <;> rfl

theorem setDatetimeExchange (b : EventBus σ) (time : Nat) :
    (eventBusSetDatetime b time).exchangeClockDatetime = b.exchangeClockDatetime := by
  rw [setDatetimeMax]
  split <;> rfl

theorem setExchangeExchange (b : EventBus σ) (time : Nat) :
    (eventBusSetExchangeDatetime b time).exchangeClockDatetime = max b.exchangeClockDatetime time := by
  rw [setExchangeMax]

theorem setExchangeLocal (b : EventBus σ) (time : Nat) :
    (eventBusSetExchangeDatetime b time).localClockDatetime = b.localClockDatetime := by
  rw [setExchangeMax]

theorem serveKept (b : EventBus σ) (turn : Turn) : Kept ⟨b,turn,serve b turn⟩ := by
  cases turn with
  | setMode mode => exact ⟨nofun,nofun,le_rfl,le_rfl⟩
  | setDatetime time =>
    refine ⟨fun _ _ => setDatetimeExchange b time,nofun,?_,(setDatetimeExchange b time).ge⟩
    dsimp only [serve]
    rw [setDatetimeLocal]
    split
    · exact le_max_left _ _
    · exact le_rfl
  | setExchangeDatetime time =>
    refine ⟨nofun,fun _ _ => setExchangeLocal b time,(setExchangeLocal b time).ge,?_⟩
    exact (le_max_left _ _).trans_eq (setExchangeExchange b time).symm

structure Holds (b : EventBus σ) (trace : List (Move σ)) (b' : EventBus σ) : Prop where
  localTime : b'.localClockDatetime = latest b.localClockDatetime (trace.filterMap simulatedTime)
  exchangeTime : b'.exchangeClockDatetime = latest b.exchangeClockDatetime (trace.filterMap exchangeTime)

theorem serveHolds (held : Holds b trace b') (turn : Turn) :
    Holds b (trace ++ [⟨b',turn,serve b' turn⟩]) (serve b' turn) := by
  obtain ⟨localTime,exchange⟩ := held
  constructor
  case localTime =>
    rw [latestMove,← localTime]
    cases turn with
    | setMode mode => rfl
    | setDatetime time =>
      refine (setDatetimeLocal b' time).trans ?_
      dsimp only [simulatedTime]
      split <;> rfl
    | setExchangeDatetime time => exact setExchangeLocal b' time
  case exchangeTime =>
    rw [latestMove,← exchange]
    cases turn with
    | setMode mode => rfl
    | setDatetime time => exact setDatetimeExchange b' time
    | setExchangeDatetime time => exact setExchangeExchange b' time

theorem runHolds (run : Run Step b trace b') : Holds b trace b' ∧ ∀ move ∈ trace, Kept move := by
  refine Base.Trace.runLabels (Holds b) Kept ⟨rfl,rfl⟩ ?_ run
  rintro trace b₁ move b₂ held ⟨turn,done⟩
  cases done
  exact ⟨serveHolds held turn,serveKept b₁ turn⟩

theorem getSimulation (simulation : b.mode = .kSimulation) (utcNow : Nat → Nat) :
    (eventBusGetDatetime utcNow b).2 = utcNow b.utcCalls := by
  simp [eventBusGetDatetime,simulation]

theorem getRealtime (realtime : b.mode = .kRealtime) (utcNow : Nat → Nat) :
    (eventBusGetDatetime utcNow b).2 = b.localClockDatetime := by
  simp [eventBusGetDatetime,realtime]

theorem realtimeReadsSimulated (run : Run Step b trace b') (realtime : b'.mode = .kRealtime) (utcNow : Nat → Nat) :
    (eventBusGetDatetime utcNow b').2 = latest b.localClockDatetime (trace.filterMap simulatedTime) :=
  (getRealtime realtime utcNow).trans (runHolds run).1.localTime

theorem busClocks (run : Run Step b trace b') : Law b trace b' ↔ b'.mode ≠ .kSimulation := by
  obtain ⟨⟨_,exchange⟩,kept⟩ := runHolds run
  refine ⟨fun law simulation => ?_,fun other => ⟨fun simulation => absurd simulation other,exchange,kept⟩⟩
  have zero := law.localTime simulation (fun _ => 0)
  have one := law.localTime simulation (fun _ => 1)
  rw [getSimulation simulation] at zero one
  exact absurd (zero.trans one.symm) Nat.zero_ne_one

section Example

def quiet (mode : EventBusMode) : EventBus Unit := ⟨(),mode,.kIdleWait,0,0,false,none,0⟩

theorem busClocksRealtime : ∃ trace b', Run Step (quiet .kSimulation) trace b' ∧
    trace.map Move.turn = [.setDatetime 7,.setMode .kRealtime,.setDatetime 9] ∧
    (Law (quiet .kSimulation) trace b' ↔ b'.mode ≠ .kSimulation) := by
  have run : Run Step (quiet .kSimulation) _ _ :=
    .snoc (.snoc (.snoc .nil ⟨.setDatetime 7,rfl⟩) ⟨.setMode .kRealtime,rfl⟩) ⟨.setDatetime 9,rfl⟩
  exact ⟨_,_,run,rfl,busClocks run⟩

theorem simulatedTimeUnread : ∃ trace b', Run Step (quiet .kSimulation) trace b' ∧
    trace.map Move.turn = [.setDatetime 7] ∧ b'.mode = .kSimulation ∧
    (eventBusGetDatetime (fun _ => 100) b').2 = 100 ∧ latest 0 (trace.filterMap simulatedTime) = 7 ∧
    ¬ Law (quiet .kSimulation) trace b' := by
  refine ⟨_,_,Base.Trace.runSingle ⟨.setDatetime 7,rfl⟩,rfl,rfl,rfl,rfl,fun law => ?_⟩
  exact absurd (law.localTime rfl (fun _ => 100)) (by decide)

end Example

end Qtl.BusClocks
