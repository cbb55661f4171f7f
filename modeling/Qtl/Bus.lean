import Qtl.Base.Trace
import Qtl.Pipe

/-! qtl_bus.c: event_bus_dequeue over five pipes. Other threads may act between any two
accesses of its loops, so each access is a step. What the pipes are made of is a
parameter, as is the wall clock. -/
namespace Qtl.Bus
open Queue Pipe

inductive EventBusMode where | kRealtime | kSimulation
  deriving DecidableEq, Repr

inductive EventBusIdleMode where | kIdleSpin | kIdleSleep | kIdleWait
  deriving DecidableEq, Repr

inductive PipeName where | command | data | execution | service | historical
  deriving DecidableEq, Repr

structure Pipes (σ : Type) where
  isEmpty : PipeName → σ → Except Failure (σ × Bool)
  read : PipeName → σ → Except Failure (σ × Option Event)

-- `utcCalls` counts the calls of utc_now, each of which returns a value of its own.
structure EventBus (σ : Type) where
  pipes : σ
  mode : EventBusMode
  idleMode : EventBusIdleMode
  localClockDatetime : Nat
  exchangeClockDatetime : Nat
  isSimulationStop : Bool
  savedEvent : Option Event
  utcCalls : Nat

variable {σ : Type}

def eventBusGetDatetime (utcNow : Nat → Nat) (b : EventBus σ) : EventBus σ × Nat :=
  if b.mode = .kRealtime then (b,b.localClockDatetime)
  else ({b with utcCalls := b.utcCalls + 1},utcNow b.utcCalls)

def eventBusSetDatetime (b : EventBus σ) (time : Nat) : EventBus σ :=
  if b.mode ≠ .kSimulation then b
  else if time < b.localClockDatetime then b
  else {b with localClockDatetime := time}

def eventBusGetExchangeDatetime (b : EventBus σ) : Nat := b.exchangeClockDatetime

def eventBusSetExchangeDatetime (b : EventBus σ) (time : Nat) : EventBus σ :=
  if time < b.exchangeClockDatetime then b
  else {b with exchangeClockDatetime := time}

def eventBusSetMode (b : EventBus σ) (mode : EventBusMode) : EventBus σ := {b with mode := mode}

theorem setDatetimeMax (b : EventBus σ) (time : Nat) : eventBusSetDatetime b time =
    if b.mode = .kSimulation then {b with localClockDatetime := max b.localClockDatetime time} else b := by
  unfold eventBusSetDatetime
  by_cases simulation : b.mode = .kSimulation
  · rw [if_neg (not_not.mpr simulation),if_pos simulation]
    split
    · rename_i early
      rw [max_eq_left early.le]
    · rename_i late
      rw [max_eq_right (Nat.le_of_not_lt late)]
  · rw [if_pos simulation,if_neg simulation]

theorem setExchangeMax (b : EventBus σ) (time : Nat) : eventBusSetExchangeDatetime b time =
    {b with exchangeClockDatetime := max b.exchangeClockDatetime time} := by
  unfold eventBusSetExchangeDatetime
  split
  · rename_i early
    rw [max_eq_left early.le]
  · rename_i late
    rw [max_eq_right (Nat.le_of_not_lt late)]

def enqueueAttach (b : EventBus σ) : EventBus σ × Option Event := ({b with savedEvent := none},b.savedEvent)

inductive Point where
  | outside
  | check (loop : EventBusMode) (pipe : PipeName)
  | read (loop : EventBusMode) (pipe : PipeName)
  | checkSaved (loop : EventBusMode)
  | checkStop
  | rest (loop : EventBusMode)
  deriving DecidableEq, Repr

inductive Source where
  | pipe (p : PipeName)
  | saved
  | stop
  deriving DecidableEq, Repr

inductive Idle where | uvSleep | spin | timewait | sleep
  deriving DecidableEq, Repr

inductive Label where
  | entered (loop : EventBusMode)
  | found (source : Source) (empty : Bool)
  | kept (loop : EventBusMode) (e : Option Event)
  | swallowed (e : Event)
  | returned (source : Source) (e : Option Event)
  | rested (idle : Idle)
  deriving DecidableEq, Repr

structure Caller (σ : Type) where
  bus : EventBus σ
  point : Point

/- The two loops check the pipes in one order. Their checks of the clock queues have empty
bodies. -/
def following (loop : EventBusMode) : PipeName → Point
  | .data => .check loop .execution
  | .execution => .check loop .command
  | .command => .check loop .service
  | _ => .checkSaved loop

def idle (b : EventBus σ) : EventBusMode → Idle
  | .kSimulation => .uvSleep
  | .kRealtime => match b.idleMode with
    | .kIdleSpin => .spin
    | .kIdleWait => .timewait
    | .kIdleSleep => .sleep

variable (pipes : Pipes σ) (utcNow : Nat → Nat)

def keepData (loop : EventBusMode) (b : EventBus σ) (e : Option Event) : Except Failure (Label × Caller σ) :=
  match loop,e with
  | .kSimulation,none => .error (.fault .nullPointer)
  | .kSimulation,some e =>
      if e.type = .kOnSimulatorStop then
        .ok (.swallowed e,⟨{b with isSimulationStop := true},.check loop .data⟩)
      else
        -- the comparison of the two times has an empty body
        let b := (eventBusGetDatetime utcNow b).1
        .ok (.kept loop (some e),⟨{b with savedEvent := some e},following loop .data⟩)
  | .kRealtime,e => .ok (.kept loop e,⟨{b with savedEvent := e},following loop .data⟩)

def stopEvent (b : EventBus σ) : EventBus σ :=
  let (b,now) := eventBusGetDatetime utcNow b
  {b with savedEvent := some {newOnSimulationStopEvent with timestamp := now}, isSimulationStop := false}

def dequeueStep (s : Caller σ) : Except Failure (Label × Caller σ) :=
  let b := s.bus
  match s.point with
  | .outside => .ok (.entered b.mode,{s with point := .check b.mode .data})
  | .check loop p => do
      let (σ,empty) ← pipes.isEmpty p b.pipes
      let reads := !empty && (p != .data || b.savedEvent.isNone)
      .ok (.found (.pipe p) empty,⟨{b with pipes := σ},if reads then .read loop p else following loop p⟩)
  | .read loop .data => do
      let (σ,e) ← pipes.read .data b.pipes
      keepData utcNow loop {b with pipes := σ} e
  | .read _ p => do
      let (σ,e) ← pipes.read p b.pipes
      .ok (.returned (.pipe p) e,⟨{b with pipes := σ},.outside⟩)
  | .checkSaved loop =>
      if b.savedEvent.isSome then
        let (b,e) := enqueueAttach b
        .ok (.returned .saved e,⟨b,.outside⟩)
      else .ok (.found .saved true,⟨b,if loop = .kSimulation then .checkStop else .rest loop⟩)
  | .checkStop =>
      if b.isSimulationStop then
        let (b,e) := enqueueAttach (stopEvent utcNow b)
        .ok (.returned .stop e,⟨b,.outside⟩)
      else .ok (.found .stop true,⟨b,.rest .kSimulation⟩)
  | .rest loop => .ok (.rested (idle b loop),⟨b,.check loop .data⟩)

variable {pipes utcNow} {b : EventBus σ} {loop : EventBusMode} {p : PipeName} {e : Option Event} {q : σ}

theorem getDatetimeKeeps (utcNow : Nat → Nat) (b : EventBus σ) :
    ∃ n, (eventBusGetDatetime utcNow b).1 = {b with utcCalls := n} := by
  unfold eventBusGetDatetime
  split
  · exact ⟨b.utcCalls,rfl⟩
  · exact ⟨b.utcCalls + 1,rfl⟩

theorem stopReturned (pipes : Pipes σ) (utcNow : Nat → Nat) (pending : b.isSimulationStop = true) :
    ∃ n, dequeueStep pipes utcNow ⟨b,.checkStop⟩ =
      .ok (.returned .stop (some {newOnSimulationStopEvent with timestamp := (eventBusGetDatetime utcNow b).2}),
        ⟨{b with utcCalls := n, savedEvent := none, isSimulationStop := false},.outside⟩) := by
  obtain ⟨n,looked⟩ := getDatetimeKeeps utcNow b
  refine ⟨n,?_⟩
  simp only [dequeueStep,pending,if_true,stopEvent,enqueueAttach,looked]

theorem pipeCheck {empty : Bool} (done : pipes.isEmpty p b.pipes = .ok (q,empty)) :
    dequeueStep pipes utcNow ⟨b,.check loop p⟩ = .ok (.found (.pipe p) empty,⟨{b with pipes := q},
      if !empty && (p != .data || b.savedEvent.isNone) then .read loop p else following loop p⟩) := by
  have entered : dequeueStep pipes utcNow ⟨b,.check loop p⟩ = (do
      let (q,empty) ← pipes.isEmpty p b.pipes
      .ok (.found (.pipe p) empty,⟨{b with pipes := q},
        if !empty && (p != .data || b.savedEvent.isNone) then .read loop p else following loop p⟩)) := rfl
  rw [entered,done]
  rfl

theorem dataRead (done : pipes.read .data b.pipes = .ok (q,e)) :
    dequeueStep pipes utcNow ⟨b,.read loop .data⟩ = keepData utcNow loop {b with pipes := q} e := by
  rw [dequeueStep,done]
  rfl

theorem pipeRead (data : p ≠ .data) (done : pipes.read p b.pipes = .ok (q,e)) :
    dequeueStep pipes utcNow ⟨b,.read loop p⟩ = .ok (.returned (.pipe p) e,⟨{b with pipes := q},.outside⟩) := by
  have entered : dequeueStep pipes utcNow ⟨b,.read loop p⟩ = (do
      let (q,e) ← pipes.read p b.pipes
      .ok (.returned (.pipe p) e,⟨{b with pipes := q},.outside⟩)) := by
    cases p with
    | data => exact absurd rfl data
    | _ => rfl
  rw [entered,done]
  rfl

inductive Dequeued (pipes : Pipes σ) (utcNow : Nat → Nat) (b : EventBus σ) :
    Point → Label → EventBus σ → Point → Prop where
  | enter : Dequeued pipes utcNow b .outside (.entered b.mode) b (.check b.mode .data)
  | check {loop : EventBusMode} {p : PipeName} {q : σ} {empty : Bool}
      (done : pipes.isEmpty p b.pipes = .ok (q,empty)) :
      Dequeued pipes utcNow b (.check loop p) (.found (.pipe p) empty) {b with pipes := q}
        (if !empty && (p != .data || b.savedEvent.isNone) then .read loop p else following loop p)
  | swallow {q : σ} {e : Event} (done : pipes.read .data b.pipes = .ok (q,some e)) (type : e.type = .kOnSimulatorStop) :
      Dequeued pipes utcNow b (.read .kSimulation .data) (.swallowed e)
        {b with pipes := q, isSimulationStop := true} (.check .kSimulation .data)
  | lookAhead {q : σ} {e : Event} (n : Nat) (done : pipes.read .data b.pipes = .ok (q,some e))
      (type : e.type ≠ .kOnSimulatorStop) :
      Dequeued pipes utcNow b (.read .kSimulation .data) (.kept .kSimulation (some e))
        {b with pipes := q, savedEvent := some e, utcCalls := n} (following .kSimulation .data)
  | keep {q : σ} {e : Option Event} (done : pipes.read .data b.pipes = .ok (q,e)) :
      Dequeued pipes utcNow b (.read .kRealtime .data) (.kept .kRealtime e)
        {b with pipes := q, savedEvent := e} (following .kRealtime .data)
  | read {loop : EventBusMode} {p : PipeName} {q : σ} {e : Option Event} (other : p ≠ .data)
      (done : pipes.read p b.pipes = .ok (q,e)) :
      Dequeued pipes utcNow b (.read loop p) (.returned (.pipe p) e) {b with pipes := q} .outside
  | saved {loop : EventBusMode} {e : Event} (held : b.savedEvent = some e) :
      Dequeued pipes utcNow b (.checkSaved loop) (.returned .saved (some e)) {b with savedEvent := none} .outside
  | unsaved {loop : EventBusMode} (held : b.savedEvent = none) :
      Dequeued pipes utcNow b (.checkSaved loop) (.found .saved true) b
        (if loop = .kSimulation then .checkStop else .rest loop)
  | stop (n : Nat) (pending : b.isSimulationStop = true) :
      Dequeued pipes utcNow b .checkStop
        (.returned .stop (some {newOnSimulationStopEvent with timestamp := (eventBusGetDatetime utcNow b).2}))
        {b with utcCalls := n, savedEvent := none, isSimulationStop := false} .outside
  | noStop (none : b.isSimulationStop = false) :
      Dequeued pipes utcNow b .checkStop (.found .stop true) b (.rest .kSimulation)
  | rest {loop : EventBusMode} : Dequeued pipes utcNow b (.rest loop) (.rested (idle b loop)) b (.check loop .data)

theorem dequeueCases {s s' : Caller σ} {l : Label} (done : dequeueStep pipes utcNow s = .ok (l,s')) :
    Dequeued pipes utcNow s.bus s.point l s'.bus s'.point := by
  obtain ⟨b,point⟩ := s
  cases point with
  | outside => cases done; exact .enter
  | check loop p =>
    obtain ⟨⟨q,empty⟩,asked,last⟩ := bindOk done
    cases last
    exact .check asked
  | read loop p =>
    by_cases data : p = .data
    · subst data
      obtain ⟨⟨q,e⟩,got,last⟩ := bindOk done
      cases loop with
      | kRealtime =>
        cases last
        exact .keep got
      | kSimulation =>
        unfold keepData at last
        cases e with
        | none => cases last
        | some e =>
          dsimp only at last
          split at last
          · rename_i type
            cases last
            exact .swallow got type
          · rename_i type
            obtain ⟨n,looked⟩ := getDatetimeKeeps utcNow {b with pipes := q}
            rw [looked] at last
            cases last
            exact .lookAhead n got type
    · cases got : pipes.read p b.pipes with
      | error f => cases p <;> first | exact absurd rfl data | (simp [dequeueStep,got] at done; cases done)
      | ok r =>
        rw [pipeRead data got] at done
        cases done
        exact .read data got
  | checkSaved loop =>
    cases held : b.savedEvent with
    | none =>
      simp only [dequeueStep,held] at done
      cases done
      exact .unsaved held
    | some e =>
      simp only [dequeueStep,held,enqueueAttach] at done
      cases done
      exact .saved held
  | checkStop =>
    cases pending : b.isSimulationStop with
    | false =>
      simp only [dequeueStep,pending] at done
      cases done
      exact .noStop pending
    | true =>
      obtain ⟨n,returned⟩ := stopReturned pipes utcNow pending
      rw [returned] at done
      cases done
      exact .stop n pending
  | rest loop => cases done; exact .rest

end Qtl.Bus
