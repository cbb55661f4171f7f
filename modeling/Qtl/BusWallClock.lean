import Qtl.BusStore

/-! Where the wall clock enters a simulation. Two runs of one schedule differ only in
what the calls of utc_now return. -/
namespace Qtl.BusWallClock
open Queue Pipe Bus

variable {σ : Type}

inductive Turn where
  | push (queue : Nat) (e : Event)
  | setDatetime (time : Nat)
  | getDatetime
  | dequeue

inductive Output where
  | event (e : Option Event)
  | datetime (time : Nat)
  deriving DecidableEq, Repr

section Run
variable (pipes : Pipes σ) (push : Nat → Event → σ → σ) (utcNow : Nat → Nat)

def output : Label → Option Output
  | .returned _ e => some (.event e)
  | _ => none

def turnStep (s : Caller σ) : Turn → Except Failure (Option Output × Caller σ)
  | .push q e => .ok (none,{s with bus := {s.bus with pipes := push q e s.bus.pipes}})
  | .setDatetime time => .ok (none,{s with bus := eventBusSetDatetime s.bus time})
  | .getDatetime =>
      let (b,time) := eventBusGetDatetime utcNow s.bus
      .ok (some (.datetime time),{s with bus := b})
  | .dequeue => (dequeueStep pipes utcNow s).map (fun r => (output r.1,r.2))

def outputs (s : Caller σ) : List Turn → List Output × Option Failure
  | [] => ([],none)
  | turn :: rest => match turnStep pipes push utcNow s turn with
    | .error f => ([],some f)
    | .ok (out,s) => (out.toList ++ (outputs s rest).1,(outputs s rest).2)

/-- The clock is asked for a result: event_bus_get_datetime is called, or a pass of the
simulation loop found everything empty while a stop is pending. -/
def asksClock (s : Caller σ) : Turn → Bool
  | .getDatetime => true
  | .dequeue => s.point == .checkStop && s.bus.isSimulationStop
  | _ => false

def clockless (s : Caller σ) : List Turn → Bool
  | [] => true
  | turn :: rest => !asksClock s turn && match turnStep pipes push utcNow s turn with
    | .error _ => true
    | .ok (_,s) => clockless s rest

end Run

variable {pipes : Pipes σ} {push : Nat → Event → σ → σ} {s s' : Caller σ} {turn : Turn} {turns : List Turn}

theorem getDatetimeBus (u v : Nat → Nat) (b : EventBus σ) :
    (eventBusGetDatetime u b).1 = (eventBusGetDatetime v b).1 := by
  unfold eventBusGetDatetime
  split <;> rfl

theorem keepDataSame (u v : Nat → Nat) (loop : EventBusMode) (b : EventBus σ) (e : Option Event) :
    keepData u loop b e = keepData v loop b e := by
  unfold keepData
  rw [getDatetimeBus u v]

theorem dequeueSame (u v : Nat → Nat) (blind : asksClock s .dequeue = false) :
    dequeueStep pipes u s = dequeueStep pipes v s := by
  obtain ⟨b,point⟩ := s
  cases point with
  | read loop p =>
    cases p with
    | data => simp only [dequeueStep,keepDataSame u v]
    | _ => rfl
  | checkStop =>
    have off : b.isSimulationStop = false := by simpa [asksClock] using blind
    simp [dequeueStep,off]
  | _ => rfl

theorem turnSame (pipes : Pipes σ) (push : Nat → Event → σ → σ) (u v : Nat → Nat) (blind : asksClock s turn = false) :
    turnStep pipes push u s turn = turnStep pipes push v s turn := by
  cases turn with
  | getDatetime => cases blind
  | dequeue => simp only [turnStep,dequeueSame u v blind]
  | _ => rfl

theorem turnMode {utcNow : Nat → Nat} {out : Option Output}
    (done : turnStep pipes push utcNow s turn = .ok (out,s')) : s'.bus.mode = s.bus.mode := by
  cases turn with
  | push q e => cases done; rfl
  | setDatetime time =>
    cases done
    simp only [eventBusSetDatetime]
    split_ifs <;> rfl
  | getDatetime =>
    obtain ⟨n,same⟩ := getDatetimeKeeps utcNow s.bus
    simp only [turnStep,same] at done
    cases done
    rfl
  | dequeue =>
    obtain ⟨⟨l,b',point'⟩,ran,same⟩ := mapOk done
    cases same
    have all := dequeueCases ran
    obtain ⟨b,point⟩ := s
    dsimp only at all
    cases all <;> rfl

theorem clockShown (pipes : Pipes σ) (push : Nat → Event → σ → σ) (simulation : s.bus.mode = .kSimulation)
    (asks : asksClock s turn = true)
    (utcNow : Nat → Nat) : ∃ out s', turnStep pipes push utcNow s turn = .ok (some out,s') ∧
      (out = .datetime (utcNow s.bus.utcCalls) ∨
        out = .event (some {newOnSimulationStopEvent with timestamp := utcNow s.bus.utcCalls})) := by
  have time : (eventBusGetDatetime utcNow s.bus).2 = utcNow s.bus.utcCalls := by simp [eventBusGetDatetime,simulation]
  cases turn with
  | push => cases asks
  | setDatetime => cases asks
  | getDatetime => exact ⟨_,_,rfl,.inl (congrArg _ time)⟩
  | dequeue =>
    obtain ⟨b,point⟩ := s
    obtain ⟨rfl,pending⟩ : point = .checkStop ∧ b.isSimulationStop = true := by simpa [asksClock] using asks
    obtain ⟨n,done⟩ := stopReturned pipes utcNow pending
    have time' : (eventBusGetDatetime utcNow b).2 = utcNow b.utcCalls := time
    rw [time'] at done
    exact ⟨_,_,by rw [turnStep,done]; rfl,.inr rfl⟩

theorem outputsTold (simulation : s.bus.mode = .kSimulation) (asks : asksClock s turn = true) :
    outputs pipes push (fun _ => 0) s (turn :: turns) ≠ outputs pipes push (fun _ => 1) s (turn :: turns) := by
  obtain ⟨out,s₁,zero,shown⟩ := clockShown pipes push simulation asks (fun _ => 0)
  obtain ⟨out',s₂,one,shown'⟩ := clockShown pipes push simulation asks (fun _ => 1)
  intro same
  simp only [outputs,zero,one,Option.toList_some,List.singleton_append,Prod.mk.injEq,List.cons.injEq] at same
  obtain ⟨⟨front,_⟩,_⟩ := same
  rcases shown with rfl | rfl <;> rcases shown' with rfl | rfl <;> simp at front

theorem simulationClockless (pipes : Pipes σ) (push : Nat → Event → σ → σ) (utcNow : Nat → Nat) (turns : List Turn)
    (simulation : s.bus.mode = .kSimulation) :
    (∀ u v, outputs pipes push u s turns = outputs pipes push v s turns) ↔
      clockless pipes push utcNow s turns = true := by
  induction turns generalizing s with
  | nil => exact ⟨fun _ => rfl,fun _ _ _ => rfl⟩
  | cons turn rest ih =>
    cases asks : asksClock s turn with
    | true =>
      rw [clockless,asks]
      exact ⟨fun same => absurd (same (fun _ => 0) (fun _ => 1)) (outputsTold simulation asks),nofun⟩
    | false =>
      have one (u : Nat → Nat) := turnSame pipes push u utcNow asks
      simp only [outputs,one,clockless,asks,Bool.not_false,Bool.true_and]
      cases ran : turnStep pipes push utcNow s turn with
      | error f => simp
      | ok r =>
        have next := ih ((turnMode ran).trans simulation)
        dsimp only
        rw [← next]
        refine forall₂_congr (fun u v => ?_)
        rw [Prod.ext_iff,Prod.ext_iff]
        simp

section Example
open EventTree BusStore

def busPipes : Pipes Store := storePipes (fun _ => false) (fun _ _ => none)

def busPush (q : Nat) (e : Event) (s : Store) : Store := (pushTo s q e).1

def oneEvent (e : Event) : Caller Store :=
  ⟨{newBus (fun _ => lone e) .kSimulation 0 0 with
    pipes := ⟨fun _ => lone e,fun p =>
      if p = .data then {newPipe with nodes := [⟨0,e.timestamp,none,none,none,none,some 0⟩], root := some 0} else newPipe⟩},
    .outside⟩

def threeCalls : List Turn := .setDatetime 3 :: List.replicate 7 .dequeue ++ [.push 0 ⟨6,.kTrade,some 1⟩] ++
  List.replicate 7 .dequeue

theorem simulationClocklessOne :
    (outputs busPipes busPush (fun _ => 0) (oneEvent ⟨5,.kTrade,some 0⟩) threeCalls).1 =
      [.event (some ⟨5,.kTrade,some 0⟩),.event (some ⟨6,.kTrade,some 1⟩)] ∧
    ∀ u v, outputs busPipes busPush u (oneEvent ⟨5,.kTrade,some 0⟩) threeCalls =
      outputs busPipes busPush v (oneEvent ⟨5,.kTrade,some 0⟩) threeCalls :=
  ⟨by rfl,(simulationClockless busPipes busPush (fun _ => 0) threeCalls rfl).mpr rfl⟩

theorem stopStamped :
    outputs busPipes busPush (fun _ => 0) (oneEvent ⟨5,.kOnSimulatorStop,some 0⟩) (List.replicate 9 .dequeue) ≠
      outputs busPipes busPush (fun _ => 1) (oneEvent ⟨5,.kOnSimulatorStop,some 0⟩) (List.replicate 9 .dequeue) := by
  decide

end Example

end Qtl.BusWallClock
