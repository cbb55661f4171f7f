import Qtl.Base.Simulation
import Qtl.BusSchedule
import Qtl.BusSystem

/-! The bus over event trees as the scheduler of first-in-first-out sources. An event
arrives at a source when its pipe is found to have one; which event it is is settled
when it is read. -/
namespace Qtl.BusRefines
open Queue EventTree EventTreeTaken Pipe Bus PipeTracked BusSystem
open EventTreeRun (noAsserts upcoming)
open BusStore (Store storePipes)
open BusOwnership (drained)
open BusRealtime (FreshPipe)
open BusSchedule (Sources sources)
open Base (ChainTree)
open Base.Trace (Run)
open Base.Simulation

section Over
variable {σ τ : Type} {pipes : Pipes σ} {pipes' : Pipes τ} {utcNow : Nat → Nat} {c c' : Caller σ} {q q' : τ}
variable {l : Bus.Label}

def withPipes (b : EventBus σ) (q : τ) : EventBus τ :=
  ⟨q,b.mode,b.idleMode,b.localClockDatetime,b.exchangeClockDatetime,b.isSimulationStop,b.savedEvent,b.utcCalls⟩

def callerOver (c : Caller σ) (q : τ) : Caller τ := ⟨withPipes c.bus q,c.point⟩

def Answers (pipes : Pipes σ) (pipes' : Pipes τ) (point : Point) (s s' : σ) (q q' : τ) : Prop := match point with
  | .check _ p => ∀ empty, pipes.isEmpty p s = .ok (s',empty) → pipes'.isEmpty p q = .ok (q',empty)
  | .read _ p => ∀ e, pipes.read p s = .ok (s',e) → pipes'.read p q = .ok (q',e)
  | _ => q' = q

theorem datetimeOver (utcNow : Nat → Nat) (b : EventBus σ) (q : τ) : eventBusGetDatetime utcNow (withPipes b q) =
    (withPipes (eventBusGetDatetime utcNow b).1 q,(eventBusGetDatetime utcNow b).2) := by
  obtain ⟨_,mode,_⟩ := b
  cases mode <;> rfl

theorem keepOver {loop : EventBusMode} {b : EventBus σ} {e : Option Event}
    (done : keepData utcNow loop b e = .ok (l,c')) :
    keepData utcNow loop (withPipes b q) e = .ok (l,callerOver c' q) := by
  unfold keepData at done ⊢
  cases loop with
  | kRealtime => cases done; rfl
  | kSimulation =>
    cases e with
    | none => cases done
    | some e =>
      dsimp only at done ⊢
      split at done
      · rename_i type
        cases done
        rw [if_pos type]
        rfl
      · rename_i type
        cases done
        rw [if_neg type,datetimeOver]
        rfl

theorem dequeueOver (done : dequeueStep pipes utcNow c = .ok (l,c'))
    (answers : Answers pipes pipes' c.point c.bus.pipes c'.bus.pipes q q') :
    dequeueStep pipes' utcNow (callerOver c q) = .ok (l,callerOver c' q') := by
  obtain ⟨b,point⟩ := c
  cases point with
  | outside =>
    cases answers
    cases done
    rfl
  | check loop p =>
    obtain ⟨⟨s,empty⟩,asked,last⟩ := bindOk done
    cases last
    exact pipeCheck (answers empty asked)
  | read loop p =>
    by_cases data : p = .data
    · subst data
      obtain ⟨⟨s,e⟩,got,last⟩ := bindOk done
      have kept : c'.bus.pipes = s := by
        have all := dequeueCases done
        obtain ⟨b',point'⟩ := c'
        cases all with
        | swallow got' | lookAhead _ got' | keep got' => cases got.symm.trans got'; rfl
        | read other => exact absurd rfl other
      subst kept
      exact (dataRead (answers e got)).trans (keepOver last)
    · have all := dequeueCases done
      obtain ⟨b',point'⟩ := c'
      cases all with
      | read _ got => exact pipeRead data (answers _ got)
      | swallow | lookAhead | keep => exact absurd rfl data
  | checkSaved loop =>
    cases answers
    cases held : b.savedEvent with
    | some e =>
      simp only [dequeueStep,held,enqueueAttach] at done
      cases done
      simp only [dequeueStep,callerOver,show (withPipes b q).savedEvent = some e from held,enqueueAttach]
      rfl
    | none =>
      simp only [dequeueStep,held] at done
      cases done
      simp only [dequeueStep,callerOver,show (withPipes b q).savedEvent = none from held]
      rfl
  | checkStop =>
    cases answers
    cases pending : b.isSimulationStop with
    | true =>
      simp only [dequeueStep,pending,if_true,stopEvent,enqueueAttach] at done
      cases done
      simp only [dequeueStep,callerOver,show (withPipes b q).isSimulationStop = true from pending,if_true,stopEvent,
        enqueueAttach,datetimeOver]
      rfl
    | false =>
      simp only [dequeueStep,pending] at done
      cases done
      simp only [dequeueStep,callerOver,show (withPipes b q).isSimulationStop = false from pending]
      rfl
  | rest loop =>
    cases answers
    cases done
    cases loop <;> rfl

end Over

variable {alloc : PipeName → Nat → Option TreeNode} {utcNow : Nat → Nat} {b : EventBus Store} {c c' : Caller Store}
variable {found found' : PipeName → Bool} {e : PipeName → Event} {p : PipeName} {l : Bus.Label} {m : Moment}
variable {t : PipeName → EventTreeShape.Shape} {trace : List Moment} {schedule : List BusSchedule.Moment}
  {states : Set (Caller Sources)}

section Refines

def waiting (found : PipeName → Bool) (e : PipeName → Event) : Sources := fun p => if found p then [e p] else []

def heard : Moment → List BusSchedule.Moment
  | .call l _ => [.call l]
  | .mode mode => [.mode mode]
  | _ => []

def quiet : BusSchedule.Moment → List BusSchedule.Moment
  | .arrived _ _ => []
  | .mode mode => [.mode mode]
  | .call l => [.call l]

def open' (c : Caller Store) (found : PipeName → Bool) : Set (Caller Sources) :=
  {s | ∃ e, s = callerOver c (waiting found e)}

def Stands (c : Caller Store) (states : Set (Caller Sources)) : Prop :=
  ∃ t found, Sound c t found ∧ states = open' c found

theorem waitingUpdate (found : PipeName → Bool) (e : PipeName → Event) (p : PipeName) (due : Bool) :
    waiting (Function.update found p due) e = Function.update (waiting found e) p (if due then [e p] else []) := by
  funext p'
  by_cases same : p' = p
  · subst same
    simp only [waiting,Function.update_self]
  · simp only [waiting,Function.update_of_ne same]

theorem waitingOther (found : PipeName → Bool) (e : PipeName → Event) (p : PipeName) (x : Event) (q : List Event) :
    Function.update (waiting found (Function.update e p x)) p q = Function.update (waiting found e) p q := by
  funext p'
  by_cases same : p' = p
  · subst same
    simp only [Function.update_self]
  · simp only [waiting,Function.update_of_ne same]

theorem callFollows (done : dequeueStep (storePipes noAsserts alloc) utcNow c = .ok (l,c'))
    (each : ∀ e, ∃ e' arrivals q,
      Run (BusSchedule.Step utcNow) (callerOver c (waiting found e')) arrivals (callerOver c q) ∧
      arrivals.flatMap quiet = [] ∧
      Answers (storePipes noAsserts alloc) sources c.point c.bus.pipes c'.bus.pipes q (waiting found' e)) :
    Follows (BusSchedule.Step utcNow) quiet [.call l] (open' c found) (open' c' found') := by
  rintro s' ⟨e,rfl⟩
  obtain ⟨e',arrivals,q,run,silent,answers⟩ := each e
  have last : BusSchedule.Step utcNow (callerOver c q) (.call l) (callerOver c' (waiting found' e)) :=
    ⟨.dequeue,by rw [BusSchedule.turnStep,dequeueOver done answers]; rfl⟩
  refine ⟨_,⟨e',rfl⟩,arrivals ++ [.call l],.snoc run last,?_⟩
  rw [List.flatMap_append,silent]
  rfl

theorem looksFollow (done : dequeueStep (storePipes noAsserts alloc) utcNow c = .ok (l,c'))
    (looks : Looks alloc c t found found') :
    Follows (BusSchedule.Step utcNow) quiet [.call l] (open' c found) (open' c' found') := by
  refine callFollows done (fun e => ?_)
  obtain ⟨bus,point⟩ := c
  cases looks with
  | @checked loop p store empty here asked again =>
    cases here
    cases due : found p with
    | true =>
      cases again due
      refine ⟨e,[],_,.nil,rfl,fun empty asked' => ?_⟩
      cases asked.symm.trans asked'
      rw [waitingUpdate,Function.update_eq_self_iff.mpr (by simp [waiting,due])]
      simp [sources,waiting,due]
    | false =>
      cases empty with
      | true =>
        refine ⟨e,[],_,.nil,rfl,fun empty asked' => ?_⟩
        cases asked.symm.trans asked'
        rw [waitingUpdate,Function.update_eq_self_iff.mpr (by simp [waiting,due])]
        simp [sources,waiting,due]
      | false =>
        refine ⟨e,[.arrived p (e p)],Function.update (waiting found e) p (waiting found e p ++ [e p]),
          Base.Trace.runSingle ⟨.arrive p (e p),rfl⟩,rfl,fun empty asked' => ?_⟩
        cases asked.symm.trans asked'
        rw [waitingUpdate]
        simp [sources,waiting,due]
  | @read loop p store x q here due got =>
    cases here
    refine ⟨Function.update e p x,[],_,.nil,rfl,fun x' got' => ?_⟩
    cases got.symm.trans got'
    have front : waiting found (Function.update e p x) p = [x] := by simp [waiting,due]
    rw [waitingUpdate,if_neg Bool.false_ne_true,BusSchedule.sourcesRead front,waitingOther]
  | neither checks reads =>
    refine ⟨e,[],_,.nil,rfl,?_⟩
    cases point with
    | check loop p => exact absurd rfl (checks loop p)
    | read loop p => exact absurd rfl (reads loop p)
    | _ => rfl

theorem stepFollows (clean : ∀ p, CleanNodes (alloc p)) (stands : Stands c states) (step : Step alloc utcNow c m c') :
    ∃ states', Stands c' states' ∧ Follows (BusSchedule.Step utcNow) quiet (heard m) states states' := by
  obtain ⟨t,found,sound,rfl⟩ := stands
  obtain ⟨turn,allowed,done⟩ := step
  cases turn with
  | addQueue owner q pipe =>
    obtain ⟨store,t',added,sound',_⟩ := addSound clean sound allowed
    obtain ⟨r,added',same⟩ := bindOk done
    cases added.symm.trans added'
    cases same
    exact ⟨_,⟨t',found,sound',rfl⟩,followsRefl (fun _ => id)⟩
  | push q e =>
    cases done
    exact ⟨_,⟨t,found,pushSound sound q e,rfl⟩,followsRefl (fun _ => id)⟩
  | setMode mode =>
    cases done
    refine ⟨_,⟨t,found,⟨sound.store,sound.ready,sound.reads⟩,rfl⟩,?_⟩
    rintro s ⟨e,rfl⟩
    exact ⟨_,⟨e,rfl⟩,[.mode mode],Base.Trace.runSingle ⟨.setMode mode,rfl⟩,rfl⟩
  | dequeue =>
    obtain ⟨l,c'',t',found',ran,sound',_,looks⟩ := dequeueSound clean utcNow sound
    obtain ⟨r,ran',same⟩ := bindOk done
    cases ran.symm.trans ran'
    cases same
    exact ⟨_,⟨t',found',sound',rfl⟩,looksFollow ran looks⟩

theorem standsFrom (clean : ∀ p, CleanNodes (alloc p)) (sound : Sound ⟨b,.outside⟩ t (fun _ => false))
    (run : Run (Step alloc utcNow) ⟨b,.outside⟩ trace c) : ∃ states, Stands c states ∧
      Reached (BusSchedule.Step utcNow) quiet ⟨withPipes b (fun _ => []),.outside⟩ (trace.flatMap heard) states := by
  refine runSimulates ⟨_,_,sound,rfl⟩ ?_
    (fun s m s' states stands step => stepFollows clean stands step) run
  rintro s ⟨e,rfl⟩
  rfl

theorem standsRun (clean : ∀ p, CleanNodes (alloc p)) (fresh : ∀ p, FreshPipe (b.pipes.pipes p))
    (run : Run (Step alloc utcNow) ⟨b,.outside⟩ trace c) : ∃ states, Stands c states ∧
      Reached (BusSchedule.Step utcNow) quiet ⟨withPipes b (fun _ => []),.outside⟩ (trace.flatMap heard) states :=
  standsFrom clean (freshSound b fresh) run

theorem someState (stands : Stands c states) : ∃ left, callerOver c left ∈ states := by
  obtain ⟨t,found,_,rfl⟩ := stands
  exact ⟨_,fun _ => newOnSimulationStopEvent,rfl⟩

/-- Every run of the bus is one of the scheduler with the same accesses and answers, and
nothing that is allowed fails. -/
theorem busRefines (clean : ∀ p, CleanNodes (alloc p)) (fresh : ∀ p, FreshPipe (b.pipes.pipes p))
    (run : Run (Step alloc utcNow) ⟨b,.outside⟩ trace c) :
    (∃ schedule left, Run (BusSchedule.Step utcNow) ⟨withPipes b (fun _ => []),.outside⟩ schedule (callerOver c left) ∧
      schedule.flatMap quiet = trace.flatMap heard) ∧
    ∀ turn, Allowed c turn → ∃ r, turnStep alloc utcNow c turn = .ok r := by
  obtain ⟨states,stands,reached⟩ := standsRun clean fresh run
  obtain ⟨left,mem⟩ := someState stands
  obtain ⟨schedule,run',same⟩ := reached _ mem
  refine ⟨⟨schedule,left,run',same⟩,fun turn allowed => ?_⟩
  obtain ⟨t,found,sound,_⟩ := stands
  cases turn with
  | addQueue owner q pipe =>
    obtain ⟨store,t',added,_⟩ := addSound clean sound allowed
    exact ⟨_,okBind added⟩
  | push q e => exact ⟨_,rfl⟩
  | setMode mode => exact ⟨_,rfl⟩
  | dequeue =>
    obtain ⟨l,c',t',found',ran,_⟩ := dequeueSound clean utcNow sound
    exact ⟨_,okBind ran⟩

theorem busRefinesOne : ∃ (schedule : List BusSchedule.Moment) (left : Sources) (c : Caller Store),
    c.point = .outside ∧
      Run (BusSchedule.Step BusRealtime.clock) ⟨withPipes BusRealtime.busOf (fun _ => []),.outside⟩ schedule
        (callerOver c left) ∧
      schedule.flatMap quiet = served.flatMap heard := by
  obtain ⟨c,run,idle⟩ := servedRun
  obtain ⟨⟨schedule,left,run',same⟩,_⟩ := busRefines BusRealtime.mallocClean (fun _ => BusRealtime.newPipeFresh) run
  exact ⟨schedule,left,c,idle,run',same⟩

end Refines

end Qtl.BusRefines
