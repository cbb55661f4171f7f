import Qtl.BusReplay

/-! A bus that stays in simulation mode: the data events its client is given are the events
of the data pipe without the stops of the simulation, so that they do not depend on when
the threads push. -/
namespace Qtl.BusSimulation
open Queue EventTreeShape EventTreeRun EventTreeLocal Pipe Bus PipeTracked BusSystem BusPart BusReplay
open EventTree (TreeNode)
open BusStore (Store storePipes pipeWorld)
open BusRealtime (FreshPipe Registered registeredClaimed)
open BusRefines (heard)
open BusSchedule (dataReads lookedAhead returnedFrom stopsSimulation)
open BusServes (pushedTo savedBalance)
open Base.Trace (Run)

variable {alloc alloc' : PipeName → Nat → Option TreeNode} {utcNow utcNow' : Nat → Nat} {b : EventBus Store}
variable {c c' c₁ c₂ : Caller Store} {m : BusSystem.Moment} {before trace trace' : List BusSystem.Moment}
variable {t : PipeName → Shape} {stream : Nat → List Event} {l : Bus.Label}

def loopOf : Point → Option EventBusMode
  | .check loop _ => some loop
  | .read loop _ => some loop
  | .checkSaved loop => some loop
  | .rest loop => some loop
  | _ => none

structure Simulates (c : Caller Store) : Prop where
  mode : c.bus.mode = .kSimulation
  loop : ∀ loop, loopOf c.point = some loop → loop = .kSimulation

theorem followingLoop (loop : EventBusMode) (p : PipeName) : loopOf (following loop p) = some loop := by
  cases p <;> rfl

def ReadThere (m : BusSystem.Moment) : Prop := dataReads (heard m) = (handedBy .data [m]).map (.kSimulation,·)

theorem dequeueSimulates (simulates : Simulates c)
    (done : dequeueStep (storePipes noAsserts alloc) utcNow c = .ok (l,c')) :
    Simulates c' ∧ ∀ taken, ReadThere (.call l taken) := by
  obtain ⟨mode,loop⟩ := simulates
  have cases' := dequeueCases done
  obtain ⟨b,point⟩ := c
  obtain ⟨b',point'⟩ := c'
  dsimp only at cases' mode loop
  cases cases' with
  | enter => exact ⟨⟨mode,fun _ same => (Option.some.inj same).symm.trans mode⟩,fun _ => rfl⟩
  | @check loop' p q empty asked =>
    refine ⟨⟨mode,fun l same => loop l ?_⟩,fun _ => rfl⟩
    rw [← same]
    dsimp only
    split
    · rfl
    · exact (followingLoop ..).symm
  | swallow => exact ⟨⟨mode,fun _ same => (Option.some.inj same).symm⟩,fun _ => rfl⟩
  | lookAhead => exact ⟨⟨mode,fun _ same => (Option.some.inj same).symm⟩,fun _ => rfl⟩
  | keep => exact absurd (loop _ rfl) (by simp)
  | @read loop' p q e other =>
    refine ⟨⟨mode,by simp [loopOf]⟩,fun _ => ?_⟩
    simp [ReadThere,dataReads,heard,handedBy,handed,other]
  | saved => exact ⟨⟨mode,by simp [loopOf]⟩,fun _ => rfl⟩
  | @unsaved loop' none =>
    cases loop loop' rfl
    exact ⟨⟨mode,by simp [loopOf]⟩,fun _ => rfl⟩
  | stop => exact ⟨⟨mode,by simp [loopOf]⟩,fun _ => rfl⟩
  | noStop => exact ⟨⟨mode,fun _ same => (Option.some.inj same).symm⟩,fun _ => rfl⟩
  | rest => exact ⟨⟨mode,loop⟩,fun _ => rfl⟩

theorem stepSimulates (simulates : Simulates c) (step : BusSystem.Step alloc utcNow c m c')
    (still : ∀ mode, m ≠ .mode mode) : Simulates c' ∧ ReadThere m := by
  obtain ⟨turn,_,done⟩ := step
  cases turn with
  | addQueue owner q pipe =>
    obtain ⟨⟨b,_⟩,added,same⟩ := bindOk done
    cases same
    obtain ⟨w,_,put⟩ := bindOk added
    cases put
    exact ⟨⟨simulates.mode,simulates.loop⟩,rfl⟩
  | push q e =>
    cases done
    exact ⟨⟨simulates.mode,simulates.loop⟩,rfl⟩
  | setMode mode =>
    cases done
    exact absurd rfl (still mode)
  | dequeue =>
    obtain ⟨⟨l,c₁⟩,ran,same⟩ := bindOk done
    cases same
    obtain ⟨simulates',there⟩ := dequeueSimulates simulates ran
    exact ⟨simulates',there _⟩

theorem runSimulates (simulates : Simulates c) (run : Run (BusSystem.Step alloc utcNow) c trace c')
    (still : ∀ mode, .mode mode ∉ trace) :
    Simulates c' ∧ dataReads (trace.flatMap heard) = (handedBy .data trace).map (.kSimulation,·) := by
  induction run with
  | nil => exact ⟨simulates,rfl⟩
  | snoc earlier last ih =>
    obtain ⟨simulates',reads⟩ := ih (fun mode mem => still mode (List.mem_append_left _ mem))
    obtain ⟨simulates'',there⟩ := stepSimulates simulates' last (fun mode same => still mode (by simp [same]))
    refine ⟨simulates'',?_⟩
    rw [List.flatMap_append,List.flatMap_singleton,handedSnoc,List.map_append,← reads,← there]
    exact List.flatMap_append

def clientData (trace : List BusSystem.Moment) (c : Caller Store) : List Event :=
  returnedFrom .saved (trace.flatMap heard) ++ c.bus.savedEvent.toList

def simulated (events : List Event) : List Event := events.filter (fun e => e.type ≠ .kOnSimulatorStop)

theorem clientEvents (clean : ∀ p, CleanNodes (alloc p)) (sound : BusSystem.Sound c t (fun _ => false))
    (idle : c.point = .outside) (simulation : c.bus.mode = .kSimulation)
    (run : Run (BusSystem.Step alloc utcNow) c trace c') (still : ∀ mode, .mode mode ∉ trace) :
    clientData trace c' = c.bus.savedEvent.toList ++ simulated (handedBy .data trace) := by
  have simulates : Simulates c := ⟨simulation,by simp [idle,loopOf]⟩
  obtain ⟨b,point⟩ := c
  cases idle
  obtain ⟨_,reads⟩ := runSimulates simulates run still
  rw [clientData,← savedBalance clean sound run,lookedAhead,reads,List.filter_map,List.map_map,simulated]
  simp [stopsSimulation,Function.comp_def,beq_eq_decide]

end Qtl.BusSimulation
