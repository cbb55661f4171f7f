import Qtl.Bus

/-! A bus over pipes that are event trees with rings of pending queues. All pipes read
the same queues. -/
namespace Qtl.BusStore
open Queue EventTree Spsc Pipe Bus

structure PipeState where
  nodes : List TreeNode
  root : Option Nat
  last : Option Nat
  pendingAdd : SpscQueue Nat
  pendingOk : Ok pendingAdd
  storage : Bool

structure Store where
  queues : Nat → EventQueue
  pipes : PipeName → PipeState

def pipeWorld (s : Store) (p : PipeName) : PipeWorld :=
  ⟨⟨(s.pipes p).nodes,s.queues,(s.pipes p).root,(s.pipes p).last⟩,
    (s.pipes p).pendingAdd,(s.pipes p).pendingOk,(s.pipes p).storage⟩

def stateOf (w : PipeWorld) : PipeState := ⟨w.nodes,w.root,w.last,w.pendingAdd,w.pendingOk,w.storage⟩

def putPipe (s : Store) (p : PipeName) (w : PipeWorld) : Store := ⟨w.queues,Function.update s.pipes p (stateOf w)⟩

def onPipe {α : Type} (f : PipeWorld → Except Failure (PipeWorld × α)) (p : PipeName) (s : Store) :
    Except Failure (Store × α) := do
  let (w,a) ← f (pipeWorld s p)
  .ok (putPipe s p w,a)

def newPipe : PipeState := ⟨[],none,none,⟨1024,fun _ => 0,0,0⟩,⟨by simp,by simp [uintRange],by simp,by simp⟩,true⟩

def newBus (queues : Nat → EventQueue) (mode : EventBusMode) (localClock exchangeClock : Nat) : EventBus Store :=
  ⟨⟨queues,fun _ => newPipe⟩,mode,.kIdleWait,localClock,exchangeClock,false,none,0⟩

inductive EventBusPipe where | kDataPipe | kExecutionPipe | kServicePipe | kHistoricalPipe
  deriving DecidableEq, Repr

def EventBusPipe.name : EventBusPipe → PipeName
  | .kDataPipe => .data
  | .kExecutionPipe => .execution
  | .kServicePipe => .service
  | .kHistoricalPipe => .historical

inductive Turn where
  | addQueue (owner : Bool) (queue : Nat) (pipe : EventBusPipe)
  | push (queue : Nat) (e : Event)
  | dequeue
  | clear

inductive Answer where
  | added (ret : Bool)
  | pushed (ret : Bool)
  | event (e : Option Event)
  | cleared
  deriving DecidableEq, Repr

variable (asserts : Assertion → Bool) (alloc : PipeName → Nat → Option TreeNode)

def storePipes : Pipes Store where
  isEmpty p := onPipe (eventPipeIsEmpty asserts (alloc p)) p
  read p := onPipe (eventPipeRead asserts (alloc p)) p

-- `owner`: the calling thread is the one that made the pipe.
def eventBusAddQueue (owner : Bool) (b : EventBus Store) (q : Nat) (pipe : EventBusPipe) :
    Except Failure (EventBus Store × Bool) := do
  let w ← eventPipeAdd asserts (alloc pipe.name) owner (pipeWorld b.pipes pipe.name) q
  .ok ({b with pipes := putPipe b.pipes pipe.name w},true)

def pushTo (s : Store) (q : Nat) (e : Event) : Store × Bool :=
  let pushed := eventQueuePush (s.queues q) e
  ({s with queues := Function.update s.queues q pushed.queue},pushed.ret)

def clearPipe (p : PipeName) (s : Store) : Except Failure Store := do
  let w ← eventPipeClear (pipeWorld s p)
  .ok (putPipe s p w)

def freePipe (p : PipeName) (s : Store) : Except Failure Store := do
  let w ← eventPipeFree (pipeWorld s p)
  .ok (putPipe s p w)

-- What the free of saved_event does to the event is not part of the bus.
def eventBusClear (b : EventBus Store) : Except Failure (EventBus Store) := do
  let s ← clearPipe .service b.pipes
  let s ← clearPipe .data s
  let s ← clearPipe .execution s
  let s ← clearPipe .historical s
  .ok {b with pipes := s, savedEvent := none, isSimulationStop := false}

def eventBusFree (b : EventBus Store) : Except Failure Unit := do
  let s ← freePipe .command b.pipes
  let s ← freePipe .data s
  let s ← freePipe .execution s
  let s ← freePipe .service s
  let _ ← freePipe .historical s
  .ok ()

section Calls
variable (utcNow : Nat → Nat)

def answer : Label → Option Answer
  | .returned _ e => some (.event e)
  | _ => none

-- The owner's other calls are made outside event_bus_dequeue; meanwhile it makes none.
def turnStep (s : Caller Store) : Turn → Except Failure (Option Answer × Caller Store)
  | .addQueue owner q pipe =>
      if owner = true ∧ s.point ≠ .outside then .ok (none,s)
      else do
        let (b,ret) ← eventBusAddQueue asserts alloc owner s.bus q pipe
        .ok (some (.added ret),{s with bus := b})
  | .push q e =>
      let (store,ret) := pushTo s.bus.pipes q e
      .ok (some (.pushed ret),{s with bus := {s.bus with pipes := store}})
  | .dequeue => (dequeueStep (storePipes asserts alloc) utcNow s).map (fun r => (answer r.1,r.2))
  | .clear =>
      if s.point ≠ .outside then .ok (none,s)
      else do
        let b ← eventBusClear s.bus
        .ok (some .cleared,{s with bus := b})

end Calls

section Pipes
variable {s s' : Store} {p p' : PipeName} {w : PipeWorld}

theorem pipeWorldPut : pipeWorld (putPipe s p w) p = w := by
  simp only [pipeWorld,putPipe,stateOf,Function.update_self]

theorem putPipeOther (other : p' ≠ p) : (putPipe s p w).pipes p' = s.pipes p' := Function.update_of_ne other ..

end Pipes

end Qtl.BusStore
