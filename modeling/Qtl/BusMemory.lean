import Qtl.BusStore

/-! What a new bus does with the memory it was given. event_bus_new and event_pipe_new
leave the members below as malloc handed them out; two runs of one sequence of calls
differ in nothing else. -/
namespace Qtl.BusMemory
open Queue EventTree Spsc Pipe Bus BusStore

/-- The members without a value of their own after event_bus_new. -/
structure Memory where
  localClock : Fin (2^64)
  exchangeClock : Fin (2^64)
  isSimulationStop : Bool
  savedEvent : Option Event
  localClockQueue : Option Nat
  exchangeClockQueue : Option Nat
  root : PipeName → Option Nat
  last : PipeName → Option Nat
  records : PipeName → Nat → Nat

structure Calling where
  caller : Caller Store
  localClockQueue : Option Nat
  exchangeClockQueue : Option Nat

def pipeNew (queues : Nat → EventQueue) (m : Memory) (p : PipeName) : PipeState :=
  stateOf (eventPipeNew ⟨[],queues,m.root p,m.last p⟩ (m.records p))

def eventBusNew (queues : Nat → EventQueue) (m : Memory) : EventBus Store :=
  ⟨⟨queues,pipeNew queues m⟩,.kSimulation,.kIdleWait,m.localClock,m.exchangeClock,m.isSimulationStop,
    m.savedEvent,0⟩

def begin (queues : Nat → EventQueue) (m : Memory) : Calling :=
  ⟨⟨eventBusNew queues m,.outside⟩,m.localClockQueue,m.exchangeClockQueue⟩

inductive Turn where
  | setMode (mode : EventBusMode)
  | addQueue (queue : Nat) (pipe : EventBusPipe)
  | setDatetime (time : Nat)
  | setExchangeDatetime (time : Nat)
  | dequeue

inductive Adding where | emptyQueue | noMemory | firstNode | rebalance
  deriving DecidableEq, Repr

inductive Setting where | notSimulation | outOfOrder | stored
  deriving DecidableEq, Repr

inductive Shown where
  | mode
  | added (branch : Adding) (ret : Bool)
  | localTime (branch : Setting)
  | exchangeTime (branch : Setting)
  | access (clocksEmpty : Option (Bool × Bool)) (label : Label)
  | busy
  deriving DecidableEq, Repr

def addBranch (s : World) (memory : Option TreeNode) (queue : Nat) : Adding :=
  if eventQueueIsEmpty (s.queues queue) then .emptyQueue
  else if memory.isNone then .noMemory
  else if s.root.isNone then .firstNode
  else .rebalance

def setBranch (b : EventBus Store) (time : Nat) : Setting :=
  if b.mode ≠ .kSimulation then .notSimulation
  else if time < b.localClockDatetime then .outOfOrder
  else .stored

def setExchangeBranch (b : EventBus Store) (time : Nat) : Setting :=
  if time < b.exchangeClockDatetime then .outOfOrder else .stored

def clockQueueIsEmpty (s : Store) : Option Nat → Except Failure Bool
  | none => .error (.fault .nullPointer)
  | some q => .ok (eventQueueIsEmpty (s.queues q))

-- The clock queues are looked at before the command pipe in one loop, before the execution pipe in the other.
def looksAtClocks : Point → Bool
  | .check .kSimulation .command => true
  | .check .kRealtime .execution => true
  | _ => false

def clocksEmpty (s : Calling) : Except Failure (Option (Bool × Bool)) :=
  if looksAtClocks s.caller.point then do
    let localEmpty ← clockQueueIsEmpty s.caller.bus.pipes s.localClockQueue
    let exchangeEmpty ← clockQueueIsEmpty s.caller.bus.pipes s.exchangeClockQueue
    .ok (some (localEmpty,exchangeEmpty))
  else .ok none

def Calling.withBus (s : Calling) (b : EventBus Store) : Calling := {s with caller := {s.caller with bus := b}}

section Calls
variable (asserts : Assertion → Bool) (alloc : PipeName → Nat → Option TreeNode) (utcNow : Nat → Nat)

-- One thread makes all calls, so none is made within event_bus_dequeue.
def waits (s : Calling) : Turn → Bool
  | .dequeue => false
  | _ => s.caller.point != .outside

def serve (s : Calling) : Turn → Except Failure (Shown × Calling)
  | .setMode mode => .ok (.mode,s.withBus (eventBusSetMode s.caller.bus mode))
  | .addQueue q pipe => do
      let w := pipeWorld s.caller.bus.pipes pipe.name
      let branch := addBranch w.toWorld (alloc pipe.name w.nodes.length) q
      let (b,ret) ← eventBusAddQueue asserts alloc true s.caller.bus q pipe
      .ok (.added branch ret,s.withBus b)
  | .setDatetime time => .ok (.localTime (setBranch s.caller.bus time),
      s.withBus (eventBusSetDatetime s.caller.bus time))
  | .setExchangeDatetime time => .ok (.exchangeTime (setExchangeBranch s.caller.bus time),
      s.withBus (eventBusSetExchangeDatetime s.caller.bus time))
  | .dequeue => do
      let clocks ← clocksEmpty s
      let (l,caller) ← dequeueStep (storePipes asserts alloc) utcNow s.caller
      .ok (.access clocks l,{s with caller := caller})

def turnStep (s : Calling) (turn : Turn) : Except Failure (Shown × Calling) :=
  if waits s turn then .ok (.busy,s) else serve asserts alloc utcNow s turn

def shown (s : Calling) : List Turn → List Shown × Option Failure
  | [] => ([],none)
  | turn :: rest => match turnStep asserts alloc utcNow s turn with
    | .error f => ([],some f)
    | .ok (out,s) => (out :: (shown s rest).1,(shown s rest).2)

end Calls

structure Known where
  mode : EventBusMode
  entered : Bool
  localTime : Option Nat
  exchangeTime : Option Nat

def knownNew : Known := ⟨.kSimulation,false,none,none⟩

-- Times are below 2^64, so only the greatest is in order whatever a clock holds.
def comparesMemory (clock : Option Nat) (time : Nat) : Bool := clock.isNone && decide (time < 2^64 - 1)

def reads (queues : Nat → EventQueue) (alloc : PipeName → Nat → Option TreeNode) (k : Known) : Turn → Bool
  | .dequeue => k.entered
  | .setMode _ => false
  | .addQueue q pipe => !k.entered && !eventQueueIsEmpty (queues q) && (alloc pipe.name 0).isSome
  | .setDatetime time => !k.entered && k.mode == .kSimulation && comparesMemory k.localTime time
  | .setExchangeDatetime time => !k.entered && comparesMemory k.exchangeTime time

def stored (clock : Option Nat) (time : Nat) : Option Nat := some (max (clock.getD 0) time)

def learn (k : Known) : Turn → Known
  | .dequeue => {k with entered := true}
  | .setMode mode => if k.entered then k else {k with mode := mode}
  | .addQueue _ _ => k
  | .setDatetime time =>
      if k.entered || k.mode != .kSimulation then k else {k with localTime := stored k.localTime time}
  | .setExchangeDatetime time => if k.entered then k else {k with exchangeTime := stored k.exchangeTime time}

def blind (queues : Nat → EventQueue) (alloc : PipeName → Nat → Option TreeNode) (k : Known) : List Turn → Bool
  | [] => true
  | turn :: rest => !reads queues alloc k turn && blind queues alloc (learn k turn) rest

def state (queues : Nat → EventQueue) (m : Memory) (k : Known) : Calling :=
  ⟨⟨{eventBusNew queues m with
      mode := k.mode
      localClockDatetime := k.localTime.getD m.localClock
      exchangeClockDatetime := k.exchangeTime.getD m.exchangeClock},
    if k.entered then .check k.mode .data else .outside⟩,m.localClockQueue,m.exchangeClockQueue⟩

section Unread
variable {asserts : Assertion → Bool} {alloc : PipeName → Nat → Option TreeNode} {utcNow : Nat → Nat}
  {queues : Nat → EventQueue} {k : Known} {turn : Turn} {b : EventBus Store} {time : Nat}

theorem putPipeSame (s : Store) (p : PipeName) : putPipe s p (pipeWorld s p) = s := by
  have same : stateOf (pipeWorld s p) = s.pipes p := rfl
  rw [putPipe,same,Function.update_eq_self]
  rfl

theorem addNothing {q : Nat} {pipe : EventBusPipe} {ret : Bool}
    (none : eventTreeAdd asserts (pipeWorld b.pipes pipe.name).toWorld
      (alloc pipe.name (pipeWorld b.pipes pipe.name).nodes.length) q =
        .ok ((pipeWorld b.pipes pipe.name).toWorld,ret)) :
    eventBusAddQueue asserts alloc true b q pipe = .ok (b,true) := by
  have added : eventPipeAdd asserts (alloc pipe.name) true (pipeWorld b.pipes pipe.name) q =
      .ok (pipeWorld b.pipes pipe.name) := by
    rw [eventPipeAdd,if_pos rfl,treeAdd,none]
    rfl
  rw [eventBusAddQueue,added]
  exact congrArg (fun s => Except.ok ({b with pipes := s},true)) (putPipeSame b.pipes pipe.name)

theorem inOrder {clock : Option Nat} (blind : comparesMemory clock time = false) (left : Fin (2^64)) :
    (time < clock.getD left ↔ time < clock.getD 0) ∧ max (clock.getD left) time = max (clock.getD 0) time := by
  cases clock with
  | some c => exact ⟨.rfl,rfl⟩
  | none =>
    have high : ¬ time < 2^64 - 1 := by simpa [comparesMemory] using blind
    have fits := left.isLt
    simp only [Option.getD_none]
    omega

theorem turnBusy (entered : k.entered = true) (call : turn ≠ .dequeue) (m : Memory) :
    turnStep asserts alloc utcNow (state queues m k) turn = .ok (.busy,state queues m (learn k turn)) := by
  cases turn with
  | dequeue => exact absurd rfl call
  | _ => simp [turnStep,waits,state,entered,learn]

theorem turnServed (outside : k.entered = false) (m : Memory) :
    turnStep asserts alloc utcNow (state queues m k) turn = serve asserts alloc utcNow (state queues m k) turn := by
  have free : waits (state queues m k) turn = false := by cases turn <;> simp [waits,state,outside]
  rw [turnStep,free]
  rfl

theorem addUnread {q : Nat} {pipe : EventBusPipe} (outside : k.entered = false)
    (unread : reads queues alloc k (.addQueue q pipe) = false) (m : Memory) :
    turnStep asserts alloc utcNow (state queues m k) (.addQueue q pipe) =
      .ok (.added (if eventQueueIsEmpty (queues q) then .emptyQueue else .noMemory) true,state queues m k) := by
  generalize world : pipeWorld (state queues m k).caller.bus.pipes pipe.name = w
  have same : w.queues = queues ∧ w.nodes.length = 0 := by
    rw [← world]
    exact ⟨rfl,rfl⟩
  have both : addBranch w.toWorld (alloc pipe.name w.nodes.length) q =
        (if eventQueueIsEmpty (queues q) then .emptyQueue else .noMemory) ∧
      eventTreeAdd asserts w.toWorld (alloc pipe.name w.nodes.length) q = .ok (w.toWorld,false) := by
    unfold addBranch eventTreeAdd
    rw [same.1,same.2]
    by_cases empty : eventQueueIsEmpty (queues q) = true
    · exact ⟨by simp [empty],if_pos empty⟩
    · have noMemory : alloc pipe.name 0 = none := by simpa [reads,outside,empty] using unread
      rw [noMemory]
      exact ⟨by simp [empty],if_neg empty⟩
  obtain ⟨branch,nothing⟩ := both
  rw [turnServed outside,serve,world,branch]
  rw [← world] at nothing
  rw [addNothing nothing]
  rfl

theorem unread (asserts : Assertion → Bool) (utcNow : Nat → Nat) (unread : reads queues alloc k turn = false) :
    ∃ out, ∀ m, turnStep asserts alloc utcNow (state queues m k) turn = .ok (out,state queues m (learn k turn)) := by
  cases entered : k.entered with
  | true =>
    have call : turn ≠ .dequeue := by
      rintro rfl
      exact absurd (entered.symm.trans unread) (by decide)
    exact ⟨.busy,turnBusy entered call⟩
  | false =>
    cases turn with
    | dequeue =>
      refine ⟨.access none (.entered k.mode),fun m => ?_⟩
      simp [turnStep,waits,serve,clocksEmpty,looksAtClocks,state,entered,dequeueStep,learn]
      rfl
    | setMode mode =>
      refine ⟨.mode,fun m => ?_⟩
      rw [turnServed entered]
      simp [serve,state,entered,learn,Calling.withBus,eventBusSetMode]
    | addQueue q pipe => exact ⟨_,addUnread entered unread⟩
    | setDatetime time =>
      by_cases simulation : k.mode = .kSimulation
      · have compares : comparesMemory k.localTime time = false := by simpa [reads,entered,simulation] using unread
        refine ⟨.localTime (if time < k.localTime.getD 0 then .outOfOrder else .stored),fun m => ?_⟩
        obtain ⟨branch,value⟩ := inOrder compares m.localClock
        rw [turnServed entered,serve,setDatetimeMax]
        simp [setBranch,state,learn,simulation,entered,branch,value,stored,Calling.withBus]
      · refine ⟨.localTime .notSimulation,fun m => ?_⟩
        rw [turnServed entered,serve,setDatetimeMax]
        simp [setBranch,state,learn,simulation,entered,Calling.withBus]
    | setExchangeDatetime time =>
      have compares : comparesMemory k.exchangeTime time = false := by simpa [reads,entered] using unread
      refine ⟨.exchangeTime (if time < k.exchangeTime.getD 0 then .outOfOrder else .stored),fun m => ?_⟩
      obtain ⟨branch,value⟩ := inOrder compares m.exchangeClock
      rw [turnServed entered,serve,setExchangeMax]
      simp [setExchangeBranch,state,learn,entered,branch,value,stored,Calling.withBus]

end Unread

section Told
variable {asserts : Assertion → Bool} {alloc : PipeName → Nat → Option TreeNode} {utcNow : Nat → Nat}
  {queues : Nat → EventQueue} {k : Known} {turn : Turn} {s s' : Calling}

def firstShown (r : Except Failure (Shown × Calling)) : Option Shown := match r with
  | .error _ => none
  | .ok (out,_) => some out

theorem shownApart (apart : firstShown (turnStep asserts alloc utcNow s turn) ≠
    firstShown (turnStep asserts alloc utcNow s' turn)) (rest : List Turn) :
    shown asserts alloc utcNow s (turn :: rest) ≠ shown asserts alloc utcNow s' (turn :: rest) := by
  rw [shown,shown]
  cases first : turnStep asserts alloc utcNow s turn with
  | error f =>
    cases second : turnStep asserts alloc utcNow s' turn with
    | error f' =>
      rw [first,second] at apart
      exact absurd rfl apart
    | ok r => simp
  | ok r =>
    cases second : turnStep asserts alloc utcNow s' turn with
    | error f' => simp
    | ok r' =>
      rw [first,second] at apart
      intro same
      exact apart (congrArg some (List.cons.inj (congrArg Prod.fst same)).1)

def zeros : Memory := ⟨0,0,false,none,none,none,fun _ => none,fun _ => none,fun _ _ => 0⟩

def ones : Memory :=
  {zeros with localClock := ⟨2^64 - 1,by decide⟩, exchangeClock := ⟨2^64 - 1,by decide⟩, root := fun _ => some 1}

theorem addShown (s : Calling) (q : Nat) (pipe : EventBusPipe) :
    firstShown (serve asserts alloc utcNow s (.addQueue q pipe)) =
      match eventBusAddQueue asserts alloc true s.caller.bus q pipe with
      | .error _ => none
      | .ok (_,ret) => some (.added (addBranch (pipeWorld s.caller.bus.pipes pipe.name).toWorld
          (alloc pipe.name (pipeWorld s.caller.bus.pipes pipe.name).nodes.length) q) ret) := by
  rw [serve]
  cases eventBusAddQueue asserts alloc true s.caller.bus q pipe <;> rfl

theorem addFirst {b : EventBus Store} {q : Nat} {pipe : EventBusPipe} {memory : TreeNode}
    (nonempty : eventQueueIsEmpty (b.pipes.queues q) = false)
    (node : alloc pipe.name (b.pipes.pipes pipe.name).nodes.length = some memory)
    (rootless : (b.pipes.pipes pipe.name).root = none) :
    ∃ b', eventBusAddQueue asserts alloc true b q pipe = .ok (b',true) := by
  have added : eventTreeAdd asserts (pipeWorld b.pipes pipe.name).toWorld
      (alloc pipe.name (pipeWorld b.pipes pipe.name).nodes.length) q =
      .ok ({(nodeNew memory (pipeWorld b.pipes pipe.name).toWorld q).1 with
        root := (nodeNew memory (pipeWorld b.pipes pipe.name).toWorld q).2},true) := by
    simp [eventTreeAdd,pipeWorld,nonempty,node,nodeNew,rootless]
  rw [eventBusAddQueue,eventPipeAdd,if_pos rfl,treeAdd,added]
  exact ⟨_,rfl⟩

theorem addTold {q : Nat} {pipe : EventBusPipe} (outside : k.entered = false)
    (reads : reads queues alloc k (.addQueue q pipe) = true) :
    firstShown (turnStep asserts alloc utcNow (state queues zeros k) (.addQueue q pipe)) ≠
      firstShown (turnStep asserts alloc utcNow (state queues ones k) (.addQueue q pipe)) := by
  obtain ⟨nonempty,memory⟩ : eventQueueIsEmpty (queues q) = false ∧ (alloc pipe.name 0).isSome = true := by
    simpa [BusMemory.reads,outside] using reads
  obtain ⟨node,memory⟩ := Option.isSome_iff_exists.mp memory
  have branch (m : Memory) : addBranch (pipeWorld (state queues m k).caller.bus.pipes pipe.name).toWorld
      (alloc pipe.name 0) q = if (m.root pipe.name).isNone then .firstNode else .rebalance := by
    unfold addBranch
    rw [if_neg (by simpa [pipeWorld,state,eventBusNew] using nonempty),memory]
    rfl
  obtain ⟨b,added⟩ : ∃ b,
      eventBusAddQueue asserts alloc true (state queues zeros k).caller.bus q pipe = .ok (b,true) :=
    addFirst nonempty memory rfl
  rw [turnServed outside,turnServed outside,addShown,addShown,added]
  cases ran : eventBusAddQueue asserts alloc true (state queues ones k).caller.bus q pipe with
  | error f => exact fun same => by cases same
  | ok r =>
    intro same
    have branches := (Shown.added.inj (Option.some.inj same)).1
    exact absurd ((branch zeros).symm.trans (branches.trans (branch ones))) (by simp [zeros,ones])

theorem firstCheck (asserts : Assertion → Bool) (alloc : PipeName → Nat → Option TreeNode)
    (queues : Nat → EventQueue) (k : Known) (m : Memory) (none : m.last .data = none) :
    ∃ store, (storePipes asserts alloc).isEmpty .data (state queues m k).caller.bus.pipes =
      .ok (store,(m.root .data).isNone) := by
  generalize world : pipeWorld (state queues m k).caller.bus.pipes .data = w
  have drained : processPendingAdd asserts (alloc .data) w.pendingAdd.capacity w = .ok w := by
    rw [← world]
    exact processNone rfl
  have asked : eventTreeIsEmpty asserts w.toWorld = .ok (w.toWorld,(m.root .data).isNone) := by
    have root : w.root = m.root .data := by rw [← world]; rfl
    have last : w.last = Option.none := by rw [← world]; exact none
    unfold eventTreeIsEmpty
    rw [root,last]
    cases m.root .data <;> rfl
  have both : eventPipeIsEmpty asserts (alloc .data) w = .ok (w,(m.root .data).isNone) := by
    rw [eventPipeIsEmpty,drained]
    exact congrArg (fun r => lift r >>= fun r => Except.ok ({w with toWorld := r.1},r.2)) asked
  have whole : (storePipes asserts alloc).isEmpty .data (state queues m k).caller.bus.pipes =
      (do
        let (w,a) ← eventPipeIsEmpty asserts (alloc .data) (pipeWorld (state queues m k).caller.bus.pipes .data)
        .ok (putPipe (state queues m k).caller.bus.pipes .data w,a)) := rfl
  rw [whole,world,both]
  exact ⟨_,rfl⟩

theorem told (reads : reads queues alloc k turn = true) :
    firstShown (turnStep asserts alloc utcNow (state queues zeros k) turn) ≠
      firstShown (turnStep asserts alloc utcNow (state queues ones k) turn) := by
  cases turn with
  | setMode mode => cases reads
  | addQueue q pipe =>
    have outside : k.entered = false := by
      by_contra entered
      simp [BusMemory.reads,entered] at reads
    exact addTold outside reads
  | setDatetime time =>
    obtain ⟨⟨outside,simulation⟩,unset,early⟩ :
        (k.entered = false ∧ k.mode = .kSimulation) ∧ k.localTime = none ∧ time < 2^64 - 1 := by
      simpa [BusMemory.reads,comparesMemory] using reads
    rw [turnServed outside,turnServed outside]
    simp [serve,firstShown,setBranch,state,simulation,unset,zeros,ones]
    omega
  | setExchangeDatetime time =>
    obtain ⟨outside,unset,early⟩ : k.entered = false ∧ k.exchangeTime = none ∧ time < 2^64 - 1 := by
      simpa [BusMemory.reads,comparesMemory] using reads
    rw [turnServed outside,turnServed outside]
    simp [serve,firstShown,setExchangeBranch,state,unset,zeros,ones]
    omega
  | dequeue =>
    have entered : k.entered = true := reads
    have shown (m : Memory) (none : m.last .data = Option.none) : firstShown (turnStep asserts alloc utcNow
        (state queues m k) .dequeue) = some (.access Option.none (.found (.pipe .data) (m.root .data).isNone)) := by
      obtain ⟨store,asked⟩ := firstCheck asserts alloc queues k m none
      have point : (state queues m k).caller = ⟨(state queues m k).caller.bus,.check k.mode .data⟩ := by
        simp [state,entered]
      have clocks : clocksEmpty (state queues m k) = .ok Option.none := by
        simp [clocksEmpty,state,entered,looksAtClocks]
      have served : turnStep asserts alloc utcNow (state queues m k) .dequeue =
        serve asserts alloc utcNow (state queues m k) .dequeue := rfl
      rw [served,serve,clocks,point,pipeCheck asked]
      rfl
    rw [shown zeros rfl,shown ones rfl]
    simp [zeros,ones]

/-- What a sequence of calls shows is the same for every two contents of the memory
exactly when none of its calls reads a member without a value. -/
theorem memoryUnread (asserts : Assertion → Bool) (alloc : PipeName → Nat → Option TreeNode) (utcNow : Nat → Nat)
    (queues : Nat → EventQueue) (turns : List Turn) :
    (∀ m m', shown asserts alloc utcNow (begin queues m) turns =
        shown asserts alloc utcNow (begin queues m') turns) ↔
      blind queues alloc knownNew turns = true := by
  suffices all : ∀ k, (∀ m m', shown asserts alloc utcNow (state queues m k) turns =
      shown asserts alloc utcNow (state queues m' k) turns) ↔ blind queues alloc k turns = true from all knownNew
  induction turns with
  | nil => exact fun k => ⟨fun _ => rfl,fun _ _ _ => rfl⟩
  | cons turn rest ih =>
    intro k
    cases asked : reads queues alloc k turn with
    | true =>
      rw [blind,asked]
      exact ⟨fun same => absurd (same zeros ones) (shownApart (told asked) rest),nofun⟩
    | false =>
      obtain ⟨out,served⟩ := unread asserts utcNow asked
      rw [blind,asked,Bool.not_false,Bool.true_and,← ih]
      refine forall₂_congr (fun m m' => ?_)
      rw [shown,shown,served,served]
      simp [Prod.ext_iff]

end Told

section Example

def firstAccesses (m : Memory) : List Shown × Option Failure :=
  shown (fun _ => false) (fun _ _ => none) (fun _ => 0) (begin (fun _ => lone ⟨0,.kTrade,none⟩) m) [.dequeue,.dequeue]

theorem firstCheckTold :
    firstAccesses zeros =
      ([.access none (.entered .kSimulation),.access none (.found (.pipe .data) true)],none) ∧
    firstAccesses ones =
      ([.access none (.entered .kSimulation),.access none (.found (.pipe .data) false)],none) ∧
    ¬ ∀ m m', firstAccesses m = firstAccesses m' := by
  refine ⟨rfl,rfl,fun same => ?_⟩
  exact absurd (same zeros ones) (by decide)

end Example

end Qtl.BusMemory
