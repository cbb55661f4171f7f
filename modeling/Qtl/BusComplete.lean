import Qtl.BusSimulation

/-! The stop that ends a simulation comes last: when the client is given it, every event
of the data streams was pushed, and was given to the client before. -/
namespace Qtl.BusComplete
open Queue EventTreeShape EventTreeTracked EventTreeRun EventTreeLocal EventTreeStream Pipe Bus PipeTracked BusSystem
open BusPart BusReplay BusSimulation
open EventTree (TreeNode World)
open EventTreeMerge (Merge MergeStep mergeOf shown closing)
open BusStore (Store storePipes pipeWorld)
open BusRealtime (FreshPipe Registered registeredClaimed)
open BusRefines (heard)
open BusServes (pushedTo)
open Base.StableMerge (Delivery itemsOf sources)
open Base.Trace (Run)

variable {alloc : PipeName → Nat → Option TreeNode} {utcNow : Nat → Nat} {b : EventBus Store} {c c' c₁ : Caller Store}
variable {p : PipeName} {m : BusSystem.Moment} {before trace first rest : List BusSystem.Moment} {e : Event}
variable {t : PipeName → Shape} {stream : Nat → List Event} {l : Bus.Label}

def isStop (e : Event) : Bool := e.type = .kOnSimulatorStop

section Part
variable {deliveries : List (Delivery Nat Event)} {w : World} {shape : Shape}

/-- What a pipe hands over up to its stop: the events of all its queues, which were pushed
completely, each queue's in their order. -/
structure Whole (own : Nat → Prop) (stream : Nat → List Event) (events : List Event) : Prop where
  noStop : ∀ e ∈ events, isStop e = false
  inOrder : ∀ q, own q → ((stream q).filter ordinary).Sublist events
  all : ∃ queues : List Nat, queues.Nodup ∧ (∀ q, q ∈ queues ↔ own q) ∧
    (events.filter ordinary).Perm (queues.flatMap (fun q => (stream q).filter ordinary))

theorem streamPlain {items : List Event} (complete : Complete items) (mem : e ∈ items) : isStop e = false := by
  simpa [isStop] using completeNoStop complete e mem

theorem hasQueues (tracked : Tracked w shape) : ∃ queues : List Nat, queues.Nodup ∧
    (∀ q, q ∈ queues ↔ Has w shape q) ∧ queues.map some = (held w shape).map (queueOf w) := by
  obtain ⟨queues,same⟩ : ∃ queues : List Nat, queues.map some = names w shape := by
    refine ⟨(held w shape).map (fun a => (queueOf w a).getD 0),?_⟩
    rw [List.map_map]
    refine List.map_congr_left (fun a mem => ?_)
    obtain ⟨q,name,_⟩ := heldNamed tracked mem
    simp [name]
  have separate : (names w shape).Nodup := tracked.separate
  refine ⟨queues,?_,fun q => ?_,same⟩
  · rw [← same] at separate
    exact separate.of_map
  · rw [Has,← same,List.mem_map]
    simp

theorem mergedWhole (tracked : Tracked w shape) {m' : Merge}
    (merged : Run MergeStep (mergeOf w shape stream) deliveries m') (done : ∀ a ∈ held w shape, m'.rest a = []) :
    (∀ q, Has w shape q → ((stream q).filter ordinary).Sublist ((deliveries.map Delivery.item).filter ordinary)) ∧
    ∃ queues : List Nat, queues.Nodup ∧ (∀ q, q ∈ queues ↔ Has w shape q) ∧
      (deliveries.map Delivery.item).Perm (queues.flatMap stream) := by
  have source : ∀ d ∈ deliveries, d.source ∈ held w shape :=
    fun d inside => mergeHeld ((Base.StableMerge.runSources merged).2 d inside)
  have own (a : Nat) (mem : a ∈ held w shape) (q : Nat) (name : queueOf w a = some q) :
      itemsOf a deliveries = stream q :=
    deliveredWhole merged (done a mem) name
  refine ⟨fun q mine => ?_,?_⟩
  · obtain ⟨a,mem,name⟩ := List.mem_map.mp mine
    rw [← own a mem q name,itemsOf]
    exact (List.filter_sublist.map _).filter _
  · obtain ⟨queues,once,known,same⟩ := hasQueues tracked
    refine ⟨queues,once,known,?_⟩
    have each : (held w shape).flatMap (itemsOf · deliveries) =
        ((held w shape).map (queueOf w)).flatMap (fun x => (x.map stream).getD []) := by
      rw [List.flatMap_map]
      refine List.flatMap_congr (fun a mem => ?_)
      obtain ⟨q,name,_⟩ := heldNamed tracked mem
      rw [own a mem q name,name]
      rfl
    rw [← same,List.flatMap_map] at each
    exact each ▸ Base.StableMerge.itemsPerm (trackedNodup tracked) source

theorem deliveredPlain (tracked : Tracked w shape) {m' : Merge} {d : Delivery Nat Event}
    (merged : Run MergeStep (mergeOf w shape stream) deliveries m')
    (complete : ∀ q, Has w shape q → Complete (stream q)) (inside : d ∈ deliveries) : isStop d.item = false := by
  obtain ⟨q,name,mine⟩ := heldNamed tracked (mergeHeld ((Base.StableMerge.runSources merged).2 d inside))
  refine streamPlain (complete q mine) ?_
  have kept := Base.StableMerge.runConserves merged d.source
  rw [mergeRest name] at kept
  rw [← kept]
  exact List.mem_append_left _ (List.mem_map.mpr ⟨d,List.mem_filter.mpr ⟨inside,by simp⟩,rfl⟩)

theorem pushedWhole {labels : List EventTreeRun.Label} {s : EventTreeRun.Cfg} {shape' : Shape} {m' : Merge} {q : Nat}
    {pushed : List Event} (mirrors : EventTreeMerge.Mirrors w shape stream labels s shape' m')
    (rest : ∀ a ∈ held w shape, m'.rest a = []) (mine : Has w shape q) (less : EventTreeMerge.pushedTo q labels <+: pushed)
    (within : contents (w.queues q) ++ pushed <+: stream q) : contents (w.queues q) ++ pushed = stream q := by
  obtain ⟨a,mem,name⟩ := List.mem_map.mp mine
  have popped := mirrors.rest a mem q name
  rw [rest a mem,List.append_nil] at popped
  have upTo : stream q <+: contents (w.queues q) ++ EventTreeMerge.pushedTo q labels := by
    rw [← popped]
    exact ⟨_,mirrors.balance q⟩
  have longer := upTo.trans ((List.prefix_append_right_inj _).mpr less)
  exact within.eq_of_length_le longer.length_le

theorem partWhole (clean : ∀ p, CleanNodes (alloc p)) (sound : BusSystem.Sound c t (fun _ => false))
    (bare : pending (pipeWorld c.bus.pipes p) = []) (run : Run (BusSystem.Step alloc utcNow) c trace c')
    (fixed : ∀ q, .registered q p ∉ trace)
    (complete : ∀ q, Has (treeOf c p) (t p) q → Complete (stream q) ∧
      contents (c.bus.pipes.queues q) ++ pushedTo q trace <+: stream q)
    (stopped : ∃ e ∈ handedBy p trace, isStop e = true) :
    (∀ q, Has (treeOf c p) (t p) q → contents (c.bus.pipes.queues q) ++ pushedTo q trace = stream q) ∧
    ∃ events, handedBy p trace = events ++ [newOnSimulationStopEvent] ∧
      Whole (Has (treeOf c p) (t p)) stream events := by
  have tracked : Tracked (treeOf c p) (t p) := (sound.store.pipe p).tracked
  obtain ⟨labels,deliveries,m,_,_,_,merged,same,own,_,mirrors⟩ :=
    partMirrors clean sound bare run fixed (fun q mine => (complete q mine).2)
  have opened := mergeOpen tracked (fun q mine => (complete q mine).1)
  have plain (d : Delivery Nat Event) (inside : d ∈ deliveries) : isStop d.item = false :=
    deliveredPlain tracked merged (fun q mine => (complete q mine).1) inside
  have alone : ∃ d ∈ deliveries, d.alone = true := by
    obtain ⟨e,mem,stop⟩ := stopped
    rw [← own.events,returned,same,List.map_map] at mem
    obtain ⟨d,inside,rfl⟩ := List.mem_map.mp mem
    refine ⟨d,inside,Bool.of_not_eq_false (fun more => ?_)⟩
    simp [shown,more,plain d inside] at stop
  obtain ⟨done,earlier,d,rfl,alone,others⟩ := Base.StableMerge.aloneDone opened merged alone
  have rest (a : Nat) (mem : a ∈ held (treeOf c p) (t p)) : m.rest a = [] := done a (mergeSources.mem_iff.mpr mem)
  have handed : handedBy p trace = earlier.map Delivery.item ++ [newOnSimulationStopEvent] :=
    own.events.symm.trans (returnedStop same alone others)
  obtain ⟨inOrder,queues,once,known,all⟩ := mergedWhole tracked merged rest
  have final : ordinary d.item = false := by
    have closed := Base.StableMerge.runAloneFinal merged d (by simp) alone
    simp only [closing,decide_eq_true_eq] at closed
    simp [ordinary,closed]
  have same : (earlier.map Delivery.item).filter ordinary = ((earlier ++ [d]).map Delivery.item).filter ordinary := by
    simp [final]
  refine ⟨fun q mine => pushedWhole mirrors rest mine (own.told q) (complete q mine).2,_,handed,fun e mem => ?_,
    fun q mine => ?_,queues,once,known,?_⟩
  · obtain ⟨d',inside,rfl⟩ := List.mem_map.mp mem
    exact plain d' (List.mem_append_left _ inside)
  · exact (same ▸ inOrder q mine).trans List.filter_sublist
  · rw [same,← List.filter_flatMap]
    exact all.filter _

end Part

section Stops

def given : BusSystem.Moment → List Event
  | .call (.returned .saved e) _ => e.toList
  | .call (.returned .stop e) _ => e.toList
  | _ => []

def givenBy (trace : List BusSystem.Moment) : List Event := trace.flatMap given

def stopReturn : BusSystem.Moment → Bool
  | .call (.returned .stop _) _ => true
  | _ => false

structure StopStep (c : Caller Store) (m : BusSystem.Moment) (c' : Caller Store) : Prop where
  set : c'.bus.isSimulationStop = true → c.bus.isSimulationStop = true ∨ ∃ e ∈ handedBy .data [m], isStop e = true
  returned : stopReturn m = true → c.bus.isSimulationStop = true ∧ c'.bus.isSimulationStop = false ∧
    c'.bus.savedEvent = none ∧ ∃ now, given m = [{newOnSimulationStopEvent with timestamp := now}]

theorem dequeueStops (done : dequeueStep (storePipes noAsserts alloc) utcNow c = .ok (l,c'))
    (taken : Option (Nat × Event)) : StopStep c (.call l taken) c' := by
  have cases' := dequeueCases done
  obtain ⟨b,point⟩ := c
  obtain ⟨b',point'⟩ := c'
  dsimp only at cases'
  cases cases' with
  | @swallow q e got type =>
    exact ⟨fun _ => .inr ⟨e,by simp [handedBy,handed],by simp [isStop,type]⟩,by simp [stopReturn]⟩
  | stop n pending => exact ⟨by simp,fun _ => ⟨pending,rfl,rfl,_,rfl⟩⟩
  | _ => exact ⟨.inl,by simp [stopReturn]⟩

theorem stepStops (step : BusSystem.Step alloc utcNow c m c') : StopStep c m c' := by
  obtain ⟨turn,_,done⟩ := step
  cases turn with
  | addQueue owner q pipe =>
    obtain ⟨⟨b,_⟩,added,same⟩ := bindOk done
    cases same
    obtain ⟨w,_,put⟩ := bindOk added
    cases put
    exact ⟨.inl,by simp [stopReturn]⟩
  | push q e =>
    cases done
    exact ⟨.inl,by simp [stopReturn]⟩
  | setMode mode =>
    cases done
    exact ⟨.inl,by simp [stopReturn]⟩
  | dequeue =>
    obtain ⟨⟨l,c₁⟩,ran,same⟩ := bindOk done
    cases same
    exact dequeueStops ran _

theorem runStops (run : Run (BusSystem.Step alloc utcNow) c trace c') (unset : c.bus.isSimulationStop = false)
    (set : c'.bus.isSimulationStop = true) : ∃ e ∈ handedBy .data trace, isStop e = true := by
  induction run with
  | nil => simp [unset] at set
  | snoc earlier last ih =>
    rw [handedSnoc]
    rcases (stepStops last).set set with before | ⟨e,mem,stop⟩
    · obtain ⟨e,mem,stop⟩ := ih before
      exact ⟨e,List.mem_append_left _ mem,stop⟩
    · exact ⟨e,List.mem_append_right _ mem,stop⟩

theorem stopsHanded (run : Run (BusSystem.Step alloc utcNow) c trace c') (unset : c.bus.isSimulationStop = false)
    (returned : ∃ m ∈ trace, stopReturn m = true) : ∃ e ∈ handedBy .data trace, isStop e = true := by
  obtain ⟨m,mem,stop⟩ := returned
  obtain ⟨first,rest,rfl⟩ := List.append_of_mem mem
  rw [List.append_cons] at run
  obtain ⟨_,upTo,_⟩ := Base.Trace.runSplit _ rest run
  obtain ⟨c₁,earlier,last⟩ := Base.Trace.runSnocInv upTo
  obtain ⟨e,mem,same⟩ := runStops earlier unset ((stepStops last).returned stop).1
  exact ⟨e,by rw [handedBy,List.flatMap_append]; exact List.mem_append_left _ mem,same⟩

theorem stopLast {front back events : List Event} (whole : front ++ back = events ++ [e])
    (plain : ∀ x ∈ events, isStop x = false) (stop : ∃ x ∈ front, isStop x = true) : back = [] := by
  rcases back.eq_nil_or_concat with rfl | ⟨back,x,rfl⟩
  · rfl
  · rw [List.concat_eq_append,← List.append_assoc] at whole
    obtain ⟨rfl,_⟩ := List.append_inj' whole rfl
    obtain ⟨y,mem,stop⟩ := stop
    rw [plain y (List.mem_append_left _ mem)] at stop
    cases stop

theorem handedAppend (p : PipeName) (first rest : List BusSystem.Moment) :
    handedBy p (first ++ rest) = handedBy p first ++ handedBy p rest := List.flatMap_append

theorem stopOnce {events : List Event} (run : Run (BusSystem.Step alloc utcNow) c (first ++ m :: rest) c')
    (unset : c.bus.isSimulationStop = false) (whole : handedBy .data (first ++ m :: rest) = events ++ [e])
    (plain : ∀ x ∈ events, isStop x = false) (returned : stopReturn m = true) :
    handedBy .data (m :: rest) = [] ∧ ∀ m' ∈ rest, stopReturn m' = false := by
  have split := run
  rw [List.append_cons] at split
  obtain ⟨c₂,upTo,later⟩ := Base.Trace.runSplit _ rest split
  obtain ⟨c₁,earlier,last⟩ := Base.Trace.runSnocInv upTo
  obtain ⟨set,done,_⟩ := (stepStops last).returned returned
  have silent := stopLast ((handedAppend ..).symm.trans whole) plain (runStops earlier unset set)
  refine ⟨silent,fun m' mem => Bool.of_not_eq_true (fun again => ?_)⟩
  obtain ⟨x,inside,_⟩ := stopsHanded later done ⟨m',mem,again⟩
  have none : handedBy .data rest = [] := List.append_eq_nil_iff.mp silent |>.2
  rw [none] at inside
  cases inside

theorem stopFirst {events : List Event} (run : Run (BusSystem.Step alloc utcNow) c (first ++ m :: rest) c')
    (unset : c.bus.isSimulationStop = false) (whole : handedBy .data (first ++ m :: rest) = events ++ [e])
    (plain : ∀ x ∈ events, isStop x = false) (returned : stopReturn m = true) :
    ∀ m' ∈ first, stopReturn m' = false := by
  refine fun m' mem => Bool.of_not_eq_true (fun again => ?_)
  obtain ⟨first',rest',rfl⟩ := List.append_of_mem mem
  rw [List.append_assoc,List.cons_append] at run whole
  have other := (stopOnce run unset whole plain again).2 m (by simp)
  rw [returned] at other
  cases other

theorem givenSaved (none : ∀ m ∈ trace, stopReturn m = false) :
    givenBy trace = BusSchedule.returnedFrom .saved (trace.flatMap heard) := by
  rw [givenBy,BusSchedule.returnedFrom,List.flatMap_assoc]
  refine List.flatMap_congr (fun m mem => ?_)
  have plain := none m mem
  cases m with
  | call l _ =>
    cases l with
    | returned source e =>
      cases source with
      | saved => simp [given,heard]
      | stop => simp [stopReturn] at plain
      | pipe _ => rfl
    | _ => rfl
  | _ => rfl

theorem savedStop (stop : stopReturn m = true) : BusSchedule.returnedFrom .saved (heard m) = [] := by
  cases m with
  | call l _ =>
    cases l with
    | returned source e =>
      cases source with
      | stop => rfl
      | _ => cases stop
    | _ => cases stop
  | _ => cases stop

theorem givenAppend (first rest : List BusSystem.Moment) : givenBy (first ++ rest) = givenBy first ++ givenBy rest :=
  List.flatMap_append

theorem stopGiven {events : List Event} (clean : ∀ p, CleanNodes (alloc p))
    (sound : BusSystem.Sound c t (fun _ => false)) (idle : c.point = .outside) (simulation : c.bus.mode = .kSimulation)
    (unset : c.bus.isSimulationStop = false) (run : Run (BusSystem.Step alloc utcNow) c trace c')
    (still : ∀ mode, .mode mode ∉ trace) (whole : handedBy .data trace = events ++ [newOnSimulationStopEvent])
    (plain : ∀ x ∈ events, isStop x = false) (returned : ∃ m ∈ trace, stopReturn m = true) :
    c'.bus.savedEvent = none ∧ ∃ now, givenBy trace =
      c.bus.savedEvent.toList ++ events ++ [{newOnSimulationStopEvent with timestamp := now}] := by
  obtain ⟨m,mem,stop⟩ := returned
  obtain ⟨first,rest,rfl⟩ := List.append_of_mem mem
  obtain ⟨silent,after⟩ := stopOnce run unset whole plain stop
  have alone := stopFirst run unset whole plain stop
  have simulates : simulated (handedBy .data (first ++ m :: rest)) = events := by
    rw [whole,simulated,List.filter_append,List.filter_eq_self.mpr (fun x mem => by simpa [isStop] using plain x mem)]
    exact List.append_nil _
  have split := run
  rw [List.append_cons] at split
  obtain ⟨c₂,upTo,_⟩ := Base.Trace.runSplit _ rest split
  obtain ⟨c₁,earlier,last⟩ := Base.Trace.runSnocInv upTo
  obtain ⟨_,_,unsaved,now,answer⟩ := (stepStops last).returned stop
  have firstOnly : handedBy .data (first ++ [m]) = handedBy .data (first ++ m :: rest) := by
    have none : handedBy .data [m] = [] := by
      rw [← List.singleton_append,handedAppend] at silent
      exact (List.append_eq_nil_iff.mp silent).1
    rw [handedAppend,handedAppend _ first,silent,none]
  have splitSaved (rest : List BusSystem.Moment) :
      BusSchedule.returnedFrom .saved ((first ++ m :: rest).flatMap heard) =
      givenBy first ++ BusSchedule.returnedFrom .saved (rest.flatMap heard) := by
    rw [givenSaved alone,List.flatMap_append,List.flatMap_cons,BusSchedule.returnedFrom,List.flatMap_append,
      List.flatMap_append]
    exact congrArg _ (congrArg (· ++ _) (savedStop stop))
  have here := clientEvents clean sound idle simulation upTo (fun mode mem => still mode (by
    rw [List.append_cons]
    exact List.mem_append_left _ mem))
  have there := clientEvents clean sound idle simulation run still
  rw [clientData,splitSaved,firstOnly,simulates,unsaved] at here
  rw [clientData,splitSaved,simulates,← here,← givenSaved after] at there
  have nothing : givenBy rest ++ c'.bus.savedEvent.toList = [] := by
    simpa [BusSchedule.returnedFrom] using there
  obtain ⟨noMore,empty⟩ := List.append_eq_nil_iff.mp nothing
  refine ⟨by simpa using empty,now,?_⟩
  rw [← here,givenAppend,← List.singleton_append,givenAppend,noMore]
  simp [givenBy,answer,BusSchedule.returnedFrom]

end Stops

section Example

def closed : Event := ⟨9,.kOnQueueClosed,none⟩

def ending : List BusSystem.Moment := dataPass ++ [.pushed 0 closed true,.call (.entered .kSimulation) none,
  .call (.found (.pipe .data) false) none,.call (.swallowed newOnSimulationStopEvent) (some (0,closed)),
  .call (.found (.pipe .data) true) none,.call (.found (.pipe .execution) true) none,
  .call (.found (.pipe .command) true) none,.call (.found (.pipe .service) true) none,
  .call (.found .saved true) none,
  .call (.returned .stop (some {newOnSimulationStopEvent with timestamp := 1})) none]

theorem endingRun : ∃ c, Run (BusSystem.Step BusRealtime.malloc BusRealtime.clock) withData ending c := by
  obtain ⟨trace,c,run,same⟩ := Base.Trace.playSeen
    (List.replicate 7 none ++ some (0,closed) :: List.replicate 9 none) Prod.fst
    (show (Base.Trace.play fed withData _).map _ = some ending from rfl)
  cases same
  exact ⟨c,fedRun run⟩

theorem withDataQueue {q : Nat} (known : Registered (pipeWorld withData.bus.pipes .data) q) : q = 0 := by
  rcases known with mem | ⟨a,_,name⟩
  · cases mem
  · cases a with
    | zero => cases name; rfl
    | succ a => cases name

def endingStream (_ : Nat) : List Event := [front,closed]

theorem endingComplete (q : Nat) (known : Registered (pipeWorld withData.bus.pipes .data) q) :
    Complete (endingStream q) ∧ contents (withData.bus.pipes.queues q) ++ pushedTo q ending <+: endingStream q := by
  cases withDataQueue known
  exact ⟨⟨[front],closed,rfl,rfl,by decide⟩,List.prefix_rfl⟩

end Example

end Qtl.BusComplete
