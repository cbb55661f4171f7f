import Qtl.BusRefines

/-! What a client of the whole bus may count on: every queue is handed over in its own
order through the pipe it was registered with, and the calls obey the laws of the
scheduler. -/
namespace Qtl.BusServes
open Queue EventTree EventTreeShape EventTreeTaken Pipe Bus PipeTracked BusSystem BusRefines
open EventTreeRun (noAsserts upcoming)
open BusStore (Store storePipes pipeWorld)
open BusOwnership (drained pipeReadTaken pipeIsEmptyQueues addQueueKeeps)
open BusRealtime (FreshPipe)
open BusSchedule (Lawful lookedAhead returnedFrom dataReads stopPending pass opensPass Cleared)
open Base.Trace (Run)
open Base.Simulation

def pushedTo (q : Nat) (trace : List Moment) : List Event := trace.flatMap (fun
  | .pushed q' e true => if q' = q then [e] else []
  | _ => [])

def takenFrom (q : Nat) (trace : List Moment) : List Event := trace.flatMap (fun
  | .call _ (some (q',e)) => if q' = q then [e] else []
  | _ => [])

/-- `e` was taken for the front event of a queue registered with the pipe. For the closing
event of the pipe's last queue it is a stop event. -/
def Passes (registered : PipeName → Nat → Prop) (p : PipeName) (taken : Option (Nat × Event)) (e : Option Event) :
    Prop :=
  ∃ q front, taken = some (q,front) ∧ registered p q ∧
    (e = some front ∨ front.type = .kOnQueueClosed ∧ e = some newOnSimulationStopEvent)

def Hands (registered : PipeName → Nat → Prop) (taken : Option (Nat × Event)) : Bus.Label → Prop
  | .kept _ e => Passes registered .data taken e
  | .swallowed e => Passes registered .data taken (some e)
  | .returned (.pipe p) e => Passes registered p taken e
  | _ => taken = none

variable {alloc : PipeName → Nat → Option TreeNode} {utcNow : Nat → Nat} {b : EventBus Store} {c c' : Caller Store}
variable {trace before after : List Moment} {m : Moment} {l : Bus.Label} {p : PipeName} {q : Nat} {e : Event}
variable {t : PipeName → Shape} {found found' : PipeName → Bool} {taken : Option (Nat × Event)}

section Queues
variable {s s' : World} {st : Store} {r : Option Event}

theorem upcomingClosed (front : upcoming s = some (q,e)) (closing : LastClosing s) : e.type = .kOnQueueClosed := by
  have peek := upcomingAt front
  obtain ⟨⟨s₁,current⟩,taken,front⟩ := Option.bind_eq_some_iff.mp front
  obtain ⟨a,here,front⟩ := Option.bind_eq_some_iff.mp front
  obtain ⟨n,node,front⟩ := Option.bind_eq_some_iff.mp front
  obtain ⟨e',_,front⟩ := Option.bind_eq_some_iff.mp front
  cases front
  have loaded : s₁.load current = .ok n := by
    rw [show current = some a from here]
    exact loadSome node
  obtain ⟨_,e',peek',type⟩ := closingTaken closing (okOption taken) loaded
  cases peek.symm.trans peek'
  exact type

theorem readTakes {loop : EventBusMode} (here : c.point = .read loop p)
    (got : (storePipes noAsserts alloc).read p c.bus.pipes = .ok (st,some e)) : ∃ q front,
      takes alloc c = some (q,front) ∧
      contents (c.bus.pipes.queues q) = front :: contents (eventQueuePop (c.bus.pipes.queues q)).1 ∧
      st.queues = Function.update c.bus.pipes.queues q (eventQueuePop (c.bus.pipes.queues q)).1 ∧
      (some e = some front ∨ front.type = .kOnQueueClosed ∧ some e = some newOnSimulationStopEvent) := by
  obtain ⟨w,tree,ready,queues,read,same⟩ := pipeReadTaken got
  have ahead : takes alloc c = upcoming w.toWorld := by rw [takes,here]; simp only [ready]; rfl
  rw [← queues,same]
  cases read with
  | passed front goesOn popped => exact ⟨_,_,ahead.trans front,peekFront (upcomingAt front),popped,.inl rfl⟩
  | replaced front closing popped =>
    exact ⟨_,_,ahead.trans front,peekFront (upcomingAt front),popped,.inr ⟨upcomingClosed front closing,rfl⟩⟩

end Queues

section Accounts

def Gives (p : PipeName) (r : Option Event) : Bus.Label → Prop
  | .kept _ e => p = .data ∧ e = r
  | .swallowed e => p = .data ∧ some e = r
  | .returned (.pipe p') e => p' = p ∧ e = r
  | _ => False

theorem dequeueReads {loop : EventBusMode} (here : c.point = .read loop p)
    (done : dequeueStep (storePipes noAsserts alloc) utcNow c = .ok (l,c')) :
    ∃ r, (storePipes noAsserts alloc).read p c.bus.pipes = .ok (c'.bus.pipes,r) ∧ Gives p r l := by
  have all := dequeueCases done
  obtain ⟨b,point⟩ := c
  obtain ⟨b',point'⟩ := c'
  cases here
  cases all with
  | swallow got | lookAhead _ got | keep got | read _ got => exact ⟨_,got,rfl,rfl⟩

theorem dequeueElse (away : ∀ loop p, c.point ≠ .read loop p)
    (done : dequeueStep (storePipes noAsserts alloc) utcNow c = .ok (l,c')) (registered : PipeName → Nat → Prop) :
    c'.bus.pipes.queues = c.bus.pipes.queues ∧ takes alloc c = none ∧ Hands registered none l := by
  have all := dequeueCases done
  obtain ⟨b,point⟩ := c
  obtain ⟨b',point'⟩ := c'
  dsimp only at all
  cases all with
  | check asked => exact ⟨pipeIsEmptyQueues asked,rfl,rfl⟩
  | swallow | lookAhead | keep | read => exact absurd rfl (away _ _)
  | _ => exact ⟨rfl,rfl,rfl⟩

theorem givesHands {r : Option Event} {registered : PipeName → Nat → Prop} (gives : Gives p r l)
    (passes : Passes registered p taken r) : Hands registered taken l := by
  cases l with
  | kept loop e =>
    obtain ⟨rfl,rfl⟩ := gives
    exact passes
  | swallowed e =>
    obtain ⟨rfl,rfl⟩ := gives
    exact passes
  | returned source e =>
    cases source with
    | pipe p' =>
      obtain ⟨rfl,rfl⟩ := gives
      exact passes
    | _ => cases gives
  | _ => cases gives

theorem passesMono {registered registered' : PipeName → Nat → Prop} {r : Option Event}
    (more : ∀ p q, registered p q → registered' p q) (passes : Passes registered p taken r) :
    Passes registered' p taken r := by
  obtain ⟨q,front,same,known,handed⟩ := passes
  exact ⟨q,front,same,more p q known,handed⟩

theorem handsMono {registered registered' : PipeName → Nat → Prop} (more : ∀ p q, registered p q → registered' p q)
    (hands : Hands registered taken l) : Hands registered' taken l := by
  cases l with
  | kept | swallowed => exact passesMono more hands
  | returned source e =>
    cases source with
    | pipe p => exact passesMono more hands
    | _ => exact hands
  | _ => exact hands

def Registered (trace : List Moment) (p : PipeName) (q : Nat) : Prop := .registered q p ∈ trace

theorem pushedSnoc (q : Nat) (trace : List Moment) (m : Moment) :
    pushedTo q (trace ++ [m]) = pushedTo q trace ++ pushedTo q [m] := List.flatMap_append

theorem takenSnoc (q : Nat) (trace : List Moment) (m : Moment) :
    takenFrom q (trace ++ [m]) = takenFrom q trace ++ takenFrom q [m] := List.flatMap_append

structure Served (b : EventBus Store) (trace : List Moment) (c : Caller Store) (t : PipeName → Shape)
    (found : PipeName → Bool) : Prop where
  sound : Sound c t found
  known : ∀ p q, some q ∈ claimed (pipeWorld c.bus.pipes p) (t p) → Registered trace p q
  hands : ∀ l taken, .call l taken ∈ trace → Hands (Registered trace) taken l
  queues : ∀ q, contents (b.pipes.queues q) ++ pushedTo q trace = takenFrom q trace ++ contents (c.bus.pipes.queues q)

theorem servedStep {t' : PipeName → Shape} (served : Served b trace c t found)
    (sound : Sound c' t' found')
    (known : ∀ p q, some q ∈ claimed (pipeWorld c'.bus.pipes p) (t' p) → m = .registered q p ∨
      some q ∈ claimed (pipeWorld c.bus.pipes p) (t p))
    (hands : ∀ l taken, m = .call l taken → Hands (Registered trace) taken l)
    (queues : ∀ q, contents (c.bus.pipes.queues q) ++ pushedTo q [m] =
      takenFrom q [m] ++ contents (c'.bus.pipes.queues q)) : Served b (trace ++ [m]) c' t' found' := by
  have longer (p : PipeName) (q : Nat) (before : Registered trace p q) : Registered (trace ++ [m]) p q :=
    List.mem_append_left _ before
  refine ⟨sound,fun p q mem => ?_,fun l taken mem => ?_,fun q => ?_⟩
  · rcases known p q mem with rfl | mem
    · exact List.mem_append_right _ List.mem_cons_self
    · exact longer p q (served.known p q mem)
  · rcases List.mem_append.mp mem with mem | mem
    · exact handsMono longer (served.hands l taken mem)
    · exact handsMono longer (hands l taken (List.mem_singleton.mp mem).symm)
  · rw [pushedSnoc,takenSnoc,← List.append_assoc,served.queues q,List.append_assoc,queues q,List.append_assoc]

theorem pushQueues (c : Caller Store) (q : Nat) (e : Event) (i : Nat) :
    contents (c.bus.pipes.queues i) ++ pushedTo i [.pushed q e (BusStore.pushTo c.bus.pipes q e).2] =
      contents ((BusStore.pushTo c.bus.pipes q e).1.queues i) := by
  by_cases same : q = i
  · subst same
    rw [show (BusStore.pushTo c.bus.pipes q e).1.queues q = (eventQueuePush (c.bus.pipes.queues q) e).queue from
      Function.update_self ..]
    cases ret : (eventQueuePush (c.bus.pipes.queues q) e).ret with
    | true => rw [pushTrue ret]; simp [pushedTo,BusStore.pushTo,ret]
    | false => rw [pushFalse ret]; simp [pushedTo,BusStore.pushTo,ret]
  · rw [show (BusStore.pushTo c.bus.pipes q e).1.queues i = c.bus.pipes.queues i from
      Function.update_of_ne (Ne.symm same) ..]
    cases ret : (BusStore.pushTo c.bus.pipes q e).2 <;> simp [pushedTo,same]

theorem freshClaims (fresh : FreshPipe (b.pipes.pipes p)) : claimed (pipeWorld b.pipes p) .leaf = [] := by
  rw [claimed,EventTreeTracked.names,EventTreeTracked.held,show (pipeWorld b.pipes p).last = none from fresh.last,
    show pending (pipeWorld b.pipes p) = [] from fresh.none]
  rfl

theorem popOnce {queues : Nat → EventQueue} {q q' : Nat} {front : Event}
    (full : contents (queues q') = front :: contents (eventQueuePop (queues q')).1)
    (same : Function.update queues q (eventQueuePop (queues q)).1 =
      Function.update queues q' (eventQueuePop (queues q')).1) : q = q' := by
  by_contra other
  have kept := congrFun same q'
  rw [Function.update_self,Function.update_of_ne (Ne.symm other)] at kept
  rw [← kept] at full
  exact absurd full.symm (List.cons_ne_self front _)

theorem accessTakes (looks : Looks alloc c t found found')
    (done : dequeueStep (storePipes noAsserts alloc) utcNow c = .ok (l,c')) :
    Hands (fun p q => some q ∈ claimed (pipeWorld c.bus.pipes p) (t p)) (takes alloc c) l ∧
    ∀ q, contents (c.bus.pipes.queues q) =
      takenFrom q [.call l (takes alloc c)] ++ contents (c'.bus.pipes.queues q) := by
  have quiet (away : ∀ loop p, c.point ≠ .read loop p) :
      Hands (fun p q => some q ∈ claimed (pipeWorld c.bus.pipes p) (t p)) (takes alloc c) l ∧
      ∀ q, contents (c.bus.pipes.queues q) =
        takenFrom q [.call l (takes alloc c)] ++ contents (c'.bus.pipes.queues q) := by
    obtain ⟨queues,none,hands⟩ :=
      dequeueElse away done (fun p q => some q ∈ claimed (pipeWorld c.bus.pipes p) (t p))
    rw [none,queues]
    exact ⟨hands,fun q => rfl⟩
  cases looks with
  | checked here => exact quiet (by simp [here])
  | neither _ away => exact quiet away
  | read here due got mine popped =>
    obtain ⟨r,got',gives⟩ := dequeueReads here done
    cases got.symm.trans got'
    obtain ⟨q,front,ahead,full,queues,handed⟩ := readTakes here got
    rw [popOnce full (popped.symm.trans queues)] at mine
    rw [ahead,queues]
    refine ⟨givesHands gives ⟨q,front,rfl,mine,handed⟩,fun i => ?_⟩
    by_cases same : i = q
    · subst same
      rw [Function.update_self]
      simpa [takenFrom] using full
    · rw [Function.update_of_ne same]
      simp [takenFrom,Ne.symm same]

theorem runServed (clean : ∀ p, CleanNodes (alloc p)) (fresh : ∀ p, FreshPipe (b.pipes.pipes p))
    (run : Run (Step alloc utcNow) ⟨b,.outside⟩ trace c) : ∃ t found, Served b trace c t found := by
  induction run with
  | nil =>
    have inv := BusRealtime.freshInv b fresh
    refine ⟨_,_,freshSound b fresh,fun p q mem => ?_,by simp,fun q => List.append_nil _⟩
    rw [freshClaims (fresh p)] at mem
    cases mem
  | @snoc trace c m c' before last ih =>
    obtain ⟨t,found,served⟩ := ih
    obtain ⟨turn,allowed,done⟩ := last
    cases turn with
    | addQueue owner q pipe =>
      obtain ⟨store,t',added,sound,origin⟩ := addSound clean served.sound allowed
      obtain ⟨r,added',same⟩ := bindOk done
      cases added.symm.trans added'
      cases same
      refine ⟨t',found,servedStep served sound (fun p i mem => ?_) (by simp) (fun i => ?_)⟩
      · refine (origin p _ mem).imp (fun ⟨here,same⟩ => ?_) id
        cases same
        rw [here]
      · rw [show store.queues = c.bus.pipes.queues from (addQueueKeeps added).1]
        exact List.append_nil _
    | push q e =>
      cases done
      refine ⟨t,found,servedStep served (pushSound served.sound q e) (fun p i mem => .inr mem) (by simp) (fun i => ?_)⟩
      exact pushQueues c q e i
    | setMode mode =>
      cases done
      have sound : Sound {c with bus := eventBusSetMode c.bus mode} t found :=
        ⟨served.sound.store,served.sound.ready,served.sound.reads⟩
      exact ⟨t,found,servedStep served sound (fun p i mem => .inr mem) (by simp) (fun i => List.append_nil _)⟩
    | dequeue =>
      obtain ⟨l,c'',t',found',ran,sound,within,looks⟩ := dequeueSound clean utcNow served.sound
      obtain ⟨r,ran',same⟩ := bindOk done
      cases ran.symm.trans ran'
      cases same
      obtain ⟨hands,queues⟩ := accessTakes looks ran
      refine ⟨t',found',servedStep served sound (fun p i mem => .inr (within p _ mem)) (fun l taken same => ?_)
        (fun i => ?_)⟩
      · cases same
        exact handsMono served.known hands
      · rw [← queues i]
        exact List.append_nil _

end Accounts

section Laws
variable {schedule moves : List BusSchedule.Moment} {start : EventBus BusSchedule.Sources} {x : BusSchedule.Moment}
variable {source : Source}

theorem dataQuiet (schedule : List BusSchedule.Moment) : dataReads (schedule.flatMap quiet) = dataReads schedule := by
  rw [dataReads,List.flatMap_assoc]
  exact List.flatMap_congr (fun m _ => by cases m <;> simp [quiet])

theorem aheadQuiet (schedule : List BusSchedule.Moment) :
    lookedAhead (schedule.flatMap quiet) = lookedAhead schedule := by
  rw [lookedAhead,dataQuiet,lookedAhead]

theorem returnedQuiet (source : Source) (schedule : List BusSchedule.Moment) :
    returnedFrom source (schedule.flatMap quiet) = returnedFrom source schedule := by
  rw [returnedFrom,List.flatMap_assoc]
  exact List.flatMap_congr (fun m _ => by cases m <;> simp [quiet])

theorem stopQuiet (flag : Bool) (schedule : List BusSchedule.Moment) :
    stopPending flag (schedule.flatMap quiet) = stopPending flag schedule := by
  induction schedule using List.reverseRecOn with
  | nil => rfl
  | append_singleton schedule m ih =>
    rw [List.flatMap_append,List.flatMap_singleton,BusSchedule.stopSnoc flag schedule m,← ih]
    cases m with
    | arrived p e => rw [quiet,List.append_nil]; rfl
    | _ => exact BusSchedule.stopSnoc flag _ _

theorem passQuiet (schedule : List BusSchedule.Moment) :
    pass (schedule.flatMap quiet) = (pass schedule).flatMap quiet := by
  induction schedule using List.reverseRecOn with
  | nil => rfl
  | append_singleton schedule m ih =>
    rw [List.flatMap_append,List.flatMap_singleton,BusSchedule.passSnoc schedule m]
    cases m with
    | arrived p e => simp [quiet,opensPass,ih]
    | mode mode => rw [quiet,BusSchedule.passSnoc]; simp [opensPass,ih,quiet]
    | call l =>
      rw [quiet,BusSchedule.passSnoc]
      split
      · rfl
      · simp [ih,quiet]

theorem clearedQuiet (schedule : List BusSchedule.Moment) (source : Source) :
    Cleared (schedule.flatMap quiet) source ↔ Cleared schedule source := by
  refine forall_congr' (fun higher => imp_congr_right (fun _ => ?_))
  rw [passQuiet,List.mem_flatMap]
  constructor
  · rintro ⟨m,mem,shown⟩
    cases m with
    | arrived | mode => simp [quiet] at shown
    | call l =>
      cases List.mem_singleton.mp shown
      exact mem
  · exact fun mem => ⟨_,mem,List.mem_singleton_self _⟩

theorem lawfulQuiet (schedule : List BusSchedule.Moment) (m : BusSchedule.Moment) :
    Lawful start (schedule.flatMap quiet) m ↔ Lawful start schedule m := by
  cases m with
  | call l => cases l <;> simp only [Lawful,aheadQuiet,returnedQuiet,clearedQuiet,stopQuiet]
  | _ => rfl

theorem quietSplit (shown : moves.flatMap quiet = [x]) :
    ∃ first rest, moves = first ++ x :: rest ∧ first.flatMap quiet = [] := by
  induction moves with
  | nil => cases shown
  | cons m moves ih =>
    rw [List.flatMap_cons] at shown
    cases m with
    | arrived p e =>
      obtain ⟨first,rest,rfl,silent⟩ := ih shown
      exact ⟨.arrived p e :: first,rest,rfl,silent⟩
    | _ =>
      cases (List.cons.inj shown).1
      exact ⟨[],moves,rfl,rfl⟩

theorem stepLawful (clean : ∀ p, CleanNodes (alloc p)) (fresh : ∀ p, FreshPipe (b.pipes.pipes p))
    (run : Run (Step alloc utcNow) ⟨b,.outside⟩ before c) (step : Step alloc utcNow c (.call l taken) c') :
    Lawful (withPipes b (fun _ => [])) (before.flatMap heard) (.call l) := by
  obtain ⟨states,stands,reached⟩ := standsRun clean fresh run
  obtain ⟨states',stands',follows⟩ := stepFollows clean stands step
  obtain ⟨left,mem⟩ := someState stands'
  obtain ⟨s,mem,moves,onward,shown⟩ := follows _ mem
  obtain ⟨schedule,upTo,same⟩ := reached s mem
  obtain ⟨first,rest,rfl,silent⟩ := quietSplit shown
  rw [List.append_cons] at onward
  obtain ⟨s₂,onward,_⟩ := Base.Trace.runSplit _ rest onward
  obtain ⟨s₁,arrivals,last⟩ := Base.Trace.runSnocInv onward
  have lawful := BusSchedule.stepLawful (BusSchedule.runInv (Base.Trace.runAppend upTo arrivals)) last
  rwa [← lawfulQuiet,List.flatMap_append,same,silent,List.append_nil] at lawful

theorem savedBalance (clean : ∀ p, CleanNodes (alloc p)) (sound : BusSystem.Sound ⟨b,.outside⟩ t (fun _ => false))
    (run : Run (Step alloc utcNow) ⟨b,.outside⟩ trace c) :
    b.savedEvent.toList ++ lookedAhead (trace.flatMap heard) =
      returnedFrom .saved (trace.flatMap heard) ++ c.bus.savedEvent.toList := by
  obtain ⟨states,stands,reached⟩ := standsFrom clean sound run
  obtain ⟨left,mem⟩ := someState stands
  obtain ⟨schedule,run',same⟩ := reached _ mem
  rw [← same,aheadQuiet,returnedQuiet]
  exact (BusSchedule.runInv run').saved

end Laws

end Qtl.BusServes
