import Qtl.BusServes
import Qtl.EventTreeLocal
import Qtl.EventTreeStream

/-! What a run of the bus is to one pipe: a run of the pipe's tree, in which nothing that
the other pipes do is seen. -/
namespace Qtl.BusPart
open Queue EventTreeShape EventTreeRun EventTreeTaken EventTreeLocal EventTreeAtomic Pipe Bus PipeTracked BusSystem
open EventTree (TreeNode World)
open EventTreeTracked (names)
open EventTreeMerge (Scheduled)
open BusStore (EventBusPipe Store storePipes pipeWorld putPipe pipeWorldPut)
open BusRealtime (Registered pipeWorldOther registeredClaimed)
open BusServes (pushedTo)
open Base.Trace (Run)

def treeOf (c : Caller Store) (p : PipeName) : World := (pipeWorld c.bus.pipes p).toWorld

def handed (p : PipeName) : Bus.Label → List Event
  | .kept _ e => if p = .data then e.toList else []
  | .swallowed e => if p = .data then [e] else []
  | .returned (.pipe p') e => if p' = p then e.toList else []
  | _ => []

def handedBy (p : PipeName) (trace : List BusSystem.Moment) : List Event := trace.flatMap (fun
  | .call l _ => handed p l
  | _ => [])

variable {alloc : PipeName → Nat → Option TreeNode} {utcNow : Nat → Nat} {c c' : Caller Store} {p : PipeName}
variable {t t' : PipeName → Shape} {found found' : PipeName → Bool} {queues queues' : Nat → EventQueue}
variable {m : BusSystem.Moment} {l : Bus.Label} {labels : List EventTreeRun.Label} {q : Nat}

def part (p : PipeName) (c : Caller Store) (found : PipeName → Bool) (queues : Nat → EventQueue) : Cfg :=
  holding queues ⟨treeOf c p,found p⟩

/-- The tree over `queues` is the pipe's in the bus, as far as its own queues go. -/
structure Projects (p : PipeName) (c : Caller Store) (t : PipeName → Shape) (found : PipeName → Bool)
    (queues : Nat → EventQueue) : Prop where
  sound : BusSystem.Sound c t found
  bare : pending (pipeWorld c.bus.pipes p) = []
  agree : Agree (Has (treeOf c p) (t p)) c.bus.pipes.queues queues

structure Told (p : PipeName) (c : Caller Store) (t : PipeName → Shape) (m : BusSystem.Moment) (c' : Caller Store)
    (t' : PipeName → Shape) (labels : List EventTreeRun.Label) : Prop where
  fewer : ∀ q, Has (treeOf c' p) (t' p) q → Has (treeOf c p) (t p) q
  heard : ∀ q, Has (treeOf c p) (t p) q → EventTreeMerge.pushedTo q labels = pushedTo q [m]
  deaf : ∀ q, ¬ Has (treeOf c p) (t p) q → EventTreeMerge.pushedTo q labels = []
  events : EventTreeStream.returned labels = handedBy p [m]

def Follows (p : PipeName) (c : Caller Store) (t : PipeName → Shape)
    (found : PipeName → Bool) (queues : Nat → EventQueue) (m : BusSystem.Moment) (c' : Caller Store) : Prop :=
  ∃ t' found' queues' labels, Run (EventTreeRun.Step Scheduled noAsserts) (part p c found queues) labels
    (part p c' found' queues') ∧ Projects p c' t' found' queues' ∧ Told p c t m c' t' labels

theorem hasClaimed (bare : pending (pipeWorld c.bus.pipes p) = []) :
    Has (treeOf c p) (t p) q ↔ some q ∈ claimed (pipeWorld c.bus.pipes p) (t p) := by
  rw [claimed,bare,List.map_nil,List.append_nil]
  rfl

theorem pushedOne (q q' : Nat) (e : Event) (ret : Bool) :
    pushedTo q [.pushed q' e ret] = if q' = q ∧ ret = true then [e] else [] := by
  cases ret <;> by_cases same : q' = q <;> simp [pushedTo,same]

theorem toldOne (q q' : Nat) (e : Event) (ret : Bool) :
    EventTreeMerge.pushedTo q [.push q' e ret] = if q' = q ∧ ret = true then [e] else [] := by
  cases ret <;> by_cases same : q' = q <;> simp [EventTreeMerge.pushedTo,same]

theorem hasRegistered (sound : BusSystem.Sound c t found) (bare : pending (pipeWorld c.bus.pipes p) = [])
    (mine : Has (treeOf c p) (t p) q) : Registered (pipeWorld c.bus.pipes p) q :=
  (registeredClaimed (sound.store.pipe p)).mpr ((hasClaimed bare).mp mine)

section Steps

theorem apartFollows (projects : Projects p c t found queues) (sound : BusSystem.Sound c' t' found')
    (same : pipeWorld c'.bus.pipes p = {pipeWorld c.bus.pipes p with queues := c'.bus.pipes.queues})
    (waits : found' p = found p) (fewer : ∀ q, Has (treeOf c' p) (t' p) q → Has (treeOf c p) (t p) q)
    (own : ∀ q, Has (treeOf c p) (t p) q → c'.bus.pipes.queues q = c.bus.pipes.queues q ∧ pushedTo q [m] = [])
    (events : handedBy p [m] = []) : Follows p c t found queues m c' := by
  have still : part p c' found' queues = part p c found queues := by
    rw [part,part,treeOf,same,waits]
    rfl
  refine ⟨t',found',queues,[],by rw [still]; exact .nil,⟨sound,?_,fun q mine => ?_⟩,fewer,fun q mine => ?_,
    fun _ _ => rfl,events.symm⟩
  · rw [same]
    exact projects.bare
  · exact (own q (fewer q mine)).1.trans (projects.agree q (fewer q mine))
  · exact (own q mine).2.symm

theorem withinFewer (bare : pending (pipeWorld c.bus.pipes p) = []) (within : Within c.bus.pipes t c'.bus.pipes t')
    (q : Nat) (mine : Has (treeOf c' p) (t' p) q) : Has (treeOf c p) (t p) q :=
  (hasClaimed bare).mpr (within p (some q) (List.mem_append_left _ mine))

theorem addFollows (clean : ∀ p, CleanNodes (alloc p)) (projects : Projects p c t found queues) {owner : Bool}
    {pipe : EventBusPipe} (allowed : Allowed c (.addQueue owner q pipe)) (other : pipe.name ≠ p)
    (done : turnStep alloc utcNow c (.addQueue owner q pipe) = .ok (m,c')) : Follows p c t found queues m c' := by
  obtain ⟨store,t',added,sound,origin⟩ := addSound clean projects.sound allowed
  obtain ⟨r,added',same⟩ := bindOk done
  cases added.symm.trans added'
  cases same
  obtain ⟨w,_,put⟩ := bindOk added
  cases put
  refine apartFollows projects sound ?_ rfl (fun q' mine => ?_) (fun _ _ => ⟨?_,rfl⟩) rfl
  · exact pipeWorldOther (Ne.symm other)
  · rcases origin p (some q') (List.mem_append_left _ mine) with ⟨here,_⟩ | inside
    · exact absurd here.symm other
    · exact (hasClaimed projects.bare).mpr inside
  · exact congrFun (BusOwnership.addQueueKeeps added).1 _

theorem pushFollows (projects : Projects p c t found queues) (q : Nat) (e : Event)
    (done : turnStep alloc utcNow c (.push q e) = .ok (m,c')) : Follows p c t found queues m c' := by
  cases done
  have sound := pushSound projects.sound q e
  by_cases mine : Has (treeOf c p) (t p) q
  · have same : queues q = c.bus.pipes.queues q := (projects.agree q mine).symm
    refine ⟨t,found,Function.update queues q (eventQueuePush (queues q) e).queue,
      [.push q e (eventQueuePush (queues q) e).ret],Base.Trace.runSingle ⟨.push q e,trivial,rfl⟩,
      ⟨sound,projects.bare,fun q' mine' => ?_⟩,fun _ => id,
      fun q' _ => ?_,fun q' away => ?_,rfl⟩
    · by_cases here : q' = q
      · subst here
        rw [Function.update_self,same]
        exact Function.update_self ..
      · rw [Function.update_of_ne here]
        exact (Function.update_of_ne here ..).trans (projects.agree q' mine')
    · rw [toldOne,pushedOne,same]
    · have other : q ≠ q' := by
        rintro rfl
        exact away mine
      rw [toldOne,if_neg (fun both => other both.1)]
  · refine apartFollows projects sound rfl rfl (fun _ => id) (fun q' mine' => ?_) rfl
    have other : q ≠ q' := by
      rintro rfl
      exact mine mine'
    exact ⟨Function.update_of_ne (Ne.symm other) ..,by rw [pushedOne,if_neg (fun both => other both.1)]⟩

theorem modeFollows (projects : Projects p c t found queues) (mode : EventBusMode)
    (done : turnStep alloc utcNow c (.setMode mode) = .ok (m,c')) : Follows p c t found queues m c' := by
  cases done
  exact apartFollows projects ⟨projects.sound.store,projects.sound.ready,projects.sound.reads⟩ rfl rfl (fun _ => id)
    (fun _ _ => ⟨rfl,rfl⟩) rfl

theorem otherFollows (projects : Projects p c t found queues) {p₁ : PipeName} (other : p₁ ≠ p) {w : PipeWorld}
    {taken : Option (Nat × Event)} (sound : BusSystem.Sound c' t' found')
    (within : Within c.bus.pipes t c'.bus.pipes t') (same : c'.bus.pipes = putPipe c.bus.pipes p₁ w) (waits : found' p = found p)
    (own : ∀ q, Has (treeOf c p) (t p) q → w.queues q = c.bus.pipes.queues q) (events : handed p l = []) :
    Follows p c t found queues (.call l taken) c' := by
  refine apartFollows projects sound ?_ waits (withinFewer projects.bare within) (fun q mine => ⟨?_,rfl⟩) ?_
  · rw [same]
    exact pipeWorldOther (Ne.symm other)
  · rw [same]
    exact own q mine
  · simp [handedBy,events]

theorem drainBare {alloc : Nat → Option TreeNode} {w : PipeWorld} (bare : pending w = []) :
    processPendingAdd noAsserts alloc w.pendingAdd.capacity w = .ok w := by
  have room : 0 < w.pendingAdd.capacity := Nat.lt_of_lt_of_le Nat.zero_lt_two w.pendingOk.two
  obtain ⟨fuel,same⟩ := Nat.exists_eq_succ_of_ne_zero (Nat.ne_of_gt room)
  rw [same]
  exact processNone (pendingNone.mp bare)

theorem bareAsk {store : Store} {empty : Bool} (bare : pending (pipeWorld c.bus.pipes p) = [])
    (asked : (storePipes noAsserts alloc).isEmpty p c.bus.pipes = .ok (store,empty)) :
    ∃ s, EventTree.eventTreeIsEmpty noAsserts (treeOf c p) = .ok (s,empty) ∧
      store = putPipe c.bus.pipes p {pipeWorld c.bus.pipes p with toWorld := s} := by
  obtain ⟨⟨w,_⟩,asked,put⟩ := bindOk asked
  obtain ⟨w₁,drained,asked⟩ := bindOk asked
  obtain ⟨⟨s,_⟩,lifted,made⟩ := bindOk asked
  cases put
  cases made
  cases drained.symm.trans (drainBare bare)
  exact ⟨s,liftOk lifted,rfl⟩

theorem bareRead {store : Store} {e : Option Event} (bare : pending (pipeWorld c.bus.pipes p) = [])
    (got : (storePipes noAsserts alloc).read p c.bus.pipes = .ok (store,e)) :
    ∃ s, EventTree.eventTreeRead noAsserts (treeOf c p) = .ok (s,e) ∧
      store = putPipe c.bus.pipes p {pipeWorld c.bus.pipes p with toWorld := s} := by
  obtain ⟨⟨w,_⟩,got,put⟩ := bindOk got
  obtain ⟨w₁,drained,got⟩ := bindOk got
  obtain ⟨⟨s,_⟩,lifted,made⟩ := bindOk got
  cases put
  cases made
  cases drained.symm.trans (drainBare bare)
  exact ⟨s,liftOk lifted,rfl⟩

def eventOf : Reply → List Event
  | .read e => [e]
  | _ => []

theorem answered {label : EventTreeRun.Label} {answer : Reply} (seen : reply label = some answer) :
    EventTreeStream.returned [label] = eventOf answer ∧ ∀ q, EventTreeMerge.pushedTo q [label] = [] := by
  cases label <;> cases seen <;> exact ⟨rfl,fun _ => rfl⟩

theorem ownFollows (projects : Projects p c t found queues) {order : Order} (looks : order = .isEmpty ∨ order = .read)
    {s : World} {g : Bool} {label : EventTreeRun.Label} {answer : Reply} {taken : Option (Nat × Event)}
    (guarded : order.action = .read → found p = true)
    (performed : perform noAsserts ⟨treeOf c p,found p⟩ order.action = .ok (label,⟨s,g⟩))
    (seen : reply label = some answer) (events : handed p l = eventOf answer)
    (sound : BusSystem.Sound c' t' found') (within : Within c.bus.pipes t c'.bus.pipes t')
    (same : c'.bus.pipes = putPipe c.bus.pipes p {pipeWorld c.bus.pipes p with toWorld := s}) (waits : found' p = g) :
    Follows p c t found queues (.call l taken) c' := by
  have tracked := (projects.sound.store.pipe p).tracked
  obtain ⟨queues',label',performed',again,agree⟩ := localStep tracked looks guarded performed projects.agree
  obtain ⟨returned,silent⟩ := answered (again.trans seen)
  have here : pipeWorld c'.bus.pipes p = {pipeWorld c.bus.pipes p with toWorld := s} := by rw [same,pipeWorldPut]
  have fewer := withinFewer projects.bare within
  have moved : part p c' found' queues' = holding queues' ⟨s,g⟩ := by rw [part,treeOf,here,waits]
  have allowed : Scheduled (holding queues ⟨treeOf c p,found p⟩).world order.action := by
    rcases looks with rfl | rfl <;> trivial
  refine ⟨t',found',queues',[label'],by rw [moved]; exact Base.Trace.runSingle ⟨_,allowed,performed'⟩,
    ⟨sound,by rw [here]; exact projects.bare,fun q mine => ?_⟩,fewer,fun q _ => silent q,fun q _ => silent q,?_⟩
  · rw [same]
    exact agree q (fewer q mine)
  · rw [returned,← events]
    exact (List.append_nil _).symm

theorem checkFollows (projects : Projects p c t found queues) {p₁ : PipeName} {store : Store} {empty : Bool}
    {taken : Option (Nat × Event)}
    (asked : (storePipes noAsserts alloc).isEmpty p₁ c.bus.pipes = .ok (store,empty))
    (again : found p₁ = true → empty = false) (same : c'.bus.pipes = store)
    (sound : BusSystem.Sound c' t' (Function.update found p₁ (found p₁ || !empty)))
    (within : Within c.bus.pipes t c'.bus.pipes t') :
    Follows p c t found queues (.call (.found (.pipe p₁) empty) taken) c' := by
  by_cases here : p₁ = p
  · subst here
    obtain ⟨s,asked,put⟩ := bareAsk projects.bare asked
    have performed : perform noAsserts ⟨treeOf c p₁,found p₁⟩ .isEmpty = .ok (.isEmpty empty,⟨s,!empty⟩) := by
      simp [perform,asked]
    refine ownFollows projects (.inl rfl) (by simp [Order.action]) performed rfl rfl sound within (same.trans put) ?_
    rw [Function.update_self]
    cases due : found p₁ with
    | false => rfl
    | true => rw [again due]; rfl
  · obtain ⟨⟨w,_⟩,asked',put⟩ := bindOk asked
    cases put
    refine otherFollows projects here sound within same (Function.update_of_ne (Ne.symm here) ..) (fun q _ => ?_) rfl
    exact congrFun (BusOwnership.pipeIsEmptyQueues asked) q

theorem readFollows (projects : Projects p c t found queues) {p₁ : PipeName} {store : Store}
    {e : Event} {taken : Option (Nat × Event)} (due : found p₁ = true)
    (got : (storePipes noAsserts alloc).read p₁ c.bus.pipes = .ok (store,some e))
    (mine : some q ∈ claimed (pipeWorld c.bus.pipes p₁) (t p₁))
    (popped : store.queues = Function.update c.bus.pipes.queues q (eventQueuePop (c.bus.pipes.queues q)).1)
    (same : c'.bus.pipes = store) (sound : BusSystem.Sound c' t' (Function.update found p₁ false))
    (within : Within c.bus.pipes t c'.bus.pipes t') (handsOver : ∀ p, handed p l = if p₁ = p then [e] else []) :
    Follows p c t found queues (.call l taken) c' := by
  by_cases here : p₁ = p
  · subst here
    obtain ⟨s,read,put⟩ := bareRead projects.bare got
    have ahead : ∃ q' front, upcoming (treeOf c p₁) = some (q',front) := by
      cases treeRead read with
      | passed front => exact ⟨_,_,front⟩
      | replaced front => exact ⟨_,_,front⟩
    obtain ⟨q',front,ahead⟩ := ahead
    have performed : perform noAsserts ⟨treeOf c p₁,found p₁⟩ .read = .ok (.read q' front e,⟨s,false⟩) := by
      simp [perform,due,read,ahead]
    refine ownFollows projects (.inr rfl) (fun _ => due) performed rfl ?_ sound within (same.trans put)
      (Function.update_self ..)
    rw [handsOver,if_pos rfl]
    rfl
  · obtain ⟨⟨w,_⟩,_,put⟩ := bindOk got
    cases put
    refine otherFollows projects here sound within same (Function.update_of_ne (Ne.symm here) ..) (fun q' own => ?_)
      (by rw [handsOver,if_neg here])
    have other : q' ≠ q := by
      rintro rfl
      exact projects.sound.store.apart p₁ p here _ mine ((hasClaimed projects.bare).mp own)
    exact (congrFun popped q').trans (Function.update_of_ne other ..)

theorem readHands {loop : EventBusMode} {p₁ : PipeName} {store : Store} {e : Event} (here : c.point = .read loop p₁)
    (got : (storePipes noAsserts alloc).read p₁ c.bus.pipes = .ok (store,some e))
    (done : dequeueStep (storePipes noAsserts alloc) utcNow c = .ok (l,c')) :
    c'.bus.pipes = store ∧ ∀ p, handed p l = if p₁ = p then [e] else [] := by
  obtain ⟨b,point⟩ := c
  cases here
  by_cases data : p₁ = .data
  · subst data
    rw [dataRead got] at done
    unfold keepData at done
    cases loop with
    | kRealtime =>
      cases done
      exact ⟨rfl,fun p => by simp only [handed,eq_comm]; rfl⟩
    | kSimulation =>
      dsimp only at done
      split at done
      · cases done
        exact ⟨rfl,fun p => by simp only [handed,eq_comm]⟩
      · obtain ⟨n,looked⟩ := getDatetimeKeeps utcNow {b with pipes := store}
        rw [looked] at done
        cases done
        exact ⟨rfl,fun p => by simp only [handed,eq_comm]; rfl⟩
  · rw [pipeRead data got] at done
    cases done
    exact ⟨rfl,fun _ => rfl⟩

theorem neitherHands (checks : ∀ loop p, c.point ≠ .check loop p) (reads : ∀ loop p, c.point ≠ .read loop p)
    (done : dequeueStep (storePipes noAsserts alloc) utcNow c = .ok (l,c')) :
    c'.bus.pipes = c.bus.pipes ∧ ∀ p, handed p l = [] := by
  have cases' := dequeueCases done
  generalize c.point = point at cases' checks reads
  generalize c'.bus = b' at cases' ⊢
  generalize c'.point = point' at cases'
  cases cases' with
  | check => exact absurd rfl (checks _ _)
  | swallow => exact absurd rfl (reads _ _)
  | lookAhead => exact absurd rfl (reads _ _)
  | keep => exact absurd rfl (reads _ _)
  | read => exact absurd rfl (reads _ _)
  | _ => exact ⟨rfl,fun _ => rfl⟩

theorem dequeueFollows (clean : ∀ p, CleanNodes (alloc p)) (projects : Projects p c t found queues)
    (done : turnStep alloc utcNow c .dequeue = .ok (m,c')) : Follows p c t found queues m c' := by
  obtain ⟨l,c'',t',found',ran,sound,within,looks⟩ := dequeueSound clean utcNow projects.sound
  obtain ⟨r,ran',same⟩ := bindOk done
  cases ran.symm.trans ran'
  cases same
  cases looks with
  | @checked loop p₁ store empty here asked again =>
    obtain ⟨b,point⟩ := c
    cases here
    cases ran.symm.trans (pipeCheck asked)
    exact checkFollows projects asked again rfl sound within
  | read here due got mine popped =>
    obtain ⟨same,handsOver⟩ := readHands here got ran
    exact readFollows projects due got mine popped same sound within handsOver
  | neither checks reads =>
    obtain ⟨same,silent⟩ := neitherHands checks reads ran
    refine apartFollows projects sound (by rw [same]; rfl) rfl (withinFewer projects.bare within)
      (fun q _ => ⟨by rw [same],rfl⟩) ?_
    simp [handedBy,silent]

theorem stepFollows (clean : ∀ p, CleanNodes (alloc p)) (projects : Projects p c t found queues)
    (step : BusSystem.Step alloc utcNow c m c') (fixed : ∀ q, m ≠ .registered q p) :
    Follows p c t found queues m c' := by
  obtain ⟨turn,allowed,done⟩ := step
  cases turn with
  | addQueue owner q pipe =>
    refine addFollows clean projects allowed ?_ done
    rintro rfl
    obtain ⟨_,_,same⟩ := bindOk done
    cases same
    exact fixed q rfl
  | push q e => exact pushFollows projects q e done
  | setMode mode => exact modeFollows projects mode done
  | dequeue => exact dequeueFollows clean projects done

end Steps

section Runs
variable {trace : List BusSystem.Moment}

theorem pushedSnoc (q : Nat) (trace : List BusSystem.Moment) (m : BusSystem.Moment) :
    pushedTo q (trace ++ [m]) = pushedTo q trace ++ pushedTo q [m] := List.flatMap_append

theorem handedSnoc (p : PipeName) (trace : List BusSystem.Moment) (m : BusSystem.Moment) :
    handedBy p (trace ++ [m]) = handedBy p trace ++ handedBy p [m] := List.flatMap_append

structure Part (p : PipeName) (c : Caller Store) (t : PipeName → Shape) (trace : List BusSystem.Moment)
    (c' : Caller Store) (t' : PipeName → Shape) (labels : List EventTreeRun.Label) : Prop where
  fewer : ∀ q, Has (treeOf c' p) (t' p) q → Has (treeOf c p) (t p) q
  told : ∀ q, EventTreeMerge.pushedTo q labels <+: pushedTo q trace
  whole : ∀ q, Has (treeOf c' p) (t' p) q → EventTreeMerge.pushedTo q labels = pushedTo q trace
  events : EventTreeStream.returned labels = handedBy p trace

theorem partSnoc {t₀ : PipeName → Shape} {c₀ : Caller Store} {more : List EventTreeRun.Label}
    (part : Part p c₀ t₀ trace c t labels) (told : Told p c t m c' t' more) :
    Part p c₀ t₀ (trace ++ [m]) c' t' (labels ++ more) := by
  have split (q : Nat) : EventTreeMerge.pushedTo q (labels ++ more) =
      EventTreeMerge.pushedTo q labels ++ EventTreeMerge.pushedTo q more := List.filterMap_append
  refine ⟨fun q mine => part.fewer q (told.fewer q mine),fun q => ?_,fun q mine => ?_,?_⟩
  · rw [split,pushedSnoc]
    by_cases mine : Has (treeOf c p) (t p) q
    · rw [part.whole q mine,told.heard q mine]
    · rw [told.deaf q mine,List.append_nil]
      exact (part.told q).trans (List.prefix_append ..)
  · have mine' := told.fewer q mine
    rw [split,pushedSnoc,part.whole q mine',told.heard q mine']
  · rw [handedSnoc,← part.events,← told.events]
    simp [EventTreeStream.returned,EventTreeMerge.readings]

theorem partRun (clean : ∀ p, CleanNodes (alloc p)) (projects : Projects p c t found queues)
    (run : Run (BusSystem.Step alloc utcNow) c trace c') (fixed : ∀ q, .registered q p ∉ trace) :
    ∃ t' found' queues' labels, Run (EventTreeRun.Step Scheduled noAsserts) (part p c found queues) labels
      (part p c' found' queues') ∧ Projects p c' t' found' queues' ∧ Part p c t trace c' t' labels := by
  induction run with
  | nil => exact ⟨t,found,queues,[],.nil,projects,fun _ => id,fun _ => List.prefix_rfl,fun _ _ => rfl,rfl⟩
  | snoc earlier last ih =>
    obtain ⟨t₁,found₁,queues₁,labels,run,projects₁,part⟩ :=
      ih (fun q mem => fixed q (List.mem_append_left _ mem))
    obtain ⟨t₂,found₂,queues₂,more,onward,projects₂,told⟩ :=
      stepFollows clean projects₁ last (fun q same => fixed q (by simp [same]))
    exact ⟨t₂,found₂,queues₂,_,Base.Trace.runAppend run onward,projects₂,partSnoc part told⟩

end Runs

end Qtl.BusPart
