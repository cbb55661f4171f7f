import Qtl.SpscObserve

/-! event_queue_push on a queue with a bus, access by access, against a consumer that
pops. The push tests for emptiness before it writes, and whether it wakes the bus is
decided by that test. -/
namespace Qtl.QueueWakeup
open Spsc
open SpscInterleaving (Turn producerStep consumerStep)
open SpscObserve (Observed ObsEvent ObsTurn ObsInv Order Side Query Answer)
open Base.Trace (Run)

variable {α : Type}

inductive Push (α : Type) where
  | outside
  | testing (e : α)
  | writing (e : α) (isEmpty : Bool)
  | wrote (isEmpty ret : Bool)
  | waking (ret : Bool)

/- What the push in progress met: `emptied` when a pop emptied the ring after the test
loaded read_pos and before the write stored write_pos, `storedEmpty` when that store took
effect on an empty ring, `woken` when event_bus_wakeup was called. -/
structure Moments where
  emptied : Bool
  storedEmpty : Bool
  woken : Bool
  deriving DecidableEq, Repr

structure Pushing (α : Type) where
  observed : Observed α
  bus : Option Nat
  push : Push α
  moments : Moments

inductive PushEvent (α : Type) where
  | ring (event : ObsEvent α)
  | wakeup (bus : Nat)
  | returned (ret : Bool) (moments : Moments)

inductive PushTurn (α : Type) where
  | producer (e : α) (order : Order)
  | consumer

def begin (q : SpscQueue α) (bus : Option Nat) : Pushing α :=
  ⟨SpscObserve.begin q,bus,.outside,⟨false,false,false⟩⟩

def ringEmpty (s : Pushing α) : Bool := spscQueueIsEmpty s.observed.system.queue

-- The test has loaded read_pos and the write has not stored write_pos.
def exposed (s : Pushing α) : Bool := match s.push with
  | .testing _ => match s.observed.looking .producer with
    | some (query,_) => query.order == .readFirst
    | none => false
  | .writing _ _ => true
  | _ => false

def access (s : Pushing α) (turn : ObsTurn α) (next : ObsEvent α → Pushing α → Pushing α) :
    Option (PushEvent α × Pushing α) := do
  let (event,observed) ← SpscObserve.turnStep s.observed turn
  some (.ring event,next event {s with observed := observed})

def tested (e : α) (event : ObsEvent α) (s : Pushing α) : Pushing α := match event with
  | .answered _ (.isEmpty b) => {s with push := .writing e b}
  | _ => s

def stored (wasEmpty isEmpty : Bool) (event : ObsEvent α) (s : Pushing α) : Pushing α := match event with
  | .call _ (.wrote _) =>
      {s with push := .wrote isEmpty true, moments := {s.moments with storedEmpty := wasEmpty}}
  | .call _ (.refused _) => {s with push := .wrote isEmpty false}
  | _ => s

def popped (wasExposed wasEmpty : Bool) (s : Pushing α) : Pushing α :=
  {s with moments := {s.moments with
    emptied := s.moments.emptied || (wasExposed && !wasEmpty && ringEmpty s)}}

def turnStep (s : Pushing α) : PushTurn α → Option (PushEvent α × Pushing α)
  | .producer e order => match s.push with
    | .outside => access s (.look .producer (.isEmpty order))
        (fun _ s => {s with push := .testing e, moments := ⟨false,false,false⟩})
    | .testing e => access s (.look .producer (.isEmpty order)) (tested e)
    | .writing e isEmpty => access s (.call (.producer e)) (stored (ringEmpty s) isEmpty)
    | .wrote isEmpty ret =>
        match (if isEmpty && ret then s.bus else none) with
        | some bus =>
            some (.wakeup bus,{s with push := .waking ret, moments := {s.moments with woken := true}})
        | none => some (.returned ret s.moments,{s with push := .outside})
    | .waking ret => some (.returned ret s.moments,{s with push := .outside})
  | .consumer => access s (.call (.consumer .read)) (fun _ => popped (exposed s) (ringEmpty s))

abbrev Step : Pushing α → PushEvent α → Pushing α → Prop := Base.Trace.Moves turnStep

def Wakes : PushEvent α → Prop
  | .returned _ moments => moments.storedEmpty = true → moments.woken = true
  | _ => True

def Undrained : PushEvent α → Prop
  | .returned _ moments => moments.storedEmpty = true → moments.emptied = false
  | _ => True

def rings : List (PushEvent α) → List (ObsEvent α) := List.filterMap (fun event => match event with
  | .ring event => some event
  | _ => none)

theorem ringsAppend (trace later : List (PushEvent α)) : rings (trace ++ later) = rings trace ++ rings later :=
  List.filterMap_append

def Exposed (s : Pushing α) (b : Bool) : Prop :=
  (ringEmpty s = true ↔ b = true ∨ s.moments.emptied = true) ∧ (b = true → s.moments.emptied = false)

def fresh (m : Moments) : Prop := m.storedEmpty = false ∧ m.woken = false

def PushOk (s : Pushing α) : Prop := match s.push with
  | .outside => s.observed.looking .producer = none
  | .testing _ => fresh s.moments ∧ ∃ order value,
      s.observed.looking .producer = some (.isEmpty order,value) ∧ match order with
      | .readFirst => Exposed s (value == s.observed.system.queue.writePos)
      | .writeFirst => s.moments.emptied = false
  | .writing _ b => s.observed.looking .producer = none ∧ fresh s.moments ∧ Exposed s b
  | .wrote b ret => s.observed.looking .producer = none ∧ s.moments.woken = false ∧
      (b = true → s.moments.emptied = false) ∧
      (s.moments.storedEmpty = true → ret = true ∧ (b = true ∨ s.moments.emptied = true))
  | .waking _ => s.observed.looking .producer = none ∧ s.moments.woken = true ∧ s.moments.emptied = false

variable {size bus : Nat} {s s' : Pushing α} {trace : List (PushEvent α)}

structure PushInv (size bus : Nat) (trace : List (PushEvent α)) (s : Pushing α) : Prop where
  ring : ObsInv size (rings trace) s.observed
  hasBus : s.bus = some bus
  push : PushOk s

theorem accessInv {turn : ObsTurn α} {next : ObsEvent α → Pushing α → Pushing α} {event : PushEvent α}
    (inv : ObsInv size (rings trace) s.observed) (done : access s turn next = some (event,s'))
    (same : ∀ event s, (next event s).observed = s.observed) : ObsInv size (rings (trace ++ [event])) s'.observed := by
  obtain ⟨⟨ringEvent,observed⟩,moved,last⟩ := Option.bind_eq_some_iff.mp done
  cases last
  rw [ringsAppend,same]
  exact SpscObserve.observedStep inv ⟨turn,moved⟩

theorem popsOnlyItems (t : SpscInterleaving.System α) (ok : SpscInterleaving.ConsumerOk t.queue t.consumer) :
    (consumerStep .read t).1.queue = t.queue ∨ spscQueueIsEmpty t.queue = false := by
  obtain ⟨queue,producer,consumer⟩ := t
  cases consumer with
  | idle => exact .inl rfl
  | positioned call current =>
    refine .inl ?_
    simp only [consumerStep]
    split <;> rfl
  | available call current => cases call <;> exact .inl rfl
  | taken item next => exact .inr (by simpa [spscQueueIsEmpty] using ok.2.1)

theorem exposedPop {observed : Observed α} {b : Bool} (h : Exposed s b)
    (moved : observed.system.queue = s.observed.system.queue ∨ ringEmpty s = false) :
    Exposed (popped true (ringEmpty s) {s with observed := observed}) b := by
  obtain ⟨now,kept⟩ := h
  cases before : ringEmpty s with
  | true =>
    have same : observed.system.queue = s.observed.system.queue := by simpa [before] using moved
    have still : ringEmpty {s with observed := observed} = true := by rwa [ringEmpty,same]
    simpa [Exposed,popped,still] using ⟨now.mp before,kept⟩
  | false =>
    rw [before] at now
    have none : b = false ∧ s.moments.emptied = false := by simpa using now
    simp [Exposed,popped,none,ringEmpty]

theorem writeEvents (t : SpscInterleaving.System α) (e : α) :
    (∃ e', (producerStep e t).2 = .wrote e') ∨ (∀ e', (producerStep e t).2 ≠ .wrote e') ∧
      spscQueueIsEmpty (producerStep e t).1.queue = spscQueueIsEmpty t.queue := by
  obtain ⟨queue,producer,consumer⟩ := t
  cases producer with
  | idle => exact .inr ⟨by simp [producerStep],rfl⟩
  | positioned e current =>
    simp only [producerStep]
    split <;> exact .inr ⟨by simp,rfl⟩
  | admitted => exact .inr ⟨by simp [producerStep],rfl⟩
  | filled e next => exact .inl ⟨e,rfl⟩

theorem popOk {observed : Observed α} (ok : PushOk s) (looking : observed.looking = s.observed.looking)
    (moved : observed.system.queue = s.observed.system.queue ∨ ringEmpty s = false)
    (still : observed.system.queue.writePos = s.observed.system.queue.writePos) :
    PushOk (popped (exposed s) (ringEmpty s) {s with observed := observed}) := by
  have exposedKept {b : Bool} (h : Exposed s b) := exposedPop h moved
  obtain ⟨before,bus,push,moments⟩ := s
  dsimp only at looking still
  cases push with
  | outside => exact (congrFun looking _).trans ok
  | testing e =>
    obtain ⟨new,order,value,looks,rest⟩ := ok
    dsimp only at looks
    refine ⟨new,order,value,(congrFun looking _).trans looks,?_⟩
    cases order with
    | readFirst =>
      have out : exposed ⟨before,bus,Push.testing e,moments⟩ = true := by simp [exposed,looks,Query.order]
      have kept := exposedKept rest
      rw [out]
      simpa only [popped,still] using kept
    | writeFirst =>
      have hidden : exposed ⟨before,bus,Push.testing e,moments⟩ = false := by simp [exposed,looks,Query.order]
      simpa [popped,hidden] using rest
  | writing e b => exact ⟨(congrFun looking _).trans ok.1,ok.2.1,exposedKept ok.2.2⟩
  | wrote b ret => simpa [PushOk,popped,exposed,looking] using ok
  | waking ret => simpa [PushOk,popped,exposed,looking] using ok

theorem consumerTurn (inv : PushInv size bus trace s) {event : PushEvent α}
    (done : turnStep s .consumer = some (event,s')) : PushOk s' ∧ s'.bus = some bus ∧ (Wakes event ↔ Undrained event) := by
  obtain ⟨⟨ringEvent,observed⟩,moved,last⟩ := Option.bind_eq_some_iff.mp done
  cases last
  simp only [SpscObserve.turnStep] at moved
  split at moved <;> try contradiction
  cases moved
  refine ⟨popOk inv.push rfl ?_ ?_,inv.hasBus,.rfl⟩
  · exact popsOnlyItems s.observed.system inv.ring.base.consumer
  · exact (SpscObserve.consumerKeeps s.observed.system .read).1

theorem lookBegin {order : Order} {event : ObsEvent α} {observed observed' : Observed α}
    (free : observed.looking .producer = none)
    (moved : SpscObserve.turnStep observed (.look .producer (.isEmpty order)) = some (event,observed')) :
    observed'.system = observed.system ∧ observed'.looking .producer =
      some (.isEmpty order,SpscObserve.load observed.system.queue order) := by
  simp only [SpscObserve.turnStep,free] at moved
  split at moved <;> cases moved
  exact ⟨rfl,by simp [Query.order]⟩

theorem lookEnd {order order' : Order} {value : Nat} {event : ObsEvent α} {observed observed' : Observed α}
    (looks : observed.looking .producer = some (.isEmpty order',value))
    (moved : SpscObserve.turnStep observed (.look .producer (.isEmpty order)) = some (event,observed')) :
    observed'.system = observed.system ∧ observed'.looking .producer = none ∧ event = .answered .producer
      (.isEmpty ((SpscObserve.seen observed.system.queue (.isEmpty order') value).1 ==
        (SpscObserve.seen observed.system.queue (.isEmpty order') value).2)) := by
  simp only [SpscObserve.turnStep,looks] at moved
  cases moved
  exact ⟨rfl,by simp,rfl⟩

theorem producerTurn (inv : PushInv size bus trace s) {event : PushEvent α} {e : α} {order : Order}
    (done : turnStep s (.producer e order) = some (event,s')) :
    PushOk s' ∧ s'.bus = some bus ∧ (Wakes event ↔ Undrained event) := by
  have ok := inv.push
  have hasBus := inv.hasBus
  have ringInv := inv.ring
  obtain ⟨observed,bus',push,moments⟩ := s
  cases push with
  | outside =>
    obtain ⟨⟨ringEvent,observed'⟩,moved,last⟩ := Option.bind_eq_some_iff.mp done
    cases last
    obtain ⟨same,looks⟩ := lookBegin ok moved
    refine ⟨⟨⟨rfl,rfl⟩,order,_,looks,?_⟩,hasBus,.rfl⟩
    cases order with
    | readFirst => simp [Exposed,ringEmpty,same,spscQueueIsEmpty,SpscObserve.load]
    | writeFirst => rfl
  | testing e' =>
    obtain ⟨⟨ringEvent,observed'⟩,moved,last⟩ := Option.bind_eq_some_iff.mp done
    obtain ⟨new,order',value,looks,rest⟩ := ok
    obtain ⟨same,free,rfl⟩ := lookEnd looks moved
    cases last
    have own := (ringInv.looking .producer _ _ looks).1
    refine ⟨⟨free,new,?_⟩,hasBus,.rfl⟩
    cases order' with
    | readFirst => simpa [Exposed,ringEmpty,same,SpscObserve.seen,Query.order,tested] using rest
    | writeFirst =>
      have current : value = observed.system.queue.writePos := own
      have calm : moments.emptied = false := rest
      simp [Exposed,ringEmpty,same,spscQueueIsEmpty,SpscObserve.seen,Query.order,tested,current,calm]
  | writing e' b =>
    obtain ⟨⟨ringEvent,observed'⟩,moved,last⟩ := Option.bind_eq_some_iff.mp done
    cases last
    obtain ⟨free,⟨unstored,unwoken⟩,exposed⟩ := ok
    have free' : observed.looking .producer = none := free
    simp only [SpscObserve.turnStep,SpscObserve.sideOf,free'] at moved
    cases moved
    rcases writeEvents observed.system e' with ⟨_,told⟩ | ⟨unwritten,same⟩
    · simp only [SpscInterleaving.turnStep,told,stored]
      exact ⟨⟨free,unwoken,exposed.2,fun now => ⟨rfl,exposed.1.mp now⟩⟩,hasBus,.rfl⟩
    · have unstored' : moments.storedEmpty = false := unstored
      have kept : PushOk ⟨{observed with system := (producerStep e' observed.system).1},bus',.writing e' b,moments⟩ :=
        ⟨free,⟨unstored,unwoken⟩,by simpa only [Exposed,ringEmpty,same] using exposed⟩
      simp only [SpscInterleaving.turnStep]
      cases told : (producerStep e' observed.system).2 with
      | refused => exact ⟨⟨free,unwoken,exposed.2,by simp [stored,unstored']⟩,hasBus,.rfl⟩
      | wrote e'' => exact absurd told (unwritten e'')
      | _ => exact ⟨kept,hasBus,.rfl⟩
  | wrote b ret =>
    obtain ⟨free,unwoken,calm,storedOnly⟩ := ok
    have hasBus' : bus' = some bus := hasBus
    subst hasBus'
    simp only [turnStep] at done
    split at done
    · rename_i woken
      cases done
      have both : b = true ∧ ret = true := by
        by_contra other
        simp [other] at woken
      exact ⟨⟨free,rfl,calm both.1⟩,hasBus,.rfl⟩
    · rename_i silent
      cases done
      refine ⟨free,hasBus,?_⟩
      have other : ¬ (b = true ∧ ret = true) := by
        rintro ⟨rfl,rfl⟩
        simp at silent
      have unwoken' : moments.woken = false := unwoken
      simp only [Wakes,Undrained,unwoken']
      refine forall_congr' (fun now => ?_)
      obtain ⟨went,empty⟩ := storedOnly now
      have drained : moments.emptied = true := empty.resolve_left (fun h => other ⟨h,went⟩)
      simp [drained]
  | waking ret =>
    cases done
    obtain ⟨free,woken,calm⟩ := ok
    have woken' : moments.woken = true := woken
    have calm' : moments.emptied = false := calm
    exact ⟨free,hasBus,by simp [Wakes,Undrained,woken',calm']⟩

theorem testedSame (e : α) (event : ObsEvent α) (s : Pushing α) : (tested e event s).observed = s.observed := by
  unfold tested
  split <;> rfl

theorem storedSame (wasEmpty isEmpty : Bool) (event : ObsEvent α) (s : Pushing α) :
    (stored wasEmpty isEmpty event s).observed = s.observed := by
  unfold stored
  split <;> rfl

theorem turnRing (inv : ObsInv size (rings trace) s.observed) {turn : PushTurn α} {event : PushEvent α}
    (done : turnStep s turn = some (event,s')) : ObsInv size (rings (trace ++ [event])) s'.observed := by
  cases turn with
  | consumer =>
    simp only [turnStep] at done
    exact accessInv inv done (fun _ _ => rfl)
  | producer e order =>
    simp only [turnStep] at done
    split at done
    · exact accessInv inv done (fun _ _ => rfl)
    · exact accessInv inv done (testedSame _)
    · exact accessInv inv done (storedSame _ _)
    · rw [ringsAppend]
      split at done <;> cases done <;> simpa [rings] using inv
    · rw [ringsAppend]
      cases done
      simpa [rings] using inv

theorem turnInv (inv : PushInv size bus trace s) {event : PushEvent α} (step : Step s event s') :
    PushInv size bus (trace ++ [event]) s' ∧ (Wakes event ↔ Undrained event) := by
  obtain ⟨turn,done⟩ := step
  have ring := turnRing inv.ring done
  cases turn with
  | producer e order =>
    obtain ⟨push,hasBus,answer⟩ := producerTurn inv done
    exact ⟨⟨ring,hasBus,push⟩,answer⟩
  | consumer =>
    obtain ⟨push,hasBus,answer⟩ := consumerTurn inv done
    exact ⟨⟨ring,hasBus,push⟩,answer⟩

/-- Every push that stored to an empty ring wakes the bus, exactly as far as no pop
emptied the ring between the push's test and its store. -/
theorem pushWakes {memory : Option (Nat → α)} {q : SpscQueue α} (fits : size < uintRange)
    (accepted : spscQueueInit memory size = some q) (run : Run Step (begin q (some bus)) trace s) :
    (∀ event ∈ trace, Wakes event) ↔ ∀ event ∈ trace, Undrained event := by
  have start : PushInv size bus [] (begin q (some bus)) :=
    ⟨SpscObserve.observedInv fits accepted .nil,rfl,rfl⟩
  have all := Base.Trace.runLabels (PushInv size bus) (fun event => Wakes event ↔ Undrained event) start
    (fun _ _ _ _ inv step => turnInv inv step) run
  exact forall₂_congr all.2

section OnePush

def pushes (n : Nat) (e : Nat) : List (PushTurn Nat) := List.replicate n (.producer e .readFirst)

def returns : List (PushEvent Nat) → List Moments := List.filterMap (fun event => match event with
  | .returned _ moments => some moments
  | _ => none)

theorem returnsMem {moments : Moments} {trace : List (PushEvent Nat)} (mem : moments ∈ returns trace) :
    ∃ ret, .returned ret moments ∈ trace := by
  obtain ⟨event,mem,same⟩ := List.mem_filterMap.mp mem
  cases event <;> cases same
  exact ⟨_,mem⟩

def twoSlots : Pushing Nat := begin ⟨2,fun _ => 0,0,0⟩ (some 0)

theorem pushWakesOne : ∃ trace s, Run Step twoSlots trace s ∧ returns trace = [⟨false,true,true⟩] ∧
    ((∀ event ∈ trace, Wakes event) ↔ ∀ event ∈ trace, Undrained event) := by
  have accepted : spscQueueInit (some fun _ => 0) 2 = some ⟨2,fun _ => 0,0,0⟩ := rfl
  have played : (Base.Trace.play turnStep twoSlots (pushes 8 7)).map (fun r => returns r.1) =
      some [⟨false,true,true⟩] := rfl
  obtain ⟨trace,s,run,seen⟩ := Base.Trace.playSeen _ _ played
  exact ⟨trace,s,run,seen,pushWakes (by decide) accepted run⟩

-- The second push finds an item, which is popped before the push fills the other slot.
theorem drainedPushSilent : ∃ trace s, Run Step twoSlots trace s ∧ ∃ ret moments,
    .returned ret moments ∈ trace ∧ moments.storedEmpty = true ∧ moments.woken = false := by
  have played : (Base.Trace.play turnStep twoSlots (pushes 8 7 ++ pushes 2 8 ++ List.replicate 4 .consumer ++
      pushes 5 8)).map (fun r => returns r.1) = some [⟨false,true,true⟩,⟨true,true,false⟩] := rfl
  obtain ⟨trace,s,run,seen⟩ := Base.Trace.playSeen _ _ played
  have mem : (⟨true,true,false⟩ : Moments) ∈ returns trace := by rw [seen]; simp
  obtain ⟨ret,mem⟩ := returnsMem mem
  exact ⟨trace,s,run,ret,_,mem,rfl,rfl⟩

end OnePush

end Qtl.QueueWakeup
