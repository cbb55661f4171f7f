import Qtl.EventTreeSteps

/-! Pushes and the accesses of one call of an event tree. A look at a queue that holds an
event may be made earlier, and a push may be made before the pop it follows if the ring has
a capacity of three. What a push signals to a bus is not compared. -/
namespace Qtl.EventTreeMovers
open Queue EventTreeShape EventTreeTaken EventTreeRun EventTreeSteps Spsc
open EventTree (TreeNode World)
open Base.Atomicity Base.Atomicity.Program Base.Window
open Base.Trace (Run)

structure Push where
  queue : Nat
  e : Event
  ret : Bool
  deriving DecidableEq, Repr

def pushed (queues : Nat → EventQueue) (q : Nat) (e : Event) : Nat → EventQueue :=
  Function.update queues q (eventQueuePush (queues q) e).queue

def Pushes (queues : Nat → EventQueue) (m : Push) (queues' : Nat → EventQueue) : Prop :=
  m.ret = (eventQueuePush (queues m.queue) m.e).ret ∧ queues' = pushed queues m.queue m.e

def popped (queues : Nat → EventQueue) (q : Nat) : Nat → EventQueue :=
  Function.update queues q (eventQueuePop (queues q)).1

variable {queues queues' queues₁ : Nat → EventQueue} {q : Nat} {e x : Event} {rest : List Event} {m : Push}
  {es : List Push}

section Movers

theorem pushGrows (queue : EventQueue) (e : Event) :
    ∃ more, contents (eventQueuePush queue e).queue = contents queue ++ more := by
  cases ret : (eventQueuePush queue e).ret with
  | true => exact ⟨[e],pushTrue ret⟩
  | false => exact ⟨[],by rw [pushFalse ret,List.append_nil]⟩

theorem pushesGrow (step : Pushes queues m queues') (q : Nat) :
    ∃ more, contents (queues' q) = contents (queues q) ++ more := by
  obtain ⟨_,rfl⟩ := step
  by_cases same : q = m.queue
  · subst same
    rw [pushed,Function.update_self]
    exact pushGrows ..
  · rw [pushed,Function.update_of_ne same]
    exact ⟨[],(List.append_nil _).symm⟩

def Filled (q : Nat) (queues : Nat → EventQueue) : Prop := contents (queues q) ≠ []

theorem filledStable : ∀ queues m queues', Filled q queues → Pushes queues m queues' → Filled q queues' := by
  intro queues m queues' filled step
  obtain ⟨more,grown⟩ := pushesGrow step q
  rw [Filled,grown]
  exact List.append_ne_nil_of_left_ne_nil filled more

theorem looksEarlier (a : Access) (looks : a = .isEmpty q ∨ a = .peek q) : Earlier serve Pushes (Filled q) a := by
  intro queues m queues' filled step
  obtain ⟨e,rest,front⟩ := List.exists_cons_of_ne_nil filled
  obtain ⟨more,grown⟩ := pushesGrow step q
  rw [front,List.cons_append] at grown
  rcases looks with rfl | rfl
  · exact ⟨(isEmptyCons grown).trans (isEmptyCons front).symm,step⟩
  · refine ⟨?_,step⟩
    change eventQueuePeek (queues' q) = eventQueuePeek (queues q)
    rw [eventQueuePeek,eventQueuePeek,peekExact (queues' q).ok,peekExact (queues q).ok]
    exact (congrArg List.head? grown).trans (congrArg List.head? front).symm

theorem looksStay (a : Access) (queues : Nat → EventQueue) (looks : a = .isEmpty q ∨ a = .peek q)
    (filled : Filled q queues) : Filled q (serve a queues).2 := by
  rcases looks with rfl | rfl <;> exact filled

section Ring
variable {α : Type} {ring : SpscQueue α} {item : α}

theorem readWrite (ok : Ok ring) (some : live ring ≠ []) (room : (spscQueueWrite ring item).2 = true) :
    spscQueueRead (spscQueueWrite ring item).1 =
      ((spscQueueWrite (spscQueueRead ring).1 item).1,(spscQueueRead ring).2) ∧
      (spscQueueWrite (spscQueueRead ring).1 item).2 = true := by
  have apart : ring.readPos ≠ ring.writePos := by
    intro same
    exact some ((isEmptyExact ok).mp (beq_iff_eq.mpr same))
  have free : nextRecord ring ring.writePos ≠ ring.readPos := by
    intro full
    simp [spscQueueWrite,full] at room
  have free' : nextRecord ring ring.writePos ≠ nextRecord ring ring.readPos := by
    rw [nextRecordAdvance ok.fits ok.writeLt,nextRecordAdvance ok.fits ok.readLt]
    exact fun same => apart (advanceInjective same).symm
  let written : SpscQueue α := {ring with
    records := Function.update ring.records ring.writePos item
    writePos := nextRecord ring ring.writePos}
  let taken : SpscQueue α := {ring with readPos := nextRecord ring ring.readPos}
  have wrote : spscQueueWrite ring item = (written,true) := if_pos free
  have got : spscQueueRead ring = (taken,Option.some (ring.records ring.readPos)) := if_neg apart
  have wrote' : spscQueueWrite taken item = ({written with readPos := nextRecord ring ring.readPos},true) :=
    if_pos free'
  have got' : spscQueueRead written = ({written with readPos := nextRecord ring ring.readPos},
      Option.some (Function.update ring.records ring.writePos item ring.readPos)) := if_neg free.symm
  rw [wrote,got,wrote',got',Function.update_of_ne apart]
  exact ⟨rfl,rfl⟩

end Ring

theorem popPush {queue : EventQueue} (some : contents queue ≠ []) (room : (eventQueuePush queue e).ret = true) :
    (eventQueuePush (eventQueuePop queue).1 e).queue = (eventQueuePop (eventQueuePush queue e).queue).1 ∧
      (eventQueuePush (eventQueuePop queue).1 e).ret = true := by
  obtain ⟨same,room'⟩ := readWrite queue.ok some room
  exact ⟨by simp only [eventQueuePop,eventQueuePush,same],room'⟩

theorem popLater (some : contents (queues q) ≠ []) (room : m.queue = q → (eventQueuePush (queues q) m.e).ret = true)
    (step : Pushes (popped queues q) m queues') : Pushes queues m (pushed queues m.queue m.e) ∧
      queues' = popped (pushed queues m.queue m.e) q := by
  obtain ⟨ret,rfl⟩ := step
  by_cases same : m.queue = q
  · subst same
    obtain ⟨both,room'⟩ := popPush some (room rfl)
    rw [popped,Function.update_self,room'] at ret
    refine ⟨⟨ret.trans (room rfl).symm,rfl⟩,?_⟩
    simp only [pushed,popped,Function.update_self,Function.update_idem,both]
  · have other : popped queues q m.queue = queues m.queue := Function.update_of_ne same ..
    rw [other] at ret
    refine ⟨⟨ret,rfl⟩,?_⟩
    simp only [pushed,popped,Function.update_of_ne same,Function.update_of_ne (Ne.symm same)]
    exact Function.update_comm (Ne.symm same) ..

end Movers

section Calls
variable {R : Type} {r : Except Fault R} {y : R} {asserts : Assertion → Bool} {s : World} {current : Option Nat}

theorem lookWhole {k : Bool → Call R} (ends : k true = .done y)
    (only : (k false).Only (fun a => a = .isEmpty q ∨ a = .peek q)) : Whole serve Pushes (isEmpty q >>= k) queues := by
  intro es r queues' mixed
  obtain ⟨first,later,queues₁,rfl,run,onward⟩ := mixedAsk mixed
  refine atomicOther run ?_
  change Mixed serve Pushes (k (eventQueueIsEmpty (queues₁ q))) queues₁ later r queues' at onward
  have looked : (isEmpty q >>= k).alone serve queues₁ = (k (eventQueueIsEmpty (queues₁ q))).alone serve queues₁ := rfl
  cases empty : eventQueueIsEmpty (queues₁ q) with
  | true =>
    rw [empty,ends] at onward looked
    obtain ⟨rfl,run'⟩ := mixedDone onward
    exact atomicNow looked run'
  | false =>
    rw [empty] at onward looked
    have filled : Filled q queues₁ := by
      intro bare
      rw [(isEmptyContents _).mpr bare] at empty
      cases empty
    obtain ⟨after,alone,run'⟩ := mixedEarly filledStable looksStay looksEarlier only filled onward
    exact atomicNow (looked.trans alone) run'

theorem popCapacity (queue : EventQueue) : (eventQueuePop queue).1.spsc.capacity = queue.spsc.capacity := by
  simp only [eventQueuePop,spscQueueRead]
  split <;> rfl

theorem pushCapacity (queue : EventQueue) (e : Event) :
    (eventQueuePush queue e).queue.spsc.capacity = queue.spsc.capacity := by
  simp only [eventQueuePush,spscQueueWrite]
  split <;> rfl

theorem popNow {next : Option Event → Call R} (front : contents (queues q) = x :: rest) :
    (pop q >>= next).alone serve queues = (next (some x)).alone serve (popped queues q) := by
  change (next (eventQueuePop (queues q)).2).alone serve (popped queues q) = _
  rw [(popFront front).1]

theorem popSeveral {next : Option Event → Call R} (only : (next (some x)).Only (fun a => a = .isEmpty q ∨ a = .peek q))
    (front : contents (queues q) = x :: rest) (more : rest ≠ [])
    (mixed : Mixed serve Pushes (next (some x)) (popped queues q) es r queues') :
    Atomic serve Pushes (pop q >>= next) queues es r queues' := by
  have filled : Filled q (popped queues q) := by
    rw [Filled,popped,Function.update_self,(popFront front).2]
    exact more
  obtain ⟨after,alone,run⟩ := mixedEarly filledStable looksStay looksEarlier only filled mixed
  exact atomicNow ((popNow front).trans alone) run

theorem popLast {next : Option Event → Call R} {k : Bool → Call R} (goes : next (some x) = .ask (.isEmpty q) k)
    (ends : k true = .done y) (front : contents (queues q) = [x])
    (mixed : Mixed serve Pushes (k (eventQueueIsEmpty (popped queues q q))) (popped queues q) es r queues') :
    Atomic serve Pushes (pop q >>= next) queues es r queues' := by
  have empty : eventQueueIsEmpty (popped queues q q) = true := by
    rw [isEmptyContents,popped,Function.update_self,(popFront front).2]
  have looked : (Program.ask (.isEmpty q) k : Call R).alone serve (popped queues q) =
      (k (eventQueueIsEmpty (popped queues q q))).alone serve (popped queues q) := rfl
  rw [empty,ends] at mixed looked
  obtain ⟨rfl,run⟩ := mixedDone mixed
  refine atomicNow ((popNow front).trans ?_) run
  rw [goes]
  exact looked

theorem pushRoom {queue : EventQueue} (wide : 3 ≤ queue.spsc.capacity) (front : contents queue = [x]) (e : Event) :
    (eventQueuePush queue e).ret = true := by
  rw [← Bool.not_eq_false]
  intro refused
  have full : (contents queue).length = queue.spsc.capacity - 1 := (writeRefused queue.ok).mp refused
  rw [front,List.length_singleton] at full
  omega

theorem pushedCapacity (queues : Nat → EventQueue) (p : Nat) (e : Event) (q : Nat) :
    (pushed queues p e q).spsc.capacity = (queues q).spsc.capacity := by
  by_cases same : q = p
  · subst same
    rw [pushed,Function.update_self,pushCapacity]
  · rw [pushed,Function.update_of_ne same]

/-- A push between the pop and the look that follows it counts as one before the pop: with
one event in a ring of three there was room for another. -/
theorem popAtomic {next : Option Event → Call R} {k : Bool → Call R} (goes : next (some x) = .ask (.isEmpty q) k)
    (ends : k true = .done y) (only : (k false).Only (fun a => a = .isEmpty q ∨ a = .peek q))
    (wide : 3 ≤ (queues q).spsc.capacity) (front : contents (queues q) = x :: rest)
    (mixed : Mixed serve Pushes (next (some x)) (popped queues q) es r queues') :
    Atomic serve Pushes (pop q >>= next) queues es r queues' := by
  have looks : (next (some x)).Only (fun a => a = .isEmpty q ∨ a = .peek q) := by
    rw [goes]
    refine ⟨.inl rfl,fun empty => ?_⟩
    cases empty with
    | true => rw [ends]; trivial
    | false => exact only
  -- The pushes go before the pop one by one, until one of them fills the queue again.
  induction es generalizing queues rest with
  | nil =>
    by_cases more : rest = []
    · subst more
      rw [goes] at mixed
      rcases mixedHead mixed with ended | ⟨_,_,_,none,_⟩
      · exact popLast goes ends front ended
      · cases none
    · exact popSeveral looks front more mixed
  | cons m es ih =>
    by_cases more : rest = []
    · subst more
      rw [goes] at mixed
      rcases mixedHead mixed with ended | ⟨_,_,_,same,step,onward⟩
      · exact popLast goes ends front ended
      · cases same
        have some : contents (queues q) ≠ [] := by simp [front]
        have room (here : m.queue = q) : (eventQueuePush (queues q) m.e).ret = true := pushRoom wide front m.e
        obtain ⟨step',rfl⟩ := popLater some room step
        obtain ⟨more,grown⟩ := pushesGrow step' q
        rw [← goes] at onward
        rw [front] at grown
        exact atomicOther (.snoc .nil step') (ih (by rw [pushedCapacity]; exact wide) grown onward)
    · exact popSeveral looks front more mixed

def dispose (asserts : Assertion → Bool) (s : World) (current : Option Nat) (q : Nat) :
    Option Event → Call (World × Option Event)
  | none => pure (s,none)
  | some e =>
      if e.type = .kOnQueueClosed then pure (s,some (if s.root.isNone then newOnSimulationStopEvent else e))
      else park asserts s current q e

def Wide (queues : Nat → EventQueue) : Prop := ∀ q, 3 ≤ (queues q).spsc.capacity

theorem wideStable (queues : Nat → EventQueue) (m : Push) (queues' : Nat → EventQueue) (wide : Wide queues)
    (step : Pushes queues m queues') : Wide queues' := by
  obtain ⟨_,rfl⟩ := step
  intro q
  rw [pushedCapacity]
  exact wide q

theorem wideOwn (a : Access) (queues : Nat → EventQueue) (wide : Wide queues) : Wide (serve a queues).2 := by
  cases a with
  | isEmpty => exact wide
  | peek => exact wide
  | pop p =>
    intro q
    change 3 ≤ (popped queues p q).spsc.capacity
    by_cases same : q = p
    · subst same
      rw [popped,Function.update_self,popCapacity]
      exact wide q
    · rw [popped,Function.update_of_ne same]
      exact wide q

theorem wideRun (wide : Wide queues) (run : Run Pushes queues es queues') : Wide queues' :=
  Base.Trace.runInvariant (fun _ queues => Wide queues) wide (fun _ _ _ _ => wideStable _ _ _) run

theorem wideMixed {p : Call R} (wide : Wide queues) (mixed : Mixed serve Pushes p queues es r queues') : Wide queues' :=
  mixedKeeps wideOwn wideStable wide mixed

theorem popWhole (wide : Wide queues) (own : ∀ n, s.load current = .ok n → n.queue = q) :
    Whole serve Pushes (pop q >>= dispose asserts s current q) queues := by
  intro es r queues' mixed
  obtain ⟨first,later,queues₁,rfl,run,onward⟩ := mixedAsk mixed
  refine atomicOther run ?_
  change Mixed serve Pushes (dispose asserts s current q (eventQueuePop (queues₁ q)).2) (popped queues₁ q) later r
    queues' at onward
  cases front : contents (queues₁ q) with
  | nil =>
    have none : (eventQueuePop (queues₁ q)).2 = none :=
      (readExact (queues₁ q).ok).1.trans (congrArg List.head? front)
    rw [none] at onward
    obtain ⟨rfl,run'⟩ := mixedDone onward
    refine atomicNow ?_ run'
    change (dispose asserts s current q (eventQueuePop (queues₁ q)).2).alone serve (popped queues₁ q) = _
    rw [none]
    rfl
  | cons x rest =>
    rw [(popFront front).1] at onward
    by_cases type : x.type = .kOnQueueClosed
    · have ends : dispose asserts s current q (some x) =
          .done (s,some (if s.root.isNone then newOnSimulationStopEvent else x)) := if_pos type
      rw [ends] at onward
      obtain ⟨rfl,run'⟩ := mixedDone onward
      exact atomicNow ((popNow front).trans (by rw [ends]; rfl)) run'
    · have goes : dispose asserts s current q (some x) = park asserts s current q x := if_neg type
      have looks : (park asserts s current q x).Only (fun a => a = .isEmpty q ∨ a = .peek q) := parkOnly own
      exact popAtomic (goes.trans rfl) rfl (looks.2 false) (wideRun wide run q) front onward

theorem readWhole (wide : Wide queues) : Whole serve Pushes (eventTreeRead asserts s) queues := by
  refine wholeBind (fun _ _ => wholeBind (fun r _ => wholeBind (fun c loaded => popWhole wide ?_)))
  intro n again
  cases loaded.symm.trans again
  rfl

theorem isEmptyWhole : Whole serve Pushes (eventTreeIsEmpty asserts s) queues := by
  unfold eventTreeIsEmpty
  split
  · exact wholeDone
  split
  · exact wholeDone
  refine wholeBind (fun l loaded => lookWhole rfl ?_)
  refine onlyBind (onlyMono rebalanceOnly ?_) (fun _ => trivial)
  rintro a ⟨n,again,rfl⟩
  cases loaded.symm.trans again
  exact .inr rfl

theorem addWhole {memory : Option TreeNode} : Whole serve Pushes (eventTreeAdd asserts s memory q) queues := by
  refine lookWhole rfl ?_
  cases memory with
  | none => trivial
  | some m =>
    rw [if_neg Bool.false_ne_true]
    dsimp only [EventTree.nodeNew]
    split
    · trivial
    refine onlyBind (onlyMono rebalanceOnly ?_) (fun _ => trivial)
    rintro a ⟨n,loaded,rfl⟩
    obtain ⟨b,here,node⟩ := loadInv loaded
    cases here
    rw [List.getElem?_concat_length] at node
    cases node
    exact .inr rfl

end Calls

end Qtl.EventTreeMovers
