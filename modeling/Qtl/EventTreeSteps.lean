import Qtl.Base.Atomicity
import Qtl.EventTreeTaken

/-! The calls of qtl_etree.c one look at a queue at a time: producers may push between any
two of them. The nodes, the root and `last` belong to the owner alone. -/
namespace Qtl.EventTreeSteps
open Queue EventTree EventTreeShape EventTreeTaken Spsc
open Base.Atomicity Base.Atomicity.Program

inductive Access where
  | isEmpty (queue : Nat)
  | pop (queue : Nat)
  | peek (queue : Nat)
  deriving DecidableEq, Repr

def Answer : Access → Type
  | .isEmpty _ => Bool
  | .pop _ => Option Event
  | .peek _ => Option Event

def serve : (a : Access) → (Nat → EventQueue) → Answer a × (Nat → EventQueue)
  | .isEmpty q,queues => (eventQueueIsEmpty (queues q),queues)
  | .pop q,queues => ((eventQueuePop (queues q)).2,Function.update queues q (eventQueuePop (queues q)).1)
  | .peek q,queues => (eventQueuePeek (queues q),queues)

abbrev Call (R : Type) := Program Fault Answer R

def isEmpty (q : Nat) : Call Bool := .ask (.isEmpty q) .done
def pop (q : Nat) : Call (Option Event) := .ask (.pop q) .done
def peek (q : Nat) : Call (Option Event) := .ask (.peek q) .done

section Calls
variable (asserts : Assertion → Bool)

-- A call does not look at the queues in the world it carries.
def eventQueuePeekTime (q : Nat) : Call Nat := do
  let e ← peek q
  lift (check asserts .peekTimeEvent e.isSome)
  match e with
  | none => .fail .nullPointer
  | some e => pure e.timestamp

def eventTreeRebalance (s : World) (item : Option Nat) : Call World := do
  lift (check asserts .rebalanceItem item.isSome)
  let s ← lift (s.store item ({· with right := none, left := none, next := none, prev := none, head := item}))
  let i ← lift (s.load item)
  let time ← eventQueuePeekTime asserts i.queue
  let s ← lift (s.store item ({· with timestamp := time}))
  if s.root.isNone then pure {s with root := item}
  else lift (descend s item (s.nodes.length + 1) none s.root)

def eventTreeIsEmpty (s : World) : Call (World × Bool) :=
  if s.root.isNone && s.last.isNone then pure (s,true)
  else if s.last.isNone then pure (s,false)
  else do
    let l ← lift (s.load s.last)
    let empty ← isEmpty l.queue
    if empty then pure (s,true)
    else do
      let s ← eventTreeRebalance asserts s s.last
      pure ({s with last := none},false)

def park (s : World) (current : Option Nat) (q : Nat) (e : Event) : Call (World × Option Event) := do
  let empty ← isEmpty q
  if empty then pure ({s with last := current},some e)
  else do
    let s ← eventTreeRebalance asserts s current
    pure (s,some e)

def deliver (s : World) (current : Option Nat) : Call (World × Option Event) := do
  let c ← lift (s.load current)
  let e ← pop c.queue
  match e with
  | none => pure (s,none)
  | some e =>
      if e.type = .kOnQueueClosed then pure (s,some (if s.root.isNone then newOnSimulationStopEvent else e))
      else park asserts s current c.queue e

def eventTreeRead (s : World) : Call (World × Option Event) := do
  lift (check asserts .readLast s.last.isSome)
  let r ← lift (takeCurrent s)
  deliver asserts r.1 r.2

def eventTreeAdd (s : World) (memory : Option TreeNode) (queue : Nat) : Call (World × Bool) := do
  let empty ← isEmpty queue
  if empty then pure (s,false)
  else
    match nodeNew memory s queue with
    | (s,none) => pure (s,false)
    | (s,some item) =>
        if s.root.isNone then pure ({s with root := some item},true)
        else do
          let s ← eventTreeRebalance asserts s (some item)
          pure (s,true)

end Calls

section Over

def withQueues (queues : Nat → EventQueue) (s : World) : World := {s with queues := queues}

variable {queues queues' : Nat → EventQueue} {s : World} {item parent current p : Option Nat} {fuel : Nat}
variable {φ α β γ : Type}

theorem mapBind (x : Except φ α) (g : α → β) (f : β → Except φ γ) : (x.map g >>= f) = (x >>= fun a => f (g a)) := by
  cases x <;> rfl

theorem bindMap (x : Except φ α) (f : α → Except φ β) (g : β → γ) :
    (x >>= f).map g = (x >>= fun a => (f a).map g) := by
  cases x <;> rfl

theorem loadOver : (withQueues queues s).load p = s.load p := by cases p <;> rfl

theorem storeOver {f : TreeNode → TreeNode} :
    (withQueues queues s).store p f = (s.store p f).map (withQueues queues) := by
  cases p with
  | none => rfl
  | some a =>
    by_cases inside : a < s.nodes.length
    · rw [show s.store (some a) f = .ok (s.put a f) from if_pos inside]
      exact if_pos inside
    · rw [show s.store (some a) f = .error .wildPointer from if_neg inside]
      exact if_neg inside

theorem placeOver : place (withQueues queues s) item parent = (place s item parent).map (withQueues queues) := by
  cases parent with
  | none => rfl
  | some a =>
    simp only [place,loadOver,storeOver,bindMap]
    congr 1; funext i; congr 1; funext p
    split <;> rfl

theorem attachOver : attach (withQueues queues s) item parent current =
    (attach s item parent current).map (withQueues queues) := by
  simp only [attach,storeOver,loadOver,mapBind,bindMap,placeOver]

theorem descendOver : descend (withQueues queues s) item fuel parent current =
    (descend s item fuel parent current).map (withQueues queues) := by
  induction fuel generalizing parent current with
  | zero => rfl
  | succ fuel ih =>
    simp only [descend,loadOver,storeOver,attachOver,bindMap,ih]
    congr 1; funext c; congr 1; funext i
    split
    · rfl
    · split <;> split <;> rfl

theorem leftmostOver : leftmost (withQueues queues s) fuel parent current = leftmost s fuel parent current := by
  induction fuel generalizing parent current with
  | zero => rfl
  | succ fuel ih => simp only [leftmost,loadOver,ih]

theorem bypassOver {right : Option Nat} : bypass (withQueues queues s) parent right =
    (bypass s parent right).map (withQueues queues) := by
  cases parent with
  | none => rfl
  | some a => simp only [bypass,storeOver]

def overFirst (queues : Nat → EventQueue) (r : World × α) : World × α := (withQueues queues r.1,r.2)

theorem unlinkOver : unlinkCurrent (withQueues queues s) parent current =
    (unlinkCurrent s parent current).map (overFirst queues) := by
  simp only [unlinkCurrent,loadOver,bindMap]
  congr 1; funext c
  split
  · simp only [storeOver,loadOver,mapBind,bindMap]
    rfl
  · simp only [bypassOver,storeOver,mapBind,bindMap]
    rfl

theorem takeOver : takeCurrent (withQueues queues s) = (takeCurrent s).map (overFirst queues) := by
  simp only [takeCurrent,bindMap]
  rw [show (withQueues queues s).root = s.root from rfl,show (withQueues queues s).nodes = s.nodes from rfl,
    leftmostOver]
  congr 1; funext r
  exact unlinkOver

end Over

section Alone
variable {asserts : Assertion → Bool} {queues queues' : Nat → EventQueue} {s : World} {item current : Option Nat}
variable {q : Nat} {R : Type}

theorem isEmptyAlone (f : Bool → Call R) : ((isEmpty q >>= f).alone serve queues).1 =
    ((f (eventQueueIsEmpty (queues q))).alone serve queues).1 := rfl

theorem popAlone (f : Option Event → Call R) : (pop q >>= f).alone serve queues =
    (f (eventQueuePop (queues q)).2).alone serve (Function.update queues q (eventQueuePop (queues q)).1) := rfl

theorem peekTimeAlone (asserts : Assertion → Bool) (q : Nat) (queues : Nat → EventQueue) :
    (eventQueuePeekTime asserts q).alone serve queues = (Queue.eventQueuePeekTime asserts (queues q),queues) := by
  have peeked : (eventQueuePeekTime asserts q).alone serve queues =
      (lift (check asserts .peekTimeEvent (eventQueuePeek (queues q)).isSome) >>= fun _ =>
        match eventQueuePeek (queues q) with
        | none => .fail .nullPointer
        | some e => pure e.timestamp : Call Nat).alone serve queues := rfl
  rw [peeked,Queue.eventQueuePeekTime]
  cases check asserts .peekTimeEvent (eventQueuePeek (queues q)).isSome with
  | error f => rfl
  | ok _ => cases eventQueuePeek (queues q) <;> rfl

theorem timedAlone (f : Nat → Call R) : ((eventQueuePeekTime asserts q >>= f).alone serve queues).1 =
    Queue.eventQueuePeekTime asserts (queues q) >>= fun time => ((f time).alone serve queues).1 := by
  rw [aloneBind,peekTimeAlone]
  cases Queue.eventQueuePeekTime asserts (queues q) <;> rfl

theorem rebalanceAlone : EventTree.eventTreeRebalance asserts (withQueues queues s) item =
    ((eventTreeRebalance asserts s item).alone serve queues).1.map (withQueues queues) := by
  simp only [eventTreeRebalance,EventTree.eventTreeRebalance,aloneLift,bindMap,storeOver,mapBind,loadOver,timedAlone]
  congr 1; funext _; congr 1; funext s₁; congr 1; funext i; congr 1; funext time; congr 1; funext s₂
  by_cases root : s₂.root.isNone = true
  · rw [if_pos root,if_pos (show (withQueues queues s₂).root.isNone = true from root)]
    rfl
  · rw [if_neg root,if_neg (show ¬ (withQueues queues s₂).root.isNone = true from root),liftAlone]
    exact descendOver

theorem peekTimeOnly {allowed : Access → Prop} (here : allowed (.peek q)) :
    (eventQueuePeekTime asserts q).Only allowed := by
  refine onlyBind (p := peek q) ⟨here,fun _ => trivial⟩ (fun e => onlyBind (onlyLift _) (fun _ => ?_))
  cases e <;> trivial

theorem rebalanceOnly :
    (eventTreeRebalance asserts s item).Only (fun a => ∃ n, s.load item = .ok n ∧ a = .peek n.queue) := by
  refine onlyBind (onlyLift _) (fun _ => ?_)
  cases stored : s.store item ({· with right := none, left := none, next := none, prev := none, head := item}) with
  | error f => trivial
  | ok s₁ =>
    rw [liftOk]
    cases loaded : s₁.load item with
    | error f => trivial
    | ok i =>
      obtain ⟨a,rfl,rfl⟩ := storeInv stored
      obtain ⟨n,node,node'⟩ := storeFound stored
      cases (loadSome node').symm.trans loaded
      rw [liftOk]
      refine onlyBind (peekTimeOnly ⟨n,loadSome node,rfl⟩) (fun time => onlyBind (onlyLift _) (fun s₂ => ?_))
      split
      · trivial
      · exact onlyLift _

theorem looksSame {p : Call R} (only : p.Only (fun a => ∃ q, a = .isEmpty q ∨ a = .peek q)) :
    (p.alone serve queues).2 = queues :=
  aloneKeeps only (fun a queues ⟨q,looks⟩ => by rcases looks with rfl | rfl <;> rfl)

theorem rebalanceSame : ((eventTreeRebalance asserts s item).alone serve queues).2 = queues :=
  looksSame (onlyMono rebalanceOnly (fun _ ⟨n,_,same⟩ => ⟨n.queue,.inr same⟩))

theorem refileLooks {current : Option Nat} {f : World → R} :
    (eventTreeRebalance asserts s current >>= fun s => pure (f s)).Only (fun a => ∃ q, a = .isEmpty q ∨ a = .peek q) :=
  onlyBind (onlyMono rebalanceOnly (fun _ ⟨n,_,same⟩ => ⟨n.queue,.inr same⟩)) (fun _ => trivial)

theorem isEmptySame : ((eventTreeIsEmpty asserts s).alone serve queues).2 = queues := by
  refine looksSame ?_
  unfold eventTreeIsEmpty
  split
  · trivial
  split
  · trivial
  refine onlyBind (onlyLift _) (fun l => ?_)
  refine onlyBind (p := isEmpty l.queue) ⟨⟨_,.inl rfl⟩,fun _ => trivial⟩ (fun empty => ?_)
  cases empty with
  | true => trivial
  | false => exact refileLooks

theorem addSame {memory : Option TreeNode} : ((eventTreeAdd asserts s memory q).alone serve queues).2 = queues := by
  refine looksSame (onlyBind (p := isEmpty q) ⟨⟨q,.inl rfl⟩,fun _ => trivial⟩ (fun empty => ?_))
  cases empty with
  | true => trivial
  | false =>
    rw [if_neg Bool.false_ne_true]
    cases memory with
    | none => trivial
    | some m =>
      dsimp only [nodeNew]
      split
      · trivial
      · exact refileLooks

theorem isEmptyCall : EventTree.eventTreeIsEmpty asserts (withQueues queues s) =
    ((eventTreeIsEmpty asserts s).alone serve queues).1.map (overFirst queues) := by
  unfold eventTreeIsEmpty EventTree.eventTreeIsEmpty
  rw [show (withQueues queues s).root = s.root from rfl,show (withQueues queues s).last = s.last from rfl]
  split
  · rfl
  split
  · rfl
  rw [loadOver,aloneLift,bindMap]
  congr 1; funext l
  rw [isEmptyAlone]
  by_cases empty : eventQueueIsEmpty (queues l.queue) = true
  · rw [if_pos empty,if_pos (show eventQueueIsEmpty ((withQueues queues s).queues l.queue) = true from empty)]
    rfl
  · rw [if_neg empty,if_neg (show ¬ eventQueueIsEmpty ((withQueues queues s).queues l.queue) = true from empty),
      rebalanceAlone,mapBind,aloneFirst,rebalanceSame,bindMap]
    rfl

theorem addCall {memory : Option TreeNode} : EventTree.eventTreeAdd asserts (withQueues queues s) memory q =
    ((eventTreeAdd asserts s memory q).alone serve queues).1.map (overFirst queues) := by
  unfold eventTreeAdd EventTree.eventTreeAdd
  rw [isEmptyAlone,show (withQueues queues s).queues = queues from rfl]
  by_cases empty : eventQueueIsEmpty (queues q) = true
  · rw [if_pos empty,if_pos empty]
    rfl
  rw [if_neg empty,if_neg empty]
  cases memory with
  | none => rfl
  | some m =>
    let s₁ : World := {s with nodes := s.nodes ++ [{m with queue := q, head := some s.nodes.length}]}
    change (if s.root.isNone then .ok ({withQueues queues s₁ with root := some s.nodes.length},true) else
        EventTree.eventTreeRebalance asserts (withQueues queues s₁) (some s.nodes.length) >>= fun s => .ok (s,true)) =
      Except.map (overFirst queues) ((if s.root.isNone then pure ({s₁ with root := some s.nodes.length},true) else
        eventTreeRebalance asserts s₁ (some s.nodes.length) >>= fun s => pure (s,true) : Call (World × Bool)).alone
          serve queues).1
    by_cases root : s.root.isNone = true
    · rw [if_pos root,if_pos root]
      rfl
    · rw [if_neg root,if_neg root,rebalanceAlone,mapBind,aloneFirst,rebalanceSame,bindMap]
      rfl

theorem parkCall {e : Event} :
    (if eventQueueIsEmpty (queues q) then .ok ({withQueues queues s with last := current},some e)
      else EventTree.eventTreeRebalance asserts (withQueues queues s) current >>= fun s => .ok (s,some e)) =
    ((park asserts s current q e).alone serve queues).1.map (overFirst queues) := by
  rw [park,isEmptyAlone]
  by_cases empty : eventQueueIsEmpty (queues q) = true
  · rw [if_pos empty,if_pos empty]
    rfl
  · rw [if_neg empty,if_neg empty,rebalanceAlone,mapBind,aloneFirst,rebalanceSame,bindMap]
    rfl

theorem parkOnly {e : Event} (own : ∀ n, s.load current = .ok n → n.queue = q) :
    (park asserts s current q e).Only (fun a => a = .isEmpty q ∨ a = .peek q) := by
  refine onlyBind (p := isEmpty q) ⟨.inl rfl,fun _ => trivial⟩ (fun empty => ?_)
  cases empty with
  | true => trivial
  | false =>
    refine onlyBind (onlyMono rebalanceOnly ?_) (fun _ => trivial)
    rintro a ⟨n,loaded,rfl⟩
    exact .inr (congrArg Access.peek (own n loaded))

theorem parkSame {e : Event} : ((park asserts s current q e).alone serve queues).2 = queues := by
  refine looksSame (onlyBind (p := isEmpty q) ⟨⟨q,.inl rfl⟩,fun _ => trivial⟩ (fun empty => ?_))
  cases empty with
  | true => trivial
  | false => exact refileLooks

theorem popNone {queue : EventQueue} (none : (eventQueuePop queue).2 = none) : (eventQueuePop queue).1 = queue := by
  by_cases same : queue.spsc.readPos = queue.spsc.writePos
  · simp only [eventQueuePop,spscQueueRead,if_pos same]
  · simp [eventQueuePop,spscQueueRead,same] at none

theorem deliverCall : EventTree.deliver asserts (withQueues queues s) current =
    ((deliver asserts s current).alone serve queues).1.map
      (overFirst ((deliver asserts s current).alone serve queues).2) := by
  unfold deliver EventTree.deliver
  rw [loadOver]
  cases s.load current with
  | error f => rfl
  | ok c =>
    rw [liftOk,popAlone,okBind rfl,show (withQueues queues s).queues = queues from rfl]
    cases popped : (eventQueuePop (queues c.queue)).2 with
    | none =>
      have same : eventQueuePop (queues c.queue) = (queues c.queue,none) := Prod.ext (popNone popped) popped
      rw [same,Function.update_eq_self]
      rfl
    | some e =>
      generalize left : (eventQueuePop (queues c.queue)).1 = queue
      have same : eventQueuePop (queues c.queue) = (queue,some e) := Prod.ext left popped
      rw [same]
      dsimp only
      by_cases type : e.type = .kOnQueueClosed
      · rw [if_pos type,if_pos type]
        rfl
      · rw [if_neg type,if_neg type,parkSame,← parkCall]
        rfl

theorem readCall : EventTree.eventTreeRead asserts (withQueues queues s) =
    ((eventTreeRead asserts s).alone serve queues).1.map
      (overFirst ((eventTreeRead asserts s).alone serve queues).2) := by
  unfold eventTreeRead EventTree.eventTreeRead
  rw [takeOver,show (withQueues queues s).last = s.last from rfl]
  cases check asserts .readLast s.last.isSome with
  | error f => rfl
  | ok _ =>
    cases takeCurrent s with
    | error f => rfl
    | ok r => exact deliverCall

end Alone

end Qtl.EventTreeSteps
