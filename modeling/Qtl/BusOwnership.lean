import Mathlib.Algebra.BigOperators.Group.Finset.Basic
import Qtl.BusStore
import Qtl.EventHolders
import Qtl.EventTreeTaken

/-! Who holds the references to every event: the slots of the queues, saved_event and
the client. Any call may come between two accesses of event_bus_dequeue. -/
namespace Qtl.BusOwnership
open Queue EventTree Spsc Pipe Bus BusStore EventRef EventHolders EventTreeRun EventTreeTaken
open Base.Trace (Run)

structure Tree where
  nodes : List TreeNode
  root : Option Nat
  last : Option Nat

/- `trees` are trees the client reads without a bus. `cells` and `events` are the event
objects, of which `next` have been made; `client` counts the client's references. -/
structure Ledger where
  caller : Caller Store
  trees : Nat → Tree
  cells : Nat → RefCell
  events : Nat → Event
  next : Nat
  client : Nat → Nat

inductive Turn where
  | init (e : Event)
  | ref (x : Nat)
  | unref (x : Nat)
  | push (queue x : Nat)
  | treeAdd (tree : Nat) (memory : Option TreeNode) (queue : Nat)
  | treeIsEmpty (tree : Nat)
  | treeRead (tree : Nat)
  | addQueue (owner : Bool) (queue : Nat) (pipe : EventBusPipe)
  | pipeIsEmpty (p : PipeName)
  | pipeRead (p : PipeName)
  | dequeue
  | queueClear (queue : Nat)
  | busClear

def Ledger.queues (l : Ledger) : Nat → EventQueue := l.caller.bus.pipes.queues

def Ledger.saved (l : Ledger) : Option Event := l.caller.bus.savedEvent

def Ledger.putStore (l : Ledger) (s : Store) : Ledger :=
  {l with caller := {l.caller with bus := {l.caller.bus with pipes := s}}}

def treeWorld (l : Ledger) (t : Nat) : World := ⟨(l.trees t).nodes,l.queues,(l.trees t).root,(l.trees t).last⟩

def putTree (l : Ledger) (t : Nat) (w : World) : Ledger :=
  {l.putStore {l.caller.bus.pipes with queues := w.queues} with
    trees := Function.update l.trees t ⟨w.nodes,w.root,w.last⟩}

-- An event the library made itself gets its number where it first appears.
def named (l : Ledger) (e : Event) : Ledger × Nat :=
  match e.object with
  | some x => (l,x)
  | none => ({l with
      cells := Function.update l.cells l.next eventInit,
      events := Function.update l.events l.next {e with object := some l.next},
      next := l.next + 1},l.next)

def hand (l : Ledger) : Option Event → Ledger
  | none => l
  | some e =>
      let (l,x) := named l e
      {l with client := Function.update l.client x (l.client x + 1)}

def save (l : Ledger) (e : Event) : Ledger :=
  let (l,x) := named l e
  {l with caller := {l.caller with bus := {l.caller.bus with savedEvent := some {e with object := some x}}}}

def settle (l : Ledger) : Bus.Label → Ledger
  | .returned _ e => hand l e
  | .kept _ (some e) => save l e
  | .swallowed e => (named l e).1
  | _ => l

def unrefEvent (cells : Nat → RefCell) (e : Event) : Nat → RefCell :=
  match e.object with
  | some x => Function.update cells x (eventUnref (cells x)).1
  | none => cells

def eventQueueClear : Nat → EventQueue → (Nat → RefCell) → Except Failure (EventQueue × (Nat → RefCell))
  | 0,_,_ => .error (.fault .endlessLoop)
  | fuel + 1,q,cells => match eventQueuePop q with
    | (q,none) => .ok (q,cells)
    | (q,some e) => eventQueueClear fuel q (unrefEvent cells e)

-- The free of saved_event in event_bus_clear, which does not look at the count.
def freeSaved (cells : Nat → RefCell) (saved : Option Event) : Nat → RefCell :=
  match saved.bind Event.object with
  | some x => Function.update cells x {cells x with freed := true}
  | none => cells

section Machine
variable (asserts : Assertion → Bool) (alloc : PipeName → Nat → Option TreeNode) (utcNow : Nat → Nat)

def step (l : Ledger) : Turn → Except Failure Ledger
  | .init e => .ok (hand l (some {e with object := none}))
  | .ref x => .ok {l with
      cells := Function.update l.cells x (eventRef (l.cells x)).1,
      client := Function.update l.client x (l.client x + 1)}
  | .unref x => .ok {l with
      cells := Function.update l.cells x (eventUnref (l.cells x)).1,
      client := Function.update l.client x (l.client x - 1)}
  | .push q x =>
      let (s,ret) := pushTo l.caller.bus.pipes q {l.events x with object := some x}
      .ok {l.putStore s with client := if ret then Function.update l.client x (l.client x - 1) else l.client}
  | .treeAdd t memory q => do
      let (w,_) ← lift (eventTreeAdd asserts (treeWorld l t) memory q)
      .ok (putTree l t w)
  | .treeIsEmpty t => do
      let (w,_) ← lift (eventTreeIsEmpty asserts (treeWorld l t))
      .ok (putTree l t w)
  | .treeRead t => do
      let (w,e) ← lift (eventTreeRead asserts (treeWorld l t))
      .ok (hand (putTree l t w) e)
  | .addQueue owner q pipe => do
      let (b,_) ← eventBusAddQueue asserts alloc owner l.caller.bus q pipe
      .ok {l with caller := {l.caller with bus := b}}
  | .pipeIsEmpty p => do
      let (s,_) ← (storePipes asserts alloc).isEmpty p l.caller.bus.pipes
      .ok (l.putStore s)
  | .pipeRead p => do
      let (s,e) ← (storePipes asserts alloc).read p l.caller.bus.pipes
      .ok (hand (l.putStore s) e)
  | .dequeue => do
      let (label,caller) ← dequeueStep (storePipes asserts alloc) utcNow l.caller
      .ok (settle {l with caller := caller} label)
  | .queueClear q => do
      let (queue,cells) ← eventQueueClear (l.queues q).spsc.capacity (l.queues q) l.cells
      let s := l.caller.bus.pipes
      .ok {l.putStore {s with queues := Function.update s.queues q queue} with cells := cells}
  | .busClear => do
      let b ← eventBusClear l.caller.bus
      .ok {l with caller := {l.caller with bus := b}, cells := freeSaved l.cells l.saved}

def drained (s : Store) (p : PipeName) : Except Failure PipeWorld :=
  processPendingAdd asserts (alloc p) (pipeWorld s p).pendingAdd.capacity (pipeWorld s p)

def isObject (x : Nat) (e : Event) : Bool := e.object == some x

def slots (n : Nat) (queues : Nat → EventQueue) (x : Nat) : Nat :=
  ∑ q ∈ Finset.range n, (contents (queues q)).countP (isObject x)

def heldBy (e : Option Event) (x : Nat) : Nat := if e.bind Event.object = some x then 1 else 0

def holders (n : Nat) (l : Ledger) (x : Nat) : Nat := slots n l.queues x + heldBy l.saved x + l.client x

/-- Every count that is not freed is the number of holders, and an event is freed exactly
when it has none. -/
def Conserved (n : Nat) (l : Ledger) : Prop := Accounted l.cells l.next (holders n l)

def Allowed (n : Nat) (l : Ledger) : Turn → Prop
  | .ref x => 0 < holders n l x ∧ holders n l x + 1 < ushortRange
  | .unref x => 0 < l.client x
  | .push q x => q < n ∧ 0 < l.client x
  | _ => True

/-- No read takes the closing event of a tree's last queue, no read of the data pipe in a
simulation takes a stop event, and no saved event that has another holder is cleared. -/
def Clean (l : Ledger) : Turn → Prop
  | .treeRead t => ¬ LastClosing (treeWorld l t)
  | .pipeRead p => ∀ w, drained asserts alloc l.caller.bus.pipes p = .ok w → ¬ LastClosing w.toWorld
  | .dequeue => ∀ loop p w, l.caller.point = .read loop p → drained asserts alloc l.caller.bus.pipes p = .ok w →
      ¬ LastClosing w.toWorld ∧ (loop = .kSimulation → p = .data →
        ∀ q e, upcoming w.toWorld = some (q,e) → e.type ≠ .kOnSimulatorStop)
  | .busClear => ∀ x, l.saved.bind Event.object = some x → (l.cells x).ref = 1
  | _ => True

structure Move where
  before : Ledger
  turn : Turn
  after : Ledger

instance (n : Nat) (l : Ledger) (turn : Turn) : Decidable (Allowed n l turn) := by
  cases turn <;> unfold Allowed <;> infer_instance

def move (n : Nat) (l : Ledger) (turn : Turn) : Option (Move × Ledger) :=
  if Allowed n l turn then (step asserts alloc utcNow l turn).toOption.map (fun l' => (⟨l,turn,l'⟩,l')) else none

end Machine

def unsavedAt : Point → Bool
  | .read _ .data => true
  | .checkStop => true
  | _ => false

structure Formed (n : Nat) (s : Caller Store) : Prop where
  beyond : ∀ q, n ≤ q → contents (s.bus.pipes.queues q) = []
  named : ∀ q, ∀ e ∈ contents (s.bus.pipes.queues q), e.object.isSome
  saved : ∀ e, s.bus.savedEvent = some e → e.object.isSome
  unsaved : unsavedAt s.point = true → s.bus.savedEvent = none

variable {asserts : Assertion → Bool} {alloc : PipeName → Nat → Option TreeNode} {utcNow : Nat → Nat}
variable {n q x : Nat} {queues queues' : Nat → EventQueue} {new : EventQueue} {e : Event}
variable {l l₁ l' : Ledger}

theorem moveCases {turn : Turn} {m : Move} (moved : move asserts alloc utcNow n l turn = some (m,l')) :
    m = ⟨l,turn,l'⟩ ∧ Allowed n l turn ∧ step asserts alloc utcNow l turn = .ok l' := by
  unfold move at moved
  split at moved <;> try contradiction
  rename_i allowed
  obtain ⟨l'',done,same⟩ := Option.map_eq_some_iff.mp moved
  cases same
  exact ⟨rfl,allowed,okOption done⟩

section Slots

theorem slotsUpdate (queues : Nat → EventQueue) (new : EventQueue) (inside : q < n) (x : Nat) :
    slots n (Function.update queues q new) x + (contents (queues q)).countP (isObject x) =
      slots n queues x + (contents new).countP (isObject x) := by
  have mem : q ∈ Finset.range n := Finset.mem_range.mpr inside
  have others : ∑ i ∈ (Finset.range n).erase q, (contents (Function.update queues q new i)).countP (isObject x) =
      ∑ i ∈ (Finset.range n).erase q, (contents (queues i)).countP (isObject x) :=
    Finset.sum_congr rfl (fun i left => by rw [Function.update_of_ne (Finset.ne_of_mem_erase left)])
  have after := Finset.add_sum_erase _ (fun i => (contents (Function.update queues q new i)).countP (isObject x)) mem
  have before := Finset.add_sum_erase _ (fun i => (contents (queues i)).countP (isObject x)) mem
  simp only [Function.update_self] at after
  simp only [slots]
  omega

theorem slotsSame (same : ∀ q, contents (queues' q) = contents (queues q)) : slots n queues' = slots n queues := by
  funext x
  exact Finset.sum_congr rfl (fun q _ => by rw [same q])

theorem heldNamed (object : e.object = some x) (y : Nat) : heldBy (some e) y = if y = x then 1 else 0 := by
  simp only [heldBy,Option.bind_some,object,Option.some.injEq,eq_comm]

theorem countNamed (object : e.object = some x) (rest : List Event) (y : Nat) :
    (e :: rest).countP (isObject y) = rest.countP (isObject y) + if y = x then 1 else 0 := by
  have same : isObject y e = true ↔ y = x := by
    rw [isObject,object,beq_iff_eq,Option.some.injEq,eq_comm]
  simp only [List.countP_cons,same]

theorem updateContents (same : contents new = contents (queues q)) (i : Nat) :
    contents (Function.update queues q new i) = contents (queues i) := by
  by_cases here : i = q
  · subst here
    rw [Function.update_self,same]
  · rw [Function.update_of_ne here]

theorem slotPopped (inside : q < n) (object : e.object = some x) (front : contents (queues q) = e :: contents new) :
    OneMore x (slots n (Function.update queues q new)) (slots n queues) := by
  intro y
  have moved := slotsUpdate queues new inside y
  rw [front,countNamed object] at moved
  omega

theorem slotPushed (inside : q < n) (object : e.object = some x) (back : contents new = contents (queues q) ++ [e]) :
    OneMore x (slots n queues) (slots n (Function.update queues q new)) := by
  intro y
  have moved := slotsUpdate queues new inside y
  rw [back,List.countP_append,countNamed object,List.countP_nil] at moved
  omega

end Slots

section Frames
variable {s s' : Caller Store} {st st' : Store} {w w' : PipeWorld} {tree : World} {p : PipeName} {r : Option Event}
variable {b b' : EventBus Store}

theorem formedFewer (formed : Formed n s)
    (fewer : ∀ q, contents (s'.bus.pipes.queues q) ⊆ contents (s.bus.pipes.queues q))
    (saved : ∀ e, s'.bus.savedEvent = some e → e.object.isSome)
    (unsaved : unsavedAt s'.point = true → s'.bus.savedEvent = none) :
    Formed n s' where
  beyond q above := by
    have inside := fewer q
    rw [formed.beyond q above] at inside
    exact List.subset_nil.mp inside
  named q e mem := formed.named q e (fewer q mem)
  saved := saved
  unsaved := unsaved

theorem formedReads (formed : Formed n s)
    (fewer : ∀ q, contents (s'.bus.pipes.queues q) ⊆ contents (s.bus.pipes.queues q))
    (saved : s'.bus.savedEvent = s.bus.savedEvent) (point : s'.point = s.point) : Formed n s' := by
  refine formedFewer formed fewer ?_ ?_
  · rw [saved]
    exact formed.saved
  · rw [saved,point]
    exact formed.unsaved

theorem formedQueues (formed : Formed n s) (queues : s'.bus.pipes.queues = s.bus.pipes.queues)
    (saved : s'.bus.savedEvent = s.bus.savedEvent) (point : s'.point = s.point) : Formed n s' :=
  formedReads formed (fun q => by rw [queues]; exact List.Subset.refl _) saved point

theorem pipeReadTaken (done : (storePipes asserts alloc).read p st = .ok (st',r)) :
    ∃ w tree, drained asserts alloc st p = .ok w ∧ w.queues = st.queues ∧ TreeRead w.toWorld tree r ∧
      st'.queues = tree.queues := by
  obtain ⟨⟨w',_⟩,read,done⟩ := bindOk done
  obtain ⟨w,ready,read⟩ := bindOk read
  obtain ⟨⟨tree,_⟩,lifted,read⟩ := bindOk read
  cases read
  cases done
  exact ⟨w,tree,ready,drainQueues ready,treeRead (liftOk lifted),rfl⟩

theorem pipeIsEmptyQueues {empty : Bool} (done : (storePipes asserts alloc).isEmpty p st = .ok (st',empty)) :
    st'.queues = st.queues := by
  obtain ⟨⟨w',_⟩,asked,done⟩ := bindOk done
  obtain ⟨w,ready,asked⟩ := bindOk asked
  obtain ⟨⟨tree,_⟩,lifted,asked⟩ := bindOk asked
  cases asked
  cases done
  exact (isEmptyQueues (liftOk lifted)).trans (drainQueues ready)

theorem pendingWriteQueues {q : Nat} (done : pendingWrite w q = .ok w') : w'.queues = w.queues := by
  unfold pendingWrite at done
  split at done
  · cases done; rfl
  · split at done <;> cases done
    rfl

theorem addQueueKeeps {owner ret : Bool} {pipe : EventBusPipe}
    (done : eventBusAddQueue asserts alloc owner b q pipe = .ok (b',ret)) :
    b'.pipes.queues = b.pipes.queues ∧ b'.savedEvent = b.savedEvent := by
  obtain ⟨w,added,done⟩ := bindOk done
  cases done
  refine ⟨?_,rfl⟩
  unfold eventPipeAdd at added
  split at added
  · exact treeAddQueues added
  · exact pendingWriteQueues added

theorem clearPipeQueues (done : clearPipe p st = .ok st') : st'.queues = st.queues := by
  obtain ⟨w,cleared,done⟩ := bindOk done
  cases done
  obtain ⟨w',destroyed,cleared⟩ := bindOk cleared
  cases cleared
  unfold pendingDestroy at destroyed
  split at destroyed <;> cases destroyed
  rfl

theorem busClearKeeps (done : eventBusClear b = .ok b') :
    b'.pipes.queues = b.pipes.queues ∧ b'.savedEvent = none := by
  obtain ⟨s₁,first,done⟩ := bindOk done
  obtain ⟨s₂,second,done⟩ := bindOk done
  obtain ⟨s₃,third,done⟩ := bindOk done
  obtain ⟨s₄,fourth,done⟩ := bindOk done
  cases done
  refine ⟨?_,rfl⟩
  rw [show s₄.queues = s₃.queues from clearPipeQueues fourth,clearPipeQueues third,clearPipeQueues second,
    clearPipeQueues first]

end Frames

end Qtl.BusOwnership
