import Qtl.Spsc

/-! Events and the queues that carry them to the bus. A queue is an event ring
with the bus to wake; the ring inside is one spsc_queue_init accepted. -/
namespace Qtl.Queue
open Spsc

inductive EventType where
  | kAsk | kBid | kTrade | kOnQueueOpen | kOnQueueClosed | kOnSimulatorStart | kOnSimulatorStop
  deriving DecidableEq, Repr

-- `object` names the client's event object; the library's own events have none.
structure Event where
  timestamp : Nat
  type : EventType
  object : Option Nat
  deriving DecidableEq, Repr

def minDateTime : Nat := 0

def newOnSimulationStopEvent : Event := ⟨minDateTime,.kOnSimulatorStop,none⟩

inductive Assertion where
  | peekTimeEvent | readLast | rebalanceItem
  deriving DecidableEq, Repr

inductive Fault where
  | assertion (failed : Assertion)
  | nullPointer
  | wildPointer
  | endlessLoop
  deriving DecidableEq, Repr

-- `asserts` says which assertions are compiled in; NDEBUG is none of them.
def check (asserts : Assertion → Bool) (a : Assertion) (condition : Bool) : Except Fault Unit :=
  if asserts a && !condition then .error (.assertion a) else .ok ()

theorem checkTrue (asserts : Assertion → Bool) (a : Assertion) : check asserts a true = .ok () := by
  simp [check]

theorem bindOk {φ α β : Type} {x : Except φ α} {f : α → Except φ β} {r : β}
    (h : (x >>= f) = .ok r) : ∃ a, x = .ok a ∧ f a = .ok r := by
  cases x with
  | error e => cases h
  | ok a => exact ⟨a,rfl,h⟩

theorem okBind {φ α β : Type} {x : Except φ α} {f : α → Except φ β} {a : α} (h : x = .ok a) :
    (x >>= f) = f a := by subst h; rfl

theorem mapOk {φ α β : Type} {x : Except φ α} {f : α → β} {r : β} (h : x.map f = .ok r) :
    ∃ a, x = .ok a ∧ f a = r := by
  cases x with
  | error e => cases h
  | ok a => exact ⟨a,rfl,Except.ok.inj h⟩

theorem okOption {φ α : Type} {x : Except φ α} {a : α} (h : x.toOption = some a) : x = .ok a := by
  cases x with
  | error e => cases h
  | ok b => exact congrArg Except.ok (Option.some.inj h)

structure EventQueue where
  bus : Option Nat
  spsc : SpscQueue Event
  ok : Ok spsc

def contents (q : EventQueue) : List Event := live q.spsc

structure Pushed where
  queue : EventQueue
  ret : Bool
  woken : Option Nat

def eventQueuePush (q : EventQueue) (e : Event) : Pushed :=
  let isEmpty := spscQueueIsEmpty q.spsc
  let ret := (spscQueueWrite q.spsc e).2
  ⟨{q with spsc := (spscQueueWrite q.spsc e).1, ok := writeOk q.ok e},ret,
    if isEmpty && ret then q.bus else none⟩

def eventQueuePop (q : EventQueue) : EventQueue × Option Event :=
  ({q with spsc := (spscQueueRead q.spsc).1, ok := readOk q.ok},(spscQueueRead q.spsc).2)

def eventQueuePeek (q : EventQueue) : Option Event := spscQueuePeek q.spsc

def eventQueueIsEmpty (q : EventQueue) : Bool := spscQueueIsEmpty q.spsc

def eventQueuePeekTime (asserts : Assertion → Bool) (q : EventQueue) : Except Fault Nat := do
  let e := eventQueuePeek q
  check asserts .peekTimeEvent e.isSome
  match e with
  | none => .error .nullPointer
  | some e => .ok e.timestamp

theorem isEmptyContents (q : EventQueue) : eventQueueIsEmpty q = true ↔ contents q = [] :=
  isEmptyExact q.ok

theorem isEmptyCons {q : EventQueue} {e rest} (h : contents q = e :: rest) :
    eventQueueIsEmpty q = false := by
  rw [← Bool.not_eq_true,isEmptyContents,h]; simp

theorem peekTimeFront (asserts : Assertion → Bool) {q : EventQueue} {e rest}
    (h : contents q = e :: rest) : eventQueuePeekTime asserts q = .ok e.timestamp := by
  have front : eventQueuePeek q = some e := by
    rw [eventQueuePeek,peekExact q.ok]; exact congrArg List.head? h
  simp only [eventQueuePeekTime,front,Option.isSome_some,checkTrue]
  rfl

theorem popFront {q : EventQueue} {e rest} (h : contents q = e :: rest) :
    (eventQueuePop q).2 = some e ∧ contents (eventQueuePop q).1 = rest := by
  obtain ⟨item,tail⟩ := readExact q.ok
  exact ⟨item.trans (congrArg List.head? h),tail.trans (congrArg List.tail h)⟩

theorem pushTrue {q : EventQueue} {e} (h : (eventQueuePush q e).ret = true) :
    contents (eventQueuePush q e).queue = contents q ++ [e] := writeAppends q.ok h

theorem pushFalse {q : EventQueue} {e} (h : (eventQueuePush q e).ret = false) :
    contents (eventQueuePush q e).queue = contents q :=
  congrArg live (writeRefusedSame h)

def lone (e : Event) : EventQueue :=
  ⟨none,⟨2,fun _ => e,0,1⟩,⟨Nat.le_refl 2,by simp [uintRange],Nat.zero_lt_two,Nat.one_lt_two⟩⟩

theorem loneContents (e : Event) : contents (lone e) = [e] := rfl

end Qtl.Queue
