import Qtl.EventTree

/-! qtl_pipe.c: an event tree behind a ring of queues that other threads registered.
The ring's storage may be gone, which only a call that touches a slot notices. -/
namespace Qtl.Pipe
open Queue EventTree Spsc

inductive Failure where
  | fault (f : Fault)
  | absentStorage
  | destroyedTwice
  deriving DecidableEq, Repr

def lift {α : Type} : Except Fault α → Except Failure α
  | .error f => .error (.fault f)
  | .ok a => .ok a

theorem liftOk {α : Type} {x : Except Fault α} {r : α} (done : lift x = .ok r) : x = .ok r := by
  cases x with
  | error f => cases done
  | ok r' => cases done; rfl

-- `storage` says whether the records of pending_add are still allocated.
structure PipeWorld extends World where
  pendingAdd : SpscQueue Nat
  pendingOk : Ok pendingAdd
  storage : Bool

def pending (w : PipeWorld) : List Nat := live w.pendingAdd

def pendingWrite (w : PipeWorld) (q : Nat) : Except Failure PipeWorld :=
  if nextRecord w.pendingAdd w.pendingAdd.writePos = w.pendingAdd.readPos then .ok w
  else if w.storage then
    .ok {w with pendingAdd := (spscQueueWrite w.pendingAdd q).1, pendingOk := writeOk w.pendingOk q}
  else .error .absentStorage

def PipeWorld.taken (w : PipeWorld) : PipeWorld :=
  {w with pendingAdd := (spscQueueRead w.pendingAdd).1, pendingOk := readOk w.pendingOk}

def pendingRead (w : PipeWorld) : Except Failure (PipeWorld × Option Nat) :=
  if w.pendingAdd.readPos = w.pendingAdd.writePos then .ok (w,none)
  else if w.storage then .ok (w.taken,(spscQueueRead w.pendingAdd).2)
  else .error .absentStorage

def pendingDestroy (w : PipeWorld) : Except Failure PipeWorld :=
  if w.storage then .ok {w with storage := false} else .error .destroyedTwice

variable (asserts : Assertion → Bool) (alloc : Nat → Option TreeNode)

def treeAdd (w : PipeWorld) (q : Nat) : Except Failure PipeWorld := do
  let (tree,_) ← lift (eventTreeAdd asserts w.toWorld (alloc w.nodes.length) q)
  .ok {w with toWorld := tree}

-- Every round reads one registration, so a ring of the owner's own ends the loop.
def processPendingAdd : Nat → PipeWorld → Except Failure PipeWorld
  | 0,_ => .error (.fault .endlessLoop)
  | fuel + 1,w => do
      match ← pendingRead w with
      | (w,none) => .ok w
      | (w,some q) => processPendingAdd fuel (← treeAdd asserts alloc w q)

variable {asserts alloc}

theorem processTake {fuel : Nat} {w : PipeWorld} (some : w.pendingAdd.readPos ≠ w.pendingAdd.writePos)
    (storage : w.storage = true) : processPendingAdd asserts alloc (fuel + 1) w =
      (treeAdd asserts alloc w.taken (w.pendingAdd.records w.pendingAdd.readPos) >>=
        processPendingAdd asserts alloc fuel) := by
  simp only [processPendingAdd,pendingRead,some,storage,spscQueueRead]
  rfl

theorem processNone {fuel : Nat} {w : PipeWorld} (none : w.pendingAdd.readPos = w.pendingAdd.writePos) :
    processPendingAdd asserts alloc (fuel + 1) w = .ok w := by
  simp only [processPendingAdd,pendingRead,none]
  rfl

theorem processAbsent {fuel : Nat} {w : PipeWorld} (some : w.pendingAdd.readPos ≠ w.pendingAdd.writePos)
    (gone : w.storage = false) : processPendingAdd asserts alloc (fuel + 1) w = .error .absentStorage := by
  simp only [processPendingAdd,pendingRead,some,gone]
  rfl

theorem processCases {fuel : Nat} {w w' : PipeWorld} (done : processPendingAdd asserts alloc (fuel + 1) w = .ok w') :
    (w.pendingAdd.readPos = w.pendingAdd.writePos ∧ w' = w) ∨
    (w.pendingAdd.readPos ≠ w.pendingAdd.writePos ∧ w.storage = true ∧ ∃ middle,
      treeAdd asserts alloc w.taken (w.pendingAdd.records w.pendingAdd.readPos) = .ok middle ∧
      processPendingAdd asserts alloc fuel middle = .ok w') := by
  by_cases same : w.pendingAdd.readPos = w.pendingAdd.writePos
  · rw [processNone same] at done
    cases done
    exact .inl ⟨same,rfl⟩
  · cases storage : w.storage with
    | false =>
      rw [processAbsent same storage] at done
      cases done
    | true =>
      rw [processTake same storage] at done
      obtain ⟨middle,added,later⟩ := bindOk done
      exact .inr ⟨same,rfl,middle,added,later⟩

variable (asserts alloc)

/- The name event_queue_is_synched is not called here: as a condition it is a function's
address and always true. -/
def eventPipeAdd (owner : Bool) (w : PipeWorld) (q : Nat) : Except Failure PipeWorld :=
  if owner then treeAdd asserts alloc w q else pendingWrite w q

def eventPipeIsEmpty (w : PipeWorld) : Except Failure (PipeWorld × Bool) := do
  let w ← processPendingAdd asserts alloc w.pendingAdd.capacity w
  let (tree,empty) ← lift (eventTreeIsEmpty asserts w.toWorld)
  .ok ({w with toWorld := tree},empty)

def eventPipeRead (w : PipeWorld) : Except Failure (PipeWorld × Option Event) := do
  let w ← processPendingAdd asserts alloc w.pendingAdd.capacity w
  let (tree,e) ← lift (eventTreeRead asserts w.toWorld)
  .ok ({w with toWorld := tree},e)

def eventTreeClear (s : World) : World := {s with root := none, last := none}

def eventPipeClear (w : PipeWorld) : Except Failure PipeWorld := do
  let w ← pendingDestroy w
  .ok {w with toWorld := eventTreeClear w.toWorld}

-- The tree of a new pipe is what malloc left there.
def eventPipeNew (tree : World) (records : Nat → Nat) : PipeWorld :=
  ⟨tree,⟨1024,records,0,0⟩,⟨by simp,by simp [uintRange],by simp,by simp⟩,true⟩

def eventPipeFree (w : PipeWorld) : Except Failure PipeWorld := eventPipeClear w

end Qtl.Pipe
