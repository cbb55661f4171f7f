import Qtl.Queue

/-! qtl_etree.c over an explicit heap. Node addresses are the positions in the
list of nodes handed out by malloc so far, so a pointer into memory not yet handed
out is wild. A closed queue's node is never freed by the source. -/
namespace Qtl.EventTree
open Queue

structure TreeNode where
  queue : Nat
  timestamp : Nat
  left : Option Nat
  right : Option Nat
  next : Option Nat
  prev : Option Nat
  head : Option Nat
  deriving DecidableEq, Repr

structure World where
  nodes : List TreeNode
  queues : Nat → EventQueue
  root : Option Nat
  last : Option Nat

def World.load (s : World) : Option Nat → Except Fault TreeNode
  | none => .error .nullPointer
  | some a => match s.nodes[a]? with
    | some n => .ok n
    | none => .error .wildPointer

def World.put (s : World) (a : Nat) (f : TreeNode → TreeNode) : World :=
  {s with nodes := s.nodes.modify a f}

def World.store (s : World) (p : Option Nat) (f : TreeNode → TreeNode) : Except Fault World :=
  match p with
  | none => .error .nullPointer
  | some a => if a < s.nodes.length then .ok (s.put a f) else .error .wildPointer

def World.setQueue (s : World) (i : Nat) (q : EventQueue) : World :=
  {s with queues := Function.update s.queues i q}

-- The fields malloc'ed memory brings along are whatever `memory` holds.
def nodeNew (memory : Option TreeNode) (s : World) (q : Nat) : World × Option Nat :=
  match memory with
  | none => (s,none)
  | some m =>
      let node := some s.nodes.length
      ({s with nodes := s.nodes ++ [{m with queue := q, head := node}]},node)

def eventTreeInit (s : World) : World := {s with root := none, last := none}

-- The end of event_tree_rebalance: the pointer that led to `current` is set to the item.
def place (s : World) (item parent : Option Nat) : Except Fault World :=
  match parent with
  | none => .ok {s with root := item}
  | some _ => do
      let i ← s.load item
      let p ← s.load parent
      if i.timestamp > p.timestamp then s.store parent ({· with right := item})
      else s.store parent ({· with left := item})

/- The part of event_tree_rebalance after its search loop: the item becomes the
newest of the chain it met and takes that node's place in the tree. -/
def attach (s : World) (item parent current : Option Nat) : Except Fault World := do
  let s ← s.store item ({· with prev := current})
  let s ← s.store current ({· with next := item})
  let c ← s.load current
  let s ← s.store item ({· with head := c.head, right := c.right, left := c.left})
  place s item parent

/- The search loop changes nothing but its two cursors, so a search longer than the
heap has met a node twice and never ends. -/
def descend (s : World) (item : Option Nat) : Nat → (parent current : Option Nat) → Except Fault World
  | 0, _, _ => .error .endlessLoop
  | fuel + 1, parent, current => do
      let c ← s.load current
      let i ← s.load item
      if c.timestamp = i.timestamp then attach s item parent current
      else if i.timestamp > c.timestamp then
        if c.right.isNone then s.store current ({· with right := item})
        else descend s item fuel current c.right
      else
        if c.left.isNone then s.store current ({· with left := item})
        else descend s item fuel current c.left

def eventTreeRebalance (asserts : Assertion → Bool) (s : World) (item : Option Nat) :
    Except Fault World := do
  check asserts .rebalanceItem item.isSome
  let s ← s.store item
    ({· with right := none, left := none, next := none, prev := none, head := item})
  let i ← s.load item
  let time ← eventQueuePeekTime asserts (s.queues i.queue)
  let s ← s.store item ({· with timestamp := time})
  if s.root.isNone then .ok {s with root := item}
  else descend s item (s.nodes.length + 1) none s.root

def eventTreeIsEmpty (asserts : Assertion → Bool) (s : World) : Except Fault (World × Bool) :=
  if s.root.isNone && s.last.isNone then .ok (s,true)
  else if s.last.isNone then .ok (s,false)
  else do
    let l ← s.load s.last
    if eventQueueIsEmpty (s.queues l.queue) then .ok (s,true)
    else do
      let s ← eventTreeRebalance asserts s s.last
      .ok ({s with last := none},false)

def leftmost (s : World) : Nat → (parent current : Option Nat) → Except Fault (Option Nat × Option Nat)
  | 0, _, _ => .error .endlessLoop
  | fuel + 1, parent, current => do
      let c ← s.load current
      if c.left.isSome then leftmost s fuel current c.left else .ok (parent,current)

def bypass (s : World) (parent right : Option Nat) : Except Fault World :=
  match parent with
  | some _ => s.store parent ({· with left := right})
  | none => .ok {s with root := right}

/- After the loop: the oldest node of the leftmost chain leaves the chain, or a
leftmost node without a chain leaves the tree. -/
def unlinkCurrent (s : World) (parent current : Option Nat) : Except Fault (World × Option Nat) := do
  let c ← s.load current
  if c.prev.isSome then
    let temp := c.head
    let h ← s.load c.head
    let s ← s.store h.next ({· with prev := none})
    let c ← s.load current
    let h ← s.load c.head
    let s ← s.store current ({· with head := h.next})
    .ok (s,temp)
  else
    let s ← bypass s parent c.right
    let s ← s.store current ({· with right := none})
    .ok (s,current)

def takeCurrent (s : World) : Except Fault (World × Option Nat) := do
  let (parent,current) ← leftmost s (s.nodes.length + 1) none s.root
  unlinkCurrent s parent current

-- The second half: what becomes of the node that was taken. `none` is the null pointer.
def deliver (asserts : Assertion → Bool) (s : World) (current : Option Nat) :
    Except Fault (World × Option Event) := do
  let c ← s.load current
  match eventQueuePop (s.queues c.queue) with
  | (_,none) => .ok (s,none)
  | (q,some e) =>
      let s := s.setQueue c.queue q
      if e.type = .kOnQueueClosed then
        .ok (s,some (if s.root.isNone then newOnSimulationStopEvent else e))
      else if eventQueueIsEmpty (s.queues c.queue) then .ok ({s with last := current},some e)
      else do
        let s ← eventTreeRebalance asserts s current
        .ok (s,some e)

def eventTreeRead (asserts : Assertion → Bool) (s : World) : Except Fault (World × Option Event) := do
  check asserts .readLast s.last.isSome
  let (s,current) ← takeCurrent s
  deliver asserts s current

def eventTreeAdd (asserts : Assertion → Bool) (s : World) (memory : Option TreeNode) (queue : Nat) :
    Except Fault (World × Bool) :=
  if eventQueueIsEmpty (s.queues queue) then .ok (s,false)
  else
    match nodeNew memory s queue with
    | (s,none) => .ok (s,false)
    | (s,some item) =>
        if s.root.isNone then .ok ({s with root := some item},true)
        else do
          let s ← eventTreeRebalance asserts s (some item)
          .ok (s,true)

end Qtl.EventTree
