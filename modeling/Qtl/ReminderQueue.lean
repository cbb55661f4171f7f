import Mathlib.Data.Prod.Lex
import Qtl.Base.OrderedTree
import Qtl.Base.Trace

/-! qtl_rqueue.c over any ordered tree the RB_* macros may be for rb_node_comp. The
tree is ordered by time and callback, while a reminder is known by its address. -/
namespace Qtl.ReminderQueue
open Base (OrderedTree)
open Base.OrderedTree
open Base.Trace (Run)

structure Reminder where
  timestamp : Nat
  callback : Nat
  userData : Nat
  deriving DecidableEq, Repr

-- `reminderEvent` is the address of the reminder; rb_node_comp reads nothing else of a node.
structure RbNode where
  reminderEvent : Nat
  deriving DecidableEq, Repr

def rbNodeComp (reminders : Nat → Reminder) (lhs rhs : RbNode) : Int :=
  let lhsEvent := reminders lhs.reminderEvent
  let rhsEvent := reminders rhs.reminderEvent
  if lhsEvent.timestamp < rhsEvent.timestamp then -1
  else if lhsEvent.timestamp > rhsEvent.timestamp then 1
  else if lhsEvent.callback < rhsEvent.callback then -1
  else if lhsEvent.callback > rhsEvent.callback then 1
  else 0

def SameKey (reminders : Nat → Reminder) (e e' : Nat) : Prop :=
  (reminders e).timestamp = (reminders e').timestamp ∧ (reminders e).callback = (reminders e').callback

def rank (reminders : Nat → Reminder) (node : RbNode) : Nat ×ₗ Nat :=
  toLex ((reminders node.reminderEvent).timestamp,(reminders node.reminderEvent).callback)

theorem rbNodeRanked (reminders : Nat → Reminder) : Ranked (rbNodeComp reminders) (rank reminders) := by
  refine ⟨fun a b => ?_,fun a b => ?_⟩
  · simp only [rbNodeComp,rank,Prod.Lex.toLex_lt_toLex]
    split_ifs <;> omega
  · simp only [rbNodeComp,rank,Prod.Lex.toLex_lt_toLex]
    split_ifs <;> omega

theorem compZero {reminders : Nat → Reminder} {e e' : Nat} :
    rbNodeComp reminders ⟨e⟩ ⟨e'⟩ = 0 ↔ SameKey reminders e e' := by
  rw [rankedZero (rbNodeRanked reminders)]
  simp [rank,SameKey]

section Queue
variable {τ : Type} {reminders : Nat → Reminder} (rb : OrderedTree τ RbNode (rbNodeComp reminders))

def reminderQueueNew : τ := rb.init

-- The node malloc'ed for a reminder that RB_INSERT refuses is dropped.
def reminderQueuePush (q : τ) (e : Nat) : τ := (rb.insert q ⟨e⟩).1

def reminderQueuePop (q : τ) : τ × Option Nat :=
  match rb.min q with
  | some node => (rb.remove q node,some node.reminderEvent)
  | none => (q,none)

def reminderQueuePeek (q : τ) : Option Nat := (rb.min q).map RbNode.reminderEvent

def reminderQueueIsEmpty (q : τ) : Bool := rb.isEmpty q

def clearFrom : Nat → τ → Option RbNode → τ
  | fuel + 1,q,some np =>
      let nn := rb.next q np
      clearFrom fuel (rb.remove q np) nn
  | _,q,_ => q

def reminderQueueClear (q : τ) : τ := clearFrom rb (rb.items q).length q (rb.min q)

def reminderQueueRemove (q : τ) (e : Nat) : τ × Bool :=
  match rb.find q ⟨e⟩ with
  | some fnode => (rb.remove q fnode,true)
  | none => (q,false)

def contents (q : τ) : List Nat := (rb.items q).map RbNode.reminderEvent

theorem clearItems (q : τ) : rb.items (reminderQueueClear rb q) = [] := by
  suffices h : ∀ n q, (rb.items q).length = n → rb.items (clearFrom rb n q (rb.min q)) = [] from h _ q rfl
  intro n
  induction n with
  | zero => intro q size; simpa [clearFrom] using List.length_eq_zero_iff.mp size
  | succ n ih =>
    intro q size
    obtain ⟨np,rest,whole⟩ := List.exists_cons_of_length_eq_add_one size
    have removed : rb.items (rb.remove q np) = rest := rb.removeItems q [] np rest whole
    have first : rb.min q = some np := by rw [rb.minHead,whole]; rfl
    have second : rb.next q np = rb.min (rb.remove q np) := by
      rw [rb.nextHead q [] np rest whole,rb.minHead,removed]
    rw [first,clearFrom,second]
    exact ih _ (by simpa [removed,whole] using size)

end Queue

inductive Call where
  | push (e : Nat)
  | pop (popped : Option Nat)
  | peek (peeked upcoming : Option Nat)
  | isEmpty (b : Bool)
  | remove (e : Nat) (b : Bool)
  | clear
  deriving DecidableEq, Repr

inductive Action where
  | push (e : Nat)
  | pop
  | peek
  | isEmpty
  | remove (e : Nat)
  | clear

def after (held : List Nat) : Call → List Nat
  | .push e => e :: held
  | .pop (some e) => held.erase e
  | .remove e _ => held.erase e
  | .clear => []
  | _ => held

structure Entry where
  call : Call
  held : List Nat
  contents : List Nat
  deriving DecidableEq, Repr

structure Monitored (τ : Type) where
  queue : τ
  held : List Nat

section Run
variable {τ : Type} {reminders : Nat → Reminder} (rb : OrderedTree τ RbNode (rbNodeComp reminders))

def begin : Monitored τ := ⟨reminderQueueNew rb,[]⟩

def serve (q : τ) : Action → Call × τ
  | .push e => (.push e,reminderQueuePush rb q e)
  | .pop => (.pop (reminderQueuePop rb q).2,(reminderQueuePop rb q).1)
  | .peek => (.peek (reminderQueuePeek rb q) (reminderQueuePop rb q).2,q)
  | .isEmpty => (.isEmpty (reminderQueueIsEmpty rb q),q)
  | .remove e => (.remove e (reminderQueueRemove rb q e).2,(reminderQueueRemove rb q e).1)
  | .clear => (.clear,reminderQueueClear rb q)

def perform (s : Monitored τ) (action : Action) : Option (Entry × Monitored τ) :=
  let (call,queue) := serve rb s.queue action
  some (⟨call,s.held,contents rb queue⟩,⟨queue,after s.held call⟩)

abbrev Step : Monitored τ → Entry → Monitored τ → Prop := Base.Trace.Moves (perform rb)

end Run

section Law
variable (reminders : Nat → Reminder)

def Least (held : List Nat) : Option Nat → Prop
  | none => held = []
  | some e => e ∈ held ∧ ∀ e' ∈ held, (reminders e).timestamp ≤ (reminders e').timestamp

def Right (entry : Entry) : Prop :=
  entry.contents.Perm (after entry.held entry.call) ∧ match entry.call with
  | .pop popped => Least reminders entry.held popped
  | .peek peeked upcoming => peeked = upcoming ∧ Least reminders entry.held peeked
  | .isEmpty b => b = true ↔ entry.held = []
  | .remove e b => b = true ↔ e ∈ entry.held
  | _ => True

/-- No reminder is pushed beside a held one of the same time and callback, nor looked up
for removal among them without being held. -/
def Keyed (entry : Entry) : Prop := match entry.call with
  | .push e => ∀ e' ∈ entry.held, ¬ SameKey reminders e e'
  | .remove e _ => e ∈ entry.held ∨ ∀ e' ∈ entry.held, ¬ SameKey reminders e e'
  | _ => True

end Law

section Spec
variable {τ : Type} {reminders : Nat → Reminder} (rb : OrderedTree τ RbNode (rbNodeComp reminders))
  {q : τ} {held : List Nat} {e e' : Nat}

theorem heldNode (same : (contents rb q).Perm held) : ⟨e⟩ ∈ rb.items q ↔ e ∈ held := by
  rw [← same.mem_iff,contents]
  refine ⟨fun mem => List.mem_map.mpr ⟨_,mem,rfl⟩,fun mem => ?_⟩
  obtain ⟨⟨_⟩,inside,rfl⟩ := List.mem_map.mp mem
  exact inside

theorem pushNew (same : (contents rb q).Perm held) (fresh : ∀ e' ∈ held, ¬ SameKey reminders e e') :
    (contents rb (reminderQueuePush rb q e)).Perm (e :: held) := by
  have new : ∀ y ∈ rb.items q, rbNodeComp reminders ⟨e⟩ y ≠ 0 := fun y mem zero =>
    fresh y.reminderEvent ((heldNode rb same).mp mem) (compZero.mp zero)
  exact ((rb.insertNew q ⟨e⟩ new).2.map _).trans (same.cons e)

theorem pushOld (same : (contents rb q).Perm held) (mem : e' ∈ held) (key : SameKey reminders e e') :
    contents rb (reminderQueuePush rb q e) = contents rb q := by
  rw [reminderQueuePush,rb.insertOld q ⟨e⟩ ⟨e'⟩ ((heldNode rb same).mpr mem) (compZero.mpr key)]

theorem popLeast (same : (contents rb q).Perm held) :
    Least reminders held (reminderQueuePop rb q).2 ∧
    (contents rb (reminderQueuePop rb q).1).Perm (after held (.pop (reminderQueuePop rb q).2)) := by
  have first := rb.minHead q
  cases items : rb.items q with
  | nil =>
    have none : held = [] := by
      rw [contents,items] at same
      exact same.symm.eq_nil
    rw [items] at first
    simp [reminderQueuePop,first,Least,after,none,contents,items]
  | cons node rest =>
    rw [items] at first
    have removed := rb.removeItems q [] node rest items
    have sorted := rb.sorted q
    rw [items] at sorted
    rw [contents,items,List.map_cons] at same
    have pop : reminderQueuePop rb q = (rb.remove q node,some node.reminderEvent) := by
      simp [reminderQueuePop,first]
    rw [pop]
    refine ⟨⟨same.mem_iff.mp List.mem_cons_self,fun e' mem => ?_⟩,?_⟩
    · rcases List.mem_cons.mp (same.mem_iff.mpr mem) with rfl | mem
      · exact le_rfl
      · obtain ⟨other,inside,rfl⟩ := List.mem_map.mp mem
        have before := (List.pairwise_cons.mp sorted).1 other inside
        rw [(rbNodeRanked reminders).less,rank,rank,Prod.Lex.toLex_lt_toLex] at before
        dsimp only at before ⊢
        omega
    · rw [contents,removed,after]
      have erased := same.erase node.reminderEvent
      rwa [List.erase_cons_head] at erased

theorem removeHeld (same : (contents rb q).Perm held) (mem : e ∈ held) :
    (reminderQueueRemove rb q e).2 = true ∧ (contents rb (reminderQueueRemove rb q e).1).Perm (held.erase e) := by
  have inside := (heldNode rb same).mpr mem
  have found : rb.find q ⟨e⟩ = some ⟨e⟩ := (rb.findSome q ⟨e⟩ ⟨e⟩).mpr ⟨inside,compZero.mpr ⟨rfl,rfl⟩⟩
  obtain ⟨before,rest,items⟩ := List.append_of_mem inside
  have removed := rb.removeItems q before ⟨e⟩ rest items
  have gone : reminderQueueRemove rb q e = (rb.remove q ⟨e⟩,true) := by simp [reminderQueueRemove,found]
  rw [gone]
  refine ⟨rfl,?_⟩
  rw [contents,items,List.map_append,List.map_cons] at same
  have erased := (List.perm_middle.symm.trans same).erase e
  rw [List.erase_cons_head] at erased
  rwa [contents,removed,List.map_append]

theorem removeFresh (same : (contents rb q).Perm held) (fresh : ∀ e' ∈ held, ¬ SameKey reminders e e') :
    reminderQueueRemove rb q e = (q,false) := by
  have none : rb.find q ⟨e⟩ = none := by
    refine Option.eq_none_iff_forall_ne_some.mpr (fun node found => ?_)
    obtain ⟨mem,zero⟩ := (rb.findSome q ⟨e⟩ node).mp found
    exact fresh node.reminderEvent ((heldNode rb same).mp mem) (compZero.mp zero)
  simp [reminderQueueRemove,none]

theorem removeOther (same : (contents rb q).Perm held) (mem : e' ∈ held) (key : SameKey reminders e e') :
    (reminderQueueRemove rb q e).2 = true := by
  have found := (rb.findSome q ⟨e⟩ ⟨e'⟩).mpr ⟨(heldNode rb same).mpr mem,compZero.mpr key⟩
  simp [reminderQueueRemove,found]

theorem isEmptyHeld (same : (contents rb q).Perm held) : reminderQueueIsEmpty rb q = true ↔ held = [] := by
  rw [reminderQueueIsEmpty,rb.isEmptyItems]
  refine ⟨fun none => ?_,fun none => ?_⟩
  · rw [contents,none] at same
    exact same.symm.eq_nil
  · rw [none] at same
    simpa [contents] using same.eq_nil

theorem peekPop (q : τ) : reminderQueuePeek rb q = (reminderQueuePop rb q).2 := by
  unfold reminderQueuePeek reminderQueuePop
  cases rb.min q <;> rfl

theorem stepExact {action : Action} {s s' : Monitored τ} {entry : Entry} (same : (contents rb s.queue).Perm s.held)
    (done : perform rb s action = some (entry,s')) :
    (Right reminders entry ↔ Keyed reminders entry) ∧
    (Right reminders entry → (contents rb s'.queue).Perm s'.held) := by
  cases done
  refine ⟨?_,fun right => right.1⟩
  cases action with
  | push e =>
    refine ⟨fun ⟨grown,_⟩ e' mem key => ?_,fun fresh => ⟨pushNew rb same fresh,trivial⟩⟩
    -- a refused reminder leaves the tree one short
    have size : (contents rb (reminderQueuePush rb s.queue e)).length = (e :: s.held).length := grown.length_eq
    rw [pushOld rb same mem key,same.length_eq] at size
    simp at size
  | pop =>
    obtain ⟨least,left⟩ := popLeast rb same
    exact ⟨fun _ => trivial,fun _ => ⟨left,least⟩⟩
  | peek =>
    have pop := peekPop rb s.queue
    refine ⟨fun _ => trivial,fun _ => ⟨same,pop,?_⟩⟩
    change Least reminders s.held (reminderQueuePeek rb s.queue)
    rw [pop]
    exact (popLeast rb same).1
  | isEmpty => exact ⟨fun _ => trivial,fun _ => ⟨same,isEmptyHeld rb same⟩⟩
  | clear =>
    refine ⟨fun _ => trivial,fun _ => ⟨?_,trivial⟩⟩
    have cleared : contents rb (reminderQueueClear rb s.queue) = [] := by rw [contents,clearItems]; rfl
    exact .of_eq cleared
  | remove e =>
    by_cases held : e ∈ s.held
    · obtain ⟨answer,left⟩ := removeHeld rb same held
      exact ⟨fun _ => .inl held,fun _ => ⟨left,fun _ => held,fun _ => answer⟩⟩
    · refine ⟨fun ⟨_,answer⟩ => .inr (fun e' mem key => ?_),fun keyed => ?_⟩
      · exact held (answer.mp (removeOther rb same mem key))
      · have gone := removeFresh rb same (keyed.resolve_left held)
        have kept : s.held.erase e = s.held := List.erase_of_not_mem held
        simp only [Right,after,gone,kept]
        exact ⟨same,by simp [held]⟩

theorem remindersOnce {s : Monitored τ} {trace : List Entry} (run : Run (Step rb) (begin rb) trace s) :
    (∀ entry ∈ trace, Right reminders entry) ↔ ∀ entry ∈ trace, Keyed reminders entry := by
  have start : (contents rb (begin rb).queue).Perm (begin rb).held := by
    refine .of_eq ?_
    rw [contents,begin,reminderQueueNew,rb.initItems]
    rfl
  have all : ((∀ entry ∈ trace, Right reminders entry) ↔ ∀ entry ∈ trace, Keyed reminders entry) ∧
      ((∀ entry ∈ trace, Right reminders entry) → (contents rb s.queue).Perm s.held) := by
    refine Base.Trace.runInvariant (fun trace s =>
      ((∀ entry ∈ trace, Right reminders entry) ↔ ∀ entry ∈ trace, Keyed reminders entry) ∧
      ((∀ entry ∈ trace, Right reminders entry) → (contents rb s.queue).Perm s.held))
      ⟨by simp,fun _ => start⟩ ?_ run
    rintro trace s entry s' ⟨alike,same⟩ ⟨action,done⟩
    simp only [List.forall_mem_append,List.forall_mem_singleton]
    rw [← alike]
    by_cases right : ∀ entry ∈ trace, Right reminders entry
    · obtain ⟨here,kept⟩ := stepExact rb (same right) done
      exact ⟨and_congr_right (fun _ => here),fun ⟨_,now⟩ => kept now⟩
    · exact ⟨⟨fun h => absurd h.1 right,fun h => absurd h.1 right⟩,fun h => absurd h.1 right⟩
  exact all.1

end Spec

section Twins

def twins (e : Nat) : Reminder := ⟨5,1,e⟩

def hours (e : Nat) : Reminder := ⟨e,1,0⟩

theorem remindersOnceHours : ∃ s, Run (Step (searchTree (rbNodeRanked hours))) (begin (searchTree (rbNodeRanked hours)))
      [⟨.push 9,[],[9]⟩,⟨.push 7,[9],[7,9]⟩,⟨.remove 9 true,[7,9],[7]⟩,⟨.pop (some 7),[7],[]⟩] s ∧
    ∀ entry ∈ [(⟨.push 9,[],[9]⟩ : Entry),⟨.push 7,[9],[7,9]⟩,⟨.remove 9 true,[7,9],[7]⟩,⟨.pop (some 7),[7],[]⟩],
      Right hours entry := by
  have run : Run (Step (searchTree (rbNodeRanked hours))) (begin (searchTree (rbNodeRanked hours)))
      [⟨.push 9,[],[9]⟩,⟨.push 7,[9],[7,9]⟩,⟨.remove 9 true,[7,9],[7]⟩,⟨.pop (some 7),[7],[]⟩] _ :=
    .snoc (.snoc (.snoc (.snoc .nil ⟨.push 9,rfl⟩) ⟨.push 7,rfl⟩) ⟨.remove 9,rfl⟩) ⟨.pop,rfl⟩
  refine ⟨_,run,(remindersOnce _ run).mpr ?_⟩
  simp [Keyed,SameKey,hours]

theorem twinDropped : ∃ s, Run (Step (searchTree (rbNodeRanked twins))) (begin (searchTree (rbNodeRanked twins)))
      [⟨.push 0,[],[0]⟩,⟨.push 1,[0],[0]⟩,⟨.pop (some 0),[1,0],[]⟩,⟨.isEmpty true,[1],[]⟩] s ∧
    ¬ Right twins ⟨.push 1,[0],[0]⟩ ∧ ¬ Right twins ⟨.isEmpty true,[1],[]⟩ := by
  refine ⟨_,.snoc (.snoc (.snoc (.snoc .nil ⟨.push 0,rfl⟩) ⟨.push 1,rfl⟩) ⟨.pop,rfl⟩) ⟨.isEmpty,rfl⟩,?_,?_⟩
  · rintro ⟨grown,_⟩
    simpa [after] using grown.length_eq
  · rintro ⟨_,answer⟩
    simp at answer

end Twins

end Qtl.ReminderQueue
