import Mathlib.Data.List.Sort
import Qtl.ReminderNodes

/-! The queue in memory answers every sequence of calls as the queue over an ordered
tree does. -/
namespace Qtl.ReminderRefines
open RbTree ReminderNodes
open ReminderQueue (Reminder RbNode SameKey rbNodeComp rbNodeRanked compZero hours)
open Base (OrderedTree)
open Base.OrderedTree (searchTree)
open Base.Trace (Run)

section Calls
variable {τ : Type} {reminders : Nat → Reminder} (rb : OrderedTree τ RbNode (rbNodeComp reminders))
  {q q' : Heap} {t t' : τ} {nodes nodes' front back : List Nat} {a e : Nat}

def node (q : Heap) (a : Nat) : RbNode := ⟨q.reminderEvent a⟩

def Represents (q : Heap) (t : τ) : Prop := ∃ nodes, Tidy reminders q nodes ∧ rb.items t = nodes.map (node q)

theorem nodesSorted (tidy : Tidy reminders q nodes) :
    (nodes.map (node q)).Pairwise (fun a b => rbNodeComp reminders a b < 0) :=
  List.pairwise_map.mpr (tidy.sorted.imp (fun less => ((rbNodeRanked reminders).less _ _).mpr less))

theorem sortedItems {l : List RbNode} (sorted : l.Pairwise (fun a b => rbNodeComp reminders a b < 0))
    (perm : (rb.items t).Perm l) : rb.items t = l := by
  have ranked := rbNodeRanked reminders
  refine perm.eq_of_pairwise (fun a b _ _ less more => ?_) (rb.sorted t) sorted
  rw [ranked.less] at less more
  exact absurd less more.not_gt

theorem nodesFrame (same : ∀ a ∈ nodes, q'.reminderEvent a = q.reminderEvent a) :
    nodes.map (node q') = nodes.map (node q) :=
  List.map_congr_left (fun a mem => by rw [node,node,same a mem])

theorem pushRefines (rep : Represents rb q t) (unused : a ∉ q.allocated) (e : Nat) (garbage : RbEntry) :
    ∃ q', reminderQueuePush reminders q e (some (a,garbage)) = .ok q' ∧
      Represents rb q' (ReminderQueue.reminderQueuePush rb t e) := by
  obtain ⟨nodes,tidy,items⟩ := rep
  have apart : ∀ k ∈ nodes, k ≠ a := fun k mem same => unused (same ▸ tidyAllocated tidy k mem)
  obtain ⟨q',ran,_,events,⟨held,tidy'⟩ | ⟨absent,front,back,rfl,tidy'⟩⟩ := pushTidy tidy unused e garbage
  · have same : nodes.map (node q') = nodes.map (node q) :=
      nodesFrame (fun k mem => events ▸ Function.update_of_ne (apart k mem) ..)
    refine ⟨q',ran,nodes,tidy',?_⟩
    obtain ⟨k,mem,key⟩ : ∃ k ∈ nodes, SameKey reminders e (q.reminderEvent k) := by
      by_contra none
      exact held ((absentNodes tidy).mpr (fun k mem key => none ⟨k,mem,key⟩))
    have inside : node q k ∈ rb.items t := items ▸ List.mem_map_of_mem mem
    rw [ReminderQueue.reminderQueuePush,rb.insertOld t ⟨e⟩ (node q k) inside (compZero.mpr key),items,same]
  · have new : ∀ y ∈ rb.items t, rbNodeComp reminders ⟨e⟩ y ≠ 0 := by
      intro y mem zero
      obtain ⟨k,inside,rfl⟩ := List.mem_map.mp (items ▸ mem)
      exact (absentNodes tidy).mp absent k inside (compZero.mp zero)
    have here : node q' a = ⟨e⟩ := congrArg RbNode.mk (events ▸ Function.update_self ..)
    have same : (front ++ back).map (node q') = (front ++ back).map (node q) :=
      nodesFrame (fun k mem => events ▸ Function.update_of_ne (apart k mem) ..)
    have grown : ((front ++ a :: back).map (node q')).Perm (⟨e⟩ :: rb.items t) := by
      rw [items,← same,← here,List.map_append,List.map_append,List.map_cons]
      exact List.perm_middle
    exact ⟨q',ran,_,tidy',sortedItems rb (nodesSorted tidy') ((rb.insertNew t ⟨e⟩ new).2.trans grown.symm)⟩

theorem popRefines (rep : Represents rb q t) : ∃ q',
    reminderQueuePop q = .ok (q',(ReminderQueue.reminderQueuePop rb t).2) ∧
      Represents rb q' (ReminderQueue.reminderQueuePop rb t).1 := by
  obtain ⟨nodes,tidy,items⟩ := rep
  have first := rb.minHead t
  rw [items] at first
  cases nodes with
  | nil =>
    have none : ReminderQueue.reminderQueuePop rb t = (t,none) := by simp [ReminderQueue.reminderQueuePop,first]
    rw [none]
    exact ⟨q,popEmpty tidy,[],tidy,items⟩
  | cons a nodes =>
    obtain ⟨q',popped,tidy',_,events⟩ := popTidy tidy
    have took : ReminderQueue.reminderQueuePop rb t = (rb.remove t (node q a),some (q.reminderEvent a)) := by
      simp [ReminderQueue.reminderQueuePop,first,node]
    rw [took]
    refine ⟨q',popped,nodes,tidy',?_⟩
    rw [rb.removeItems t [] (node q a) (nodes.map (node q)) items,nodesFrame (fun k _ => congrFun events k)]
    rfl

theorem peekRefines (rep : Represents rb q t) : reminderQueuePeek q = .ok (ReminderQueue.reminderQueuePeek rb t) := by
  obtain ⟨nodes,tidy,items⟩ := rep
  rw [peekTidy tidy,ReminderQueue.reminderQueuePeek,rb.minHead t,items]
  cases nodes <;> rfl

theorem isEmptyRefines (rep : Represents rb q t) :
    reminderQueueIsEmpty q = ReminderQueue.reminderQueueIsEmpty rb t := by
  obtain ⟨nodes,tidy,items⟩ := rep
  rw [reminderQueueIsEmpty,holdsEmpty tidy.holds,Bool.eq_iff_iff,ReminderQueue.reminderQueueIsEmpty,rb.isEmptyItems,
    items,List.map_eq_nil_iff,List.isEmpty_iff]

theorem removeRefines (rep : Represents rb q t) (e : Nat) : ∃ q',
    reminderQueueRemove reminders q e = .ok (q',(ReminderQueue.reminderQueueRemove rb t e).2) ∧
      Represents rb q' (ReminderQueue.reminderQueueRemove rb t e).1 := by
  obtain ⟨nodes,tidy,items⟩ := rep
  rcases removeTidy (e := e) tidy with ⟨front,a,back,q',rfl,key,removed,tidy',_,events⟩ | ⟨absent,removed⟩
  · have whole : rb.items t = front.map (node q) ++ node q a :: back.map (node q) := by
      rw [items,List.map_append,List.map_cons]
    have found : rb.find t ⟨e⟩ = some (node q a) := (rb.findSome t _ _).mpr ⟨by simp [whole],compZero.mpr key⟩
    have took : ReminderQueue.reminderQueueRemove rb t e = (rb.remove t (node q a),true) := by
      simp [ReminderQueue.reminderQueueRemove,found]
    rw [took]
    refine ⟨q',removed,_,tidy',?_⟩
    rw [rb.removeItems t _ _ _ whole,nodesFrame (fun k _ => congrFun events k),List.map_append]
  · have found : rb.find t ⟨e⟩ = none := by
      refine Option.eq_none_iff_forall_ne_some.mpr (fun y found => ?_)
      obtain ⟨mem,zero⟩ := (rb.findSome t ⟨e⟩ y).mp found
      obtain ⟨k,inside,rfl⟩ := List.mem_map.mp (items ▸ mem)
      exact (absentNodes tidy).mp absent k inside (compZero.mp zero)
    have left : ReminderQueue.reminderQueueRemove rb t e = (t,false) := by
      simp [ReminderQueue.reminderQueueRemove,found]
    rw [left]
    exact ⟨q,removed,nodes,tidy,items⟩

theorem clearRefines (rep : Represents rb q t) : ∃ q', reminderQueueClear q = .ok q' ∧
    Represents rb q' (ReminderQueue.reminderQueueClear rb t) := by
  obtain ⟨nodes,tidy,items⟩ := rep
  have first := rbMinHolds tidy.holds (tidyRoom tidy)
  obtain ⟨q',cleared,tidy',_⟩ := clearTidy tidy (tidyEnough tidy)
  refine ⟨q',?_,[],tidy',ReminderQueue.clearItems rb t⟩
  simp only [reminderQueueClear,first,okBind,cleared]

end Calls

def answered (reminders : Nat → Reminder) (entry : Entry) : Option ReminderQueue.Call := match entry.call with
  | .push e memory => memory.map (fun _ => .push e)
  | .pop => (reminderQueuePop entry.before).toOption.map (fun r => .pop r.2)
  | .peek => do
      let peeked ← (reminderQueuePeek entry.before).toOption
      let popped ← (reminderQueuePop entry.before).toOption
      some (.peek peeked popped.2)
  | .isEmpty => some (.isEmpty (reminderQueueIsEmpty entry.before))
  | .remove e => (reminderQueueRemove reminders entry.before e).toOption.map (fun r => .remove e r.2)
  | .clear => some .clear

section Run
variable {τ : Type} {reminders : Nat → Reminder} (rb : OrderedTree τ RbNode (rbNodeComp reminders))
  {q : Heap} {t : τ} {call : Call} {links : Nat → RbEntry} {events : Nat → Nat} {trace : List Entry} {s : Option Heap}

theorem callRefines (rep : Represents rb q t) (unused : Unused q call) : ∃ q', serve reminders q call = .ok q' ∧
    (answered reminders ⟨q,call,.ok q'⟩ = none ∧ Represents rb q' t ∨
      ∃ action, answered reminders ⟨q,call,.ok q'⟩ = some (ReminderQueue.serve rb t action).1 ∧
        Represents rb q' (ReminderQueue.serve rb t action).2) := by
  cases call with
  | push e memory =>
    cases memory with
    | none => exact ⟨q,rfl,.inl ⟨rfl,rep⟩⟩
    | some m =>
      obtain ⟨q',ran,rep'⟩ := pushRefines rb rep (by simpa [Unused,Heap.live] using unused) e m.2
      exact ⟨q',ran,.inr ⟨.push e,rfl,rep'⟩⟩
  | pop =>
    obtain ⟨q',ran,rep'⟩ := popRefines rb rep
    refine ⟨q',by simp [serve,ran,okBind],.inr ⟨.pop,?_,rep'⟩⟩
    simp [ReminderQueue.serve,answered,ran,Except.toOption]
  | peek =>
    obtain ⟨q',ran,_⟩ := popRefines rb rep
    have peeked := peekRefines rb rep
    refine ⟨q,by simp [serve,peeked,okBind],.inr ⟨.peek,?_,rep⟩⟩
    simp [ReminderQueue.serve,answered,ran,peeked,Except.toOption]
  | isEmpty =>
    refine ⟨q,rfl,.inr ⟨.isEmpty,?_,rep⟩⟩
    simp [ReminderQueue.serve,answered,isEmptyRefines rb rep]
  | remove e =>
    obtain ⟨q',ran,rep'⟩ := removeRefines rb rep e
    refine ⟨q',by simp [serve,ran,okBind],.inr ⟨.remove e,?_,rep'⟩⟩
    simp [ReminderQueue.serve,answered,ran,Except.toOption]
  | clear =>
    obtain ⟨q',ran,rep'⟩ := clearRefines rb rep
    exact ⟨q',ran,.inr ⟨.clear,rfl,rep'⟩⟩

theorem queueRefines (run : Run (ReminderNodes.Step reminders) (some (reminderQueueNew links events)) trace s) :
    ∃ q m answers, s = some q ∧ Run (ReminderQueue.Step rb) (ReminderQueue.begin rb) answers m ∧
      Represents rb q m.queue ∧ answers.map ReminderQueue.Entry.call = trace.filterMap (answered reminders) := by
  refine Base.Trace.runInvariant (fun trace s => ∃ q m answers, s = some q ∧
    Run (ReminderQueue.Step rb) (ReminderQueue.begin rb) answers m ∧ Represents rb q m.queue ∧
    answers.map ReminderQueue.Entry.call = trace.filterMap (answered reminders)) ?_ ?_ run
  · exact ⟨_,_,[],rfl,.nil,⟨[],newTidy reminders,rb.initItems⟩,rfl⟩
  · rintro trace s entry s' ⟨q,m,answers,rfl,before,rep,same⟩ ⟨call,done⟩
    obtain ⟨unused,moved⟩ := Option.ite_none_right_eq_some.mp done
    obtain ⟨q',ran,⟨none,rep'⟩ | ⟨action,answer,rep'⟩⟩ := callRefines rb rep unused
    · rw [ran] at moved
      cases moved
      exact ⟨q',m,answers,rfl,before,rep',by rw [List.filterMap_append,same]; simp [none]⟩
    · rw [ran] at moved
      cases moved
      refine ⟨q',_,_,rfl,.snoc before ⟨action,rfl⟩,rep',?_⟩
      rw [List.map_append,List.filterMap_append,same,List.filterMap_cons_some answer]
      rfl

theorem queueRefinesHours : ∃ trace s m answers, Run (ReminderNodes.Step hours) (some bareQueue) trace s ∧
    trace.map Entry.call = [.push 9 (some (0,unwritten)),.push 7 none,.push 7 (some (1,unwritten)),.pop,.peek] ∧
    Run (ReminderQueue.Step (searchTree (rbNodeRanked hours))) (ReminderQueue.begin (searchTree (rbNodeRanked hours)))
      answers m ∧
    answers.map ReminderQueue.Entry.call = [.push 9,.push 7,.pop (some 7),.peek (some 9) (some 9)] := by
  have run : Run (ReminderNodes.Step hours) (some bareQueue) [_,_,_,_,_] _ :=
    .snoc (.snoc (.snoc (.snoc (.snoc .nil ⟨.push 9 (some (0,unwritten)),rfl⟩) ⟨.push 7 none,rfl⟩)
      ⟨.push 7 (some (1,unwritten)),rfl⟩) ⟨.pop,rfl⟩) ⟨.peek,rfl⟩
  obtain ⟨_,m,answers,_,abstract,_,same⟩ := queueRefines (searchTree (rbNodeRanked hours)) run
  exact ⟨_,_,m,answers,run,rfl,abstract,same⟩

end Run

end Qtl.ReminderRefines
