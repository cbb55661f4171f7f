import Qtl.RbFuel
import Qtl.ReminderNodes

/-! The work a call of the reminder queue does in its tree grows with the logarithm of
the number of reminders, whatever calls came before. -/
namespace Qtl.ReminderDepth
open RbTree ReminderNodes
open ReminderQueue (Reminder hours)
open Base.Fuel (Settles)
open Base.Trace (Run)

structure Shallow (reminders : Nat → Reminder) (q : Heap) (bound : Nat) : Prop where
  min : Settles (rbMin q.live · q.rb) bound
  find : ∀ e, Settles (rbFind q.live (q.comp reminders e) · q.rb) bound
  next : ∀ a, Linked q.rb a → Settles (rbNext q.live · q.rb (some a)) bound
  remove : ∀ a, Linked q.rb a → Settles (rbRemove q.live · q.rb (some a)) bound
  insert : ∀ e a garbage q', q.live a = false → (q.malloc a garbage).setReminderEvent a e = q' →
    Settles (rbInsert q'.live (q'.comp reminders e) · q'.rb (some a)) bound

section Depth
variable {reminders : Nat → Reminder} {q : Heap} {nodes : List Nat} {links : Nat → RbEntry} {events : Nat → Nat}
  {trace : List Entry} {s : Option Heap}

theorem shallowTidy (tidy : Tidy reminders q nodes) : Shallow reminders q (rounds nodes.length) where
  min := rbMinSettles tidy.holds
  find e := rbFindSettles tidy.holds (tidySided tidy e)
  next _ linked := rbNextSettles tidy.holds ((linkedHolds tidy.holds).mp linked)
  remove _ linked := rbRemoveSettles tidy.holds ((linkedHolds tidy.holds).mp linked)
  insert e a garbage q' dead same := by
    subst same
    have unused : a ∉ q.allocated := of_decide_eq_false dead
    have tidy' := mallocTidy tidy unused e garbage
    exact rbInsertSettles tidy'.holds (tidySided tidy' e) (decide_eq_true List.mem_cons_self)
      (fun mem => unused (tidyAllocated tidy a mem))

theorem runTidy (run : Run (Step reminders) (some (reminderQueueNew links events)) trace s) :
    ∃ q nodes, s = some q ∧ Tidy reminders q nodes := by
  refine Base.Trace.runInvariant (fun _ s => ∃ q nodes, s = some q ∧ Tidy reminders q nodes) ?_ ?_ run
  · exact ⟨_,_,rfl,newTidy reminders⟩
  · rintro _ _ entry s' ⟨q,nodes,rfl,tidy⟩ ⟨call,done⟩
    obtain ⟨unused,moved⟩ := Option.ite_none_right_eq_some.mp done
    obtain ⟨q',nodes',served⟩ := callServed tidy unused
    rw [served.ran] at moved
    cases moved
    exact ⟨q',nodes',rfl,served.tidy⟩

theorem loopsShort (run : Run (Step reminders) (some (reminderQueueNew links events)) trace s) :
    ∃ (q : Heap) (nodes : List Nat), s = some q ∧ nodes.Nodup ∧ (∀ a, a ∈ nodes ↔ Linked q.rb a) ∧
      Shallow reminders q (2 * (nodes.length + 1).log2) := by
  obtain ⟨q,nodes,rfl,tidy⟩ := runTidy run
  exact ⟨q,nodes,rfl,holdsNodup tidy.holds,fun a => (linkedHolds tidy.holds).symm,shallowTidy tidy⟩

theorem loopsShortHours : ∃ trace s, Run (Step hours) (some bareQueue) trace s ∧ trace.map Entry.call =
      [.push 9 (some (0,unwritten)),.push 7 (some (1,unwritten)),.pop] ∧
    ∃ (q : Heap) (nodes : List Nat), s = some q ∧ nodes.Nodup ∧ (∀ a, a ∈ nodes ↔ Linked q.rb a) ∧
      Shallow hours q (2 * (nodes.length + 1).log2) := by
  have run : Run (Step hours) (some bareQueue) [_,_,_] _ :=
    .snoc (.snoc (.snoc .nil ⟨.push 9 (some (0,unwritten)),rfl⟩) ⟨.push 7 (some (1,unwritten)),rfl⟩) ⟨.pop,rfl⟩
  exact ⟨_,_,run,rfl,loopsShort run⟩

end Depth

end Qtl.ReminderDepth
