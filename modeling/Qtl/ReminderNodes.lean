import Qtl.RbRemove
import Qtl.ReminderQueue

/-! qtl_rqueue.c at pointer level: the nodes it allocates and frees, over the RB_*
macros as they are. A free of what is not allocated is a fault, as is any use of it. -/
namespace Qtl.ReminderNodes
open RbTree
open ReminderQueue (Reminder RbNode SameKey rank rbNodeRanked compZero)
open Base.ColoredTree (Room roomLength)
open Base.Trace (Run)

structure Heap where
  rb : Rb
  reminderEvent : Nat → Nat
  allocated : List Nat

namespace Heap
variable (h : Heap)

def live (a : Nat) : Bool := decide (a ∈ h.allocated)

-- No loop over the tree takes more steps than there are nodes.
def fuel : Nat := h.allocated.length + 1

-- malloc hands out an address that is not in use, and the memory there holds anything.
def malloc (a : Nat) (garbage : RbEntry) : Heap := {h with rb := put h.rb a garbage, allocated := a :: h.allocated}

def free : Option Nat → Except Fault Heap
  | none => .ok h
  | some a => if a ∈ h.allocated then .ok {h with allocated := h.allocated.erase a} else .error .doubleFree

def setReminderEvent (a e : Nat) : Heap := {h with reminderEvent := Function.update h.reminderEvent a e}

def comp (reminders : Nat → Reminder) (e a : Nat) : Int := ReminderQueue.rbNodeComp reminders ⟨e⟩ ⟨h.reminderEvent a⟩

def event (p : Option Nat) : Except Fault Nat := do .ok (h.reminderEvent (← deref h.live p))

def unlink (p : Option Nat) : Except Fault Heap := do .ok {h with rb := ← rbRemove h.live h.fuel h.rb p}

end Heap

section Queue
variable (reminders : Nat → Reminder) (q : Heap)

def reminderQueueNew (entry : Nat → RbEntry) (reminderEvent : Nat → Nat) : Heap := ⟨⟨entry,none⟩,reminderEvent,[]⟩

def reminderQueuePush (e : Nat) (memory : Option (Nat × RbEntry)) : Except Fault Heap := match memory with
  | none => .ok q
  | some (node,garbage) => do
      let q := (q.malloc node garbage).setReminderEvent node e
      let (rb,_) ← rbInsert q.live (q.comp reminders (q.reminderEvent node)) q.fuel q.rb (some node)
      .ok {q with rb := rb}

def reminderQueuePop : Except Fault (Heap × Option Nat) := do
  let node ← rbMin q.live q.fuel q.rb
  if node.isSome then
    let item ← q.event node
    let q ← q.unlink node
    let q ← q.free node
    .ok (q,some item)
  else .ok (q,none)

def reminderQueuePeek : Except Fault (Option Nat) := do
  let node ← rbMin q.live q.fuel q.rb
  if node.isSome then .ok (some (← q.event node)) else .ok none

def reminderQueueIsEmpty : Bool := q.rb.root.isNone

def clearFrom : Nat → Heap → Option Nat → Except Fault Heap
  | 0,_,_ => .error .endlessLoop
  | fuel + 1,q,np =>
      if np.isNone then .ok q
      else do
        let nn ← rbNext q.live q.fuel q.rb np
        let q ← q.unlink np
        let q ← q.free np
        clearFrom fuel q nn

def reminderQueueClear : Except Fault Heap := do
  let np ← rbMin q.live q.fuel q.rb
  clearFrom q.fuel q np

-- The node looked for is on the stack.
def reminderQueueRemove (e : Nat) : Except Fault (Heap × Bool) := do
  let fnode ← rbFind q.live (q.comp reminders e) q.fuel q.rb
  if fnode.isSome then
    let q ← q.unlink fnode
    .ok (q,true)
  else .ok (q,false)

end Queue

inductive Call where
  | push (e : Nat) (memory : Option (Nat × RbEntry))
  | pop
  | peek
  | isEmpty
  | remove (e : Nat)
  | clear
  deriving DecidableEq, Repr

def serve (reminders : Nat → Reminder) (q : Heap) : Call → Except Fault Heap
  | .push e memory => reminderQueuePush reminders q e memory
  | .pop => do .ok (← reminderQueuePop q).1
  | .peek => do
      let _ ← reminderQueuePeek q
      .ok q
  | .isEmpty => .ok q
  | .remove e => do .ok (← reminderQueueRemove reminders q e).1
  | .clear => reminderQueueClear q

structure Entry where
  before : Heap
  call : Call
  outcome : Except Fault Heap

def Unused (q : Heap) : Call → Bool
  | .push _ (some (node,_)) => !q.live node
  | _ => true

def perform (reminders : Nat → Reminder) : Option Heap → Call → Option (Entry × Option Heap)
  | none,_ => none
  | some q,call =>
      let outcome := serve reminders q call
      if Unused q call then some (⟨q,call,outcome⟩,outcome.toOption) else none

abbrev Step (reminders : Nat → Reminder) : Option Heap → Entry → Option Heap → Prop :=
  Base.Trace.Moves (perform reminders)

section Law
variable (reminders : Nat → Reminder)

def Owned (q : Heap) : Prop := ∀ a, a ∈ q.allocated ↔ Linked q.rb a

def Bare (q : Heap) : Prop := q.allocated = [] ∧ ∀ a, ¬ Linked q.rb a

def Right (entry : Entry) : Prop :=
  ∃ q, entry.outcome = .ok q ∧ Owned q ∧ (entry.call = .clear → Bare q)

def Absent (q : Heap) (e : Nat) : Prop := ∀ a, Linked q.rb a → ¬ SameKey reminders e (q.reminderEvent a)

/-- No node is allocated for a reminder whose time and callback the tree holds already,
and none is found for removal. -/
def Kept (entry : Entry) : Prop := match entry.call with
  | .push e memory => memory.isNone ∨ Absent reminders entry.before e
  | .remove e => Absent reminders entry.before e
  | _ => True

end Law

def Order (reminders : Nat → Reminder) (q : Heap) (nodes : List Nat) : Prop :=
  nodes.Pairwise (fun a b => rank reminders ⟨q.reminderEvent a⟩ < rank reminders ⟨q.reminderEvent b⟩)

structure Tidy (reminders : Nat → Reminder) (q : Heap) (nodes : List Nat) : Prop where
  holds : Holds q.live q.rb nodes
  sorted : Order reminders q nodes
  nodup : q.allocated.Nodup

section Tidy
variable {reminders : Nat → Reminder} {q q' : Heap} {nodes front back : List Nat} {a e : Nat}

theorem tidyAllocated (tidy : Tidy reminders q nodes) : ∀ a ∈ nodes, a ∈ q.allocated :=
  fun a mem => of_decide_eq_true (holdsAlive tidy.holds a mem)

theorem tidyEnough (tidy : Tidy reminders q nodes) : nodes.length < q.fuel :=
  Nat.lt_succ_of_le (List.subperm_of_subset (holdsNodup tidy.holds) (tidyAllocated tidy)).length_le

theorem tidyRoom (tidy : Tidy reminders q nodes) : Room nodes q.fuel := roomLength (tidyEnough tidy)

theorem tidyFrame (tidy : Tidy reminders q nodes) (alive : ∀ a ∈ nodes, a ∈ q'.allocated)
    (root : q'.rb.root = q.rb.root) (links : ∀ a ∈ nodes, q'.rb.entry a = q.rb.entry a)
    (events : ∀ a ∈ nodes, q'.reminderEvent a = q.reminderEvent a) (nodup : q'.allocated.Nodup) :
    Tidy reminders q' nodes := by
  refine ⟨holdsFrame tidy.holds (fun a mem => decide_eq_true (alive a mem)) root links,?_,nodup⟩
  refine tidy.sorted.imp_of_mem (fun {a b} left right less => ?_)
  rw [events a left,events b right]
  exact less

theorem tidySided (tidy : Tidy reminders q nodes) (e : Nat) : Sided (q.comp reminders e) nodes := by
  refine tidy.sorted.imp (fun {a b} less least => ?_)
  have ranked := rbNodeRanked reminders
  rw [Heap.comp,ranked.less]
  refine lt_of_le_of_lt (le_of_not_gt (fun more => ?_)) less
  rw [← ranked.greater] at more
  exact absurd least (by simpa [Heap.comp] using more)

theorem ownedNodes (tidy : Tidy reminders q nodes) : Owned q ↔ ∀ a, a ∈ q.allocated ↔ a ∈ nodes :=
  forall_congr' (fun a => by rw [linkedHolds tidy.holds])

theorem absentNodes (tidy : Tidy reminders q nodes) :
    Absent reminders q e ↔ ∀ a ∈ nodes, ¬ SameKey reminders e (q.reminderEvent a) :=
  forall_congr' (fun a => by rw [linkedHolds tidy.holds])

theorem unlinkTidy (tidy : Tidy reminders q (front ++ a :: back)) : ∃ rb, q.unlink (some a) = .ok {q with rb := rb} ∧
    Tidy reminders {q with rb := rb} (front ++ back) := by
  obtain ⟨rb,removed,holds⟩ := rbRemoveHolds tidy.holds (tidyRoom tidy)
  refine ⟨rb,?_,holds,?_,tidy.nodup⟩
  · rw [Heap.unlink,removed]
    rfl
  · exact tidy.sorted.sublist ((List.sublist_cons_self a back).append_left front)

theorem takeTidy (tidy : Tidy reminders q (front ++ a :: back)) : ∃ q₁ q', q.unlink (some a) = .ok q₁ ∧
    q₁.free (some a) = .ok q' ∧ Tidy reminders q' (front ++ back) ∧ q'.allocated = q.allocated.erase a ∧
    q'.reminderEvent = q.reminderEvent := by
  obtain ⟨rb,unlinked,tidy₁⟩ := unlinkTidy tidy
  have mem : a ∈ q.allocated := tidyAllocated tidy a (by simp)
  have apart : ∀ k ∈ front ++ back, k ≠ a := by
    have nodup := holdsNodup tidy.holds
    rw [List.nodup_middle,List.nodup_cons] at nodup
    exact fun k inside same => nodup.1 (same ▸ inside)
  refine ⟨_,{q with rb := rb, allocated := q.allocated.erase a},unlinked,if_pos mem,?_,rfl,rfl⟩
  refine tidyFrame tidy₁ (fun k inside => ?_) rfl (fun _ _ => rfl) (fun _ _ => rfl) (tidy.nodup.erase a)
  exact (List.mem_erase_of_ne (apart k inside)).mpr (tidyAllocated tidy₁ k inside)

theorem orderInsert (sorted : Order reminders q (front ++ back)) (event : q.reminderEvent a = e)
    (more : ∀ k ∈ front, 0 < q.comp reminders e k) (less : ∀ k ∈ back, q.comp reminders e k < 0) :
    Order reminders q (front ++ a :: back) := by
  have ranked := rbNodeRanked reminders
  obtain ⟨first,second,between⟩ := List.pairwise_append.mp sorted
  have left (k : Nat) (mem : k ∈ front) : rank reminders ⟨q.reminderEvent k⟩ < rank reminders ⟨q.reminderEvent a⟩ := by
    rw [event]
    exact (ranked.greater _ _).mp (more k mem)
  have right (k : Nat) (mem : k ∈ back) : rank reminders ⟨q.reminderEvent a⟩ < rank reminders ⟨q.reminderEvent k⟩ := by
    rw [event]
    exact (ranked.less _ _).mp (less k mem)
  refine List.pairwise_append.mpr ⟨first,List.pairwise_cons.mpr ⟨right,second⟩,fun k mem l mem' => ?_⟩
  rcases List.mem_cons.mp mem' with rfl | mem'
  · exact left k mem
  · exact between k mem l mem'

theorem mallocTidy (tidy : Tidy reminders q nodes) (unused : a ∉ q.allocated) (e : Nat) (garbage : RbEntry) :
    Tidy reminders ((q.malloc a garbage).setReminderEvent a e) nodes := by
  have apart : ∀ k ∈ nodes, k ≠ a := fun k mem same => unused (same ▸ tidyAllocated tidy k mem)
  refine tidyFrame tidy (fun k mem => List.mem_cons_of_mem _ (tidyAllocated tidy k mem)) rfl ?_ ?_ ?_
  · exact fun k mem => putOther (apart k mem)
  · exact fun k mem => Function.update_of_ne (apart k mem) ..
  · exact List.nodup_cons.mpr ⟨unused,tidy.nodup⟩

theorem pushTidy (tidy : Tidy reminders q nodes) (unused : a ∉ q.allocated) (e : Nat) (garbage : RbEntry) :
    ∃ q', reminderQueuePush reminders q e (some (a,garbage)) = .ok q' ∧ q'.allocated = a :: q.allocated ∧
      q'.reminderEvent = Function.update q.reminderEvent a e ∧
      (¬ Absent reminders q e ∧ Tidy reminders q' nodes ∨
        Absent reminders q e ∧ ∃ front back, nodes = front ++ back ∧ Tidy reminders q' (front ++ a :: back)) := by
  have apart : ∀ k ∈ nodes, k ≠ a := fun k mem same => unused (same ▸ tidyAllocated tidy k mem)
  let q₁ := (q.malloc a garbage).setReminderEvent a e
  have event : q₁.reminderEvent a = e := Function.update_self ..
  have events : ∀ k ∈ nodes, q₁.reminderEvent k = q.reminderEvent k :=
    fun k mem => Function.update_of_ne (apart k mem) ..
  have tidy₁ : Tidy reminders q₁ nodes := mallocTidy tidy unused e garbage
  have alive : q₁.live a = true := decide_eq_true List.mem_cons_self
  have same : ∀ k ∈ nodes, q₁.comp reminders e k = 0 ↔ SameKey reminders e (q.reminderEvent k) :=
    fun k mem => by rw [Heap.comp,compZero,events k mem]
  rcases rbInsertHolds tidy₁.holds (tidySided tidy₁ e) alive (fun mem => apart a mem rfl) (tidyRoom tidy₁) with
    ⟨b,mem,zero,ran⟩ | ⟨rb,front,back,ran,holds,rfl,more,less⟩
  · refine ⟨q₁,?_,rfl,rfl,.inl ⟨fun absent => ?_,tidy₁⟩⟩
    · rw [← event] at ran
      simp only [reminderQueuePush,show (q.malloc a garbage).setReminderEvent a e = q₁ from rfl,ran,okBind]
    · exact (absentNodes tidy).mp absent b mem ((same b mem).mp zero)
  · refine ⟨{q₁ with rb := rb},?_,rfl,rfl,.inr ⟨(absentNodes tidy).mpr (fun k mem key => ?_),front,back,rfl,holds,?_,
      tidy₁.nodup⟩⟩
    · rw [← event] at ran
      simp only [reminderQueuePush,show (q.malloc a garbage).setReminderEvent a e = q₁ from rfl,ran,okBind]
    · have zero := (same k mem).mpr key
      rcases List.mem_append.mp mem with mem | mem
      · have := more k mem
        omega
      · have := less k mem
        omega
    · exact orderInsert tidy₁.sorted event more less

theorem eventTidy (tidy : Tidy reminders q (a :: nodes)) : q.event (some a) = .ok (q.reminderEvent a) := by
  have alive : q.live a = true := holdsAlive tidy.holds a List.mem_cons_self
  simp only [Heap.event,deref,alive,if_true,okBind]

theorem peekTidy (tidy : Tidy reminders q nodes) : reminderQueuePeek q = .ok (nodes.head?.map q.reminderEvent) := by
  have first := rbMinHolds tidy.holds (tidyRoom tidy)
  cases nodes with
  | nil => simp [reminderQueuePeek,first,okBind]
  | cons a rest => simp [reminderQueuePeek,first,okBind,eventTidy tidy]

theorem popTidy (tidy : Tidy reminders q (a :: nodes)) : ∃ q', reminderQueuePop q = .ok (q',some (q.reminderEvent a)) ∧
    Tidy reminders q' nodes ∧ q'.allocated = q.allocated.erase a ∧ q'.reminderEvent = q.reminderEvent := by
  have whole : Tidy reminders q ([] ++ a :: nodes) := tidy
  obtain ⟨q₁,q',unlinked,freed,tidy',gone,same⟩ := takeTidy whole
  have first := rbMinHolds tidy.holds (tidyRoom tidy)
  refine ⟨q',?_,tidy',gone,same⟩
  simp [reminderQueuePop,first,okBind,eventTidy tidy,unlinked,freed]

theorem popEmpty (tidy : Tidy reminders q []) : reminderQueuePop q = .ok (q,none) := by
  have first := rbMinHolds tidy.holds (tidyRoom tidy)
  simp [reminderQueuePop,first,okBind]

-- Induction on the nodes left: the saved successor is the first of them, and it is still allocated.
theorem clearTidy {fuel : Nat} (tidy : Tidy reminders q nodes) (enough : nodes.length < fuel) :
    ∃ q', clearFrom fuel q nodes.head? = .ok q' ∧ Tidy reminders q' [] ∧
      ∀ k, k ∈ q'.allocated ↔ k ∈ q.allocated ∧ k ∉ nodes := by
  induction nodes generalizing q fuel with
  | nil =>
    obtain ⟨fuel,rfl⟩ : ∃ k, fuel = k + 1 := ⟨fuel - 1,by omega⟩
    exact ⟨q,rfl,tidy,by simp⟩
  | cons a nodes ih =>
    obtain ⟨fuel,rfl⟩ : ∃ k, fuel = k + 1 := ⟨fuel - 1,by omega⟩
    have whole : Tidy reminders q ([] ++ a :: nodes) := tidy
    have next := rbNextHolds whole.holds (tidyRoom whole)
    obtain ⟨q₁,q₂,unlinked,freed,tidy₂,gone,_⟩ := takeTidy whole
    obtain ⟨q',cleared,tidy',left⟩ := ih tidy₂ (by simpa using enough)
    refine ⟨q',?_,tidy',fun k => ?_⟩
    · simpa [clearFrom,next,okBind,unlinked,freed] using cleared
    · rw [left,gone,tidy.nodup.mem_erase_iff,List.mem_cons]
      tauto

theorem removeTidy (tidy : Tidy reminders q nodes) :
    (∃ front a back q', nodes = front ++ a :: back ∧ SameKey reminders e (q.reminderEvent a) ∧
      reminderQueueRemove reminders q e = .ok (q',true) ∧ Tidy reminders q' (front ++ back) ∧
      q'.allocated = q.allocated ∧ q'.reminderEvent = q.reminderEvent) ∨
    Absent reminders q e ∧ reminderQueueRemove reminders q e = .ok (q,false) := by
  rcases rbFindHolds tidy.holds (tidySided tidy e) (tidyRoom tidy) with ⟨a,mem,zero,found⟩ | ⟨other,found⟩
  · obtain ⟨front,back,rfl⟩ := List.append_of_mem mem
    obtain ⟨rb,unlinked,tidy'⟩ := unlinkTidy tidy
    refine .inl ⟨front,a,back,_,rfl,compZero.mp zero,?_,tidy',rfl,rfl⟩
    simp [reminderQueueRemove,found,okBind,unlinked]
  · refine .inr ⟨(absentNodes tidy).mpr (fun a mem key => other a mem (compZero.mpr key)),?_⟩
    simp [reminderQueueRemove,found,okBind]

end Tidy

structure Served (reminders : Nat → Reminder) (q : Heap) (call : Call) (q' : Heap) (nodes : List Nat) : Prop where
  ran : serve reminders q call = .ok q'
  tidy : Tidy reminders q' nodes
  cleared : call = .clear → nodes = []
  owned : Owned q → (Owned q' ↔ Kept reminders ⟨q,call,.ok q'⟩)

section Served
variable {reminders : Nat → Reminder} {q : Heap} {nodes : List Nat} {a e : Nat} {call : Call}

theorem sameServed (tidy : Tidy reminders q nodes) (ran : serve reminders q call = .ok q) (other : call ≠ .clear)
    (kept : Kept reminders ⟨q,call,.ok q⟩) : Served reminders q call q nodes where
  ran := ran
  tidy := tidy
  cleared := fun clear => absurd clear other
  owned := fun owned => iff_of_true owned kept

theorem pushServed {garbage : RbEntry} (tidy : Tidy reminders q nodes) (new : a ∉ q.allocated) :
    ∃ q' nodes', Served reminders q (.push e (some (a,garbage))) q' nodes' := by
  obtain ⟨q',ran,more,_,⟨held,tidy'⟩ | ⟨absent,front,back,rfl,tidy'⟩⟩ := pushTidy tidy new e garbage
  -- the refused node is allocated and not linked
  · refine ⟨q',nodes,ran,tidy',by simp,fun _ => iff_of_false (fun owned => ?_) ?_⟩
    · have mem := ((ownedNodes tidy').mp owned a).mp (more ▸ List.mem_cons_self)
      exact new (tidyAllocated tidy a mem)
    · simpa [Kept] using held
  · refine ⟨q',_,ran,tidy',by simp,fun owned => iff_of_true ?_ (.inr absent)⟩
    refine (ownedNodes tidy').mpr (fun k => ?_)
    rw [more,List.mem_cons,(ownedNodes tidy).mp owned k,List.mem_append,List.mem_append,List.mem_cons]
    tauto

theorem popServed (tidy : Tidy reminders q nodes) : ∃ q' nodes', Served reminders q .pop q' nodes' := by
  cases nodes with
  | nil =>
    have ran : serve reminders q .pop = .ok q := by simp [serve,popEmpty tidy,okBind]
    exact ⟨q,[],sameServed tidy ran (by simp) trivial⟩
  | cons a nodes =>
    have fresh : a ∉ nodes := (List.nodup_cons.mp (holdsNodup tidy.holds)).1
    obtain ⟨q',popped,tidy',gone,_⟩ := popTidy tidy
    have ran : serve reminders q .pop = .ok q' := by simp [serve,popped,okBind]
    refine ⟨q',nodes,ran,tidy',by simp,fun owned => iff_of_true ?_ trivial⟩
    refine (ownedNodes tidy').mpr (fun k => ?_)
    rw [gone,tidy.nodup.mem_erase_iff,(ownedNodes tidy).mp owned k,List.mem_cons]
    refine ⟨fun ⟨other,mem⟩ => mem.resolve_left other,fun mem => ⟨?_,.inr mem⟩⟩
    rintro rfl
    exact fresh mem

theorem removeServed (tidy : Tidy reminders q nodes) : ∃ q' nodes', Served reminders q (.remove e) q' nodes' := by
  have nodup := holdsNodup tidy.holds
  rcases removeTidy (e := e) tidy with ⟨front,a,back,q',rfl,key,removed,tidy',kept,_⟩ | ⟨absent,removed⟩
  -- the removed node stays allocated
  · have ran : serve reminders q (.remove e) = .ok q' := by simp [serve,removed,okBind]
    refine ⟨q',_,ran,tidy',by simp,fun _ => iff_of_false (fun owned => ?_) (fun absent => ?_)⟩
    · have mem : a ∈ q'.allocated := kept ▸ tidyAllocated tidy a (by simp)
      rw [List.nodup_middle,List.nodup_cons] at nodup
      exact nodup.1 (((ownedNodes tidy').mp owned a).mp mem)
    · exact (absentNodes tidy).mp absent a (by simp) key
  · have ran : serve reminders q (.remove e) = .ok q := by simp [serve,removed,okBind]
    exact ⟨q,nodes,sameServed tidy ran (by simp) absent⟩

theorem clearServed (tidy : Tidy reminders q nodes) : ∃ q' nodes', Served reminders q .clear q' nodes' := by
  have first := rbMinHolds tidy.holds (tidyRoom tidy)
  obtain ⟨q',cleared,tidy',left⟩ := clearTidy tidy (tidyEnough tidy)
  have ran : serve reminders q .clear = .ok q' := by simp only [serve,reminderQueueClear,first,okBind,cleared]
  refine ⟨q',[],ran,tidy',fun _ => rfl,fun owned => iff_of_true ?_ trivial⟩
  refine (ownedNodes tidy').mpr (fun k => ?_)
  rw [left,(ownedNodes tidy).mp owned k]
  simp

theorem callServed (tidy : Tidy reminders q nodes) (unused : Unused q call) :
    ∃ q' nodes', Served reminders q call q' nodes' := by
  cases call with
  | push e memory =>
    cases memory with
    | none => exact ⟨q,nodes,sameServed tidy rfl (by simp) (.inl rfl)⟩
    | some m => exact pushServed tidy (by simpa [Unused,Heap.live] using unused)
  | pop => exact popServed tidy
  | peek =>
    have ran : serve reminders q .peek = .ok q := by simp [serve,peekTidy tidy,okBind]
    exact ⟨q,nodes,sameServed tidy ran (by simp) trivial⟩
  | isEmpty => exact ⟨q,nodes,sameServed tidy rfl (by simp) trivial⟩
  | remove e => exact removeServed tidy
  | clear => exact clearServed tidy

theorem servedBare {q' : Heap} (served : Served reminders q call q' nodes) (clear : call = .clear) (a : Nat) :
    ¬ Linked q'.rb a := by
  rw [linkedHolds served.tidy.holds,served.cleared clear]
  exact List.not_mem_nil

theorem servedRight {q' : Heap} (served : Served reminders q call q' nodes) :
    Right ⟨q,call,.ok q'⟩ ↔ Owned q' := by
  refine ⟨fun ⟨q'',same,owned,_⟩ => ?_,fun owned => ⟨q',rfl,owned,fun clear => ⟨?_,servedBare served clear⟩⟩⟩
  · cases same
    exact owned
  · exact List.eq_nil_iff_forall_not_mem.mpr (fun a mem => servedBare served clear a ((owned a).mp mem))

end Served

section Run
variable {reminders : Nat → Reminder} {links : Nat → RbEntry} {events : Nat → Nat} {trace : List Entry}
  {s : Option Heap}

theorem newTidy (reminders : Nat → Reminder) : Tidy reminders (reminderQueueNew links events) [] := by
  refine ⟨⟨.leaf,0,⟨rfl,?_,List.nodup_nil,?_⟩,.leaf,rfl⟩,List.Pairwise.nil,List.nodup_nil⟩
  · simp [layout,Mem]
  · simp [Base.ColoredTree.ColorTree.items]

theorem newOwned : Owned (reminderQueueNew links events) :=
  (ownedNodes (newTidy (fun _ => ⟨0,0,0⟩))).mpr (by simp [reminderQueueNew])

structure Sound (reminders : Nat → Reminder) (trace : List Entry) (s : Option Heap) : Prop where
  here : ∃ q nodes, s = some q ∧ Tidy reminders q nodes ∧ ((∀ entry ∈ trace, Right entry) → Owned q)
  alike : (∀ entry ∈ trace, Right entry) ↔ ∀ entry ∈ trace, Kept reminders entry

theorem soundStep {entry : Entry} {s' : Option Heap} {call : Call} (sound : Sound reminders trace s)
    (done : perform reminders s call = some (entry,s')) : Sound reminders (trace ++ [entry]) s' ∧
      ∃ q, entry.outcome = .ok q ∧ (entry.call = .clear → ∀ a, ¬ Linked q.rb a) := by
  obtain ⟨⟨q,nodes,rfl,tidy,owned⟩,alike⟩ := sound
  obtain ⟨unused,moved⟩ := Option.ite_none_right_eq_some.mp done
  obtain ⟨q',nodes',served⟩ := callServed tidy unused
  rw [served.ran] at moved
  cases moved
  have right := servedRight served
  refine ⟨⟨⟨q',nodes',rfl,served.tidy,fun all => right.mp (all _ (by simp))⟩,?_⟩,q',rfl,servedBare served⟩
  simp only [List.forall_mem_append,List.forall_mem_singleton]
  rw [← alike]
  exact and_congr_right (fun all => right.trans (served.owned (owned all)))

/-- In every run no call meets a fault, and clear leaves no node in the tree. Nodes are
allocated exactly while they are linked if and only if every call was kept. -/
theorem nodesOwned (run : Run (Step reminders) (some (reminderQueueNew links events)) trace s) :
    ((∀ entry ∈ trace, Right entry) ↔ ∀ entry ∈ trace, Kept reminders entry) ∧
    ∀ entry ∈ trace, ∃ q, entry.outcome = .ok q ∧ (entry.call = .clear → ∀ a, ¬ Linked q.rb a) := by
  refine (Base.Trace.runLabels (Sound reminders) _ ?_ ?_ run).imp_left Sound.alike
  · exact ⟨⟨_,_,rfl,newTidy _,fun _ => newOwned⟩,by simp⟩
  · rintro trace s entry s' sound ⟨call,done⟩
    exact soundStep sound done

end Run

section Runs
open ReminderQueue (twins hours)

def unwritten : RbEntry := ⟨none,none,none,.black⟩

def bareQueue : Heap := reminderQueueNew (fun _ => unwritten) id

theorem linkedNone {s : Rb} (root : s.root = none) (a : Nat) : ¬ Linked s a := by
  intro linked
  induction linked with
  | root top => cases root.symm.trans top
  | child d parent next absurd => exact absurd

def enclosed (s : Rb) (nodes : List Nat) : Bool :=
  s.root.all (· ∈ nodes) && nodes.all (fun a => (s.entry a).left.all (· ∈ nodes) && (s.entry a).right.all (· ∈ nodes))

theorem linkedEnclosed {s : Rb} {nodes : List Nat} {a : Nat} (closed : enclosed s nodes = true)
    (linked : Linked s a) : a ∈ nodes := by
  simp only [enclosed,Bool.and_eq_true,List.all_eq_true] at closed
  induction linked with
  | root top => simpa [top] using closed.1
  | @child a b d parent next inside =>
    cases d with
    | left => simpa [show (s.entry a).left = some b from next] using (closed.2 a inside).1
    | right => simpa [show (s.entry a).right = some b from next] using (closed.2 a inside).2

def missing (reminders : Nat → Reminder) (q : Heap) (e : Nat) : Bool :=
  enclosed q.rb q.allocated && q.allocated.all (fun a => q.comp reminders e a != 0)

def keeps (reminders : Nat → Reminder) (entry : Entry) : Bool := match entry.call with
  | .push e memory => memory.isNone || missing reminders entry.before e
  | .remove e => missing reminders entry.before e
  | _ => true

theorem missingAbsent {reminders : Nat → Reminder} {q : Heap} {e : Nat} (new : missing reminders q e = true) :
    Absent reminders q e := by
  simp only [missing,Bool.and_eq_true,List.all_eq_true,bne_iff_ne] at new
  exact fun a linked key => new.2 a (linkedEnclosed new.1 linked) (compZero.mpr key)

theorem keepsKept {reminders : Nat → Reminder} {entry : Entry} (known : keeps reminders entry = true) :
    Kept reminders entry := by
  obtain ⟨before,call,outcome⟩ := entry
  cases call with
  | push e memory => exact (Bool.or_eq_true_iff.mp known).imp id missingAbsent
  | remove e => exact missingAbsent known
  | _ => trivial

def busyHours : List Call := [.push 9 (some (0,unwritten)),.push 7 (some (1,unwritten)),.push 11 (some (2,unwritten)),
  .remove 8,.peek,.pop,.push 10 (some (1,unwritten)),.push 12 (some (3,unwritten)),.remove 7,.push 8 none,.isEmpty,
  .clear,.push 7 (some (2,unwritten))]

theorem nodesOwnedHours : ∃ trace q, Run (Step hours) (some bareQueue) trace (some q) ∧
    trace.map Entry.call = busyHours ∧ q.allocated = [2] ∧ ∀ entry ∈ trace, Right entry := by
  obtain ⟨trace,s,run,same⟩ := Base.Trace.playSeen busyHours
    (fun r : List Entry × Option Heap => (r.1.map Entry.call,r.1.all (keeps hours),r.2.map Heap.allocated))
    (show (Base.Trace.play (perform hours) (some bareQueue) busyHours).map _ = some (busyHours,true,some [2]) from rfl)
  simp only [Prod.mk.injEq,Option.map_eq_some_iff] at same
  obtain ⟨calls,known,q,rfl,left⟩ := same
  have kept : ∀ entry ∈ trace, Kept hours entry := fun entry mem => keepsKept (List.all_eq_true.mp known entry mem)
  exact ⟨trace,q,run,calls,left,(nodesOwned run).1.mpr kept⟩

/-- The node refused for a twin and the node removed are never freed. -/
theorem leakedNodes : ∃ trace q, Run (Step twins) (some bareQueue) trace (some q) ∧ trace.map Entry.call =
      [.push 0 (some (0,unwritten)),.push 1 (some (1,unwritten)),.remove 0,.clear] ∧
    q.allocated = [1,0] ∧ (∀ a, ¬ Linked q.rb a) ∧ ¬ ∀ entry ∈ trace, Right entry := by
  have run : Run (Step twins) (some bareQueue) [_,_,_,_] (some _) :=
    .snoc (.snoc (.snoc (.snoc .nil ⟨.push 0 (some (0,unwritten)),rfl⟩) ⟨.push 1 (some (1,unwritten)),rfl⟩)
      ⟨.remove 0,rfl⟩) ⟨.clear,rfl⟩
  refine ⟨_,_,run,rfl,rfl,linkedNone rfl,fun right => ?_⟩
  obtain ⟨q,same,_,bare⟩ := right _ (.tail _ (.tail _ (.tail _ (.head _))))
  cases same
  cases (bare rfl).1

end Runs

end Qtl.ReminderNodes
