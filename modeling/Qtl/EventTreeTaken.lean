import Qtl.EventTreeRead
import Qtl.EventTreeRun
import Qtl.Pipe

/-! Which queue a call of event_tree_read takes an event from, and what it hands over
for it. The facts hold of any heap; none needs a represented tree. -/
namespace Qtl.EventTreeTaken
open Queue EventTree EventTreeShape EventTreeRebalance EventTreeRead EventTreeRun Spsc Pipe

def Alone (s : World) (a : Nat) (n : TreeNode) : Prop :=
  s.root = some a ∧ s.nodes[a]? = some n ∧ n.left = none ∧ n.prev = none ∧ n.right = none

def LastClosing (s : World) : Prop :=
  ∃ a n e, Alone s a n ∧ eventQueuePeek (s.queues n.queue) = some e ∧ e.type = .kOnQueueClosed

inductive TreeRead (s s' : World) : Option Event → Prop where
  | null (front : upcoming s = none) (goesOn : ¬ LastClosing s) (same : s'.queues = s.queues) : TreeRead s s' none
  | passed {q : Nat} {e : Event} (front : upcoming s = some (q,e)) (goesOn : ¬ LastClosing s)
      (popped : s'.queues = Function.update s.queues q (eventQueuePop (s.queues q)).1) : TreeRead s s' (some e)
  | replaced {q : Nat} {e : Event} (front : upcoming s = some (q,e)) (closing : LastClosing s)
      (popped : s'.queues = Function.update s.queues q (eventQueuePop (s.queues q)).1) :
      TreeRead s s' (some newOnSimulationStopEvent)

variable {asserts : Assertion → Bool} {s s' s₁ : World} {a fuel : Nat} {n c : TreeNode}
  {parent current p : Option Nat} {r : Option Event}

theorem popPeek (q : EventQueue) : (eventQueuePop q).2 = eventQueuePeek q := by
  simp only [eventQueuePop,eventQueuePeek,spscQueueRead,spscQueuePeek]
  split <;> rfl

theorem peekFront {q : EventQueue} {e : Event} (peek : eventQueuePeek q = some e) :
    contents q = e :: contents (eventQueuePop q).1 := by
  have front : (contents q).head? = some e := (peekExact q.ok).symm.trans peek
  rw [show contents (eventQueuePop q).1 = (contents q).tail from (readExact q.ok).2]
  exact List.eq_cons_of_mem_head? front

theorem loadInv (h : s.load p = .ok n) : ∃ a, p = some a ∧ s.nodes[a]? = some n := by
  cases p with
  | none => cases h
  | some a =>
    simp only [World.load] at h
    split at h <;> cases h
    exact ⟨a,rfl,by assumption⟩

theorem storeRoot {f : TreeNode → TreeNode} (h : s.store p f = .ok s') : s'.root = s.root := by
  obtain ⟨a,rfl,rfl⟩ := storeInv h
  rfl

theorem leftmostFound {link : Option Nat} (found : leftmost s fuel parent current = .ok (p,link)) :
    ∃ n, s.load link = .ok n ∧ n.left = none ∧ (p = parent ∧ link = current ∨ p.isSome) := by
  induction fuel generalizing parent current with
  | zero => cases found
  | succ fuel ih =>
    obtain ⟨n,loaded,found⟩ := bindOk found
    split at found
    · obtain ⟨m,loaded',left,place⟩ := ih found
      refine ⟨m,loaded',left,?_⟩
      obtain ⟨c,rfl,_⟩ := loadInv loaded
      rcases place with ⟨rfl,_⟩ | below
      · exact .inr rfl
      · exact .inr below
    · rename_i left
      cases found
      exact ⟨n,loaded,by simpa using left,.inl ⟨rfl,rfl⟩⟩

theorem aloneTaken (alone : Alone s a n) (taken : takeCurrent s = .ok (s₁,current)) :
    current = some a ∧ s₁.root = none := by
  obtain ⟨root,node,left,prev,right⟩ := alone
  have found : leftmost s (s.nodes.length + 1) none s.root = .ok (none,some a) := by
    rw [root,leftmost,okBind (loadSome node),left]
    rfl
  obtain ⟨place,found',unlinked⟩ := bindOk taken
  cases found.symm.trans found'
  obtain ⟨m,loaded,unlinked⟩ := bindOk unlinked
  cases (loadSome node).symm.trans loaded
  rw [prev,if_neg (by simp)] at unlinked
  obtain ⟨s₂,passed,unlinked⟩ := bindOk unlinked
  obtain ⟨s₃,stored,unlinked⟩ := bindOk unlinked
  cases unlinked
  cases passed
  exact ⟨rfl,(storeRoot stored).trans right⟩

theorem takenAlone (taken : takeCurrent s = .ok (s₁,current)) (last : s₁.root = none) :
    ∃ a n, current = some a ∧ Alone s a n := by
  obtain ⟨⟨p,r⟩,found,unlinked⟩ := bindOk taken
  obtain ⟨n,loaded,left,place⟩ := leftmostFound found
  have linked : s.root ≠ none := by
    intro none
    rw [none] at found
    cases found
  obtain ⟨m,s₂,loaded',⟨_,_,stored,stored'⟩ | ⟨prev,rfl,passed,stored⟩⟩ := unlinkCases unlinked
  · exact absurd ((storeRoot stored).symm.trans ((storeRoot stored').symm.trans last)) linked
  · cases loaded.symm.trans loaded'
    have last₂ : s₂.root = none := (storeRoot stored).symm.trans last
    cases p with
    | some p =>
      simp only [bypass] at passed
      exact absurd ((storeRoot passed).symm.trans last₂) linked
    | none =>
      cases passed
      rcases place with ⟨_,rfl⟩ | below
      · obtain ⟨a,root,node⟩ := loadInv loaded
        exact ⟨a,n,root,root,node,left,prev,last₂⟩
      · cases below

theorem takenKeeps (taken : takeCurrent s = .ok (s₁,current)) : Keeps (fun _ => True) s s₁ := by
  obtain ⟨_,_,unlinked⟩ := bindOk taken
  exact unlinkKeeps unlinked

theorem upcomingPeek (taken : takeCurrent s = .ok (s₁,current)) (loaded : s₁.load current = .ok c) :
    upcoming s = (eventQueuePeek (s.queues c.queue)).map (fun e => (c.queue,e)) := by
  obtain ⟨a,rfl,node⟩ := loadInv loaded
  rw [← (takenKeeps taken).queues]
  cases peek : eventQueuePeek (s₁.queues c.queue) <;> simp [upcoming,taken,Except.toOption,node,peek]

theorem upcomingAt {q : Nat} {e : Event} (front : upcoming s = some (q,e)) : eventQueuePeek (s.queues q) = some e := by
  obtain ⟨⟨s₁,current⟩,taken,front⟩ := Option.bind_eq_some_iff.mp front
  obtain ⟨a,here,front⟩ := Option.bind_eq_some_iff.mp front
  obtain ⟨c,node,front⟩ := Option.bind_eq_some_iff.mp front
  obtain ⟨e',peek,front⟩ := Option.bind_eq_some_iff.mp front
  cases front
  rw [← (takenKeeps (okOption taken)).queues]
  exact peek

theorem sameQueue (taken : takeCurrent s = .ok (s₁,current)) (loaded : s₁.load current = .ok c)
    (alone : Alone s a n) : c.queue = n.queue := by
  obtain ⟨b,rfl,node⟩ := loadInv loaded
  cases (aloneTaken alone taken).1
  have kept := (takenKeeps taken).queue a
  rw [node,alone.2.1] at kept
  exact Option.some.inj kept

theorem closingTaken (closing : LastClosing s) (taken : takeCurrent s = .ok (s₁,current))
    (loaded : s₁.load current = .ok c) :
    s₁.root = none ∧ ∃ e, eventQueuePeek (s.queues c.queue) = some e ∧ e.type = .kOnQueueClosed := by
  obtain ⟨a,n,e,alone,front,type⟩ := closing
  exact ⟨(aloneTaken alone taken).2,e,by rw [sameQueue taken loaded alone,front],type⟩

theorem treeRead (done : eventTreeRead asserts s = .ok (s',r)) : TreeRead s s' r := by
  obtain ⟨_,_,done⟩ := bindOk done
  obtain ⟨⟨s₁,current⟩,taken,done⟩ := bindOk done
  obtain ⟨c,loaded,done⟩ := bindOk done
  have keeps := takenKeeps taken
  have ahead := upcomingPeek taken loaded
  cases peek : eventQueuePeek (s.queues c.queue) with
  | none =>
    have popped : eventQueuePop (s₁.queues c.queue) = ((eventQueuePop (s₁.queues c.queue)).1,none) := by
      rw [keeps.queues,← peek,← popPeek]
    rw [popped] at done
    cases done
    refine .null (by rw [ahead,peek]; rfl) (fun closing => ?_) keeps.queues
    obtain ⟨_,e,front,_⟩ := closingTaken closing taken loaded
    rw [peek] at front
    cases front
  | some e =>
    have popped : eventQueuePop (s₁.queues c.queue) = ((eventQueuePop (s.queues c.queue)).1,some e) := by
      rw [keeps.queues,← peek,← popPeek]
    rw [popped] at done
    have front : upcoming s = some (c.queue,e) := by rw [ahead,peek]; rfl
    have queues : (s₁.setQueue c.queue (eventQueuePop (s.queues c.queue)).1).queues =
        Function.update s.queues c.queue (eventQueuePop (s.queues c.queue)).1 := by
      rw [← keeps.queues]
      rfl
    have closed (closing : LastClosing s) : s₁.root = none ∧ e.type = .kOnQueueClosed := by
      obtain ⟨last,e',front',type⟩ := closingTaken closing taken loaded
      cases Option.some.inj (peek.symm.trans front')
      exact ⟨last,type⟩
    dsimp only at done
    split at done
    · rename_i type
      cases last : s₁.root with
      | none =>
        rw [show (s₁.setQueue c.queue (eventQueuePop (s.queues c.queue)).1).root = none from last] at done
        cases done
        obtain ⟨a,n,_,alone⟩ := takenAlone taken last
        refine .replaced front ⟨a,n,e,alone,?_,type⟩ queues
        rw [← sameQueue taken loaded alone,peek]
      | some root =>
        rw [show (s₁.setQueue c.queue (eventQueuePop (s.queues c.queue)).1).root = some root from last] at done
        cases done
        refine .passed front (fun closing => ?_) queues
        rw [(closed closing).1] at last
        cases last
    · rename_i type
      have goesOn (closing : LastClosing s) : False := type (closed closing).2
      split at done
      · cases done
        exact .passed front goesOn queues
      · obtain ⟨s₂,filed,done⟩ := bindOk done
        cases done
        exact .passed front goesOn ((rebalanceKeeps filed).queues.trans queues)

theorem isEmptyQueues {empty : Bool} (done : eventTreeIsEmpty asserts s = .ok (s',empty)) : s'.queues = s.queues := by
  unfold eventTreeIsEmpty at done
  split at done
  · cases done; rfl
  · split at done
    · cases done; rfl
    · obtain ⟨l,_,done⟩ := bindOk done
      split at done
      · cases done; rfl
      · obtain ⟨s₁,filed,done⟩ := bindOk done
        cases done
        exact (rebalanceKeeps filed).queues

theorem addQueues {memory : Option TreeNode} {q : Nat} {added : Bool}
    (done : eventTreeAdd asserts s memory q = .ok (s',added)) : s'.queues = s.queues := by
  unfold eventTreeAdd at done
  split at done
  · cases done; rfl
  · cases memory with
    | none => cases done; rfl
    | some m =>
      simp only [nodeNew] at done
      split at done
      · cases done; rfl
      · obtain ⟨s₁,filed,done⟩ := bindOk done
        cases done
        exact (rebalanceKeeps filed).queues

section Pipes
variable {alloc : Nat → Option TreeNode} {w w' : PipeWorld} {q : Nat}

theorem treeAddQueues (done : treeAdd asserts alloc w q = .ok w') : w'.queues = w.queues := by
  obtain ⟨⟨tree,added⟩,lifted,done⟩ := bindOk done
  cases done
  exact addQueues (liftOk lifted)

theorem drainQueues (done : processPendingAdd asserts alloc fuel w = .ok w') : w'.queues = w.queues := by
  induction fuel generalizing w with
  | zero => cases done
  | succ fuel ih =>
    rcases processCases done with ⟨_,rfl⟩ | ⟨_,_,middle,added,later⟩
    · rfl
    · exact (ih later).trans (treeAddQueues (w := w.taken) added)

end Pipes

end Qtl.EventTreeTaken
