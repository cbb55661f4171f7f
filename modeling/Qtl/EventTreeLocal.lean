import Qtl.EventTreeAtomic

/-! A call of an event tree reads and changes only the queues that the tree has. -/
namespace Qtl.EventTreeLocal
open Queue EventTreeShape EventTreeRun EventTreeSteps EventTreeTaken EventTreeTracked EventTreeAtomic
open EventTree (TreeNode World)
open Base (ChainTree)
open Base.ChainTree
open Base.Atomicity Base.Atomicity.Program

def accessed : Access → Nat
  | .isEmpty q => q
  | .pop q => q
  | .peek q => q

def Has (s : World) (t : Shape) (q : Nat) : Prop := some q ∈ names s t

def Agree (own : Nat → Prop) (queues queues' : Nat → EventQueue) : Prop := ∀ q, own q → queues q = queues' q

variable {asserts : Assertion → Bool} {own : Nat → Prop} {queues queues' : Nat → EventQueue} {s s' : World} {t : Shape}
  {g g' : Bool} {order : Order} {l : Label}

theorem serveAgree (a : Access) (queues queues' : Nat → EventQueue) (mine : own (accessed a))
    (agree : Agree own queues queues') :
    (serve a queues).1 = (serve a queues').1 ∧ Agree own (serve a queues).2 (serve a queues').2 := by
  cases a with
  | isEmpty q => exact ⟨congrArg eventQueueIsEmpty (agree q mine),agree⟩
  | peek q => exact ⟨congrArg eventQueuePeek (agree q mine),agree⟩
  | pop q =>
    refine ⟨congrArg (fun queue => (eventQueuePop queue).2) (agree q mine),fun p known => ?_⟩
    change Function.update queues q (eventQueuePop (queues q)).1 p =
      Function.update queues' q (eventQueuePop (queues' q)).1 p
    by_cases same : p = q
    · subst same
      rw [Function.update_self,Function.update_self,agree p mine]
    · rw [Function.update_of_ne same,Function.update_of_ne same]
      exact agree p known

theorem takenHas (tracked : Tracked s t) {s₁ : World} {current : Option Nat} {c : TreeNode}
    (taken : EventTree.takeCurrent s = .ok (s₁,current)) (loaded : s₁.load current = .ok c) : Has s t c.queue := by
  by_cases linked : t = leaf
  · subst linked
    have root : s.root = none := tracked.rep
    obtain ⟨_,found,_⟩ := Queue.bindOk taken
    rw [root] at found
    cases found
  · obtain ⟨⟨k,a⟩,t',first⟩ := takeFirstExists linked
    obtain ⟨s₂,n,taken',node,out⟩ := takeOut tracked first
    cases taken.symm.trans taken'
    obtain ⟨m,here,name⟩ := out.node
    cases (loadSome here).symm.trans loaded
    rw [Has,name,names,held,takeFirstItems first]
    exact List.mem_map.mpr ⟨a,by simp,queueOfNode node⟩

theorem readOnly (tracked : Tracked s t) :
    (EventTreeSteps.eventTreeRead asserts s).Only (fun a => Has s t (accessed a)) := by
  refine onlyLiftBind (fun _ _ => onlyLiftBind (fun r taken => onlyLiftBind (fun c loaded => ?_)))
  have mine := takenHas tracked taken loaded
  refine onlyBind (p := pop c.queue) ⟨mine,fun _ => trivial⟩ (fun e => ?_)
  cases e with
  | none => trivial
  | some e =>
    dsimp only
    split
    · trivial
    · refine onlyMono (parkOnly (fun n again => ?_)) (fun a looks => ?_)
      · cases loaded.symm.trans again
        rfl
      · rcases looks with rfl | rfl <;> exact mine

theorem isEmptyOnly :
    (EventTreeSteps.eventTreeIsEmpty asserts s).Only (fun a => Has s t (accessed a)) := by
  unfold EventTreeSteps.eventTreeIsEmpty
  split
  · trivial
  split
  · trivial
  refine onlyLiftBind (fun n loaded => ?_)
  have mine : Has s t n.queue := by
    obtain ⟨a,last,node⟩ := loadInv loaded
    refine List.mem_map.mpr ⟨a,?_,queueOfNode node⟩
    rw [held,last]
    simp
  refine onlyBind (p := isEmpty n.queue) ⟨mine,fun _ => trivial⟩ (fun empty => ?_)
  cases empty with
  | true => trivial
  | false =>
    refine onlyBind (onlyMono rebalanceOnly ?_) (fun _ => trivial)
    rintro a ⟨m,again,rfl⟩
    cases loaded.symm.trans again
    exact mine

theorem callOnly (tracked : Tracked s t) (looks : order = .isEmpty ∨ order = .read) :
    (call asserts ⟨s,g⟩ order).Only (fun a => Has s t (accessed a)) := by
  rcases looks with rfl | rfl
  · exact onlyBind isEmptyOnly (fun _ => trivial)
  · exact onlyBind (readOnly tracked) (fun _ => trivial)

theorem localStep (tracked : Tracked s t) (looks : order = .isEmpty ∨ order = .read)
    (guarded : order.action = .read → g = true) (performed : perform asserts ⟨s,g⟩ order.action = .ok (l,⟨s',g'⟩))
    (agree : Agree (Has s t) s.queues queues) : ∃ queues' l',
      perform asserts (holding queues ⟨s,g⟩) order.action = .ok (l',holding queues' ⟨s',g'⟩) ∧ reply l' = reply l ∧
        Agree (Has s t) s'.queues queues' := by
  have agrees : Agrees ((call asserts ⟨s,g⟩ order).alone serve s.queues) (perform asserts ⟨s,g⟩ order.action) :=
    callAgrees (c := ⟨s,g⟩) guarded
  rw [performed] at agrees
  obtain ⟨answer,c₁,answered,here,seen⟩ := agrees
  have only : (call asserts ⟨s,g⟩ order).Only (fun a => Has s t (accessed a)) := callOnly tracked looks
  obtain ⟨same,agree'⟩ := aloneAlike serveAgree only agree
  obtain ⟨l',performed',seen'⟩ := callStep (Prod.ext (same.symm.trans answered) rfl) guarded
  cases here
  exact ⟨_,l',performed',seen'.trans seen.symm,agree'⟩

end Qtl.EventTreeLocal
