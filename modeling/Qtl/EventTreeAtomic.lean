import Qtl.EventTreeMovers

/-! Runs of a tree's owner and of producers that push between the accesses of its calls. If
every ring has a capacity of three at least they are runs of whole calls. -/
namespace Qtl.EventTreeAtomic
open Queue EventTreeShape EventTreeTaken EventTreeRun EventTreeSteps EventTreeMovers Spsc
open EventTree (TreeNode World)
open EventTreeTracked (Initialised names)
open Base.Atomicity Base.Atomicity.Program
open Base.Trace (Run)

section Machine

inductive Order where
  | init
  | add (queue : Nat) (memory : TreeNode)
  | isEmpty
  | read

def Order.action : Order → Action
  | .init => .init
  | .add q m => .add q m
  | .isEmpty => .isEmpty
  | .read => .read

inductive Reply where
  | init
  | add (queue : Nat) (added : Bool)
  | isEmpty (empty : Bool)
  | read (returned : Event)
  deriving DecidableEq, Repr

def reply : Label → Option Reply
  | .init => some .init
  | .add q added => some (.add q added)
  | .push _ _ _ => none
  | .isEmpty empty => some (.isEmpty empty)
  | .read _ _ returned => some (.read returned)

def call (asserts : Assertion → Bool) (c : Cfg) : Order → Call (Option Reply × Cfg)
  | .init => pure (some .init,⟨EventTree.eventTreeInit c.world,false⟩)
  | .add q m => do
      let r ← eventTreeAdd asserts c.world (some m) q
      pure (some (.add q r.2),⟨r.1,c.guarded⟩)
  | .isEmpty => do
      let r ← eventTreeIsEmpty asserts c.world
      pure (some (.isEmpty r.2),⟨r.1,!r.2⟩)
  | .read => do
      let r ← eventTreeRead asserts c.world
      pure (r.2.map .read,⟨r.1,false⟩)

inductive Moment where
  | push (m : Push)
  | call (reply : Reply) (during : List Push)

def holding (queues : Nat → EventQueue) (c : Cfg) : Cfg := ⟨withQueues queues c.world,c.guarded⟩

inductive FineStep (allowed : World → Action → Prop) (asserts : Assertion → Bool) (c : Cfg) : Moment → Cfg → Prop where
  | push {m : Push} {queues : Nat → EventQueue} (step : Pushes c.world.queues m queues) :
      FineStep allowed asserts c (.push m) (holding queues c)
  | call {order : Order} {answer : Reply} {during : List Push} {c₁ : Cfg} {queues : Nat → EventQueue}
      (free : allowed c.world order.action) (guarded : order.action = .read → c.guarded = true)
      (mixed : Mixed serve Pushes (call asserts c order) c.world.queues during (.ok (some answer,c₁)) queues) :
      FineStep allowed asserts c (.call answer during) (holding queues c₁)

def pushLabel (m : Push) : Label := .push m.queue m.e m.ret

inductive Placed : List Moment → List Label → Prop where
  | nil : Placed [] []
  | push {moments trace m} (before : Placed moments trace) : Placed (moments ++ [.push m]) (trace ++ [pushLabel m])
  | call {moments trace l answer first rest} (before : Placed moments trace) (seen : reply l = some answer) :
      Placed (moments ++ [.call answer (first ++ rest)])
        (trace ++ (first.map pushLabel ++ l :: rest.map pushLabel))

variable {allowed : World → Action → Prop} {asserts : Assertion → Bool} {c c₁ : Cfg} {order : Order} {answer : Reply}

theorem callWhole (wide : Wide c.world.queues) : Whole serve Pushes (call asserts c order) c.world.queues := by
  cases order with
  | init => exact wholeDone
  | add q m => exact wholeMap _ addWhole
  | isEmpty => exact wholeMap _ isEmptyWhole
  | read => exact wholeMap _ (readWhole wide)

def Agrees (alone : Except Fault (Option Reply × Cfg) × (Nat → EventQueue)) : Except Stop (Label × Cfg) → Prop
  | .ok (l,c') => ∃ answer c₁, alone.1 = .ok (some answer,c₁) ∧ c' = holding alone.2 c₁ ∧ reply l = some answer
  | .error (.fault f) => alone.1 = .error f
  | .error .nullEvent => ∃ c₁, alone.1 = .ok (none,c₁)
  | .error .unguarded => False

theorem addAgrees {q : Nat} {m : TreeNode} :
    Agrees ((call asserts c (.add q m)).alone serve queues) (perform asserts (holding queues c) (.add q m)) := by
  have unread : ((eventTreeAdd asserts c.world (some m) q).alone serve queues).2 = queues := addSame
  have done : EventTree.eventTreeAdd asserts (withQueues queues c.world) (some m) q = _ := addCall
  simp only [perform,holding,call,aloneBind,done]
  generalize (eventTreeAdd asserts c.world (some m) q).alone serve queues = result at unread ⊢
  obtain ⟨r,after⟩ := result
  cases unread
  cases r with
  | error f => rfl
  | ok r => exact ⟨_,_,rfl,rfl,rfl⟩

theorem isEmptyAgrees :
    Agrees ((call asserts c .isEmpty).alone serve queues) (perform asserts (holding queues c) .isEmpty) := by
  have unread : ((eventTreeIsEmpty asserts c.world).alone serve queues).2 = queues := isEmptySame
  have done : EventTree.eventTreeIsEmpty asserts (withQueues queues c.world) = _ := isEmptyCall
  simp only [perform,holding,call,aloneBind,done]
  generalize (eventTreeIsEmpty asserts c.world).alone serve queues = result at unread ⊢
  obtain ⟨r,after⟩ := result
  cases unread
  cases r with
  | error f => rfl
  | ok r => exact ⟨_,_,rfl,rfl,rfl⟩

theorem readAgrees (guarded : c.guarded = true) :
    Agrees ((call asserts c .read).alone serve queues) (perform asserts (holding queues c) .read) := by
  have done : EventTree.eventTreeRead asserts (withQueues queues c.world) = _ := readCall
  have found (w : World) (e : Event)
      (read : EventTree.eventTreeRead asserts (withQueues queues c.world) = .ok (w,some e)) :
      ∃ q popped, upcoming (withQueues queues c.world) = some (q,popped) := by
    cases treeRead read with
    | passed front => exact ⟨_,_,front⟩
    | replaced front => exact ⟨_,_,front⟩
  simp only [perform,holding,call,aloneBind,guarded,done] at found ⊢
  generalize (eventTreeRead asserts c.world).alone serve queues = result at found ⊢
  obtain ⟨r,after⟩ := result
  cases r with
  | error f => rfl
  | ok r =>
    obtain ⟨w,e⟩ := r
    cases e with
    | none => exact ⟨_,rfl⟩
    | some e =>
      obtain ⟨q,popped,front⟩ := found _ e rfl
      simp only [Except.map,overFirst,front]
      exact ⟨_,_,rfl,rfl,rfl⟩

theorem callAgrees (guarded : order.action = .read → c.guarded = true) :
    Agrees ((call asserts c order).alone serve queues) (perform asserts (holding queues c) order.action) := by
  cases order with
  | init => exact ⟨_,_,rfl,rfl,rfl⟩
  | add q m => exact addAgrees
  | isEmpty => exact isEmptyAgrees
  | read => exact readAgrees (guarded rfl)

theorem callStep (alone : (call asserts c order).alone serve queues = (.ok (some answer,c₁),queues'))
    (guarded : order.action = .read → c.guarded = true) :
    ∃ l, perform asserts (holding queues c) order.action = .ok (l,holding queues' c₁) ∧ reply l = some answer := by
  have agrees : Agrees ((call asserts c order).alone serve queues) (perform asserts (holding queues c) order.action) :=
    callAgrees guarded
  rw [alone] at agrees
  generalize perform asserts (holding queues c) order.action = outcome at agrees ⊢
  cases outcome with
  | error stop => cases stop <;> simp [Agrees] at agrees
  | ok r =>
    obtain ⟨answer',c₁',same,here,seen⟩ := agrees
    cases same
    exact ⟨r.1,congrArg Except.ok (Prod.ext rfl here),seen⟩

theorem pushStep {m : Push} (free : ∀ s q e, allowed s (.push q e)) (step : Pushes c.world.queues m queues) :
    Step allowed asserts c (pushLabel m) (holding queues c) := by
  obtain ⟨ret,rfl⟩ := step
  refine ⟨.push m.queue m.e,free ..,?_⟩
  rw [pushLabel,ret]
  rfl

theorem pushRun {during : List Push} (free : ∀ s q e, allowed s (.push q e))
    (run : Run Pushes c.world.queues during queues) :
    Run (Step allowed asserts) c (during.map pushLabel) (holding queues c) := by
  generalize start : c.world.queues = first at run
  induction run with
  | nil =>
    subst start
    exact .nil
  | snoc before last ih =>
    rw [List.map_append]
    exact .snoc ih (pushStep (c := holding _ c) free last)

structure Steady (allowed : World → Action → Prop) : Prop where
  push : ∀ s q e, allowed s (.push q e)
  later : ∀ s queues action, allowed s action → allowed (withQueues queues s) action

variable {c' : Cfg} {moment : Moment} {moments : List Moment} {trace : List Label}

theorem fineWide (wide : Wide c.world.queues) (step : FineStep allowed asserts c moment c') : Wide c'.world.queues := by
  cases step with
  | push step => exact wideStable _ _ _ wide step
  | call free guarded mixed => exact wideMixed wide mixed

theorem fineSteps (steady : Steady allowed) (wide : Wide c.world.queues) (step : FineStep allowed asserts c moment c')
    (placed : Placed moments trace) : ∃ more, Run (Step allowed asserts) c more c' ∧
      Placed (moments ++ [moment]) (trace ++ more) := by
  cases step with
  | @push m queues step => exact ⟨[pushLabel m],Base.Trace.runSingle (pushStep steady.push step),.push placed⟩
  | call free guarded mixed =>
    obtain ⟨first,rest,before,after,rfl,run,alone,onward⟩ := callWhole wide _ _ _ mixed
    obtain ⟨l,ran,seen⟩ := callStep alone guarded
    have step : Step allowed asserts (holding before c) l (holding after _) := ⟨_,steady.later _ before _ free,ran⟩
    exact ⟨_,Base.Trace.runAppend (pushRun steady.push run)
      (Base.Trace.runCons step (pushRun (c := holding after _) steady.push onward)),.call placed seen⟩

theorem fineRun (steady : Steady allowed) (wide : Wide c.world.queues)
    (run : Run (FineStep allowed asserts) c moments c') :
    Wide c'.world.queues ∧ ∃ trace, Run (Step allowed asserts) c trace c' ∧ Placed moments trace := by
  refine Base.Trace.runInvariant (fun moments c' => Wide c'.world.queues ∧
    ∃ trace, Run (Step allowed asserts) c trace c' ∧ Placed moments trace) ⟨wide,[],.nil,.nil⟩ ?_ run
  rintro moments c₁ moment c₂ ⟨wide,trace,ran,placed⟩ step
  obtain ⟨more,later,placed⟩ := fineSteps steady wide step placed
  exact ⟨fineWide wide step,_,Base.Trace.runAppend ran later,placed⟩

/-- A run in which producers push between the accesses of a call is a run of whole calls:
each call takes its place among the pushes made during it. -/
theorem callsAtomic (steady : Steady allowed) (wide : Wide c.world.queues)
    (run : Run (FineStep allowed asserts) c moments c') :
    ∃ trace, Run (Step allowed asserts) c trace c' ∧ Placed moments trace := (fineRun steady wide run).2

def ring (capacity : Nat) (wide : 2 ≤ capacity ∧ capacity < uintRange) (e : Event) : EventQueue :=
  ⟨none,⟨capacity,fun _ => e,0,1⟩,⟨wide.1,wide.2,Nat.lt_of_lt_of_le Nat.zero_lt_two wide.1,wide.1⟩⟩

def five : Event := ⟨5,.kAsk,none⟩
def nine : Push := ⟨0,⟨9,.kAsk,none⟩,true⟩

def oneNode (queue : EventQueue) : Cfg := ⟨⟨[⟨0,5,none,none,none,none,some 0⟩],fun _ => queue,some 0,none⟩,true⟩

def three : Cfg := oneNode (ring 3 (by decide) five)

theorem callsAtomicThree : ∃ c' trace, Run (FineStep (fun _ _ => True) noAsserts) three [.call (.read five) [nine]] c' ∧
    Run (Step (fun _ _ => True) noAsserts) three trace c' ∧ Placed [.call (.read five) [nine]] trace := by
  have mixed : ∃ c₁ queues, Mixed serve Pushes (call noAsserts three .read) three.world.queues [nine]
      (.ok (some (.read five),c₁)) queues := ⟨_,_,.ask (.other ⟨rfl,rfl⟩ (.ask (.ask .done)))⟩
  obtain ⟨c₁,queues,mixed⟩ := mixed
  have run : Run (FineStep (fun _ _ => True) noAsserts) three [.call (.read five) [nine]] (holding queues c₁) :=
    Base.Trace.runSingle (.call trivial (fun _ => rfl) mixed)
  obtain ⟨trace,ran,placed⟩ := callsAtomic ⟨fun _ _ _ => trivial,fun _ _ _ _ => trivial⟩ (fun _ => Nat.le_refl 3) run
  exact ⟨_,trace,run,ran,placed⟩

def two : Cfg := oneNode (ring 2 (by decide) five)

-- In a ring of two the push finds no room before the pop, and after the call the tree has
-- put its node aside.
theorem twoNotAtomic : ∃ r queues, Mixed serve Pushes (call noAsserts two .read) two.world.queues [nine] r queues ∧
    ¬ Atomic serve Pushes (call noAsserts two .read) two.world.queues [nine] r queues := by
  refine ⟨_,_,.ask (.other ⟨rfl,rfl⟩ (.ask (.ask .done))),?_⟩
  rintro ⟨first,rest,before,after,split,run,alone,_⟩
  rcases List.append_eq_singleton_iff.mp split.symm with ⟨rfl,_⟩ | ⟨rfl,_⟩
  · cases Base.Trace.runNilInv run
    have parked := congrArg (fun r => r.1.toOption.map (fun r => r.2.world.last)) alone
    cases parked
  · obtain ⟨middle,none,step⟩ := Base.Trace.runSnocInv (show Run Pushes two.world.queues ([] ++ [nine]) before from run)
    cases Base.Trace.runNilInv none
    have full : (eventQueuePush (two.world.queues 0) nine.e).ret = false := rfl
    cases step.1.trans full

/-- Memory for a node that may go to an empty root has its links set already. -/
def Prepared (s : World) : Action → Prop
  | .add _ m => s.root = none → Initialised m
  | _ => True

theorem preparedSteady : Steady Prepared := by
  refine ⟨fun _ _ _ => trivial,fun s queues action prepared => ?_⟩
  cases action <;> exact prepared

theorem preparedSound {s : World} {action : Action} (prepared : Prepared s action) : SoundMemory s action := by
  cases action with
  | add q m => exact fun _ => prepared
  | _ => trivial

def addedIn : List Moment → List Nat := List.filterMap (fun moment => match moment with
  | .call (.add q _) _ => some q
  | _ => none)

theorem addedPushes (pushes : List Push) : added (pushes.map pushLabel) = [] := by
  induction pushes with
  | nil => rfl
  | cons m pushes ih => exact ih

theorem placedAdded (placed : Placed moments trace) : added trace = addedIn moments := by
  induction placed with
  | nil => rfl
  | push before ih =>
    rw [addedSnoc,ih,addedIn,List.filterMap_append]
    rfl
  | @call moments trace l answer first rest before seen ih =>
    have here : added [l] = addedIn [.call answer (first ++ rest)] := by
      cases l <;> cases seen <;> rfl
    have pushes := addedPushes first
    have pushes' := addedPushes rest
    rw [List.append_cons]
    simp only [added,addedIn,List.filterMap_append] at ih here pushes pushes' ⊢
    rw [ih,here,pushes,pushes',List.nil_append,List.append_nil]

def Order.adds : Order → List Nat
  | .add q _ => [q]
  | _ => []

theorem orderAdds {q : Nat} {m : TreeNode} (same : order.action = .add q m) : order.adds = [q] := by
  cases order <;> cases same
  rfl

/-- In a run over well-formed trees no call stops at a fault and no guarded read comes back
without an event, wherever the producers push. -/
theorem callsComplete {t : Shape} {during : List Push} {r : Except Fault (Option Reply × Cfg)}
    (sound : Sound c t) (wide : Wide c.world.queues) (run : Run (FineStep Prepared noAsserts) c moments c')
    (once : (names c.world t ++ (addedIn moments ++ order.adds).map some).Nodup)
    (prepared : Prepared c'.world order.action) (guarded : order.action = .read → c'.guarded = true)
    (mixed : Mixed serve Pushes (call noAsserts c' order) c'.world.queues during r queues) :
    ∃ answer c₁, r = .ok (some answer,c₁) := by
  obtain ⟨wide,trace,ran,placed⟩ := fineRun preparedSteady wide run
  obtain ⟨first,rest,before,after,rfl,pushes,alone,_⟩ := callWhole wide _ _ _ mixed
  have sounder (s : Cfg) (l : Label) (s' : Cfg) (step : Step Prepared noAsserts s l s') :
      Step SoundMemory noAsserts s l s' :=
    step.imp (fun _ ⟨prepared,performed⟩ => ⟨preparedSound prepared,performed⟩)
  have ran' := Base.Trace.runMono sounder (Base.Trace.runAppend ran (pushRun preparedSteady.push pushes))
  have adds : added (trace ++ first.map pushLabel) = addedIn moments := by
    have none := addedPushes first
    rw [← placedAdded placed]
    simp only [added,List.filterMap_append] at none ⊢
    rw [none,List.append_nil]
  have earlier : (names c.world t ++ (addedIn moments).map some).Nodup := by
    rw [List.map_append,← List.append_assoc] at once
    exact (List.nodup_append.mp once).1
  obtain ⟨t',inv⟩ := runInv sound ran' (by rw [adds]; exact earlier)
  have agrees : Agrees ((call noAsserts c' order).alone serve before)
      (perform noAsserts (holding before c') order.action) := callAgrees guarded
  have unknown (q : Nat) (m : TreeNode) (same : order.action = .add q m) :
      some q ∉ names (holding before c').world t' := by
    refine unknownQueue inv ?_
    rw [adds,← orderAdds same]
    exact once
  rcases soundStep noAsserts inv.sound (fun _ => rfl) (preparedSound (preparedSteady.later _ before _ prepared))
    unknown with ⟨reads,free,_⟩ | ⟨l,c'',t'',performed,_⟩
  · exact absurd ((guarded reads).symm.trans free) (by simp)
  · rw [performed,alone] at agrees
    obtain ⟨answer,c₁,same,_⟩ := agrees
    exact ⟨answer,c₁,same⟩

def unused : Cfg := ⟨⟨[],three.world.queues,none,none⟩,false⟩

theorem unusedSteps :
    Run (FineStep Prepared noAsserts) unused [.call (.add 0 true) [],.call (.isEmpty false) []] three := by
  have added : Mixed serve Pushes (call noAsserts unused (.add 0 ⟨0,5,none,none,none,none,none⟩)) three.world.queues []
      (.ok (some (.add 0 true),⟨three.world,false⟩)) three.world.queues := .ask .done
  have asked : Mixed serve Pushes (call noAsserts ⟨three.world,false⟩ .isEmpty) three.world.queues []
      (.ok (some (.isEmpty false),three)) three.world.queues := .done
  have first : FineStep Prepared noAsserts unused (.call (.add 0 true) []) ⟨three.world,false⟩ :=
    .call (fun _ => ⟨rfl,rfl,rfl⟩) (by simp [Order.action]) added
  exact .snoc (.snoc .nil first) (.call trivial (by simp [Order.action]) asked)

theorem callsCompleteOne : ∃ r queues answer c₁, Mixed serve Pushes (call noAsserts three .read) three.world.queues
    [nine] r queues ∧ r = .ok (some answer,c₁) := by
  have mixed : ∃ r queues, Mixed serve Pushes (call noAsserts three .read) three.world.queues [nine] r queues :=
    ⟨_,_,.ask (.other ⟨rfl,rfl⟩ (.ask (.ask .done)))⟩
  obtain ⟨r,queues,mixed⟩ := mixed
  have sound : Sound unused .leaf := ⟨EventTreeTracked.emptyTracked rfl rfl,by simp [unused]⟩
  obtain ⟨answer,c₁,same⟩ := callsComplete sound (fun _ => Nat.le_refl 3) unusedSteps (by decide)
    (show Prepared three.world Order.read.action from trivial) (fun _ => rfl) mixed
  exact ⟨r,queues,answer,c₁,mixed,same⟩

end Machine

end Qtl.EventTreeAtomic
