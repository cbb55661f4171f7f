import Qtl.EventTreeRun
import Qtl.Pipe

/-! A pipe in use: its tree is tracked, its ring is there, and every queue it tracks or
has waiting in the ring is in one place. -/
namespace Qtl.PipeTracked
open Queue EventTree EventTreeShape EventTreeTracked EventTreeRun Spsc Pipe
open Base (ChainTree)
open Base.ChainTree

def claimed (w : PipeWorld) (t : Shape) : List (Option Nat) := names w.toWorld t ++ (pending w).map some

structure PipeOk (w : PipeWorld) (t : Shape) : Prop where
  tracked : Tracked w.toWorld t
  storage : w.storage = true
  separate : (claimed w t).Nodup
  waiting : ∀ q ∈ pending w, contents (w.queues q) ≠ []

def CleanNodes (alloc : Nat → Option TreeNode) : Prop := ∀ n m, alloc n = some m → Initialised m

structure Grew (added : List (Option Nat)) (w : PipeWorld) (t : Shape) (w' : PipeWorld) (t' : Shape) : Prop where
  queues : w'.queues = w.queues
  last : w'.last = w.last
  parked : ∀ a, w.last = some a → queueOf w'.toWorld a = queueOf w.toWorld a
  linked : t ≠ leaf → t' ≠ leaf
  keeps : ∀ q ∈ names w.toWorld t, q ∈ names w'.toWorld t'
  origin : ∀ q ∈ claimed w' t', q ∈ added ++ claimed w t

variable {alloc : Nat → Option TreeNode} {w w' w'' : PipeWorld} {t t' t'' : Shape} {q : Nat}

theorem grewRefl (added : List (Option Nat)) (w : PipeWorld) (t : Shape) : Grew added w t w t :=
  ⟨rfl,rfl,fun _ _ => rfl,id,fun _ mem => mem,fun _ mem => List.mem_append_right _ mem⟩

theorem pendingNone : pending w = [] ↔ w.pendingAdd.readPos = w.pendingAdd.writePos :=
  Base.Window.windowEmpty w.pendingOk.readLt

theorem pendingTaken : pending w.taken = (pending w).tail := (readExact w.pendingOk).2

theorem pendingFront {rest : List Nat} (front : pending w = q :: rest) :
    w.pendingAdd.readPos ≠ w.pendingAdd.writePos ∧ w.pendingAdd.records w.pendingAdd.readPos = q := by
  have some : w.pendingAdd.readPos ≠ w.pendingAdd.writePos := by
    rw [ne_eq,← pendingNone,front]
    exact List.cons_ne_nil _ _
  refine ⟨some,?_⟩
  have item := (readExact w.pendingOk).1
  rw [show live w.pendingAdd = q :: rest from front] at item
  simpa [spscQueueRead,some] using item

theorem treeAddOk (clean : CleanNodes alloc) (ok : PipeOk w t) (unknown : some q ∉ claimed w t)
    (full : contents (w.queues q) ≠ []) :
    ∃ w' t', treeAdd noAsserts alloc w q = .ok w' ∧ PipeOk w' t' ∧ w'.pendingAdd = w.pendingAdd ∧
      Grew [some q] w t w' t' := by
  cases memory : alloc w.nodes.length with
  | none =>
    have done : treeAdd noAsserts alloc w q = .ok w := by
      have some : eventQueueIsEmpty (w.queues q) = false := by
        rw [← Bool.not_eq_true,isEmptyContents]
        exact full
      simp [treeAdd,memory,eventTreeAdd,some,nodeNew,lift]
      rfl
    exact ⟨w,t,done,ok,rfl,grewRefl _ w t⟩
  | some m =>
    have new : some q ∉ names w.toWorld t := fun mem => unknown (List.mem_append_left _ mem)
    obtain ⟨s',added,t',done,tracked,outcome⟩ :=
      addSpec noAsserts ok.tracked (fun _ _ => clean _ m memory) new
    cases outcome with
    | refused empty => exact absurd empty full
    | filed front queues last entry stamp owner =>
      have perm := filedOwners ok.tracked.allocated entry last owner
      have ran : treeAdd noAsserts alloc w q = .ok {w with toWorld := s'} := by
        rw [treeAdd,memory,done]
        rfl
      have whole : (claimed {w with toWorld := s'} t').Perm (some q :: claimed w t) := perm.append_right _
      refine ⟨{w with toWorld := s'},t',ran,⟨tracked,ok.storage,?_,fun p mem => ?_⟩,rfl,queues,last,fun a parked => ?_,
        fun _ => filedLinked entry,fun x mem => perm.mem_iff.mpr (List.mem_cons_of_mem _ mem),
        fun x mem => whole.mem_iff.mp mem⟩
      · exact whole.nodup_iff.mpr (List.nodup_cons.mpr ⟨unknown,ok.separate⟩)
      · rw [show ({w with toWorld := s'} : PipeWorld).queues = w.queues from queues]
        exact ok.waiting p mem
      · have inside := ok.tracked.allocated a (by simp [held,parked])
        exact (congrFun owner a).trans (Function.update_of_ne inside.ne ..)

theorem takenOk {rest : List Nat} (ok : PipeOk w t) (front : pending w = q :: rest) :
    PipeOk w.taken t ∧ some q ∉ claimed w.taken t ∧ contents (w.queues q) ≠ [] := by
  have tail : pending w.taken = rest := pendingTaken.trans (congrArg List.tail front)
  have separate := ok.separate
  rw [claimed,front,List.map_cons] at separate
  have front' : (names w.toWorld t ++ some q :: rest.map some).Perm (some q :: (names w.toWorld t ++ rest.map some)) :=
    List.perm_middle
  have moved := front'.nodup_iff.mp separate
  have same : claimed w.taken t = names w.toWorld t ++ rest.map some := by rw [claimed,tail]; rfl
  refine ⟨⟨ok.tracked,ok.storage,?_,fun p mem => ?_⟩,?_,?_⟩
  · rw [same]
    exact (List.nodup_cons.mp moved).2
  · rw [tail] at mem
    exact ok.waiting p (front ▸ List.mem_cons_of_mem _ mem)
  · rw [same]
    exact (List.nodup_cons.mp moved).1
  · exact ok.waiting q (front ▸ List.mem_cons_self)

theorem takenGrew {rest : List Nat} (front : pending w = q :: rest) (grew : Grew [some q] w.taken t w' t') :
    Grew [] w t w' t' := by
  refine ⟨grew.queues,grew.last,grew.parked,grew.linked,grew.keeps,fun x mem => ?_⟩
  have tail : pending w.taken = rest := pendingTaken.trans (congrArg List.tail front)
  have known := grew.origin x mem
  rw [claimed,tail] at known
  rw [List.nil_append,claimed,front,List.map_cons]
  exact List.perm_middle.mem_iff.mpr known

theorem grewTrans (first : Grew [] w t w' t') (later : Grew [] w' t' w'' t'') : Grew [] w t w'' t'' := by
  refine ⟨later.queues.trans first.queues,later.last.trans first.last,fun a parked => ?_,
    fun linked => later.linked (first.linked linked),fun q mem => later.keeps q (first.keeps q mem),
    fun q mem => first.origin q (later.origin q mem)⟩
  exact (later.parked a (first.last.trans parked)).trans (first.parked a parked)

theorem drainOk (clean : CleanNodes alloc) (ok : PipeOk w t) {fuel : Nat} (enough : (pending w).length < fuel) :
    ∃ w' t', processPendingAdd noAsserts alloc fuel w = .ok w' ∧ PipeOk w' t' ∧ pending w' = [] ∧
      Grew [] w t w' t' := by
  induction fuel generalizing w t with
  | zero => exact absurd enough (Nat.not_lt_zero _)
  | succ fuel ih =>
    cases front : pending w with
    | nil =>
      exact ⟨w,t,processNone (pendingNone.mp front),ok,front,grewRefl [] w t⟩
    | cons q rest =>
      obtain ⟨some,item⟩ := pendingFront front
      obtain ⟨ok₁,unknown,full⟩ := takenOk ok front
      obtain ⟨w₁,t₁,added,ok₂,ring,grew⟩ := treeAddOk clean ok₁ unknown full
      have short : (pending w₁).length < fuel := by
        rw [pending,ring,← pending,pendingTaken,front]
        rw [front,List.length_cons] at enough
        simpa using enough
      obtain ⟨w',t',rest',ok',none,grew'⟩ := ih ok₂ short
      refine ⟨w',t',?_,ok',none,grewTrans (takenGrew front grew) grew'⟩
      rw [processTake some ok.storage,item,okBind added]
      exact rest'

theorem drainFuel (w : PipeWorld) : (pending w).length < w.pendingAdd.capacity := liveLength w.pendingOk

def Parked (w : PipeWorld) : Prop :=
  ∃ a q, w.last = some a ∧ queueOf w.toWorld a = some q ∧ contents (w.queues q) = []

theorem pipeOkWorld (ok : PipeOk w t) {s : World} (tracked : Tracked s t')
    (same : (names s t').Perm (names w.toWorld t))
    (queues : s.queues = w.queues) : PipeOk {w with toWorld := s} t' := by
  refine ⟨tracked,ok.storage,(same.append_right _).nodup_iff.mpr ok.separate,fun p mem => ?_⟩
  rw [show ({w with toWorld := s} : PipeWorld).queues = w.queues from queues]
  exact ok.waiting p mem

theorem performIsEmpty {s s' : World} {empty : Bool} {asserts : Assertion → Bool}
    (ran : perform asserts ⟨s,false⟩ .isEmpty = .ok (.isEmpty empty,⟨s',!empty⟩)) :
    eventTreeIsEmpty asserts s = .ok (s',empty) := by
  simp only [perform] at ran
  split at ran <;> cases ran
  assumption

theorem performRead {s s' : World} {q : Nat} {popped returned : Event} {asserts : Assertion → Bool}
    (ran : perform asserts ⟨s,true⟩ .read = .ok (.read q popped returned,⟨s',false⟩)) :
    eventTreeRead asserts s = .ok (s',some returned) := by
  simp only [perform,if_true] at ran
  split at ran <;> try cases ran
  split at ran <;> cases ran
  assumption

theorem checkedNone {s s' : World} (checked : Checked s t s' true t') : (t = leaf ∧ s.last = none) ∨
    ∃ a n, s.last = some a ∧ s.nodes[a]? = some n ∧ contents (s.queues n.queue) = [] := by
  generalize told : true = empty at checked
  cases checked with
  | bare root last => exact .inl ⟨root,last⟩
  | drained last node front => exact .inr ⟨_,_,last,node,front⟩
  | ready root last => cases told
  | refiled last node front keeps => cases told

theorem pipeIsEmptyOk (clean : CleanNodes alloc) (ok : PipeOk w t) :
    ∃ w' t' empty, eventPipeIsEmpty noAsserts alloc w = .ok (w',empty) ∧ PipeOk w' t' ∧ w'.queues = w.queues ∧
      (∀ q ∈ claimed w' t', q ∈ claimed w t) ∧ (empty = false → w'.last = none ∧ t' ≠ leaf) ∧
      (empty = true → Parked w ∨ names w.toWorld t = []) := by
  obtain ⟨w₁,t₁,drained,ok₁,_,grew⟩ := drainOk clean ok (drainFuel w)
  have sound : Sound ⟨w₁.toWorld,false⟩ t₁ := ⟨ok₁.tracked,nofun⟩
  obtain ⟨empty,s,t₂,ran,sound',checked,perm⟩ := soundIsEmpty noAsserts sound
  have asked := performIsEmpty ran
  have done : eventPipeIsEmpty noAsserts alloc w = .ok ({w₁ with toWorld := s},empty) := by
    rw [eventPipeIsEmpty,okBind drained,asked]
    rfl
  have queues : s.queues = w₁.queues := by
    cases checked with
    | refiled last node front keeps => exact keeps.queues
    | _ => rfl
  have ok₂ := pipeOkWorld ok₁ sound'.tracked perm queues
  refine ⟨_,t₂,empty,done,ok₂,queues.trans grew.queues,fun q mem => ?_,fun some => ?_,fun told => ?_⟩
  · exact grew.origin q (((perm.append_right _).mem_iff).mp mem)
  · exact sound'.guard (by rw [some]; rfl)
  · rw [told] at checked
    rcases checkedNone checked with ⟨root,last⟩ | ⟨a,n,last,node,front⟩
    · refine .inr (List.eq_nil_iff_forall_not_mem.mpr (fun q mem => ?_))
      have kept := grew.keeps q mem
      rw [names,held,root,show w₁.last = none from last] at kept
      simp at kept
    · have last : w₁.last = some a := last
      have parked : w.last = some a := grew.last.symm.trans last
      refine .inl ⟨a,n.queue,parked,(grew.parked a parked).symm.trans (queueOfNode node),?_⟩
      rw [← grew.queues]
      exact front

theorem pipeReadOk (clean : CleanNodes alloc) (ok : PipeOk w t) (unparked : w.last = none) (linked : t ≠ leaf) :
    ∃ w' t' e q, eventPipeRead noAsserts alloc w = .ok (w',some e) ∧ PipeOk w' t' ∧ some q ∈ claimed w t ∧
      w'.queues = Function.update w.queues q (eventQueuePop (w.queues q)).1 ∧
      ∀ q ∈ claimed w' t', q ∈ claimed w t := by
  obtain ⟨w₁,t₁,drained,ok₁,none,grew⟩ := drainOk clean ok (drainFuel w)
  have sound : Sound ⟨w₁.toWorld,true⟩ t₁ := ⟨ok₁.tracked,fun _ => ⟨grew.last.trans unparked,grew.linked linked⟩⟩
  have off : noAsserts .readLast = false := rfl
  obtain ⟨a,n,e,rest,s,t₂,returned,ran,sound',from',owners⟩ := soundRead off sound rfl
  have done : eventPipeRead noAsserts alloc w = .ok ({w₁ with toWorld := s},some returned) := by
    rw [eventPipeRead,okBind drained,performRead ran]
    rfl
  have inside (q : Option Nat) (mem : q ∈ names w₁.toWorld t₁) : q ∈ claimed w t :=
    grew.origin q (List.mem_append_left _ mem)
  have whole : claimed {w₁ with toWorld := s} t₂ = names s t₂ := by
    rw [claimed,show pending {w₁ with toWorld := s} = [] from none]
    exact List.append_nil _
  refine ⟨_,t₂,returned,n.queue,done,⟨sound'.tracked,ok₁.storage,?_,fun p mem => ?_⟩,inside _ ?_,?_,fun q mem => ?_⟩
  · rw [whole]
    exact sound'.tracked.separate
  · rw [show pending {w₁ with toWorld := s} = [] from none] at mem
    cases mem
  · obtain ⟨k,t',first,_⟩ := from'.first
    rw [names,held,takeFirstItems first]
    exact List.mem_map.mpr ⟨a,by simp,queueOfNode from'.node⟩
  · rw [← grew.queues]
    exact from'.queues
  · rw [whole] at mem
    rcases ownersOrigin owners mem with mem | mem
    · exact inside q mem
    · cases mem

end Qtl.PipeTracked
