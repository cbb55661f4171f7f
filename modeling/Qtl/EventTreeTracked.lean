import Qtl.EventTreeRead

/-! The invariant of an event tree in use, and what each operation does to it: a
represented tree whose linked queues are all non-empty, at most one more node parked
in `last`, and no queue held twice. -/
namespace Qtl.EventTreeTracked
open Queue EventTree EventTreeShape EventTreeRebalance EventTreeRead
open Base (ChainTree)
open Base.ChainTree Base.StableOrder

def queueOf (s : World) (a : Nat) : Option Nat := s.nodes[a]?.map TreeNode.queue

def held (s : World) (t : Shape) : List Nat := t.items ++ s.last.toList

structure Tracked (s : World) (t : Shape) : Prop where
  rep : RepTree s.nodes s.root t
  ordered : t.Ordered
  allocated : ∀ a ∈ held s t, a < s.nodes.length
  separate : ((held s t).map (queueOf s)).Nodup
  ready : ∀ a ∈ t.items, ∀ n, s.nodes[a]? = some n → contents (s.queues n.queue) ≠ []

variable {asserts : Assertion → Bool} {s s' : World} {t t' : Shape} {a b : Nat} {n : TreeNode}

theorem queueOfNode (h : s.nodes[a]? = some n) : queueOf s a = some n.queue := by
  rw [queueOf,h]; rfl

theorem nodeOf {q : Nat} (h : queueOf s a = some q) : ∃ n, s.nodes[a]? = some n ∧ n.queue = q :=
  Option.map_eq_some_iff.mp h

theorem trackedNodup (tracked : Tracked s t) : (held s t).Nodup := tracked.separate.of_map

theorem trackedItems (tracked : Tracked s t) : t.items.Nodup :=
  (List.nodup_append.mp (trackedNodup tracked)).1

theorem trackedParked (tracked : Tracked s t) (parked : s.last = some a) :
    a ∉ t.items ∧ ∃ n, s.nodes[a]? = some n := by
  have nodup := trackedNodup tracked
  have inside := tracked.allocated a (by simp [held,parked])
  simp only [held,parked,Option.toList_some,List.nodup_append] at nodup
  refine ⟨fun mem => nodup.2.2 a mem a List.mem_cons_self rfl,s.nodes[a],?_⟩
  exact List.getElem?_eq_getElem inside

theorem heldUnique (tracked : Tracked s t) (ha : a ∈ held s t) (hb : b ∈ held s t)
    (same : queueOf s a = queueOf s b) : a = b :=
  List.inj_on_of_nodup_map tracked.separate ha hb same

theorem emptyTracked (root : s.root = none) (last : s.last = none) : Tracked s leaf :=
  ⟨root,trivial,by simp [held,last],by simp [held,last],by simp⟩

theorem trackedQueues (tracked : Tracked s t) {queues : Nat → EventQueue}
    (grown : ∀ a ∈ t.items, ∀ n, s.nodes[a]? = some n → contents (queues n.queue) ≠ []) :
    Tracked {s with queues := queues} t :=
  ⟨tracked.rep,tracked.ordered,tracked.allocated,tracked.separate,grown⟩

section Insertion
variable {moved : Nat → Prop} {e : Event} {rest : List Event}

theorem fileSpec (asserts : Assertion → Bool) (last : Option Nat) (rep : RepTree s.nodes s.root t)
    (ordered : t.Ordered) (new : a ∉ t.items) (ha : s.nodes[a]? = some n)
    (front : contents (s.queues n.queue) = e :: rest)
    (parked : ∀ b, last = some b → b < s.nodes.length)
    (separate : ((a :: (t.items ++ last.toList)).map (queueOf s)).Nodup)
    (ready : ∀ b ∈ t.items, ∀ m, s.nodes[b]? = some m → contents (s.queues m.queue) ≠ []) :
    ∃ s', eventTreeRebalance asserts s (some a) = .ok s' ∧ KeepsBut (some a) s s' ∧
      Tracked {s' with last := last} (t.insert e.timestamp a) := by
  have nodup : t.items.Nodup :=
    (List.nodup_append.mp (List.nodup_cons.mp separate.of_map).2).1
  obtain ⟨s',done,linked,_⟩ := rebalanceSpec asserts rep nodup ha new front
  have keeps := rebalanceKeeps done
  have perm := insertItems ordered e.timestamp a
  have names : queueOf {s' with last := last} = queueOf s := funext keeps.queue
  refine ⟨s',done,keeps,linked,insertOrdered ordered _ _,?_,?_,?_⟩
  · intro b mem
    rw [show _ = s'.nodes.length from rfl,keeps.size]
    rcases List.mem_append.mp mem with mem | mem
    · rcases List.mem_cons.mp (perm.mem_iff.mp mem) with rfl | mem
      · exact (List.getElem?_eq_some_iff.mp ha).1
      · exact repAllocated rep mem
    · exact parked b (Option.mem_toList.mp mem)
  · rw [names]
    exact ((perm.append_right last.toList).map _).nodup_iff.mpr separate
  · intro b mem m hm
    obtain ⟨m',hm',same⟩ := keepsNode keeps hm
    rw [show _ = s'.queues m.queue from rfl,keeps.queues,← same]
    rcases List.mem_cons.mp (perm.mem_iff.mp mem) with rfl | mem
    · cases Option.some.inj (ha.symm.trans hm')
      rw [front]
      exact List.cons_ne_nil _ _
    · exact ready b mem m' hm'

end Insertion

inductive Checked (s : World) (t : Shape) : World → Bool → Shape → Prop where
  | bare (root : t = leaf) (last : s.last = none) : Checked s t s true t
  | ready (root : t ≠ leaf) (last : s.last = none) : Checked s t s false t
  | drained {a : Nat} {n : TreeNode} (last : s.last = some a) (node : s.nodes[a]? = some n)
      (empty : contents (s.queues n.queue) = []) : Checked s t s true t
  | refiled {a : Nat} {n : TreeNode} {e rest} {s' : World} (last : s.last = some a) (node : s.nodes[a]? = some n)
      (front : contents (s.queues n.queue) = e :: rest) (keeps : KeepsBut (some a) s s') :
      Checked s t {s' with last := none} false (t.insert e.timestamp a)

theorem isEmptySpec (asserts : Assertion → Bool) (tracked : Tracked s t) :
    ∃ s' empty t', eventTreeIsEmpty asserts s = .ok (s',empty) ∧ Tracked s' t' ∧
      Checked s t s' empty t' := by
  cases last : s.last with
  | none =>
    by_cases root : t = leaf
    · refine ⟨s,true,t,?_,tracked,.bare root last⟩
      simp [eventTreeIsEmpty,last,(repRoot tracked.rep).mpr root]
    · refine ⟨s,false,t,?_,tracked,.ready root last⟩
      have linked : s.root ≠ none := fun h => root ((repRoot tracked.rep).mp h)
      simp [eventTreeIsEmpty,last,linked]
  | some a =>
    obtain ⟨new,n,ha⟩ := trackedParked tracked last
    have entered : eventTreeIsEmpty asserts s = (do
        let l ← s.load (some a)
        if eventQueueIsEmpty (s.queues l.queue) then .ok (s,true)
        else do
          let s ← eventTreeRebalance asserts s (some a)
          .ok ({s with last := none},false)) := by
      simp [eventTreeIsEmpty,last]
    rw [entered,okBind (loadSome ha)]
    cases front : contents (s.queues n.queue) with
    | nil =>
      rw [if_pos ((isEmptyContents _).mpr front)]
      exact ⟨s,true,t,rfl,tracked,.drained last ha front⟩
    | cons e rest =>
      rw [if_neg (by rw [isEmptyCons front]; exact Bool.false_ne_true)]
      have separate : ((a :: (t.items ++ (none : Option Nat).toList)).map (queueOf s)).Nodup := by
        have all := tracked.separate
        rw [held,last,Option.toList_some] at all
        rw [Option.toList_none,List.append_nil]
        exact ((List.perm_append_singleton a t.items).map _).nodup_iff.mp all
      obtain ⟨s',done,keeps,filed⟩ := fileSpec asserts none tracked.rep tracked.ordered
        new ha front nofun separate tracked.ready
      exact ⟨_,false,_,okBind done,filed,.refiled last ha front keeps⟩

inductive Disposed (t : Shape) (a : Nat) (e : Event) (rest : List Event) :
    Shape → Option Nat → Event → Prop where
  | closed (type : e.type = .kOnQueueClosed) :
      Disposed t a e rest t none (if t.entries.isEmpty then newOnSimulationStopEvent else e)
  | drained (type : e.type ≠ .kOnQueueClosed) (empty : rest = []) :
      Disposed t a e rest t (some a) e
  | refiled {e' rest'} (type : e.type ≠ .kOnQueueClosed) (more : rest = e' :: rest') :
      Disposed t a e rest (t.insert e'.timestamp a) none e

structure ReadFrom (s : World) (t : Shape) (a : Nat) (n : TreeNode) (e : Event) (rest : List Event)
    (s' : World) (t'' : Shape) (returned : Event) : Prop where
  first : ∃ k t', t.takeFirst = some ((k,a),t') ∧ Disposed t' a e rest t'' s'.last returned
  node : s.nodes[a]? = some n
  front : contents (s.queues n.queue) = e :: rest
  queues : s'.queues = Function.update s.queues n.queue (eventQueuePop (s.queues n.queue)).1
  names : queueOf s' = queueOf s
  size : s'.nodes.length = s.nodes.length

structure TakenOut (s : World) (a : Nat) (n : TreeNode) (s₁ : World) (t' : Shape) : Prop where
  rep : RepTree s₁.nodes s₁.root t'
  ordered : t'.Ordered
  nodup : t'.items.Nodup
  new : a ∉ t'.items
  node : ∃ m, s₁.nodes[a]? = some m ∧ m.queue = n.queue
  separate : ((a :: t'.items).map (queueOf s₁)).Nodup
  ready : ∀ b ∈ t'.items, ∀ m, s₁.nodes[b]? = some m →
    m.queue ≠ n.queue ∧ contents (s₁.queues m.queue) ≠ []
  queues : s₁.queues = s.queues
  last : s₁.last = s.last
  names : queueOf s₁ = queueOf s
  size : s₁.nodes.length = s.nodes.length

theorem takeOut (tracked : Tracked s t) {k : Nat} (first : t.takeFirst = some ((k,a),t')) :
    ∃ s₁ n, takeCurrent s = .ok (s₁,some a) ∧ s.nodes[a]? = some n ∧ TakenOut s a n s₁ t' := by
  obtain ⟨s₁,done,rep,_,keeps⟩ := takeCurrentSpec tracked.rep (trackedItems tracked) first
  have items := takeFirstItems first
  have nodup : (a :: t'.items).Nodup := items ▸ trackedItems tracked
  have names : queueOf s₁ = queueOf s := funext keeps.queue
  have inside : a < s.nodes.length := repAllocated tracked.rep (by simp [items])
  have separate : ((a :: t'.items).map (queueOf s)).Nodup := by
    have all := tracked.separate
    rw [held,items,List.map_append] at all
    exact (List.nodup_append.mp all).1
  have ha : s.nodes[a]? = some s.nodes[a] := List.getElem?_eq_getElem inside
  refine ⟨s₁,s.nodes[a],done,ha,rep,takeFirstOrdered tracked.ordered first,
    (List.nodup_cons.mp nodup).2,(List.nodup_cons.mp nodup).1,?_,names ▸ separate,?_,
    keeps.queues,keeps.last,names,keeps.size⟩
  · exact nodeOf ((keeps.queue a).trans (queueOfNode ha))
  · intro b mem m hm
    obtain ⟨m',hm',same⟩ := keepsNode keeps hm
    rw [keeps.queues,← same]
    refine ⟨fun equal => ?_,tracked.ready b (by simp [items,mem]) m' hm'⟩
    refine (List.nodup_cons.mp separate).1 (List.mem_map.mpr ⟨b,mem,?_⟩)
    rw [queueOfNode hm',queueOfNode ha,equal]

section Deliver
variable {e : Event} {rest : List Event} {s₁ : World}

def drawn (s s₁ : World) (n : TreeNode) : World := s₁.setQueue n.queue (eventQueuePop (s.queues n.queue)).1

theorem drawnOwn (s s₁ : World) (n : TreeNode) :
    (drawn s s₁ n).queues n.queue = (eventQueuePop (s.queues n.queue)).1 := Function.update_self ..

theorem drawnQueues (queues : s₁.queues = s.queues) :
    (drawn s s₁ n).queues = Function.update s.queues n.queue (eventQueuePop (s.queues n.queue)).1 := by
  rw [drawn,World.setQueue,queues]

theorem drawnReady (out : TakenOut s a n s₁ t') : ∀ b ∈ t'.items, ∀ m, (drawn s s₁ n).nodes[b]? = some m →
    contents ((drawn s s₁ n).queues m.queue) ≠ [] := by
  intro b mem m hm
  obtain ⟨other,full⟩ := out.ready b mem m hm
  rw [show (drawn s s₁ n).queues m.queue = s₁.queues m.queue from Function.update_of_ne other ..]
  exact full

theorem deliverCases (asserts : Assertion → Bool) (rep : RepTree s₁.nodes s₁.root t') {m : TreeNode}
    (here : s₁.nodes[a]? = some m) (name : m.queue = n.queue) (queues : s₁.queues = s.queues)
    (front : contents (s.queues n.queue) = e :: rest) :
    (e.type = .kOnQueueClosed ∧ deliver asserts s₁ (some a) =
      .ok (drawn s s₁ n,some (if t'.entries.isEmpty then newOnSimulationStopEvent else e))) ∨
    (e.type ≠ .kOnQueueClosed ∧ rest = [] ∧
      deliver asserts s₁ (some a) = .ok ({drawn s s₁ n with last := some a},some e)) ∨
    (e.type ≠ .kOnQueueClosed ∧ ∃ e' rest', rest = e' :: rest' ∧
      contents ((drawn s s₁ n).queues n.queue) = e' :: rest' ∧ deliver asserts s₁ (some a) =
        eventTreeRebalance asserts (drawn s s₁ n) (some a) >>= fun s => .ok (s,some e)) := by
  obtain ⟨taken,remaining⟩ := popFront front
  rw [← drawnOwn s s₁ n] at remaining
  have pop : eventQueuePop (s.queues n.queue) = ((eventQueuePop (s.queues n.queue)).1,some e) := by rw [← taken]
  have entered : deliver asserts s₁ (some a) =
      (if e.type = .kOnQueueClosed then
        .ok (drawn s s₁ n,some (if s₁.root.isNone then newOnSimulationStopEvent else e))
      else if eventQueueIsEmpty ((drawn s s₁ n).queues n.queue) then .ok ({drawn s s₁ n with last := some a},some e)
      else eventTreeRebalance asserts (drawn s s₁ n) (some a) >>= fun s => .ok (s,some e)) := by
    rw [deliver,okBind (loadSome here),name,queues,pop]
    rfl
  rw [entered]
  by_cases type : e.type = .kOnQueueClosed
  · have rootless : s₁.root.isNone = t'.entries.isEmpty := by
      rw [Bool.eq_iff_iff,Option.isNone_iff_eq_none,List.isEmpty_iff,entriesNil]
      exact repRoot rep
    exact .inl ⟨type,by rw [if_pos type,rootless]⟩
  · rw [if_neg type]
    cases rest with
    | nil => exact .inr (.inl ⟨type,rfl,if_pos ((isEmptyContents _).mpr remaining)⟩)
    | cons e' rest =>
      refine .inr (.inr ⟨type,e',rest,rfl,remaining,if_neg ?_⟩)
      rw [isEmptyCons remaining]
      exact Bool.false_ne_true

theorem closedTracked (out : TakenOut s a n s₁ t') (unset : s₁.last = none) : Tracked (drawn s s₁ n) t' := by
  have same : held (drawn s s₁ n) t' = t'.items := by simp [held,drawn,World.setQueue,unset]
  refine ⟨out.rep,out.ordered,?_,?_,drawnReady out⟩
  · rw [same]
    exact fun b mem => repAllocated out.rep mem
  · rw [same]
    exact (List.nodup_cons.mp out.separate).2

theorem drainedTracked (out : TakenOut s a n s₁ t') : Tracked {drawn s s₁ n with last := some a} t' := by
  obtain ⟨m,hm,_⟩ := out.node
  refine ⟨out.rep,out.ordered,?_,?_,drawnReady out⟩
  · intro b mem
    rcases List.mem_append.mp mem with mem | mem
    · exact repAllocated out.rep mem
    · cases List.mem_singleton.mp mem
      exact (List.getElem?_eq_some_iff.mp hm).1
  · exact ((List.perm_append_singleton a t'.items).map _).nodup_iff.mpr out.separate

theorem refiledSpec (asserts : Assertion → Bool) {e' : Event} (out : TakenOut s a n s₁ t') (unset : s₁.last = none)
    (remaining : contents ((drawn s s₁ n).queues n.queue) = e' :: rest) :
    ∃ s', eventTreeRebalance asserts (drawn s s₁ n) (some a) = .ok s' ∧ KeepsBut (some a) (drawn s s₁ n) s' ∧
      s'.last = none ∧ Tracked s' (t'.insert e'.timestamp a) := by
  obtain ⟨m,hm,name⟩ := out.node
  have front : contents ((drawn s s₁ n).queues m.queue) = e' :: rest := by rw [name,remaining]
  have separate : ((a :: (t'.items ++ (none : Option Nat).toList)).map (queueOf (drawn s s₁ n))).Nodup := by
    rw [Option.toList_none,List.append_nil]
    exact out.separate
  have here : (drawn s s₁ n).nodes[a]? = some m := hm
  obtain ⟨s',done,keeps,filed⟩ := fileSpec asserts none (s := drawn s s₁ n) out.rep out.ordered out.new here front nofun separate
    (drawnReady out)
  have last : s'.last = none := keeps.last.trans unset
  rw [← last] at filed
  exact ⟨s',done,keeps,last,filed⟩

theorem deliverSpec (asserts : Assertion → Bool) (out : TakenOut s a n s₁ t') (unparked : s.last = none)
    (front : contents (s.queues n.queue) = e :: rest) :
    ∃ s' t'' returned, deliver asserts s₁ (some a) = .ok (s',some returned) ∧ Tracked s' t'' ∧
      Disposed t' a e rest t'' s'.last returned ∧
      s'.queues = Function.update s.queues n.queue (eventQueuePop (s.queues n.queue)).1 ∧
      queueOf s' = queueOf s ∧ s'.nodes.length = s.nodes.length := by
  have unset : s₁.last = none := out.last.trans unparked
  have drawing := drawnQueues (n := n) out.queues
  obtain ⟨m,here,name⟩ := out.node
  rcases deliverCases asserts out.rep here name out.queues front with
    ⟨type,done⟩ | ⟨type,empty,done⟩ | ⟨type,e',rest',more,remaining,done⟩
  · refine ⟨drawn s s₁ n,t',_,done,closedTracked out unset,?_,drawing,out.names,out.size⟩
    rw [show (drawn s s₁ n).last = none from unset]
    exact .closed type
  · exact ⟨_,t',e,done,drainedTracked out,.drained type empty,drawing,out.names,out.size⟩
  · obtain ⟨s',filed,keeps,last,tracked⟩ := refiledSpec asserts out unset remaining
    refine ⟨s',t'.insert e'.timestamp a,e,done.trans (okBind filed),tracked,?_,keeps.queues.trans drawing,?_,?_⟩
    · rw [last]
      exact .refiled type more
    · exact (funext keeps.queue : queueOf s' = queueOf (drawn s s₁ n)).trans out.names
    · exact keeps.size.trans out.size

end Deliver

def Initialised (m : TreeNode) : Prop := m.left = none ∧ m.right = none ∧ m.prev = none

instance (m : TreeNode) : Decidable (Initialised m) := by unfold Initialised; infer_instance

def names (s : World) (t : Shape) : List (Option Nat) := (held s t).map (queueOf s)

/-- event_tree_add: an empty queue is refused, another gets the next node. The time it
is filed under is the queue's, or at an empty root the one malloc left in the node. -/
inductive Added (s : World) (t : Shape) (m : TreeNode) (q : Nat) : World → Bool → Shape → Prop where
  | refused (empty : contents (s.queues q) = []) : Added s t m q s false t
  | filed {s' : World} {t' : Shape} {time : Nat} {e : Event} {rest : List Event}
      (front : contents (s.queues q) = e :: rest) (queues : s'.queues = s.queues) (last : s'.last = s.last)
      (entry : t'.entries = enter (time,s.nodes.length) t.entries)
      (stamp : time = if s.root = none then m.timestamp else e.timestamp)
      (owner : queueOf s' = Function.update (queueOf s) s.nodes.length (some q)) :
      Added s t m q s' true t'

section Grown
variable {m : TreeNode} {q : Nat}

def newNode (s : World) (m : TreeNode) (q : Nat) : TreeNode := {m with queue := q, head := some s.nodes.length}

def grown (s : World) (m : TreeNode) (q : Nat) : World := {s with nodes := s.nodes ++ [newNode s m q]}

theorem grownNew : (grown s m q).nodes[s.nodes.length]? = some (newNode s m q) := by simp [grown]

theorem grownOld (inside : b < s.nodes.length) : (grown s m q).nodes[b]? = s.nodes[b]? :=
  List.getElem?_append_left inside

theorem grownOwner : queueOf (grown s m q) = Function.update (queueOf s) s.nodes.length (some q) := by
  funext b
  rcases lt_trichotomy b s.nodes.length with less | rfl | greater
  · rw [Function.update_of_ne less.ne,queueOf,grownOld less,queueOf]
  · rw [Function.update_self,queueOfNode grownNew]
    rfl
  · have beyond : s.nodes[b]? = none := List.getElem?_eq_none greater.le
    have beyond' : (grown s m q).nodes[b]? = none := List.getElem?_eq_none (by simp [grown]; omega)
    rw [Function.update_of_ne greater.ne',queueOf,beyond',queueOf,beyond]

theorem grownRep (rep : RepTree s.nodes s.root t) : RepTree (grown s m q).nodes s.root t :=
  repFrame (fun _ mem => grownOld (repAllocated rep mem)) rep

theorem grownParked (tracked : Tracked s t) (last : s.last = some b) : b < (grown s m q).nodes.length := by
  have inside := tracked.allocated b (by simp [held,last])
  simp only [grown,List.length_append]
  omega

theorem grownSeparate (tracked : Tracked s t) (unknown : some q ∉ names s t) :
    ((s.nodes.length :: (t.items ++ s.last.toList)).map (queueOf (grown s m q))).Nodup := by
  have kept : (held s t).map (queueOf (grown s m q)) = names s t := by
    refine List.map_congr_left (fun b mem => ?_)
    rw [grownOwner,Function.update_of_ne (tracked.allocated b mem).ne]
  rw [List.map_cons,← held,kept,grownOwner,Function.update_self]
  exact List.nodup_cons.mpr ⟨unknown,tracked.separate⟩

theorem grownReady (tracked : Tracked s t) : ∀ b ∈ t.items, ∀ n, (grown s m q).nodes[b]? = some n →
    contents ((grown s m q).queues n.queue) ≠ [] := by
  intro b mem n hn
  rw [grownOld (repAllocated tracked.rep mem)] at hn
  exact tracked.ready b mem n hn

theorem plantedRep (initialised : Initialised m) :
    RepTree (grown s m q).nodes (some s.nodes.length) (ChainTree.node leaf m.timestamp [] s.nodes.length leaf) := by
  obtain ⟨left,right,prev⟩ := initialised
  exact ⟨rfl,⟨⟨newNode s m q,grownNew,rfl,prev,by simp⟩,trivial⟩,newNode s m q,grownNew,rfl,left,right⟩

theorem plantedTracked (tracked : Tracked s leaf) (initialised : Initialised m) (unknown : some q ∉ names s leaf)
    (full : contents (s.queues q) ≠ []) : Tracked {grown s m q with root := some s.nodes.length}
      (ChainTree.node leaf m.timestamp [] s.nodes.length leaf) := by
  have planted : RepTree (grown s m q).nodes (some s.nodes.length) _ := plantedRep initialised
  refine ⟨planted,⟨trivial,trivial,by simp [entries],by simp [entries]⟩,?_,grownSeparate tracked unknown,?_⟩
  · intro b mem
    rcases List.mem_append.mp mem with mem | mem
    · exact repAllocated planted mem
    · exact grownParked tracked (Option.mem_toList.mp mem)
  · intro b mem n hn
    have same : b = s.nodes.length := by simpa using mem
    subst same
    cases Option.some.inj (grownNew.symm.trans hn)
    exact full

theorem addSpec (asserts : Assertion → Bool) (tracked : Tracked s t) {m : TreeNode} {q : Nat}
    (initialised : contents (s.queues q) ≠ [] → s.root = none → Initialised m) (unknown : some q ∉ names s t) :
    ∃ s' added t', eventTreeAdd asserts s (some m) q = .ok (s',added) ∧ Tracked s' t' ∧
      Added s t m q s' added t' := by
  cases front : contents (s.queues q) with
  | nil =>
    refine ⟨s,false,t,?_,tracked,.refused front⟩
    rw [eventTreeAdd,if_pos ((isEmptyContents _).mpr front)]
  | cons e rest =>
    have full : contents (s.queues q) ≠ [] := by rw [front]; exact List.cons_ne_nil _ _
    have entered : eventTreeAdd asserts s (some m) q =
        (if s.root.isNone then .ok ({grown s m q with root := some s.nodes.length},true)
        else do
          let s ← eventTreeRebalance asserts (grown s m q) (some s.nodes.length)
          .ok (s,true)) := by
      rw [eventTreeAdd,if_neg (by rw [isEmptyCons front]; exact Bool.false_ne_true)]
      rfl
    rw [entered]
    cases root : s.root with
    | none =>
      have empty : t = leaf := (repRoot tracked.rep).mp root
      subst empty
      rw [if_pos Option.isNone_none]
      exact ⟨_,true,_,rfl,plantedTracked tracked (initialised full root) unknown full,
        .filed front rfl rfl rfl (by rw [if_pos root]) grownOwner⟩
    | some c =>
      rw [if_neg (by simp)]
      have new : s.nodes.length ∉ t.items := fun mem => (repAllocated tracked.rep mem).ne rfl
      have front' : contents ((grown s m q).queues (newNode s m q).queue) = e :: rest := front
      obtain ⟨s',done,keeps,filed⟩ := fileSpec asserts s.last (grownRep tracked.rep) tracked.ordered new grownNew
        front' (fun _ => grownParked tracked) (grownSeparate tracked unknown) (grownReady tracked)
      have last : s'.last = s.last := keeps.last
      rw [← last] at filed
      refine ⟨s',true,_,okBind done,filed,.filed front keeps.queues last
        (insertEntries tracked.ordered _ _) (by rw [if_neg (by simp [root])]) ?_⟩
      exact (funext keeps.queue : queueOf s' = queueOf (grown s m q)).trans grownOwner

end Grown

theorem filedOwners {time q : Nat} (inside : ∀ b ∈ held s t, b < s.nodes.length)
    (entry : t'.entries = enter (time,s.nodes.length) t.entries) (last : s'.last = s.last)
    (owner : queueOf s' = Function.update (queueOf s) s.nodes.length (some q)) :
    (names s' t').Perm (some q :: names s t) := by
  have items : t'.items.Perm (s.nodes.length :: t.items) := by
    rw [ChainTree.items,entry]
    exact (enterPerm _ _).map Prod.snd
  have kept : (held s t).map (queueOf s') = names s t := by
    refine List.map_congr_left (fun b mem => ?_)
    rw [owner,Function.update_of_ne (inside b mem).ne]
  have new : queueOf s' s.nodes.length = some q := by rw [owner,Function.update_self]
  rw [← kept,← new,← List.map_cons,names,held,held,last]
  exact (items.append_right s.last.toList).map _

theorem filedLinked {time a : Nat} (entry : t'.entries = enter (time,a) t.entries) : t' ≠ leaf := by
  intro empty
  rw [empty] at entry
  exact absurd (entry ▸ (enterPerm (time,a) t.entries).length_eq) (by simp [entries])

theorem readSpec (asserts : Assertion → Bool) (tracked : Tracked s t) (linked : t ≠ leaf)
    (unparked : s.last = none) :
    ∃ s₁ a n e rest s' t'' returned, takeCurrent s = .ok (s₁,some a) ∧
      (∃ t', TakenOut s a n s₁ t') ∧ deliver asserts s₁ (some a) = .ok (s',some returned) ∧ Tracked s' t'' ∧
      ReadFrom s t a n e rest s' t'' returned := by
  obtain ⟨⟨k,a⟩,t',first⟩ := takeFirstExists linked
  obtain ⟨s₁,n,taken,ha,out⟩ := takeOut tracked first
  have some := tracked.ready a (by simp [takeFirstItems first]) n ha
  cases front : contents (s.queues n.queue) with
  | nil => exact absurd front some
  | cons e rest =>
    obtain ⟨s',t'',returned,done,tracked',disposed,queues,names,size⟩ :=
      deliverSpec asserts out unparked front
    exact ⟨s₁,a,n,e,rest,s',t'',returned,taken,⟨t',out⟩,done,tracked',
      ⟨⟨k,t',first,disposed⟩,ha,front,queues,names,size⟩⟩

end Qtl.EventTreeTracked
