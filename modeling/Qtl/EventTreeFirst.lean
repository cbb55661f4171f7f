import Qtl.EventTreeInsert
import Qtl.EventTreeMerge

/-! event_tree_read removes the first node of the reading order, pops its queue and
files it again behind its equals. Two nodes may hold one queue here; only then is the
tree left with a node whose timestamp is out of date. -/
namespace Qtl.EventTreeFirst
open Queue EventTree EventTreeShape EventTreeRebalance EventTreeRead EventTreeTracked EventTreeInsert
open EventTreeRun (noAsserts)
open EventTreeMerge (WellFormed)
open Base (ChainTree)
open Base.ChainTree Base.StableOrder

inductive Outcome (others : List (Nat × Nat)) (a : Nat) (e : Event) (rest : List Event) :
    List (Nat × Nat) → Option Nat → Event → Prop where
  | closed (type : e.type = .kOnQueueClosed) :
      Outcome others a e rest others none (if others.isEmpty then newOnSimulationStopEvent else e)
  | drained (type : e.type ≠ .kOnQueueClosed) (empty : rest = []) :
      Outcome others a e rest others (some a) e
  | refiled {e' rest' order} (type : e.type ≠ .kOnQueueClosed) (more : rest = e' :: rest')
      (behind : Entered (e'.timestamp,a) others order) : Outcome others a e rest order none e

structure ReadFirst (s : World) (t : Shape) (a : Nat) (n : TreeNode) (e : Event) (rest : List Event)
    (others : List (Nat × Nat)) (s' : World) (t' : Shape) (returned : Event) : Prop where
  first : t.entries = (e.timestamp,a) :: others
  node : s.nodes[a]? = some n
  front : contents (s.queues n.queue) = e :: rest
  outcome : Outcome others a e rest t'.entries s'.last returned
  settled : Settled a s t s' t'
  popped : contents (s'.queues n.queue) = rest
  queues : ∀ q, q ≠ n.queue → s'.queues q = s.queues q
  wellFormed : (∀ x ∈ others, queueOf s x.2 ≠ some n.queue) → WellFormed s' t'

variable {asserts : Assertion → Bool} {s s' s₁ s₂ : World} {t t' t₁ t₂ : Shape} {a : Nat} {n m : TreeNode}
  {e : Event} {rest : List Event}

theorem settledTrans (h : Settled a s t s₁ t₁) (h' : Settled a s₁ t₁ s₂ t₂) : Settled a s t s₂ t₂ where
  arranged := h'.arranged
  owners := h'.owners.trans h.owners
  times := fun b away => (h'.times b away).trans (h.times b away)
  ended := fun ended => h'.ended (h.ended ended)

theorem settledSame (arranged : Arranged s t) (nodes : s'.nodes = s.nodes) (root : s'.root = s.root) :
    Settled a s t s' t where
  arranged := ⟨by rw [nodes,root]; exact arranged.rep,arranged.ordered⟩
  owners := by funext b; rw [queueOf,queueOf,nodes]
  times := fun b _ => by rw [timeOf,timeOf,nodes]
  ended := fun ended b tip => by rw [nextOf,nodes]; exact ended b tip

theorem unlinkField {β : Type} {g : TreeNode → β} {parent current taken : Option Nat}
    (h : unlinkCurrent s parent current = .ok (s',taken)) (b : Nat) (left : ∀ n l, g {n with left := l} = g n)
    (right : ∀ n r, g {n with right := r} = g n) (prev : ∀ n p, g {n with prev := p} = g n)
    (head : ∀ n o, g {n with head := o} = g n) : s'.nodes[b]?.map g = s.nodes[b]?.map g := by
  obtain ⟨c,s₁,_,⟨_,_,h₁,h₂⟩ | ⟨_,_,h₁,h₂⟩⟩ := unlinkCases h
  · exact (storeField h₂ b fun n _ => head n _).trans (storeField h₁ b fun n _ => prev n _)
  · have bypassed : s₁.nodes[b]?.map g = s.nodes[b]?.map g := by
      cases parent with
      | none => cases h₁; rfl
      | some p =>
        simp only [bypass] at h₁
        exact storeField h₁ b fun n _ => left n _
    exact (storeField h₂ b fun n _ => right n _).trans bypassed

theorem takeSettled (arranged : Arranged s t) {k : Nat} (first : t.takeFirst = some ((k,a),t')) :
    ∃ s₁, takeCurrent s = .ok (s₁,some a) ∧ Settled a s t s₁ t' ∧ s₁.queues = s.queues ∧ s₁.last = s.last := by
  obtain ⟨s₁,done,rep,_,keeps⟩ := takeCurrentSpec arranged.rep (arrangedDistinct arranged) first
  obtain ⟨_,_,unlinked⟩ := bindOk done
  refine ⟨s₁,done,⟨⟨rep,takeFirstOrdered arranged.ordered first⟩,funext keeps.queue,?_,?_⟩,keeps.queues,keeps.last⟩
  · intro b _
    exact unlinkField unlinked b (fun _ _ => rfl) (fun _ _ => rfl) (fun _ _ => rfl) (fun _ _ => rfl)
  · intro ended b tip
    have next : nextOf s₁ b = nextOf s b :=
      unlinkField unlinked b (fun _ _ => rfl) (fun _ _ => rfl) (fun _ _ => rfl) (fun _ _ => rfl)
    exact next.trans (ended b (takeFirstTips first tip))

theorem deliverSettled (asserts : Assertion → Bool) (arranged : Arranged s₁ t₁) (new : a ∉ t₁.items)
    (here : s₁.nodes[a]? = some m) (name : m.queue = n.queue) (queues : s₁.queues = s.queues)
    (unset : s₁.last = none) (front : contents (s.queues n.queue) = e :: rest) :
    ∃ s' t' returned, deliver asserts s₁ (some a) = .ok (s',some returned) ∧ Settled a s₁ t₁ s' t' ∧
      Outcome t₁.entries a e rest t'.entries s'.last returned ∧ s'.queues = (drawn s s₁ n).queues := by
  have drawing : Settled a s₁ t₁ (drawn s s₁ n) t₁ := settledSame arranged rfl rfl
  have unset' : (drawn s s₁ n).last = none := unset
  rcases deliverCases asserts arranged.rep here name queues front with
    ⟨type,done⟩ | ⟨type,empty,done⟩ | ⟨type,e',rest',more,remaining,done⟩
  · refine ⟨drawn s s₁ n,t₁,_,done,drawing,?_,rfl⟩
    rw [unset']
    exact .closed type
  · exact ⟨_,t₁,e,done,settledSame arranged rfl rfl,.drained type empty,rfl⟩
  · have front' : contents ((drawn s s₁ n).queues m.queue) = e' :: rest' := by rw [name,remaining]
    obtain ⟨s',filed,settled,queues',last⟩ := insertSpec asserts drawing.arranged here new front'
    refine ⟨s',_,e,done.trans (okBind filed),settledTrans drawing settled,?_,queues'⟩
    rw [last,unset']
    exact .refiled type more (insertOrder arranged.ordered e'.timestamp a)

theorem outcomeEntries {others order : List (Nat × Nat)} {last : Option Nat} {returned : Event} {x : Nat × Nat}
    (outcome : Outcome others a e rest order last returned) (mem : x ∈ order) :
    x ∈ others ∨ ∃ e' rest', rest = e' :: rest' ∧ x = (e'.timestamp,a) := by
  cases outcome with
  | closed type => exact .inl mem
  | drained type empty => exact .inl mem
  | refiled type more behind =>
    obtain ⟨before,after,rfl,rfl,_,_⟩ := behind
    rcases List.mem_append.mp mem with mem | mem
    · exact .inl (List.mem_append_left _ mem)
    · rcases List.mem_cons.mp mem with rfl | mem
      · exact .inr ⟨_,_,more,rfl⟩
      · exact .inl (List.mem_append_right _ mem)

theorem outcomeParked {others order : List (Nat × Nat)} {b : Nat} {returned : Event}
    (outcome : Outcome others a e rest order (some b) returned) : b = a ∧ order = others := by
  cases outcome with
  | drained type empty => exact ⟨rfl,rfl⟩

theorem wellFormedArranged (arranged : Arranged s t)
    (timed : ∀ x ∈ t.entries, ∀ n, s.nodes[x.2]? = some n →
      ∃ e rest, contents (s.queues n.queue) = e :: rest ∧ e.timestamp = x.1)
    (parked : ∀ b, s.last = some b → b ∉ t.items ∧ b < s.nodes.length) : WellFormed s t :=
  ⟨arranged.rep,arranged.ordered,arrangedDistinct arranged,timed,parked⟩

theorem readWellFormed {others : List (Nat × Nat)} {returned : Event} (wf : WellFormed s t)
    (first : t.entries = (e.timestamp,a) :: others) (node : s.nodes[a]? = some n)
    (outcome : Outcome others a e rest t'.entries s'.last returned) (settled : Settled a s t s' t')
    (popped : contents (s'.queues n.queue) = rest) (queues : ∀ q, q ≠ n.queue → s'.queues q = s.queues q)
    (own : ∀ x ∈ others, queueOf s x.2 ≠ some n.queue) : WellFormed s' t' := by
  refine wellFormedArranged settled.arranged ?_ ?_
  · intro x mem m hm
    have owner : queueOf s x.2 = some m.queue := by rw [← settled.owners,queueOfNode hm]
    rcases outcomeEntries outcome mem with mem | ⟨e',rest',more,rfl⟩
    · obtain ⟨m',hm',same⟩ := nodeOf owner
      have away : m.queue ≠ n.queue := fun shared => own x mem (owner.trans (congrArg some shared))
      rw [queues _ away,← same]
      exact wf.timed x (first ▸ List.mem_cons_of_mem _ mem) m' hm'
    · rw [queueOfNode node] at owner
      rw [← Option.some.inj owner,popped]
      exact ⟨e',rest',more,rfl⟩
  · intro b parked
    rw [parked] at outcome
    obtain ⟨rfl,order⟩ := outcomeParked outcome
    have distinct := arrangedDistinct ⟨wf.rep,wf.ordered⟩
    rw [items,first,List.map_cons,List.nodup_cons] at distinct
    refine ⟨by rw [items,order]; exact distinct.1,?_⟩
    have owner : queueOf s' b = some n.queue := by rw [settled.owners,queueOfNode node]
    obtain ⟨m,hm,_⟩ := nodeOf owner
    exact (List.getElem?_eq_some_iff.mp hm).1

/-- event_tree_read takes the first node of the reading order, pops the front event of
its queue and files the node behind every node whose timestamp is not larger. -/
theorem readsFirst (wf : WellFormed s t) (linked : t ≠ leaf) (unparked : s.last = none) :
    ∃ a n e rest others s' t' returned, eventTreeRead noAsserts s = .ok (s',some returned) ∧
      ReadFirst s t a n e rest others s' t' returned := by
  have arranged : Arranged s t := ⟨wf.rep,wf.ordered⟩
  obtain ⟨⟨k,a⟩,t₁,found⟩ := takeFirstExists linked
  obtain ⟨s₁,taken,settled,queues,last⟩ := takeSettled arranged found
  have entries := takeFirstEntries found
  have inside : (k,a) ∈ t.entries := entries ▸ List.mem_cons_self
  obtain ⟨n,node,_⟩ := repAt wf.rep inside
  obtain ⟨e,rest,front,time⟩ := wf.timed (k,a) inside n node
  obtain ⟨m,here,name⟩ := nodeOf ((congrFun settled.owners a).trans (queueOfNode node))
  have new : a ∉ t₁.items := by
    have distinct := arrangedDistinct arranged
    rw [takeFirstItems found] at distinct
    exact (List.nodup_cons.mp distinct).1
  obtain ⟨s',t',returned,delivered,settled',outcome,drawing⟩ :=
    deliverSettled noAsserts settled.arranged new here name queues (last.trans unparked) front
  have first : t.entries = (e.timestamp,a) :: t₁.entries := by rw [entries,time]
  have whole := settledTrans settled settled'
  have popped : contents (s'.queues n.queue) = rest := by
    rw [drawing,drawnOwn]
    exact (popFront front).2
  have others (q : Nat) (away : q ≠ n.queue) : s'.queues q = s.queues q := by
    rw [drawing,drawnQueues queues,Function.update_of_ne away]
  have ran : eventTreeRead noAsserts s = .ok (s',some returned) := by
    rw [eventTreeRead,okBind (show check noAsserts .readLast _ = .ok () from rfl),okBind taken]
    exact delivered
  exact ⟨a,n,e,rest,t₁.entries,s',t',returned,ran,first,node,front,outcome,whole,popped,others,
    readWellFormed wf first node outcome whole popped others⟩

section Twins

def twins (second : Nat) : World :=
  ⟨[⟨0,5,none,none,some 1,none,some 0⟩,⟨second,5,none,none,none,some 0,some 0⟩],
    fun _ => ⟨none,⟨4,fun i => ⟨if i = 0 then 5 else 9,.kAsk,none⟩,0,2⟩,
      ⟨by simp,by simp [Spsc.uintRange],by simp,by simp⟩⟩,some 1,none⟩

def twinsShape : Shape := node leaf 5 [0] 1 leaf

theorem twinsWellFormed (second : Nat) : WellFormed (twins second) twinsShape := by
  refine wellFormedArranged ⟨?_,by simp [twinsShape,Ordered,entries]⟩ ?_ (fun _ h => by cases h)
  · exact ⟨rfl,⟨⟨_,rfl,rfl,rfl,fun b h => h ▸ rfl⟩,⟨_,rfl,rfl,rfl,fun _ h => by cases h⟩,trivial⟩,_,rfl,rfl,rfl,rfl⟩
  · intro x mem n hn
    have fronts : x = (5,0) ∨ x = (5,1) := by simpa [twinsShape,entries,bucket] using mem
    rcases fronts with rfl | rfl <;> cases hn <;> exact ⟨_,_,rfl,rfl⟩

theorem readsFirstTwins : ∃ a n e rest others s' t' returned,
    eventTreeRead noAsserts (twins 1) = .ok (s',some returned) ∧
      ReadFirst (twins 1) twinsShape a n e rest others s' t' returned :=
  readsFirst (twinsWellFormed 1) (fun h => by cases h) rfl

/-- Where both hold queue 0, the node that stays is still filed at 5 when the front event
of its queue has become the one at 9. -/
theorem twinOutOfDate : WellFormed (twins 0) twinsShape ∧ (twins 0).last = none ∧
    ∃ s' e, eventTreeRead noAsserts (twins 0) = .ok (s',some e) ∧ ∀ t', ¬ WellFormed s' t' := by
  refine ⟨twinsWellFormed 0,rfl,?_⟩
  have played : (eventTreeRead noAsserts (twins 0)).toOption.map
      (fun r => (r.1.root,r.1.nodes[1]?,contents (r.1.queues 0),r.2)) =
      some (some 1,some ⟨0,5,none,some 0,none,none,some 1⟩,[⟨9,.kAsk,none⟩],some ⟨5,.kAsk,none⟩) := by
    decide +kernel
  obtain ⟨⟨s',returned⟩,outcome,seen⟩ := Option.map_eq_some_iff.mp played
  simp only [Prod.mk.injEq] at seen
  obtain ⟨root,stays,left,rfl⟩ := seen
  refine ⟨s',_,okOption outcome,fun t' wf => ?_⟩
  have rep := wf.rep
  rw [root] at rep
  cases t' with
  | leaf => cases rep
  | node below key older newest above =>
    cases rep.1
    have filed := repEntry rep (by simp) stays
    obtain ⟨e,rest,front,time⟩ := wf.timed _ filed _ stays
    rw [left] at front
    cases front
    cases time

end Twins

end Qtl.EventTreeFirst
