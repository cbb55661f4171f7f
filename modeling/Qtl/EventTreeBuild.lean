import Qtl.EventTreeTracked

/-! event_tree_init followed by one event_tree_add for each queue of a list. The node
that goes to the empty root keeps the links and the timestamp malloc left in it. -/
namespace Qtl.EventTreeBuild
open Queue EventTree EventTreeShape EventTreeRebalance EventTreeTracked
open Base (ChainTree)
open Base.ChainTree Base.StableOrder

def addAll (asserts : Assertion → Bool) : World → List (TreeNode × Nat) → Except Fault World
  | s, [] => .ok s
  | s, (memory,queue) :: rest => do
      let (s,_) ← eventTreeAdd asserts s (some memory) queue
      addAll asserts s rest

def eventTreeBuild (asserts : Assertion → Bool) (s : World) (pending : List (TreeNode × Nat)) :
    Except Fault World := addAll asserts (eventTreeInit s) pending

def frontTime (s : World) (q : Nat) : Nat := ((contents (s.queues q)).head?.map Event.timestamp).getD 0

def timed (s : World) (queues : List Nat) : List (Nat × Option Nat) :=
  queues.map (fun q => (frontTime s q,some q))

def readingOrder (s : World) (t : Shape) : List (Nat × Option Nat) :=
  t.entries.map (fun e => (e.1,queueOf s e.2))

structure InOrder (s : World) (queues : List Nat) (w : World) (t : Shape) : Prop where
  rep : RepTree w.nodes w.root t
  ordered : t.Ordered
  sorted : StablySorted (timed s queues) (readingOrder w t)

def Built (asserts : Assertion → Bool) (s : World) (queues : List Nat) : Prop :=
  ∃ t : Shape, ∀ memory : List TreeNode, memory.length = queues.length →
    ∃ w, eventTreeBuild asserts s (memory.zip queues) = .ok w ∧ InOrder s queues w t

variable {asserts : Assertion → Bool} {s s' w : World} {t : Shape} {wild q : Nat} {queues : List Nat}

section Ruin

structure Ruined (wild room : Nat) (s : World) : Prop where
  beyond : s.nodes.length + room ≤ wild
  root : ∃ r n, s.root = some r ∧ s.nodes[r]? = some n ∧ n.left = some wild ∧ n.right = some wild

theorem loadWild {room : Nat} (ruined : Ruined wild room s) : s.load (some wild) = .error .wildPointer := by
  have outside : s.nodes[wild]? = none :=
    List.getElem?_eq_none ((Nat.le_add_right ..).trans ruined.beyond)
  simp only [World.load,outside]

theorem descendWild {room fuel : Nat} {item parent : Option Nat} (ruined : Ruined wild room s) :
    descend s item fuel parent (some wild) ≠ .ok s' := by
  intro h
  cases fuel with
  | zero => cases h
  | succ fuel =>
    obtain ⟨_,h,_⟩ := bindOk h
    rw [loadWild ruined] at h
    cases h

theorem attachRuined {room a : Nat} (ruined : Ruined wild room s) (new : s.root ≠ some a)
    (h : attach s (some a) none s.root = .ok s') : Ruined wild room s' := by
  obtain ⟨r,n,root,hr,left,right⟩ := ruined.root
  rw [root] at h new
  have ra : a ≠ r := fun same => new (by rw [same])
  obtain ⟨s₁,h₁,h⟩ := bindOk h
  obtain ⟨s₂,h₂,h⟩ := bindOk h
  obtain ⟨c,hc,h⟩ := bindOk h
  obtain ⟨s₃,h₃,h⟩ := bindOk h
  cases h
  obtain ⟨_,ha,_⟩ := storeFound h₁
  obtain ⟨_,same,rfl⟩ := storeInv h₁
  cases same
  obtain ⟨_,same,rfl⟩ := storeInv h₂
  cases same
  obtain ⟨_,same,rfl⟩ := storeInv h₃
  cases same
  have r₂ : ((s.put a ({· with prev := some r})).put r ({· with next := some a})).nodes[r]? =
      some {n with next := some a} := putSame ((putOther ra).trans hr)
  rw [loadSome r₂] at hc
  cases hc
  exact ⟨by simpa using ruined.beyond,a,_,rfl,putSame ((putOther ra.symm).trans (putSame ha)),left,right⟩

theorem rebalanceRuined {room a : Nat} (ruined : Ruined wild room s) (new : s.root ≠ some a)
    (h : eventTreeRebalance asserts s (some a) = .ok s') : Ruined wild room s' := by
  obtain ⟨_,_,time,h₁,h₂,ends⟩ := rebalanceCases h
  obtain ⟨_,same,rfl⟩ := storeInv h₁
  cases same
  obtain ⟨_,same,rfl⟩ := storeInv h₂
  cases same
  obtain ⟨r,n,root,hr,left,right⟩ := ruined.root
  have ra : a ≠ r := fun same => new (by rw [root,same])
  let s₂ := (s.put a ({· with right := none, left := none, next := none, prev := none, head := some a})).put a
    ({· with timestamp := time})
  have hr₂ : s₂.nodes[r]? = some n := (putOther ra).trans ((putOther ra).trans hr)
  have root₂ : s₂.root = some r := root
  have ruined₂ : Ruined wild room s₂ := ⟨by simpa [s₂] using ruined.beyond,r,n,root,hr₂,left,right⟩
  obtain ⟨bare,_⟩ | ⟨_,h⟩ := ends
  · cases root.symm.trans bare
  change descend s₂ (some a) (s₂.nodes.length + 1) none s₂.root = .ok s' at h
  rw [root₂] at h
  obtain ⟨c,hc,h⟩ := bindOk h
  obtain ⟨i,_,h⟩ := bindOk h
  rw [loadSome hr₂] at hc
  cases hc
  split at h
  · rw [← root₂] at h
    exact attachRuined ruined₂ (by simpa [s₂] using new) h
  · split at h
    · rw [right,if_neg (by simp)] at h
      exact absurd h (descendWild ruined₂)
    · rw [left,if_neg (by simp)] at h
      exact absurd h (descendWild ruined₂)

theorem addRuined {room : Nat} {m : TreeNode} {r : Bool} (ruined : Ruined wild (room + 1) s)
    (h : eventTreeAdd asserts s (some m) q = .ok (s',r)) : Ruined wild room s' := by
  obtain ⟨beyond,root,n,linked,hr,wilds⟩ := ruined
  unfold eventTreeAdd at h
  split at h
  · cases h
    exact ⟨by omega,root,n,linked,hr,wilds⟩
  · have inside := (List.getElem?_eq_some_iff.mp hr).1
    let s₀ : World := {s with nodes := s.nodes ++ [{m with queue := q, head := some s.nodes.length}]}
    have rooted : s₀.root = some root := linked
    change (if s₀.root.isNone then .ok ({s₀ with root := some s.nodes.length},true)
      else do
        let s ← eventTreeRebalance asserts s₀ (some s.nodes.length)
        .ok (s,true)) = .ok (s',r) at h
    rw [rooted,if_neg (by simp)] at h
    obtain ⟨s₁,h₁,h⟩ := bindOk h
    cases h
    have ruined : Ruined wild room s₀ := by
      refine ⟨?_,root,n,linked,(List.getElem?_append_left inside).trans hr,wilds⟩
      simp only [s₀,List.length_append,List.length_singleton]
      omega
    refine rebalanceRuined ruined (fun same => ?_) h₁
    exact inside.ne (Option.some.inj (linked.symm.trans same))

theorem addAllRuined {pending : List (TreeNode × Nat)} (ruined : Ruined wild pending.length s)
    (h : addAll asserts s pending = .ok w) : Ruined wild 0 w := by
  induction pending generalizing s with
  | nil => cases h; exact ruined
  | cons entry rest ih =>
    obtain ⟨⟨s₁,_⟩,h₁,h⟩ := bindOk h
    exact ih (addRuined ruined h₁) h

theorem ruinedUnrepresented {room : Nat} (ruined : Ruined wild room w) : ¬ RepTree w.nodes w.root t := by
  intro rep
  obtain ⟨r,n,root,hr,left,_⟩ := ruined.root
  rw [root] at rep
  cases t with
  | leaf => cases rep
  | node l k older x rt =>
    obtain ⟨top,_,n',hn,_,hl,_⟩ := rep
    cases top
    cases Option.some.inj (hr.symm.trans hn)
    rw [left] at hl
    cases l with
    | leaf => cases hl
    | node l' k' older' x' r' =>
      obtain ⟨top,_,n',hn',_⟩ := hl
      cases top
      have inside := (List.getElem?_eq_some_iff.mp hn').1
      have beyond := ruined.beyond
      omega

end Ruin

theorem notBuilt (full : contents (s.queues q) ≠ []) : ¬ Built asserts s (q :: queues) := by
  rintro ⟨t,built⟩
  let wild := s.nodes.length + 1 + queues.length
  let garbage : TreeNode := ⟨0,0,some wild,some wild,none,none,none⟩
  obtain ⟨w,done,inOrder⟩ := built (List.replicate (queues.length + 1) garbage) (by simp)
  rw [List.replicate_succ,List.zip_cons_cons] at done
  obtain ⟨⟨s₁,_⟩,h₁,done⟩ := bindOk done
  have planted : Ruined wild queues.length s₁ := by
    have nonEmpty : eventQueueIsEmpty ((eventTreeInit s).queues q) = false := by
      rw [← Bool.not_eq_true,isEmptyContents]
      exact full
    unfold eventTreeAdd at h₁
    rw [nonEmpty] at h₁
    cases h₁
    refine ⟨by simp [wild,eventTreeInit],_,{garbage with queue := q, head := some s.nodes.length},rfl,?_,rfl,rfl⟩
    exact List.getElem?_concat_length
  have ruined : Ruined wild ((List.replicate queues.length garbage).zip queues).length s₁ := by
    simpa using planted
  exact ruinedUnrepresented (addAllRuined ruined done) inOrder.rep

section Initialised

structure Building (s : World) (done : List Nat) (w : World) (t : Shape) : Prop where
  tracked : Tracked w t
  last : w.last = none
  queues : w.queues = s.queues
  sorted : StablySorted (timed s done) (readingOrder w t)

theorem namesReading (last : w.last = none) : names w t = (readingOrder w t).map Prod.snd := by
  simp [names,held,last,readingOrder,items,Function.comp_def]

theorem buildingStep (asserts : Assertion → Bool) {done : List Nat} {m : TreeNode} (building : Building s done w t)
    (new : q ∉ done) (full : contents (s.queues q) ≠ [])
    (initialised : w.root = none → Initialised m ∧ m.timestamp = frontTime s q) :
    ∃ w' t', eventTreeAdd asserts w (some m) q = .ok (w',true) ∧ Building s (done ++ [q]) w' t' ∧
      w'.root ≠ none := by
  obtain ⟨tracked,last,queues,sorted⟩ := building
  have unknown : some q ∉ names w t := by
    rw [namesReading last,(sorted.perm.map Prod.snd).mem_iff]
    simpa [timed] using new
  obtain ⟨w',ok,t',added,tracked',outcome⟩ := addSpec asserts tracked (m := m) (q := q)
    (fun _ root => (initialised root).1) unknown
  cases outcome with
  | refused empty =>
    rw [queues] at empty
    exact absurd empty full
  | @filed _ _ time e rest front queues' last' entry stamp owner =>
    have time' : time = frontTime s q := by
      rw [queues] at front
      by_cases root : w.root = none
      · rw [stamp,if_pos root,(initialised root).2]
      · rw [stamp,if_neg root,frontTime,front]
        rfl
    refine ⟨w',t',added,⟨tracked',last'.trans last,queues'.trans queues,?_⟩,?_⟩
    · have grown : readingOrder w' t' = enter (frontTime s q,some q) (readingOrder w t) := by
        have own : queueOf w' w.nodes.length = some q := by rw [owner,Function.update_self]
        have kept : t.entries.map (fun e => (e.1,queueOf w' e.2)) = readingOrder w t := by
          refine List.map_congr_left (fun e mem => ?_)
          have inside := repAllocated tracked.rep (List.mem_map.mpr ⟨e,mem,rfl⟩)
          rw [owner,Function.update_of_ne inside.ne]
        rw [readingOrder,entry,enterMap,kept,own,time']
      rw [grown,timed,List.map_append]
      exact stablySortedEnter sorted _
    · intro root
      exact filedLinked entry ((repRoot tracked'.rep).mp root)

theorem addAllBuilding {memory : List TreeNode} {done : List Nat} (building : Building s done w t)
    (size : memory.length = queues.length) (distinct : (done ++ queues).Nodup)
    (full : ∀ q ∈ queues, contents (s.queues q) ≠ []) (rooted : w.root ≠ none) :
    ∃ w' t', addAll asserts w (memory.zip queues) = .ok w' ∧ Building s (done ++ queues) w' t' := by
  induction queues generalizing memory done w t with
  | nil => exact ⟨w,t,by simp [addAll],by simpa using building⟩
  | cons q queues ih =>
    cases memory with
    | nil => cases size
    | cons m memory =>
      rw [List.append_cons] at distinct
      have new : q ∉ done := by
        have apart := (List.nodup_append.mp (List.nodup_append.mp distinct).1).2.2
        exact fun mem => apart q mem q List.mem_cons_self rfl
      obtain ⟨w₁,t₁,added,building₁,rooted₁⟩ := buildingStep asserts (m := m) building new
        (full q List.mem_cons_self) (fun root => absurd root rooted)
      obtain ⟨w',t',all,building'⟩ := ih building₁ (Nat.succ.inj size) distinct
        (fun q mem => full q (List.mem_cons_of_mem _ mem)) rooted₁
      rw [← List.append_cons] at building'
      exact ⟨w',t',(okBind added).trans all,building'⟩

end Initialised

/-- The build is right for every malloc only when there is nothing to build. When the
first node's memory happens to hold null links and the front time of its queue, it is
right whatever the other nodes bring along. -/
theorem builtOnlyEmpty (asserts : Assertion → Bool) (s : World) (queues : List Nat)
    (distinct : queues.Nodup) (full : ∀ q ∈ queues, contents (s.queues q) ≠ []) :
    (Built asserts s queues ↔ queues = []) ∧
    ∀ m memory, (m :: memory).length = queues.length → Initialised m →
      m.timestamp = frontTime s (queues.headD 0) →
      ∃ w t, eventTreeBuild asserts s ((m :: memory).zip queues) = .ok w ∧ InOrder s queues w t := by
  refine ⟨⟨fun built => ?_,?_⟩,?_⟩
  · cases queues with
    | nil => rfl
    | cons q queues => exact absurd built (notBuilt (full q List.mem_cons_self))
  · rintro rfl
    refine ⟨leaf,fun memory _ => ⟨eventTreeInit s,by simp [eventTreeBuild,addAll],rfl,trivial,?_⟩⟩
    exact stablySortedNil
  · intro m memory size initialised stamp
    cases queues with
    | nil => cases size
    | cons q queues =>
      have start : Building s [] (eventTreeInit s) leaf :=
        ⟨emptyTracked rfl rfl,rfl,rfl,stablySortedNil⟩
      obtain ⟨w₁,t₁,added,building,rooted⟩ := buildingStep asserts (m := m) start
        List.not_mem_nil (full q List.mem_cons_self) (fun _ => ⟨initialised,stamp⟩)
      obtain ⟨w,t,all,built⟩ := addAllBuilding building (Nat.succ.inj size) distinct
        (fun q mem => full q (List.mem_cons_of_mem _ mem)) rooted
      exact ⟨w,t,(okBind added).trans all,built.tracked.rep,built.tracked.ordered,built.sorted⟩

section TwoQueues

def fronts : World := ⟨[],fun i => lone ⟨if i = 0 then 7 else 5,.kAsk,none⟩,none,none⟩

theorem builtOnlyEmptyTwo :
    (Built (fun _ => true) fronts [0,1] ↔ [0,1] = []) ∧
    ∀ m memory, (m :: memory).length = [0,1].length → Initialised m →
      m.timestamp = frontTime fronts 0 →
      ∃ w t, eventTreeBuild (fun _ => true) fronts ((m :: memory).zip [0,1]) = .ok w ∧
        InOrder fronts [0,1] w t :=
  builtOnlyEmpty (fun _ => true) fronts [0,1] (by decide)
    (fun q _ => by rw [fronts,loneContents]; exact List.cons_ne_nil _ _)

/-- Null links but a stale timestamp in the first node: the build goes through and the
later queue comes first, whatever tree the nodes are taken for. -/
theorem staleTimestampMisfiled : ∃ w,
    eventTreeBuild (fun _ => true) fronts
      [(⟨0,3,none,none,none,none,none⟩,0),(⟨0,0,none,none,none,none,none⟩,1)] = .ok w ∧
    ∀ t, ¬ InOrder fronts [0,1] w t := by
  refine ⟨_,rfl,fun t inOrder => ?_⟩
  obtain ⟨e,mem,same⟩ : ∃ e ∈ t.entries, (e.1,queueOf _ e.2) = (7,some 0) :=
    List.mem_map.mp (inOrder.sorted.perm.mem_iff.mpr (by decide))
  obtain ⟨n,hn,stamp⟩ := repAt inOrder.rep mem
  obtain ⟨key,owner⟩ := Prod.mk.inj same
  obtain ⟨k,a⟩ := e
  match a with
  | 0 => cases hn; cases stamp; cases key
  | 1 => cases owner
  | a + 2 => cases owner

end TwoQueues

end Qtl.EventTreeBuild
