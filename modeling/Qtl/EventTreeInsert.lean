import Qtl.EventTreeTracked

/-! event_tree_rebalance as a stable ordered insertion: where the node comes to stand
in the reading order, and that no other node loses its queue, its timestamp or its
place. Nothing is asked of the queues but that the inserted node's has an event. -/
namespace Qtl.EventTreeInsert
open Queue EventTree EventTreeShape EventTreeRebalance EventTreeRead EventTreeTracked
open Base (ChainTree)
open Base.ChainTree Base.StableOrder

/-- A search tree of chains hangs from the root; its reading order is `t.entries`,
each node with its timestamp. -/
structure Arranged (s : World) (t : Shape) : Prop where
  rep : RepTree s.nodes s.root t
  ordered : t.Ordered

def timeOf (s : World) (a : Nat) : Option Nat := s.nodes[a]?.map TreeNode.timestamp

def prevOf (s : World) (a : Nat) : Option (Option Nat) := s.nodes[a]?.map TreeNode.prev

def nextOf (s : World) (a : Nat) : Option (Option Nat) := s.nodes[a]?.map TreeNode.next

def Ended (s : World) (t : Shape) : Prop := ∀ a ∈ t.tips, nextOf s a = some none

structure Settled (a : Nat) (s : World) (t : Shape) (s' : World) (t' : Shape) : Prop where
  arranged : Arranged s' t'
  owners : queueOf s' = queueOf s
  times : ∀ b, b ≠ a → timeOf s' b = timeOf s b
  ended : Ended s t → Ended s' t'

structure Inserted (s : World) (t : Shape) (time a : Nat) (s' : World) (t' : Shape) : Prop where
  settled : Settled a s t s' t'
  order : Entered (time,a) t.entries t'.entries
  queues : s'.queues = s.queues
  last : s'.last = s.last

variable {asserts : Assertion → Bool} {s s' : World} {t t' : Shape} {a b : Nat} {i n : TreeNode}

section Distinct
variable {nodes : List TreeNode} {key : Nat} {before p : Option Nat}

theorem linkedPrefix {front back : List Nat} (h : Linked nodes key before (front ++ back)) :
    Linked nodes key before front := by
  induction front generalizing before with
  | nil => trivial
  | cons a rest ih =>
    obtain ⟨⟨n,hn,time,prev,next⟩,tail⟩ := h
    refine ⟨⟨n,hn,time,prev,fun b front => next b ?_⟩,ih tail⟩
    exact List.head?_append.trans (by rw [front]; rfl)

theorem linkedNodup {chain : List Nat} (h : Linked nodes key none chain) : chain.Nodup := by
  induction chain using List.reverseRecOn with
  | nil => exact List.nodup_nil
  | append_singleton front x ih =>
    have nodup := ih (linkedPrefix h)
    refine List.nodup_append.mpr ⟨nodup,List.nodup_singleton x,?_⟩
    intro y mem z same equal
    cases List.mem_singleton.mp same
    subst equal
    obtain ⟨before,after,split⟩ := List.append_of_mem mem
    subst split
    obtain ⟨n,hn,_⟩ := linkedAt h (List.mem_append_left _ mem)
    have late := linkedNewest _ h hn
    have upTo : Linked nodes key none (before ++ [y] ++ after) := by simpa using linkedPrefix h
    have early := linkedNewest before (linkedPrefix upTo) hn
    -- the node before `y` is the last of both lists
    rw [early,Option.or_none,Option.or_none,List.getLast?_append] at late
    obtain ⟨z,hz⟩ : ∃ z, (y :: after).getLast? = some z := ⟨_,List.getLast?_eq_some_getLast (by simp)⟩
    rw [hz] at late
    have inBefore : z ∈ before := List.mem_of_getLast? late
    have inAfter : z ∈ y :: after := List.mem_of_getLast? hz
    exact (List.nodup_append.mp nodup).2.2 z inBefore z inAfter rfl

theorem repEntry (rep : RepTree nodes p t) (mem : a ∈ t.items) (hn : nodes[a]? = some n) :
    (n.timestamp,a) ∈ t.entries := by
  obtain ⟨entry,inside,rfl⟩ := List.mem_map.mp mem
  obtain ⟨m,hm,time⟩ := repAt rep inside
  cases Option.some.inj (hn.symm.trans hm)
  rwa [time]

theorem repDistinct (rep : RepTree nodes p t) (ordered : t.Ordered) : t.items.Nodup := by
  induction t generalizing p with
  | leaf => exact List.nodup_nil
  | node left key older newest right ihl ihr =>
    obtain ⟨_,chain,m,_,_,hl,hr⟩ := rep
    obtain ⟨ordl,ordr,below,above⟩ := ordered
    have chained (x : Nat) (mem : x ∈ older ++ [newest]) (n : TreeNode) (hn : nodes[x]? = some n) :
        n.timestamp = key := by
      obtain ⟨n',hn',time⟩ := linkedAt chain mem
      cases Option.some.inj (hn.symm.trans hn')
      exact time
    have found {q : Option Nat} {u : Shape} (h : RepTree nodes q u) (x : Nat) (mem : x ∈ u.items) :
        ∃ n, nodes[x]? = some n := ⟨_,List.getElem?_eq_getElem (repAllocated h mem)⟩
    rw [itemsNode]
    refine List.nodup_append.mpr ⟨ihl hl ordl,List.nodup_append.mpr ⟨linkedNodup chain,ihr hr ordr,?_⟩,?_⟩
    · intro x mem y mem' same
      subst same
      obtain ⟨n,hn⟩ := found hr x mem'
      exact (above _ (repEntry hr mem' hn)).ne (chained x mem n hn).symm
    · intro x mem y mem' same
      subst same
      obtain ⟨n,hn⟩ := found hl x mem
      have less := below _ (repEntry hl mem hn)
      rcases List.mem_append.mp mem' with mem' | mem'
      · exact less.ne (chained x mem' n hn)
      · exact (less.trans (above _ (repEntry hr mem' hn))).ne rfl

theorem linkedUnique {key' x : Nat} {older older' : List Nat} (h : Linked nodes key none (older ++ [x]))
    (h' : Linked nodes key' none (older' ++ [x])) : older = older' := by
  induction older using List.reverseRecOn generalizing x older' with
  | nil =>
    obtain ⟨n,hn,_⟩ := linkedAt h List.mem_cons_self
    have last := (linkedNewest [] h hn).symm.trans (linkedNewest older' h' hn)
    rw [Option.or_none,Option.or_none] at last
    exact (List.getLast?_eq_none_iff.mp last.symm).symm
  | append_singleton front y ih =>
    obtain ⟨n,hn,_⟩ := linkedAt h (List.mem_append_right _ List.mem_cons_self)
    have last := (linkedNewest _ h hn).symm.trans (linkedNewest older' h' hn)
    rw [Option.or_none,Option.or_none,List.getLast?_concat] at last
    obtain ⟨front',rfl⟩ := List.getLast?_eq_some_iff.mp last.symm
    rw [ih (linkedPrefix h) (linkedPrefix h')]

/-- The shape a heap stands for, and with it the reading order, is determined by the heap. -/
theorem repUnique {t' : Shape} (rep : RepTree nodes p t) (rep' : RepTree nodes p t') : t = t' := by
  induction t generalizing p t' with
  | leaf => exact ((repRoot rep').mp rep).symm
  | node left key older newest right ihl ihr =>
    obtain ⟨top,chain,n,hn,_,hl,hr⟩ := rep
    cases t' with
    | leaf => cases top.symm.trans rep'
    | node left' key' older' newest' right' =>
      obtain ⟨top',chain',n',hn',_,hl',hr'⟩ := rep'
      cases top.symm.trans top'
      cases Option.some.inj (hn.symm.trans hn')
      obtain ⟨m,hm,time⟩ := linkedAt chain (List.mem_append_right _ List.mem_cons_self)
      obtain ⟨m',hm',time'⟩ := linkedAt chain' (List.mem_append_right _ List.mem_cons_self)
      cases Option.some.inj (hm.symm.trans hm')
      rw [linkedUnique chain chain',← time,← time',ihl hl hl',ihr hr hr']

theorem tipBefore (rep : RepTree nodes p t) (nodup : t.items.Nodup) (tip : a ∈ t.tips)
    (hn : nodes[a]? = some n) (prev : n.prev = some b) : b ∈ t.items ∧ b ∉ t.tips := by
  induction t generalizing p with
  | leaf => cases tip
  | node left key older newest right ihl ihr =>
    obtain ⟨_,chain,_,_,_,hl,hr⟩ := rep
    simp only [itemsNode,List.nodup_append,List.mem_append] at nodup
    obtain ⟨nodupLeft,⟨⟨_,_,apart⟩,nodupRight,rightApart⟩,leftApart⟩ := nodup
    simp only [itemsNode,tips,List.mem_append,List.mem_cons,not_or] at tip ⊢
    rcases tip with tip | rfl | tip
    · obtain ⟨mem,hidden⟩ := ihl hl nodupLeft tip
      refine ⟨.inl mem,hidden,?_,fun h => leftApart b mem b (.inr (tipsItems h)) rfl⟩
      exact leftApart b mem newest (.inl (.inr List.mem_cons_self))
    · have last := linkedNewest older chain hn
      rw [prev,Option.or_none] at last
      have mem : b ∈ older := List.mem_of_getLast? last.symm
      refine ⟨.inr (.inl (.inl mem)),fun h => leftApart b (tipsItems h) b (.inl (.inl mem)) rfl,?_,?_⟩
      · exact apart b mem a List.mem_cons_self
      · exact fun h => rightApart b (.inl mem) b (tipsItems h) rfl
    · obtain ⟨mem,hidden⟩ := ihr hr nodupRight tip
      refine ⟨.inr (.inr mem),fun h => leftApart b (tipsItems h) b (.inr mem) rfl,?_,hidden⟩
      exact fun same => rightApart newest (.inr List.mem_cons_self) b mem same.symm

end Distinct

section Fields
variable {β : Type} {g : TreeNode → β} {q parent current : Option Nat} {fuel : Nat}

theorem placeField {item : Option Nat} (h : place s item parent = .ok s') (b : Nat)
    (left : ∀ n l, g {n with left := l} = g n) (right : ∀ n r, g {n with right := r} = g n) :
    s'.nodes[b]?.map g = s.nodes[b]?.map g := by
  unfold place at h
  cases parent with
  | none => cases h; rfl
  | some p =>
    obtain ⟨i,_,h⟩ := bindOk h
    obtain ⟨n,_,h⟩ := bindOk h
    split at h
    · exact storeField h b (fun n _ => right n _)
    · exact storeField h b (fun n _ => left n _)

/-- What the search for the item's place does to the nodes it passes. Only the node
whose place the item takes is followed by another one afterwards. -/
structure Descended (a : Nat) (s s' : World) : Prop where
  times : ∀ b, timeOf s' b = timeOf s b
  nexts : ∀ b, nextOf s' b = nextOf s b ∨ nextOf s' b = some (some a) ∧ prevOf s' a = some (some b)

theorem storeDescended {f : TreeNode → TreeNode} (h : s.store q f = .ok s')
    (times : ∀ n, (f n).timestamp = n.timestamp) (nexts : ∀ n, (f n).next = n.next) : Descended a s s' :=
  ⟨fun b => storeField h b (fun n _ => times n),fun b => .inl (storeField h b (fun n _ => nexts n))⟩

theorem attachDescended (h : attach s (some a) parent current = .ok s') :
    Descended a s s' := by
  unfold attach at h
  obtain ⟨s₁,h₁,h⟩ := bindOk h
  obtain ⟨s₂,h₂,h⟩ := bindOk h
  obtain ⟨c,_,h⟩ := bindOk h
  obtain ⟨s₃,h₃,h⟩ := bindOk h
  have time (b : Nat) : timeOf s' b = timeOf s₂ b :=
    (placeField h b (fun _ _ => rfl) (fun _ _ => rfl)).trans (storeField h₃ b fun _ _ => rfl)
  have next (b : Nat) : nextOf s' b = nextOf s₂ b :=
    (placeField h b (fun _ _ => rfl) (fun _ _ => rfl)).trans (storeField h₃ b fun _ _ => rfl)
  have prev (b : Nat) : prevOf s' b = prevOf s₂ b :=
    (placeField h b (fun _ _ => rfl) (fun _ _ => rfl)).trans (storeField h₃ b fun _ _ => rfl)
  refine ⟨fun b => ?_,fun b => ?_⟩
  · exact (time b).trans <| (storeField h₂ b fun _ _ => rfl).trans (storeField h₁ b fun _ _ => rfl)
  · by_cases displaced : current = some b
    · subst displaced
      obtain ⟨_,_,behind⟩ := storeFound h₂
      obtain ⟨_,_,ahead⟩ := storeFound h₁
      refine .inr ⟨(next b).trans (congrArg _ behind),(prev a).trans ?_⟩
      exact (storeField h₂ a fun _ _ => rfl).trans (congrArg _ ahead)
    · left
      exact (next b).trans <| (storeField h₂ b fun _ same => absurd same displaced).trans <|
        storeField h₁ b fun _ _ => rfl

theorem descendDescended (h : descend s (some a) fuel parent current = .ok s') : Descended a s s' := by
  obtain ⟨_,_,attached | hung | hung⟩ := descendEnds h
  · exact attachDescended attached
  · exact storeDescended hung (fun _ => rfl) (fun _ => rfl)
  · exact storeDescended hung (fun _ => rfl) (fun _ => rfl)

theorem rebalanceDescended (h : eventTreeRebalance asserts s (some a) = .ok s') :
    ∃ s₁, Descended a s₁ s' ∧ nextOf s₁ a = some none ∧
      ∀ b, b ≠ a → timeOf s₁ b = timeOf s b ∧ nextOf s₁ b = nextOf s b := by
  obtain ⟨s₁,s₂,time,h₁,h₂,ends⟩ := rebalanceCases h
  have apart (b : Nat) (away : b ≠ a) : ¬ some a = some b := fun same => away (Option.some.inj same).symm
  refine ⟨s₂,?_,?_,fun b away => ⟨?_,?_⟩⟩
  · rcases ends with ⟨_,rfl⟩ | ⟨_,descended⟩
    · exact ⟨fun _ => rfl,fun _ => .inl rfl⟩
    · exact descendDescended descended
  · obtain ⟨_,_,cleared⟩ := storeFound h₁
    exact (storeField h₂ a fun _ _ => rfl).trans (congrArg _ cleared)
  · exact (storeField h₂ b fun _ same => absurd same (apart b away)).trans
      (storeField h₁ b fun _ same => absurd same (apart b away))
  · exact (storeField h₂ b fun _ same => absurd same (apart b away)).trans
      (storeField h₁ b fun _ same => absurd same (apart b away))

end Fields

theorem arrangedDistinct (arranged : Arranged s t) : t.items.Nodup :=
  repDistinct arranged.rep arranged.ordered

theorem rebalanceEnded {key : Nat} (arranged : Arranged s' (t.insert key a))
    (done : eventTreeRebalance asserts s (some a) = .ok s') (ended : Ended s t) :
    Ended s' (t.insert key a) := by
  intro b tip
  obtain ⟨s₁,descended,own,others⟩ := rebalanceDescended done
  have before : nextOf s₁ b = some none := by
    by_cases same : b = a
    · rw [same]
      exact own
    · have tip' := (insertTips tip).resolve_left same
      exact (others b same).2.trans (ended b tip')
  rcases descended.nexts b with kept | ⟨_,back⟩
  · exact kept.trans before
  · -- only the displaced node is followed by `a`, and then it is the newest no more
    obtain ⟨n,hn,prev⟩ := Option.map_eq_some_iff.mp back
    exact absurd tip (tipBefore arranged.rep (arrangedDistinct arranged) (insertTip t key a) hn prev).2

theorem insertSpec (asserts : Assertion → Bool) {e : Event} {rest : List Event} (arranged : Arranged s t)
    (node : s.nodes[a]? = some i) (new : a ∉ t.items) (front : contents (s.queues i.queue) = e :: rest) :
    ∃ s', eventTreeRebalance asserts s (some a) = .ok s' ∧ Settled a s t s' (t.insert e.timestamp a) ∧
      s'.queues = s.queues ∧ s'.last = s.last := by
  obtain ⟨s',done,rep,_⟩ := rebalanceSpec asserts arranged.rep (arrangedDistinct arranged) node new front
  have arranged' : Arranged s' (t.insert e.timestamp a) := ⟨rep,insertOrdered arranged.ordered _ _⟩
  have keeps := rebalanceKeeps done
  obtain ⟨s₁,descended,_,others⟩ := rebalanceDescended done
  refine ⟨s',done,⟨arranged',funext keeps.queue,fun b away => ?_,rebalanceEnded arranged' done⟩,keeps.queues,keeps.last⟩
  exact (descended.times b).trans (others b away).1

theorem insertOrder {t : Shape} (ordered : t.Ordered) (key a : Nat) :
    Entered (key,a) t.entries (t.insert key a).entries := by
  rw [insertEntries ordered]
  exact enterEntered (key,a) (orderedSorted ordered)

/-- event_tree_rebalance ends, and files the node behind every node whose timestamp is
not larger than the time of its queue's front event, whatever its links held before. -/
theorem rebalanceInserts (asserts : Assertion → Bool) {e : Event} {rest : List Event} (arranged : Arranged s t)
    (node : s.nodes[a]? = some i) (new : a ∉ t.items) (front : contents (s.queues i.queue) = e :: rest) :
    ∃ s' t', eventTreeRebalance asserts s (some a) = .ok s' ∧ Inserted s t e.timestamp a s' t' := by
  obtain ⟨s',done,settled,queues,last⟩ := insertSpec asserts arranged node new front
  exact ⟨s',_,done,settled,insertOrder arranged.ordered e.timestamp a,queues,last⟩

def tied : World :=
  ⟨[⟨0,5,some 1,none,none,none,some 0⟩,⟨1,3,none,none,none,none,some 1⟩,⟨2,9,some 0,some 2,some 2,some 0,none⟩],
    fun _ => lone ⟨5,.kAsk,none⟩,some 0,none⟩

theorem tiedArranged : Arranged tied (node (node leaf 3 [] 1 leaf) 5 [] 0 leaf) := by
  refine ⟨⟨rfl,⟨⟨_,rfl,rfl,rfl,nofun⟩,trivial⟩,_,rfl,rfl,?_,rfl⟩,⟨trivial,trivial,nofun,nofun⟩,trivial,?_,nofun⟩
  · exact ⟨rfl,⟨⟨_,rfl,rfl,rfl,nofun⟩,trivial⟩,_,rfl,rfl,rfl,rfl⟩
  · intro e mem
    cases List.mem_singleton.mp mem
    decide

theorem rebalanceInsertsTied : ∃ s' t', eventTreeRebalance (fun _ => true) tied (some 2) = .ok s' ∧
    Inserted tied (node (node leaf 3 [] 1 leaf) 5 [] 0 leaf) 5 2 s' t' :=
  rebalanceInserts (fun _ => true) tiedArranged rfl (by decide) (loneContents ⟨5,.kAsk,none⟩)

end Qtl.EventTreeInsert
