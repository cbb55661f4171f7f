import Qtl.EventTreeShape

/-! event_tree_rebalance on a represented tree is insertion into the shape, and it
ends. The frame facts need no represented tree: they hold of any heap. -/
namespace Qtl.EventTreeRebalance
open Queue EventTree EventTreeShape
open Base (ChainTree)
open Base.ChainTree

structure Keeps (moved : Nat → Prop) (s s' : World) : Prop where
  size : s'.nodes.length = s.nodes.length
  queue : ∀ b : Nat, s'.nodes[b]?.map TreeNode.queue = s.nodes[b]?.map TreeNode.queue
  prev : ∀ b : Nat, ¬ moved b → s'.nodes[b]?.map TreeNode.prev = s.nodes[b]?.map TreeNode.prev
  queues : s'.queues = s.queues
  last : s'.last = s.last

variable {asserts : Assertion → Bool} {s s' s₁ s₂ s₃ : World} {item : Option Nat} {moved : Nat → Prop}

theorem keepsTrans (h : Keeps moved s₁ s₂) (h' : Keeps moved s₂ s₃) : Keeps moved s₁ s₃ where
  size := h'.size.trans h.size
  queue := fun b => (h'.queue b).trans (h.queue b)
  prev := fun b hb => (h'.prev b hb).trans (h.prev b hb)
  queues := h'.queues.trans h.queues
  last := h'.last.trans h.last

theorem keepsNode (keeps : Keeps moved s s') {b : Nat} {n : TreeNode} (here : s'.nodes[b]? = some n) :
    ∃ m, s.nodes[b]? = some m ∧ m.queue = n.queue := by
  have owner := keeps.queue b
  rw [here] at owner
  exact Option.map_eq_some_iff.mp owner.symm

theorem keepsRoot {root : Option Nat} : Keeps moved s {s with root := root} :=
  ⟨rfl,fun _ => rfl,fun _ _ => rfl,rfl,rfl⟩

theorem keepsStore {q : Option Nat} {f : TreeNode → TreeNode} (h : s.store q f = .ok s')
    (queue : ∀ n, (f n).queue = n.queue) (prev : (∀ b, q = some b → moved b) ∨ ∀ n, (f n).prev = n.prev) :
    Keeps moved s s' := by
  have back (b : Nat) (away : ¬ moved b) : s'.nodes[b]?.map TreeNode.prev = s.nodes[b]?.map TreeNode.prev := by
    refine storeField h b (fun n here => ?_)
    rcases prev with prev | prev
    · exact absurd (prev b here) away
    · exact prev n
  have owner (b : Nat) := storeField h b (fun n _ => queue n)
  obtain ⟨a,rfl,rfl⟩ := storeInv h
  exact ⟨putLength,owner,back,rfl,rfl⟩

abbrev KeepsBut (item : Option Nat) : World → World → Prop := Keeps (fun b => item = some b)

theorem placeKeeps {parent : Option Nat} (h : place s item parent = .ok s') : KeepsBut item s s' := by
  unfold place at h
  cases parent with
  | none => cases h; exact keepsRoot
  | some p =>
    obtain ⟨i,_,h⟩ := bindOk h
    obtain ⟨n,_,h⟩ := bindOk h
    split at h
    · exact keepsStore h (fun _ => rfl) (.inr fun _ => rfl)
    · exact keepsStore h (fun _ => rfl) (.inr fun _ => rfl)

theorem attachKeeps {parent current : Option Nat} (h : attach s item parent current = .ok s') :
    KeepsBut item s s' := by
  unfold attach at h
  obtain ⟨s₁,h₁,h⟩ := bindOk h
  obtain ⟨s₂,h₂,h⟩ := bindOk h
  obtain ⟨c,_,h⟩ := bindOk h
  obtain ⟨s₃,h₃,h⟩ := bindOk h
  have k₁ : KeepsBut item s s₁ := keepsStore h₁ (fun _ => rfl) (.inl fun _ h => h)
  have k₂ : KeepsBut item s₁ s₂ := keepsStore h₂ (fun _ => rfl) (.inr fun _ => rfl)
  have k₃ : KeepsBut item s₂ s₃ := keepsStore h₃ (fun _ => rfl) (.inl fun _ h => h)
  exact keepsTrans k₁ (keepsTrans k₂ (keepsTrans k₃ (placeKeeps h)))

/-- The search loop only moves its cursors; what it does to the heap it does in its last turn. -/
theorem descendEnds {fuel : Nat} {parent current : Option Nat} (h : descend s item fuel parent current = .ok s') :
    ∃ parent current, attach s item parent current = .ok s' ∨
      s.store current ({· with right := item}) = .ok s' ∨ s.store current ({· with left := item}) = .ok s' := by
  induction fuel generalizing parent current with
  | zero => cases h
  | succ fuel ih =>
    unfold descend at h
    obtain ⟨c,_,h⟩ := bindOk h
    obtain ⟨i,_,h⟩ := bindOk h
    split at h
    · exact ⟨parent,current,.inl h⟩
    · split at h
      · split at h
        · exact ⟨parent,current,.inr (.inl h)⟩
        · exact ih h
      · split at h
        · exact ⟨parent,current,.inr (.inr h)⟩
        · exact ih h

theorem descendKeeps {fuel : Nat} {parent current : Option Nat}
    (h : descend s item fuel parent current = .ok s') : KeepsBut item s s' := by
  obtain ⟨_,_,attached | hung | hung⟩ := descendEnds h
  · exact attachKeeps attached
  · exact keepsStore hung (fun _ => rfl) (.inr fun _ => rfl)
  · exact keepsStore hung (fun _ => rfl) (.inr fun _ => rfl)

theorem rebalanceCases (h : eventTreeRebalance asserts s item = .ok s') : ∃ s₁ s₂ time,
    s.store item ({· with right := none, left := none, next := none, prev := none, head := item}) = .ok s₁ ∧
    s₁.store item ({· with timestamp := time}) = .ok s₂ ∧
    (s₂.root = none ∧ s' = {s₂ with root := item} ∨
      s₂.root ≠ none ∧ descend s₂ item (s₂.nodes.length + 1) none s₂.root = .ok s') := by
  unfold eventTreeRebalance at h
  obtain ⟨_,_,h⟩ := bindOk h
  obtain ⟨s₁,h₁,h⟩ := bindOk h
  obtain ⟨i,_,h⟩ := bindOk h
  obtain ⟨time,_,h⟩ := bindOk h
  obtain ⟨s₂,h₂,h⟩ := bindOk h
  refine ⟨s₁,s₂,time,h₁,h₂,?_⟩
  split at h
  · rename_i bare
    exact .inl ⟨Option.isNone_iff_eq_none.mp bare,(Except.ok.inj h).symm⟩
  · rename_i bare
    exact .inr ⟨fun none => bare (Option.isNone_iff_eq_none.mpr none),h⟩

theorem rebalanceKeeps (h : eventTreeRebalance asserts s item = .ok s') : KeepsBut item s s' := by
  obtain ⟨s₁,s₂,time,h₁,h₂,ends⟩ := rebalanceCases h
  have k₁ : KeepsBut item s s₁ := keepsStore h₁ (fun _ => rfl) (.inl fun _ h => h)
  have k₂ : KeepsBut item s₁ s₂ := keepsStore h₂ (fun _ => rfl) (.inl fun _ h => h)
  have k := keepsTrans k₁ k₂
  rcases ends with ⟨_,rfl⟩ | ⟨_,descended⟩
  · exact keepsTrans k keepsRoot
  · exact keepsTrans k (descendKeeps descended)

def relink (time : Nat) (link : Option Nat) (n : TreeNode) : TreeNode :=
  if time > n.timestamp then {n with right := link} else {n with left := link}

def linkOf (time : Nat) (n : TreeNode) : Option Nat :=
  if time > n.timestamp then n.right else n.left

theorem relinkSame (time : Nat) (n : TreeNode) : relink time (linkOf time n) n = n := by
  unfold relink linkOf; split <;> rfl

def Above (s : World) (time : Nat) (away : List Nat) (current : Option Nat) : Option Nat → Prop
  | none => s.root = current
  | some p => p ∉ away ∧ ∃ n, s.nodes[p]? = some n ∧ linkOf time n = current

def LinkSet (s s' : World) (time : Nat) (link : Option Nat) : Option Nat → Prop
  | none => s'.root = link
  | some p => s'.root = s.root ∧ s'.nodes[p]? = (relink time link) <$> s.nodes[p]?

structure Relinked (s s' : World) (time a : Nat) (parent : Option Nat) (t t' : Shape) : Prop where
  rep : ∃ link, RepTree s'.nodes link t' ∧ LinkSet s s' time link parent
  frame : ∀ b, b ∉ t.items → b ≠ a → parent ≠ some b → s'.nodes[b]? = s.nodes[b]?

variable {a c time fuel : Nat} {i : TreeNode} {t : Shape} {parent : Option Nat}

structure Fresh (a time : Nat) (i : TreeNode) : Prop where
  left : i.left = none
  right : i.right = none
  prev : i.prev = none
  head : i.head = some a
  timestamp : i.timestamp = time

theorem freshRep {nodes : List TreeNode} (h : nodes[a]? = some i) (fresh : Fresh a time i) :
    RepTree nodes (some a) (node leaf time [] a leaf) :=
  ⟨rfl,⟨⟨i,h,fresh.timestamp,fresh.prev,by simp⟩,trivial⟩,i,h,fresh.head,fresh.left,fresh.right⟩

theorem sameLink (above : Above s time away (some c) parent)
    (kept : ∀ p, parent = some p → s'.nodes[p]? = s.nodes[p]?) (root : s'.root = s.root) :
    LinkSet s s' time (some c) parent := by
  cases parent with
  | none => exact root.trans above
  | some p =>
    obtain ⟨_,n,hn,link⟩ := above
    refine ⟨root,?_⟩
    rw [kept p rfl,hn,← link]
    exact congrArg some (relinkSame time n).symm

theorem chainRep {nodes nodes' : List TreeNode} {left right : Shape} {older : List Nat} {n m : TreeNode}
    (h : RepTree nodes (some c) (node left time older c right))
    (nodup : (node left time older c right).items.Nodup) (hc : nodes[c]? = some n)
    (hc' : nodes'[c]? = some {n with next := some a}) (ha' : nodes'[a]? = some m)
    (stamp : m.timestamp = time) (prev : m.prev = some c) (head : m.head = n.head)
    (hleft : m.left = n.left) (hright : m.right = n.right)
    (same : ∀ b ∈ (node left time older c right).items, b ≠ c → nodes'[b]? = nodes[b]?) :
    RepTree nodes' (some a) (node left time (older ++ [c]) a right) := by
  obtain ⟨_,chain,n',hn',oldest,hl,hr⟩ := h
  cases Option.some.inj (hc.symm.trans hn')
  simp only [itemsNode,List.mem_append] at same
  simp only [itemsNode,List.nodup_append,List.mem_append] at nodup
  obtain ⟨_,⟨⟨_,_,apart⟩,_,rightApart⟩,leftApart⟩ := nodup
  refine ⟨rfl,linkedSnoc chain hc hc' ha' stamp prev ?_,m,ha',?_,?_,?_⟩
  · intro b mem
    exact same b (.inr (.inl (.inl mem))) (apart b mem c List.mem_cons_self)
  · rw [head,oldest]
    cases older <;> rfl
  · rw [hleft]
    exact repFrame (fun b mem => same b (.inl mem)
      (leftApart b mem c (.inl (.inr List.mem_cons_self)))) hl
  · rw [hright]
    exact repFrame (fun b mem => same b (.inr (.inr mem))
      (rightApart c (.inr List.mem_cons_self) b mem).symm) hr

theorem placeSpec (ha : s.nodes[a]? = some i) (stamp : i.timestamp = time)
    (hp : ∀ p, parent = some p → ∃ n, s.nodes[p]? = some n) :
    ∃ s', place s (some a) parent = .ok s' ∧ LinkSet s s' time (some a) parent ∧
      ∀ b, parent ≠ some b → s'.nodes[b]? = s.nodes[b]? := by
  cases parent with
  | none => exact ⟨_,rfl,rfl,fun _ _ => rfl⟩
  | some p =>
    obtain ⟨n,hn⟩ := hp p rfl
    have other (f : TreeNode → TreeNode) (b : Nat) (away : some p ≠ some b) :
        (s.put p f).nodes[b]? = s.nodes[b]? := putOther (fun same => away (by rw [same]))
    simp only [place,loadSome ha,loadSome hn,bind,Except.bind,stamp,storeSome hn]
    split
    · rename_i side
      refine ⟨_,rfl,⟨rfl,?_⟩,other _⟩
      simp [putSame hn,hn,relink,side]
    · rename_i side
      refine ⟨_,rfl,⟨rfl,?_⟩,other _⟩
      simp [putSame hn,hn,relink,side]

theorem attachSpec {left right : Shape} {older : List Nat}
    (rep : RepTree s.nodes (some c) (node left time older c right))
    (nodup : (node left time older c right).items.Nodup)
    (ha : s.nodes[a]? = some i) (fresh : Fresh a time i)
    (new : a ∉ (node left time older c right).items)
    (above : Above s time (a :: (node left time older c right).items) (some c) parent) :
    ∃ s', attach s (some a) parent (some c) = .ok s' ∧
      Relinked s s' time a parent (node left time older c right)
        (node left time (older ++ [c]) a right) := by
  obtain ⟨n,hc,_⟩ := rep.2.2
  have ca : c ≠ a := fun same => new (by simp [same])
  -- the three stores, each seen through the ones before it
  let s₁ := s.put a ({· with prev := some c})
  let s₂ := s₁.put c ({· with next := some a})
  let s₃ := s₂.put a ({· with head := n.head, right := n.right, left := n.left})
  have c₁ : s₁.nodes[c]? = some n := (putOther ca.symm).trans hc
  have c₂ : s₂.nodes[c]? = some {n with next := some a} := putSame c₁
  have a₁ : s₁.nodes[a]? = some {i with prev := some c} := putSame ha
  have a₂ : s₂.nodes[a]? = some {i with prev := some c} := (putOther ca).trans a₁
  have c₃ : s₃.nodes[c]? = some {n with next := some a} := (putOther ca.symm).trans c₂
  have a₃ : s₃.nodes[a]? = some {i with prev := some c, head := n.head, right := n.right, left := n.left} :=
    putSame a₂
  have other (b : Nat) (ba : b ≠ a) (bc : b ≠ c) : s₃.nodes[b]? = s.nodes[b]? :=
    (putOther ba.symm).trans ((putOther bc.symm).trans (putOther ba.symm))
  have started : attach s (some a) parent (some c) = place s₃ (some a) parent :=
    (okBind (storeSome ha)).trans <| (okBind (storeSome c₁)).trans <|
      (okBind (loadSome c₂)).trans <| okBind (storeSome a₂)
  have apart (b : Nat) (mem : b ∈ (node left time older c right).items) : b ≠ a :=
    fun same => new (same ▸ mem)
  have up (p : Nat) (hp : parent = some p) : p ≠ a ∧ p ∉ (node left time older c right).items ∧
      ∃ pn, s₃.nodes[p]? = some pn := by
    subst hp
    obtain ⟨away,pn,hn,_⟩ := above
    have out := not_or.mp (fun h => away (List.mem_cons.mpr h))
    refine ⟨out.1,out.2,pn,(other p out.1 ?_).trans hn⟩
    exact fun same => out.2 (by simp [same])
  obtain ⟨s',placed,link,keep⟩ := placeSpec a₃ fresh.timestamp (fun p hp => (up p hp).2.2)
  refine ⟨s',started.trans placed,⟨some a,?_,?_⟩,?_⟩
  · have stay (b : Nat) (mem : b = a ∨ b ∈ (node left time older c right).items) :
        s'.nodes[b]? = s₃.nodes[b]? := by
      refine keep b (fun hp => ?_)
      rcases mem with rfl | mem
      · exact (up b hp).1 rfl
      · exact (up b hp).2.1 mem
    refine chainRep rep nodup hc ((stay c (.inr (by simp))).trans c₃)
      ((stay a (.inl rfl)).trans a₃) fresh.timestamp rfl rfl rfl rfl ?_
    intro b mem bc
    exact (stay b (.inr mem)).trans (other b (apart b mem) bc)
  · cases parent with
    | none => exact link
    | some p =>
      obtain ⟨pa,out,_⟩ := up p rfl
      have same : s₃.nodes[p]? = s.nodes[p]? := other p pa (fun same => out (by simp [same]))
      exact ⟨link.1,link.2.trans (by rw [same])⟩
  · intro b out ba bp
    exact (keep b bp).trans (other b ba (fun same => out (by simp [same])))

theorem notItems {left right : Shape} {k : Nat} {older : List Nat}
    (new : a ∉ (node left k older c right).items) : a ≠ c ∧ a ∉ left.items ∧ a ∉ right.items := by
  simp only [itemsNode,List.mem_append,List.mem_singleton,not_or] at new
  exact ⟨new.2.1.2,new.1,new.2.2⟩

theorem followSpec {x : Nat} {n : TreeNode} {q : Option Nat} {f : TreeNode → TreeNode}
    (hx : s.nodes[x]? = some n) (hf : f n = relink time (some a) n)
    (ha : s.nodes[a]? = some i) (fresh : Fresh a time i) (xa : x ≠ a) (rep : RepTree s.nodes q t)
    (further : ∀ c, q = some c → ∃ s', descend s (some a) fuel (some x) (some c) = .ok s' ∧
      Relinked s s' time a (some x) t (t.insert time a)) :
    ∃ s', (if q.isNone then s.store (some x) f else descend s (some a) fuel (some x) q) = .ok s' ∧
      Relinked s s' time a (some x) t (t.insert time a) := by
  cases q with
  | some c => exact further c rfl
  | none =>
    have empty : t = leaf := (repRoot rep).mp rfl
    subst empty
    refine ⟨_,storeSome hx,⟨some a,freshRep ((putOther xa).trans ha) fresh,rfl,?_⟩,?_⟩
    · rw [putSame hx,hx,hf]; rfl
    · intro b _ _ away
      exact putOther (fun same => away (by rw [same]))

theorem relinkedUp {left right left' right' sub sub' : Shape} {k x : Nat} {older : List Nat} {n : TreeNode}
    (rep : RepTree s.nodes (some x) (node left k older x right))
    (nodup : (node left k older x right).items.Nodup)
    (new : a ∉ (node left k older x right).items)
    (above : Above s time (a :: (node left k older x right).items) (some x) parent)
    (hx : s.nodes[x]? = some n)
    (side : if time > n.timestamp then sub = right ∧ sub' = right' ∧ left' = left
      else sub = left ∧ sub' = left' ∧ right' = right)
    (h : Relinked s s' time a (some x) sub sub') :
    Relinked s s' time a parent (node left k older x right) (node left' k older x right') := by
  obtain ⟨top,chain,n',hn,oldest,hl,hr⟩ := rep
  cases Option.some.inj (hx.symm.trans hn)
  obtain ⟨ax,newLeft,newRight⟩ := notItems new
  simp only [itemsNode,List.nodup_append,List.mem_append] at nodup
  obtain ⟨_,⟨⟨_,_,apart⟩,_,rightApart⟩,leftApart⟩ := nodup
  obtain ⟨⟨link,sublink⟩,frame⟩ := h
  obtain ⟨repSub,root,top'⟩ := sublink
  have hx' : s'.nodes[x]? = some (relink time link n) := by rw [top',hx]; rfl
  have inSub (b : Nat) (out : b ∉ left.items ∧ b ∉ right.items) : b ∉ sub.items := by
    split at side <;> (rw [side.1]; first | exact out.2 | exact out.1)
  have outside (b : Nat) (hl : b ∉ left.items) (hr : b ∉ right.items) (ba : b ≠ a) (bx : b ≠ x) :
      s'.nodes[b]? = s.nodes[b]? :=
    frame b (inSub b ⟨hl,hr⟩) ba (fun same => bx (Option.some.inj same).symm)
  have notNew (b : Nat) (mem : b ∈ older) : b ≠ a := fun same => new (by simp [← same,mem])
  refine ⟨⟨some x,⟨rfl,?_,relink time link n,hx',?_,?_⟩,?_⟩,?_⟩
  · refine linkedFields (fun b mem => ?_) chain
    rcases List.mem_append.mp mem with mem | mem
    · rw [outside b (fun h => leftApart b h b (.inl (.inl mem)) rfl)
        (fun h => rightApart b (.inl mem) b h rfl) (notNew b mem) (apart b mem x List.mem_cons_self)]
    · cases List.mem_singleton.mp mem
      rw [hx',hx]
      simp only [relink,Option.map_some]
      split <;> rfl
  · rw [← oldest]
    unfold relink; split <;> rfl
  · have leftKept (b : Nat) (mem : b ∈ left.items) (out : b ∉ sub.items) : s'.nodes[b]? = s.nodes[b]? :=
      frame b out (fun same => newLeft (same ▸ mem))
        (fun same => leftApart b mem x (.inl (.inr List.mem_cons_self)) (Option.some.inj same).symm)
    have rightKept (b : Nat) (mem : b ∈ right.items) (out : b ∉ sub.items) : s'.nodes[b]? = s.nodes[b]? :=
      frame b out (fun same => newRight (same ▸ mem))
        (fun same => rightApart x (.inr List.mem_cons_self) b mem (Option.some.inj same))
    by_cases greater : time > n.timestamp
    · rw [if_pos greater] at side
      obtain ⟨rfl,rfl,rfl⟩ := side
      simp only [relink,if_pos greater]
      refine ⟨repFrame (fun b mem => leftKept b mem ?_) hl,repSub⟩
      exact fun h => leftApart b mem b (.inr h) rfl
    · rw [if_neg greater] at side
      obtain ⟨rfl,rfl,rfl⟩ := side
      simp only [relink,if_neg greater]
      refine ⟨repSub,repFrame (fun b mem => rightKept b mem ?_) hr⟩
      exact fun h => leftApart b h b (.inr mem) rfl
  · refine sameLink above (fun p hp => ?_) root
    subst hp
    obtain ⟨pa,out⟩ := not_or.mp (fun h => above.1 (List.mem_cons.mpr h))
    obtain ⟨px,outLeft,outRight⟩ := notItems out
    exact outside p outLeft outRight pa px
  · intro b out ba _
    obtain ⟨bx,outLeft,outRight⟩ := notItems out
    exact outside b outLeft outRight ba bx

/-- The search loop, by induction on the subtree it stands on. Each turn either ends
in `attach` or in an empty link, or moves to a smaller subtree whose parent is the
node it left. -/
theorem descendSpec (parent : Option Nat) (rep : RepTree s.nodes (some c) t) (nodup : t.items.Nodup)
    (ha : s.nodes[a]? = some i) (fresh : Fresh a time i) (new : a ∉ t.items)
    (above : Above s time (a :: t.items) (some c) parent) (enough : t.items.length < fuel) :
    ∃ s', descend s (some a) fuel parent (some c) = .ok s' ∧
      Relinked s s' time a parent t (t.insert time a) := by
  induction t generalizing c parent fuel with
  | leaf => simp [RepTree] at rep
  | node left k older x right ihl ihr =>
    cases fuel with
    | zero => simp at enough
    | succ fuel =>
    have rep' := rep
    obtain ⟨top,chain,n,hn,_,hl,hr⟩ := rep
    cases top
    have stamp : n.timestamp = k := by
      obtain ⟨n',hn',time'⟩ := linkedAt chain (List.mem_append_right older List.mem_cons_self)
      cases Option.some.inj (hn.symm.trans hn')
      exact time'
    obtain ⟨ax,newLeft,newRight⟩ := notItems new
    have parts := nodup
    simp only [itemsNode,List.nodup_append,List.mem_append] at parts
    obtain ⟨nodupLeft,⟨_,nodupRight,rightApart⟩,leftApart⟩ := parts
    have xLeft : x ∉ a :: left.items := by
      intro mem
      rcases List.mem_cons.mp mem with same | mem
      · exact ax same.symm
      · exact leftApart x mem x (.inl (.inr List.mem_cons_self)) rfl
    have xRight : x ∉ a :: right.items := by
      intro mem
      rcases List.mem_cons.mp mem with same | mem
      · exact ax same.symm
      · exact rightApart x (.inr List.mem_cons_self) x mem rfl
    have size : left.items.length < fuel ∧ right.items.length < fuel := by
      simp only [itemsNode,List.length_append,List.length_singleton] at enough
      omega
    have entered : descend s (some a) (fuel + 1) parent (some x) =
        (if n.timestamp = i.timestamp then attach s (some a) parent (some x)
        else if i.timestamp > n.timestamp then
          if n.right.isNone then s.store (some x) ({· with right := some a})
          else descend s (some a) fuel (some x) n.right
        else
          if n.left.isNone then s.store (some x) ({· with left := some a})
          else descend s (some a) fuel (some x) n.left) :=
      (okBind (loadSome hn)).trans (okBind (loadSome ha))
    rw [entered,fresh.timestamp,ChainTree.insert,← stamp]
    by_cases same : n.timestamp = time
    · rw [if_pos same,if_pos same]
      rw [stamp] at same
      subst same
      rw [stamp]
      exact attachSpec rep' nodup ha fresh new above
    · rw [if_neg same,if_neg same]
      by_cases greater : time > n.timestamp
      · rw [if_pos greater,if_pos greater,stamp]
        have link : linkOf time n = n.right := if_pos greater
        obtain ⟨s',done,linked⟩ := followSpec (f := ({· with right := some a})) hn
          (by simp [relink,greater]) ha fresh (Ne.symm ax) hr (fun c' hc' =>
            ihr (some x) (hc' ▸ hr) nodupRight newRight ⟨xRight,n,hn,link.trans hc'⟩ size.2)
        exact ⟨s',done,relinkedUp rep' nodup new above hn (by simp [greater]) linked⟩
      · rw [if_neg greater,if_neg greater,stamp]
        have link : linkOf time n = n.left := if_neg greater
        obtain ⟨s',done,linked⟩ := followSpec (f := ({· with left := some a})) hn
          (by simp [relink,greater]) ha fresh (Ne.symm ax) hl (fun c' hc' =>
            ihl (some x) (hc' ▸ hl) nodupLeft newLeft ⟨xLeft,n,hn,link.trans hc'⟩ size.1)
        exact ⟨s',done,relinkedUp rep' nodup new above hn (by simp [greater]) linked⟩

theorem rebalanceSpec (asserts : Assertion → Bool) {e : Event} {rest : List Event}
    (rep : RepTree s.nodes s.root t) (nodup : t.items.Nodup) (ha : s.nodes[a]? = some i)
    (new : a ∉ t.items) (front : contents (s.queues i.queue) = e :: rest) :
    ∃ s', eventTreeRebalance asserts s (some a) = .ok s' ∧
      RepTree s'.nodes s'.root (t.insert e.timestamp a) ∧
      ∀ b, b ∉ t.items → b ≠ a → s'.nodes[b]? = s.nodes[b]? := by
  let s₁ := s.put a ({· with right := none, left := none, next := none, prev := none, head := some a})
  let s₂ := s₁.put a ({· with timestamp := e.timestamp})
  let i₁ : TreeNode := {i with right := none, left := none, next := none, prev := none, head := some a}
  let i₂ : TreeNode := {i₁ with timestamp := e.timestamp}
  have a₁ : s₁.nodes[a]? = some i₁ := putSame ha
  have a₂ : s₂.nodes[a]? = some i₂ := putSame a₁
  have fresh : Fresh a e.timestamp i₂ := ⟨rfl,rfl,rfl,rfl,rfl⟩
  have other (b : Nat) (ba : b ≠ a) : s₂.nodes[b]? = s.nodes[b]? :=
    (putOther ba.symm).trans (putOther ba.symm)
  have rep₂ : RepTree s₂.nodes s.root t :=
    repFrame (fun b mem => other b (fun same => new (same ▸ mem))) rep
  have started : eventTreeRebalance asserts s (some a) =
      (if s₂.root.isNone then .ok {s₂ with root := some a}
      else descend s₂ (some a) (s₂.nodes.length + 1) none s₂.root) :=
    (okBind (checkTrue asserts .rebalanceItem)).trans <| (okBind (storeSome ha)).trans <|
      (okBind (loadSome a₁)).trans <| (okBind (peekTimeFront asserts front)).trans <|
        okBind (storeSome a₁)
  rw [started]
  cases root : s.root with
  | none =>
    have empty : t = leaf := (repRoot rep).mp root
    subst empty
    have none : s₂.root.isNone = true := by rw [show s₂.root = s.root from rfl,root]; rfl
    rw [if_pos none]
    exact ⟨_,rfl,freshRep a₂ fresh,fun b _ ba => other b ba⟩
  | some c =>
    have same : s₂.root = some c := root
    have size : t.items.length < s₂.nodes.length + 1 := by
      have := repSize rep₂ nodup
      omega
    rw [root] at rep₂
    obtain ⟨s',done,⟨link,linked,set⟩,frame⟩ :=
      descendSpec none rep₂ nodup a₂ fresh new same size
    rw [same]
    refine ⟨s',done,?_,?_⟩
    · rw [show s'.root = link from set]
      exact linked
    · intro b out ba
      exact (frame b out ba nofun).trans (other b ba)

end Qtl.EventTreeRebalance
