import Qtl.EventTreeRebalance

/-! The first half of event_tree_read takes the first node of the reading order out
of a represented tree and leaves every other node's place in that order alone. -/
namespace Qtl.EventTreeRead
open Queue EventTree EventTreeShape EventTreeRebalance
open Base (ChainTree)
open Base.ChainTree

variable {s s' : World} {parent : Option Nat} {c fuel : Nat} {t : Shape}

def LeftOf (s : World) (away : List Nat) (current : Option Nat) : Option Nat → Prop
  | none => s.root = current
  | some p => p ∉ away ∧ ∃ n, s.nodes[p]? = some n ∧ n.left = current

def LeftSet (s s' : World) (link : Option Nat) : Option Nat → Prop
  | none => s'.root = link
  | some p => s'.root = s.root ∧ s'.nodes[p]? = ({· with left := link}) <$> s.nodes[p]?

structure Taken (s s' : World) (a : Nat) (parent : Option Nat) (t t' : Shape) : Prop where
  rep : ∃ link, RepTree s'.nodes link t' ∧ LeftSet s s' link parent
  frame : ∀ b, b ∉ t.items → parent ≠ some b → s'.nodes[b]? = s.nodes[b]?

theorem leftUnmoved (above : LeftOf s (t.items) (some c) parent) (root : s'.root = s.root)
    (kept : ∀ p, parent = some p → s'.nodes[p]? = s.nodes[p]?) : LeftSet s s' (some c) parent := by
  cases parent with
  | none => exact root.trans above
  | some p =>
    obtain ⟨_,n,hn,link⟩ := above
    refine ⟨root,?_⟩
    rw [kept p rfl,hn,← link]
    rfl

theorem linkedNewest {nodes : List TreeNode} {key x : Nat} {before : Option Nat} (chain : List Nat)
    {n : TreeNode} (h : Linked nodes key before (chain ++ [x])) (hx : nodes[x]? = some n) :
    n.prev = chain.getLast?.or before := by
  induction chain generalizing before with
  | nil =>
    obtain ⟨⟨n',hn,_,prev,_⟩,_⟩ := h
    cases Option.some.inj (hx.symm.trans hn)
    exact prev
  | cons a rest ih =>
    rw [ih h.2,List.getLast?_cons]
    cases rest.getLast? <;> rfl

theorem linkedHead {nodes : List TreeNode} {key a b : Nat} {before : Option Nat} {rest : List Nat}
    (h : Linked nodes key before (a :: b :: rest)) : ∃ n, nodes[a]? = some n ∧ n.next = some b := by
  obtain ⟨⟨n,hn,_,_,next⟩,_⟩ := h
  exact ⟨n,hn,next b rfl⟩

theorem unlinkLone {right : Shape} {key x : Nat}
    (rep : RepTree s.nodes (some x) (node leaf key [] x right))
    (nodup : (node leaf key [] x right).items.Nodup)
    (above : LeftOf s (node leaf key [] x right).items (some x) parent) :
    ∃ s', unlinkCurrent s parent (some x) = .ok (s',some x) ∧
      Taken s s' x parent (node leaf key [] x right) right := by
  obtain ⟨_,chain,n,hn,_,_,hr⟩ := rep
  have lone : n.prev = none := linkedNewest [] chain hn
  simp only [itemsNode,itemsLeaf,List.nil_append,List.singleton_append,List.nodup_cons] at nodup above
  cases parent with
  | none =>
    let s₁ : World := {s with root := n.right}
    have done : unlinkCurrent s none (some x) = .ok (s₁.put x ({· with right := none}),some x) := by
      refine (okBind (loadSome hn)).trans ?_
      simp only [lone,Option.isSome_none,Bool.false_eq_true,if_false]
      exact (okBind rfl).trans (okBind (storeSome (s := s₁) hn))
    refine ⟨_,done,⟨n.right,?_,rfl⟩,?_⟩
    · exact repFrame (fun b mem => putOther (s := s₁) (fun same => nodup.1 (same ▸ mem))) hr
    · intro b out _
      exact putOther (s := s₁) (fun same => out (by simp [same]))
  | some p =>
    obtain ⟨away,pn,hp,_⟩ := above
    obtain ⟨px,pr⟩ := not_or.mp (fun h => away (List.mem_cons.mpr h))
    let s₁ := s.put p ({· with left := n.right})
    have x₁ : s₁.nodes[x]? = some n := (putOther px).trans hn
    have done : unlinkCurrent s (some p) (some x) = .ok (s₁.put x ({· with right := none}),some x) := by
      refine (okBind (loadSome hn)).trans ?_
      simp only [lone,Option.isSome_none,Bool.false_eq_true,if_false]
      exact (okBind (storeSome hp)).trans (okBind (storeSome x₁))
    have other (b : Nat) (bx : b ≠ x) (bp : b ≠ p) :
        (s₁.put x ({· with right := none})).nodes[b]? = s.nodes[b]? :=
      (putOther bx.symm).trans (putOther bp.symm)
    refine ⟨_,done,⟨n.right,?_,rfl,?_⟩,?_⟩
    · exact repFrame (fun b mem => other b (fun same => nodup.1 (same ▸ mem))
        (fun same => pr (same ▸ mem))) hr
    · rw [putOther (Ne.symm px),putSame hp,hp]; rfl
    · intro b out bp
      exact other b (fun same => out (by simp [same])) (fun same => bp (by rw [same]))

/-- The two stores that take the oldest node out of a chain. They meet when the second
node is the newest itself, whose head the first store leaves as it was. -/
theorem unlinkStores {x oldest second : Nat} {n o m : TreeNode} (hn : s.nodes[x]? = some n)
    (chained : n.prev.isSome) (head : n.head = some oldest) (ho : s.nodes[oldest]? = some o)
    (next : o.next = some second) (hm : s.nodes[second]? = some m) (os : oldest ≠ second) :
    ∃ n₁, (s.put second ({· with prev := none})).nodes[x]? = some n₁ ∧ n₁.left = n.left ∧ n₁.right = n.right ∧
      unlinkCurrent s parent (some x) =
        .ok ((s.put second ({· with prev := none})).put x ({· with head := some second}),some oldest) := by
  let s₁ := s.put second ({· with prev := none})
  have o₁ : s₁.nodes[oldest]? = some o := (putOther os.symm).trans ho
  have m₁ : s₁.nodes[second]? = some {m with prev := none} := putSame hm
  obtain ⟨n₁,hn₁,head₁,left₁,right₁⟩ : ∃ n₁, s₁.nodes[x]? = some n₁ ∧ n₁.head = n.head ∧
      n₁.left = n.left ∧ n₁.right = n.right := by
    by_cases same : second = x
    · subst same
      cases Option.some.inj (hm.symm.trans hn)
      exact ⟨_,m₁,rfl,rfl,rfl⟩
    · exact ⟨n,(putOther same).trans hn,rfl,rfl,rfl⟩
  refine ⟨n₁,hn₁,left₁,right₁,(okBind (loadSome hn)).trans ?_⟩
  simp only [chained,if_true,head]
  refine (okBind (loadSome ho)).trans ?_
  rw [next]
  refine (okBind (storeSome hm)).trans ?_
  refine (okBind (loadSome hn₁)).trans ?_
  rw [head₁,head]
  refine (okBind (loadSome o₁)).trans ?_
  rw [next]
  exact okBind (storeSome hn₁)

theorem unlinkOldest {right : Shape} {key x oldest : Nat} {older : List Nat}
    (rep : RepTree s.nodes (some x) (node leaf key (oldest :: older) x right))
    (nodup : (node leaf key (oldest :: older) x right).items.Nodup)
    (above : LeftOf s (node leaf key (oldest :: older) x right).items (some x) parent) :
    ∃ s', unlinkCurrent s parent (some x) = .ok (s',some oldest) ∧
      Taken s s' oldest parent (node leaf key (oldest :: older) x right)
        (node leaf key older x right) := by
  obtain ⟨_,chain,n,hn,head,hl,hr⟩ := rep
  have chained : n.prev.isSome := by
    rw [linkedNewest _ chain hn,List.getLast?_cons]; rfl
  obtain ⟨second,rest,tail⟩ : ∃ second rest, older ++ [x] = second :: rest := by
    cases older with
    | nil => exact ⟨x,[],rfl⟩
    | cons b older => exact ⟨b,older ++ [x],rfl⟩
  simp only [List.cons_append,tail] at chain head
  obtain ⟨o,ho,next⟩ := linkedHead chain
  obtain ⟨m,hm,_⟩ := linkedAt chain (List.mem_cons_of_mem oldest List.mem_cons_self)
  simp only [itemsNode,itemsLeaf,List.nil_append,List.cons_append,tail] at nodup
  have inside : x ∈ second :: rest := by rw [← tail]; simp
  obtain ⟨outOldest,nodup⟩ := List.nodup_cons.mp nodup
  rw [← List.cons_append] at nodup
  obtain ⟨nodupChain,_,apart⟩ := List.nodup_append.mp nodup
  have os : oldest ≠ second := fun same => outOldest (by simp [same])
  obtain ⟨n₁,hn₁,left₁,right₁,done⟩ := unlinkStores hn chained head ho next hm os
  let s₁ := s.put second ({· with prev := none})
  let s₂ := s₁.put x ({· with head := some second})
  have m₁ : s₁.nodes[second]? = some {m with prev := none} := putSame hm
  have x₂ : s₂.nodes[x]? = some {n₁ with head := some second} := putSame hn₁
  have other (b : Nat) (bs : b ≠ second) (bx : b ≠ x) : s₂.nodes[b]? = s.nodes[b]? :=
    (putOther bx.symm).trans (putOther bs.symm)
  have outside (b : Nat) (out : b ∉ second :: rest) : s₂.nodes[b]? = s.nodes[b]? :=
    other b (fun same => out (by simp [same])) (fun same => out (same ▸ inside))
  refine ⟨s₂,done,⟨some x,⟨rfl,?_,{n₁ with head := some second},x₂,?_,?_,?_⟩,?_⟩,?_⟩
  · rw [tail]
    have first : Linked s₁.nodes key none (second :: rest) := by
      refine linkedTail chain hm m₁ (fun b mem => putOther (fun same => ?_))
      exact (List.nodup_cons.mp nodupChain).1 (same ▸ mem)
    refine linkedFields (fun b mem => ?_) first
    by_cases same : x = b
    · subst same
      rw [x₂,hn₁]; rfl
    · rw [putOther same]
  · rw [tail]; rfl
  · change RepTree s₂.nodes n₁.left leaf
    rw [left₁]
    exact hl
  · change RepTree s₂.nodes n₁.right right
    rw [right₁]
    exact repFrame (fun b mem => outside b (fun h => apart b h b mem rfl)) hr
  · refine leftUnmoved above rfl (fun p hp => ?_)
    subst hp
    refine outside p (fun h => above.1 ?_)
    simp only [itemsNode,itemsLeaf,List.nil_append,List.cons_append,tail]
    exact List.mem_cons_of_mem _ (List.mem_append_left _ h)
  · intro b out _
    refine outside b (fun h => out ?_)
    simp only [itemsNode,itemsLeaf,List.nil_append,List.cons_append,tail]
    exact List.mem_cons_of_mem _ (List.mem_append_left _ h)

theorem takenUp {left left' right : Shape} {key x a : Nat} {older : List Nat} {n : TreeNode}
    (rep : RepTree s.nodes (some x) (node left key older x right))
    (nodup : (node left key older x right).items.Nodup) (hx : s.nodes[x]? = some n)
    (above : LeftOf s (node left key older x right).items (some x) parent)
    (h : Taken s s' a (some x) left left') :
    Taken s s' a parent (node left key older x right) (node left' key older x right) := by
  obtain ⟨_,chain,n',hn,head,_,hr⟩ := rep
  cases Option.some.inj (hx.symm.trans hn)
  simp only [itemsNode,List.nodup_append,List.mem_append] at nodup
  obtain ⟨_,⟨⟨_,_,apart⟩,_,rightApart⟩,leftApart⟩ := nodup
  obtain ⟨⟨link,repLeft,root,set⟩,frame⟩ := h
  have hx' : s'.nodes[x]? = some {n with left := link} := by rw [set,hx]; rfl
  have outside (b : Nat) (out : b ∉ left.items) (bx : b ≠ x) : s'.nodes[b]? = s.nodes[b]? :=
    frame b out (fun same => bx (Option.some.inj same).symm)
  refine ⟨⟨some x,⟨rfl,?_,_,hx',head,repLeft,?_⟩,?_⟩,?_⟩
  · refine linkedFields (fun b mem => ?_) chain
    rcases List.mem_append.mp mem with mem | mem
    · rw [outside b (fun h => leftApart b h b (.inl (.inl mem)) rfl) (apart b mem x List.mem_cons_self)]
    · cases List.mem_singleton.mp mem
      rw [hx',hx]; rfl
  · exact repFrame (fun b mem => outside b (fun h => leftApart b h b (.inr mem) rfl)
      (rightApart x (.inr List.mem_cons_self) b mem).symm) hr
  · refine leftUnmoved above root (fun p hp => ?_)
    subst hp
    have out := above.1
    simp only [itemsNode,List.mem_append,List.mem_singleton,not_or] at out
    exact outside p out.1 out.2.1.2
  · intro b out _
    simp only [itemsNode,List.mem_append,List.mem_singleton,not_or] at out
    exact outside b out.1 out.2.1.2

theorem leftmostSpec (fuel : Nat) (parent : Option Nat) (rep : RepTree s.nodes (some c) t) (nodup : t.items.Nodup)
    (above : LeftOf s t.items (some c) parent) (enough : t.items.length < fuel) :
    ∃ s' k a t', (leftmost s fuel parent (some c) >>= fun (p,c) => unlinkCurrent s p c) = .ok (s',some a) ∧
      t.takeFirst = some ((k,a),t') ∧ Taken s s' a parent t t' := by
  induction t generalizing c parent fuel with
  | leaf => simp [RepTree] at rep
  | node left key older x right ihl ihr =>
    cases fuel with
    | zero => simp at enough
    | succ fuel =>
    have rep' := rep
    obtain ⟨top,chain,n,hn,_,hl,_⟩ := rep
    cases top
    have entered : leftmost s (fuel + 1) parent (some x) =
        (if n.left.isSome then leftmost s fuel (some x) n.left else .ok (parent,some x)) :=
      okBind (loadSome hn)
    rw [entered]
    cases left with
    | leaf =>
      rw [show n.left = none from hl]
      cases older with
      | nil =>
        obtain ⟨s',done,taken⟩ := unlinkLone rep' nodup above
        exact ⟨s',key,x,right,done,rfl,taken⟩
      | cons oldest older =>
        obtain ⟨s',done,taken⟩ := unlinkOldest rep' nodup above
        exact ⟨s',key,oldest,_,done,rfl,taken⟩
    | node l k o y r =>
      have link : n.left = some y := hl.1
      have parts := nodup
      rw [itemsNode,List.nodup_append] at parts
      obtain ⟨nodupLeft,_,apart⟩ := parts
      have away : x ∉ (node l k o y r).items :=
        fun mem => apart x mem x (by simp) rfl
      have size : (node l k o y r).items.length < fuel := by
        rw [itemsNode,List.length_append] at enough
        simp only [List.length_append,List.length_singleton] at enough
        omega
      obtain ⟨s',k',a,t',done,first,taken⟩ :=
        ihl fuel (some x) (link ▸ hl) nodupLeft ⟨away,n,hn,link⟩ size
      refine ⟨s',k',a,node t' key older x right,?_,?_,takenUp rep' nodup hn above taken⟩
      · rw [link]
        exact done
      · simp [takeFirst,first]

theorem unlinkCases {current taken : Option Nat} (h : unlinkCurrent s parent current = .ok (s',taken)) :
    ∃ c s₁, s.load current = .ok c ∧
      ((∃ second head, s.store second ({· with prev := none}) = .ok s₁ ∧
          s₁.store current ({· with head := head}) = .ok s') ∨
        c.prev = none ∧ taken = current ∧ bypass s parent c.right = .ok s₁ ∧
          s₁.store current ({· with right := none}) = .ok s') := by
  unfold unlinkCurrent at h
  obtain ⟨c,loaded,h⟩ := bindOk h
  split at h
  · obtain ⟨o,_,h⟩ := bindOk h
    obtain ⟨s₁,h₁,h⟩ := bindOk h
    obtain ⟨c',_,h⟩ := bindOk h
    obtain ⟨o',_,h⟩ := bindOk h
    obtain ⟨s₂,h₂,h⟩ := bindOk h
    cases h
    exact ⟨c,s₁,loaded,.inl ⟨o.next,o'.next,h₁,h₂⟩⟩
  · rename_i lone
    obtain ⟨s₁,h₁,h⟩ := bindOk h
    obtain ⟨s₂,h₂,h⟩ := bindOk h
    cases h
    exact ⟨c,s₁,loaded,.inr ⟨by simpa using lone,rfl,h₁,h₂⟩⟩

theorem unlinkKeeps {current taken : Option Nat} (h : unlinkCurrent s parent current = .ok (s',taken)) :
    Keeps (fun _ => True) s s' := by
  obtain ⟨c,s₁,_,⟨_,_,h₁,h₂⟩ | ⟨_,_,h₁,h₂⟩⟩ := unlinkCases h
  · have k₁ : Keeps (fun _ => True) s s₁ := keepsStore h₁ (fun _ => rfl) (.inl fun _ _ => trivial)
    exact keepsTrans k₁ (keepsStore h₂ (fun _ => rfl) (.inr fun _ => rfl))
  · have k₂ : Keeps (fun _ => True) s₁ s' := keepsStore h₂ (fun _ => rfl) (.inr fun _ => rfl)
    cases parent with
    | none => cases h₁; exact keepsTrans keepsRoot k₂
    | some p =>
      simp only [bypass] at h₁
      exact keepsTrans (keepsStore h₁ (fun _ => rfl) (.inr fun _ => rfl)) k₂

theorem takeCurrentSpec {k a : Nat} {t' : Shape} (rep : RepTree s.nodes s.root t) (nodup : t.items.Nodup)
    (first : t.takeFirst = some ((k,a),t')) :
    ∃ s', takeCurrent s = .ok (s',some a) ∧ RepTree s'.nodes s'.root t' ∧
      (∀ b, b ∉ t.items → s'.nodes[b]? = s.nodes[b]?) ∧ Keeps (fun _ => True) s s' := by
  have size := repSize rep nodup
  cases root : s.root with
  | none =>
    have empty : t = leaf := (repRoot rep).mp root
    subst empty
    cases first
  | some c =>
    have rep' := rep
    rw [root] at rep'
    obtain ⟨s',k',a',t'',done,first',⟨link,linked,set⟩,frame⟩ :=
      leftmostSpec (s.nodes.length + 1) none rep' nodup root (by omega)
    cases first.symm.trans first'
    have ran : takeCurrent s = .ok (s',some a) := by
      rw [takeCurrent,root]
      exact done
    refine ⟨s',ran,?_,fun b out => frame b out nofun,?_⟩
    · rw [show s'.root = link from set]
      exact linked
    · obtain ⟨_,_,unlinked⟩ := bindOk ran
      exact unlinkKeeps unlinked

end Qtl.EventTreeRead
