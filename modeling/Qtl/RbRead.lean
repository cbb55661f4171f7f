import Qtl.RbHeld

/-! The macros that only read a tree in memory: the search, RB_MIN, RB_NEXT and the
loops up and down that RB_REMOVE uses. None of them meets a node that is not linked. -/
namespace Qtl.RbTree
open Base.ColoredTree
open ColorTree

section Walk
variable {live : Nat → Bool} {s : Rb} {t : ColorTree Nat} {ctx : List (Frame Nat)} {c : Color} {a e : Nat} {fuel : Nat}
  {parent : Option Nat}

theorem loadFocus (held : Held live s (plug t ctx)) (focus : t.root = some e) :
    ∃ entry, load live s (some e) = .ok entry ∧ entry.parent = up ctx := by
  cases t with
  | leaf => cases focus
  | node c l a r =>
    cases focus
    exact ⟨_,heldLoad (d := .left) held,rfl⟩

-- Induction down the tree: every step takes the focus into the left subtree.
theorem leftmostHeld (held : Held live s (plug t ctx)) (focus : t.root = some e) (enough : t.height < fuel) :
    ∃ c m y ctx', plug (.node c .leaf m y) ctx' = t ∧ before ctx' = [] ∧
      leftmost live fuel s (some e) = .ok (some m) := by
  induction t generalizing ctx e fuel with
  | leaf => cases focus
  | node c l a r ihl ihr =>
    cases focus
    obtain ⟨fuel,rfl⟩ : ∃ k, fuel = k + 1 := ⟨fuel - 1,by omega⟩
    have loaded : load live s (some a) = .ok ⟨l.root,r.root,up ctx,c⟩ := heldLoad (d := .left) held
    have size : l.height < fuel := by
      rw [height] at enough
      omega
    cases l with
    | leaf => exact ⟨c,a,r,[],rfl,rfl,by simp [leftmost,loaded,okBind]⟩
    | node c' l' b r' =>
      obtain ⟨c₁,m,y,ctx',whole,first,found⟩ := ihl (heldNear (d := .left) held) rfl size
      refine ⟨c₁,m,y,ctx' ++ [⟨.left,c,a,r⟩],?_,?_,?_⟩
      · rw [plugAppend,whole]
        rfl
      · simp [beforeAppend,before,first]
      · simpa [leftmost,loaded,okBind] using found

theorem leftmostHead (held : Held live s (plug t ctx)) (focus : t.root = some e) (enough : t.height < fuel) :
    leftmost live fuel s (some e) = .ok t.items.head? := by
  obtain ⟨c,m,y,ctx',whole,first,found⟩ := leftmostHeld held focus enough
  rw [found,← whole,nodeItems,first]
  rfl

theorem minmaxHeld (held : Held live s (plug t ctx)) (enough : t.height < fuel) :
    minmax live fuel s parent t.root = .ok (t.items.head?.or parent) := by
  induction t generalizing ctx fuel parent with
  | leaf =>
    obtain ⟨fuel,rfl⟩ : ∃ k, fuel = k + 1 := ⟨fuel - 1,by omega⟩
    simp [minmax,items]
  | node c l a r ihl ihr =>
    obtain ⟨fuel,rfl⟩ : ∃ k, fuel = k + 1 := ⟨fuel - 1,by omega⟩
    have loaded : load live s (some a) = .ok ⟨l.root,r.root,up ctx,c⟩ := heldLoad (d := .left) held
    have size : l.height < fuel := by
      rw [height] at enough
      omega
    have deeper : minmax live fuel s (some a) l.root = .ok (l.items.head?.or (some a)) :=
      ihl (heldNear (d := .left) held) size
    simp only [minmax,rootNode,Option.isNone_some,Bool.false_eq_true,if_false,loaded,okBind,deeper,items]
    cases l.items <;> simp

-- Induction up the place: a node that is a right child is left for its parent.
theorem ascendHeld (held : Held live s (plug t ctx)) (focus : t.root = some e) (enough : ctx.length < fuel) :
    ascend live fuel s (some e) = .ok (after ctx).head? := by
  induction ctx generalizing t e fuel with
  | nil =>
    obtain ⟨fuel,rfl⟩ : ∃ k, fuel = k + 1 := ⟨fuel - 1,by omega⟩
    obtain ⟨entry,loaded,parent⟩ := loadFocus held focus
    simp [ascend,loaded,okBind,parent,up,after]
  | cons f ctx ih =>
    obtain ⟨fuel,rfl⟩ : ∃ k, fuel = k + 1 := ⟨fuel - 1,by omega⟩
    obtain ⟨entry,loaded,parent⟩ := loadFocus held focus
    have parts := heldParts (heldUp held)
    have loadedUp := heldLoad (heldUp held)
    have higher := ih (heldUp held) (rootGrow ..) (by simpa using enough)
    obtain ⟨side,color,b,u⟩ := f
    have other : u.root ≠ some e := fun same => (parts.nearApart e (rootMem focus)).1 (rootMem same)
    cases side with
    | left =>
      have right : some e ≠ u.root := other.symm
      simp [ascend,loaded,okBind,parent,up,loadedUp,ent,right,after]
    | right =>
      simp [ascend,loaded,okBind,parent,up,loadedUp,ent,focus,after,higher]

theorem climbHeld (held : Held live s (plug t ctx)) (focus : t.root = some e) (enough : ctx.length < fuel) :
    climb live fuel s (some e) = .ok () := by
  induction ctx generalizing t e fuel with
  | nil =>
    obtain ⟨fuel,rfl⟩ : ∃ k, fuel = k + 1 := ⟨fuel - 1,by omega⟩
    obtain ⟨entry,loaded,parent⟩ := loadFocus held focus
    simp [climb,loaded,okBind,parent,up]
  | cons f ctx ih =>
    obtain ⟨fuel,rfl⟩ : ∃ k, fuel = k + 1 := ⟨fuel - 1,by omega⟩
    obtain ⟨entry,loaded,parent⟩ := loadFocus held focus
    have higher := ih (heldUp held) (rootGrow ..) (by simpa using enough)
    simpa [climb,loaded,okBind,parent,up] using higher

theorem climbUp (held : Held live s (plug t ctx)) (enough : ctx.length < fuel) (p : Nat) (top : up ctx = some p) :
    climb live fuel s (some p) = .ok () := by
  cases ctx with
  | nil => cases top
  | cons f ctx =>
    cases top
    exact climbHeld (heldUp held) (rootGrow ..) (by simp at enough; omega)

end Walk

/-- Along the nodes `cmp` is positive, then zero at one node at most, then negative. -/
def Sided (cmp : Nat → Int) (nodes : List Nat) : Prop := nodes.Pairwise (fun a b => cmp a ≤ 0 → cmp b < 0)

section Search
variable {live : Nat → Bool} {s : Rb} {t x y : ColorTree Nat} {ctx : List (Frame Nat)} {c : Color} {a fuel : Nat}
  {comp : Int} {cmp : Nat → Int} {nodes front back : List Nat}

theorem sidedLess (sided : Sided cmp (plug (.node c x a y) ctx).items) (less : cmp a < 0) :
    ∀ k ∈ y.items ++ after ctx, cmp k < 0 := by
  rw [nodeItems] at sided
  have later := (List.pairwise_cons.mp (List.pairwise_append.mp sided).2.1).1
  exact fun k mem => later k mem (Int.le_of_lt less)

theorem sidedMore (sided : Sided cmp (plug (.node c x a y) ctx).items) (more : 0 < cmp a) :
    ∀ k ∈ before ctx ++ x.items, 0 < cmp k := by
  rw [nodeItems] at sided
  intro k mem
  have apart := (List.pairwise_append.mp sided).2.2 k mem a List.mem_cons_self
  by_contra least
  have less := apart (by omega)
  omega

structure Vacant (cmp : Nat → Int) (ctx : List (Frame Nat)) (comp : Int) : Prop where
  sided : ∀ f ∈ ctx.head?, f.side = if comp < 0 then .left else .right
  front : ∀ k ∈ before ctx, 0 < cmp k
  back : ∀ k ∈ after ctx, cmp k < 0

-- Induction down the tree; the nodes passed on the way are in the place already.
theorem searchHeld (held : Held live s (plug t ctx)) (sided : Sided cmp (plug t ctx).items)
    (vacant : Vacant cmp ctx comp) (enough : t.height < fuel) :
    (∃ a ∈ (plug t ctx).items, cmp a = 0 ∧ search live cmp fuel s (up ctx) comp t.root = .ok (.equal (some a))) ∨
    ∃ ctx' comp', plug .leaf ctx' = plug t ctx ∧ Vacant cmp ctx' comp' ∧
      search live cmp fuel s (up ctx) comp t.root = .ok (.absent (up ctx') comp') := by
  induction t generalizing ctx comp fuel with
  | leaf =>
    obtain ⟨fuel,rfl⟩ : ∃ k, fuel = k + 1 := ⟨fuel - 1,by omega⟩
    exact .inr ⟨ctx,comp,rfl,vacant,rfl⟩
  | node c l a r ihl ihr =>
    obtain ⟨fuel,rfl⟩ : ∃ k, fuel = k + 1 := ⟨fuel - 1,by omega⟩
    have alive : live a = true := (heldParts (d := .left) held).alive
    have loaded : load live s (some a) = .ok ⟨l.root,r.root,up ctx,c⟩ := heldLoad (d := .left) held
    have compared : compare live cmp (some a) = .ok (cmp a) := by
      simp only [compare,deref,alive,if_true,okBind]
    rw [height] at enough
    rcases Int.lt_trichotomy (cmp a) 0 with less | zero | more
    · have side := sidedLess sided less
      have place : Vacant cmp (⟨.left,c,a,r⟩ :: ctx) (cmp a) := {
        sided := by simp [less]
        front := vacant.front
        back := by simpa [after,less] using side }
      have step : search live cmp (fuel + 1) s (up ctx) comp (some a) =
          search live cmp fuel s (some a) (cmp a) l.root := by
        simp only [search,Option.isNone_some,Bool.false_eq_true,if_false,compared,okBind,less,if_true,loaded]
      rw [rootNode,step]
      exact ihl (heldNear (d := .left) held) sided place (by omega)
    · refine .inl ⟨a,memPlug.mpr (.inl (by simp [items])),zero,?_⟩
      simp only [rootNode,search,Option.isNone_some,Bool.false_eq_true,if_false,compared,okBind,zero,Int.lt_irrefl,
        gt_iff_lt]
    · have side := sidedMore sided more
      have notLess : ¬ cmp a < 0 := by omega
      have place : Vacant cmp (⟨.right,c,a,l⟩ :: ctx) (cmp a) := {
        sided := by simp [notLess]
        front := by
          intro k mem
          simp only [before,List.mem_append,List.mem_singleton] at mem
          rcases mem with mem | rfl
          · exact side k (List.mem_append.mpr mem)
          · exact more
        back := vacant.back }
      have step : search live cmp (fuel + 1) s (up ctx) comp (some a) =
          search live cmp fuel s (some a) (cmp a) r.root := by
        simp only [search,Option.isNone_some,Bool.false_eq_true,if_false,compared,okBind,notLess,more,gt_iff_lt,
          if_true,loaded]
      rw [rootNode,step]
      exact ihr (heldNear (d := .right) held) sided place (by omega)

theorem vacantApart (vacant : Vacant cmp ctx comp) {a : Nat} (mem : a ∈ (plug .leaf ctx).items) : cmp a ≠ 0 := by
  rw [plugLeaf,above,List.mem_append] at mem
  rcases mem with mem | mem
  · exact (Int.ne_of_lt (vacant.front a mem)).symm
  · exact Int.ne_of_lt (vacant.back a mem)

theorem searchHolds (held : Held live s t) (sided : Sided cmp t.items) (enough : t.height < fuel) :
    (∃ a ∈ t.items, cmp a = 0 ∧ search live cmp fuel s none 0 s.root = .ok (.equal (some a))) ∨
    ∃ ctx comp, plug .leaf ctx = t ∧ Vacant cmp ctx comp ∧
      search live cmp fuel s none 0 s.root = .ok (.absent (up ctx) comp) := by
  have top : Vacant cmp [] 0 := ⟨by simp,by simp [before],by simp [after]⟩
  have whole : Held live s (plug t []) := held
  rw [held.root]
  exact searchHeld whole sided top enough

theorem rbFindHolds (holds : Holds live s nodes) (sided : Sided cmp nodes) (room : Room nodes fuel) :
    (∃ a ∈ nodes, cmp a = 0 ∧ rbFind live cmp fuel s = .ok (some a)) ∨
    (∀ a ∈ nodes, cmp a ≠ 0) ∧ rbFind live cmp fuel s = .ok none := by
  obtain ⟨t,n,held,balanced,rfl⟩ := holds
  rcases searchHolds held sided (room t n balanced rfl) with ⟨a,mem,zero,found⟩ | ⟨ctx,comp,rfl,vacant,found⟩
  · refine .inl ⟨a,mem,zero,?_⟩
    rw [rbFind,found]
    rfl
  · refine .inr ⟨fun a mem => vacantApart vacant mem,?_⟩
    rw [rbFind,found]
    rfl

theorem rbMinHolds (holds : Holds live s nodes) (room : Room nodes fuel) :
    rbMin live fuel s = .ok nodes.head? := by
  obtain ⟨t,n,held,balanced,rfl⟩ := holds
  have whole : Held live s (plug t []) := held
  rw [rbMin,held.root,minmaxHeld whole (room t n balanced rfl),Option.or_none]

theorem holdsEmpty (holds : Holds live s nodes) : s.root.isNone = nodes.isEmpty := by
  obtain ⟨t,n,held,balanced,rfl⟩ := holds
  rw [held.root]
  cases t <;> simp [items]

theorem holdsNodup (holds : Holds live s nodes) : nodes.Nodup := by
  obtain ⟨t,n,held,balanced,rfl⟩ := holds
  exact held.nodup

theorem holdsPlace (holds : Holds live s (front ++ a :: back)) : ∃ c x y ctx n, Held live s (plug (.node c x a y) ctx) ∧
    Balanced (plug (.node c x a y) ctx) .black n ∧ front = before ctx ++ x.items ∧ back = y.items ++ after ctx := by
  obtain ⟨t,n,held,balanced,same⟩ := holds
  have mem : a ∈ t.items := by simp [same]
  obtain ⟨c,x,y,ctx,rfl⟩ : ∃ c x y ctx, plug (.node c x a y) ctx = t := by
    obtain ⟨d,c,x,y,ctx,whole⟩ := memPlace mem
    cases d with
    | left => exact ⟨c,x,y,ctx,whole⟩
    | right => exact ⟨c,y,x,ctx,whole⟩
  have nodup := held.nodup
  rw [nodeItems,List.nodup_middle,List.nodup_cons,List.mem_append,not_or] at nodup
  rw [nodeItems,List.append_cons_inj_of_notMem nodup.1.1 nodup.1.2] at same
  exact ⟨c,x,y,ctx,n,held,balanced,same.1.symm,same.2.2.symm⟩

theorem rbNextHolds (holds : Holds live s (front ++ a :: back)) (room : Room (front ++ a :: back) fuel) :
    rbNext live fuel s (some a) = .ok back.head? := by
  obtain ⟨c,x,y,ctx,n,held,balanced,rfl,rfl⟩ := holdsPlace holds
  have loaded : load live s (some a) = .ok ⟨x.root,y.root,up ctx,c⟩ := heldLoad (d := .left) held
  have enough := room _ n balanced (nodeItems ..)
  have place := placeHeight (.node c x a y) ctx
  rw [height] at place
  cases y with
  | node c' l b r =>
    have found := leftmostHead (heldNear (d := .right) held) rfl (by omega : _ < fuel)
    have head : ((ColorTree.node c' l b r).items ++ after ctx).head? = (ColorTree.node c' l b r).items.head? := by
      simp [items]
    rw [head,← found]
    simp [rbNext,loaded,okBind]
  | leaf =>
    have climbed := ascendHeld held rfl (by omega : _ < fuel)
    cases ctx with
    | nil => simp [rbNext,loaded,okBind,up,climbed,items]
    | cons f ctx =>
      have loadedUp := heldLoad (heldUp held)
      have parts := heldParts (heldUp held)
      obtain ⟨side,color,b,u⟩ := f
      have other : u.root ≠ some a := fun same => (parts.nearApart a (rootMem rfl)).1 (rootMem same)
      cases side with
      | left => simp [rbNext,loaded,okBind,up,loadedUp,ent,items,after]
      | right => simp [rbNext,loaded,okBind,up,loadedUp,ent,items,other.symm,climbed]

end Search

inductive Linked (s : Rb) : Nat → Prop where
  | root {a} (top : s.root = some a) : Linked s a
  | child {a b} (d : Side) (parent : Linked s a) (next : (s.entry a).child d = some b) : Linked s b

section Linked
variable {live live' : Nat → Bool} {s s' : Rb} {t : ColorTree Nat} {a : Nat} {nodes : List Nat} {parent : Option Nat}

theorem linkedBelow (links : Mem s (layout t parent)) (top : ∀ a, t.root = some a → Linked s a) :
    ∀ a ∈ t.items, Linked s a := by
  induction t generalizing parent with
  | leaf => simp [items]
  | node c l b r ihl ihr =>
    have here : Linked s b := top b rfl
    obtain ⟨entry,left,right⟩ := (memGrowLinks (d := .left)).mp links
    have below := ihl left (fun k root => .child .left here (by simp [entry,root]))
    have above := ihr right (fun k root => .child .right here (by rw [entry]; exact root))
    intro a mem
    rcases List.mem_append.mp mem with mem | mem
    · exact below a mem
    · rcases List.mem_cons.mp mem with rfl | mem
      · exact here
      · exact above a mem

theorem linkedHolds (holds : Holds live s nodes) : Linked s a ↔ a ∈ nodes := by
  obtain ⟨t,n,held,balanced,rfl⟩ := holds
  refine ⟨fun linked => ?_,linkedBelow held.links (fun k root => .root (held.root.trans root)) a⟩
  induction linked with
  | root top => exact rootMem (held.root.symm.trans top)
  | @child a b d parent next mem =>
    obtain ⟨d',c,x,y,ctx,rfl⟩ := memPlace mem
    have parts := heldParts held
    rw [parts.entry] at next
    refine memPlug.mpr (.inl (memGrow.mpr ?_))
    cases d <;> cases d' <;> simp only [ent,RbEntry.child] at next <;> have mem := rootMem next <;> tauto

theorem holdsFrame (holds : Holds live s nodes) (alive : ∀ a ∈ nodes, live' a = true) (root : s'.root = s.root)
    (same : ∀ a ∈ nodes, s'.entry a = s.entry a) : Holds live' s' nodes := by
  obtain ⟨t,n,held,balanced,rfl⟩ := holds
  have links : Mem s' (layout t none) := memFrame held.links (fun x mem => same x.1 (layoutItems mem))
  exact ⟨t,n,⟨root.trans held.root,links,held.nodup,alive⟩,balanced,rfl⟩

theorem holdsAlive (holds : Holds live s nodes) : ∀ a ∈ nodes, live a = true := by
  obtain ⟨t,n,held,balanced,rfl⟩ := holds
  exact held.alive

end Linked

end Qtl.RbTree
