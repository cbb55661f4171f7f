import Qtl.RbInsert

/-! RB_REMOVE on a red-black tree in memory. The node that leaves the tree is unlinked
by pointers alone, and RB_REMOVE_COLOR restores the balance from its place upwards. -/
namespace Qtl.RbTree
open Base.ColoredTree
open ColorTree

section Place
variable {live : Nat → Bool} {s : Rb} {t : ColorTree Nat} {f : Frame Nat} {ctx : List (Frame Nat)} {c : Color} {n : Nat}

theorem rootAboveMem (f : Frame Nat) (ctx : List (Frame Nat)) (p : Option Nat) :
    ∃ b ∈ above (f :: ctx), rootAbove (f :: ctx) p = some b := by
  induction ctx generalizing f p with
  | nil => exact ⟨f.item,memAbove.mpr (.inl rfl),rfl⟩
  | cons g ctx ih =>
    obtain ⟨b,mem,same⟩ := ih g (some f.item)
    exact ⟨b,memAbove.mpr (.inr (.inr mem)),same⟩

theorem rootNotFocus (held : Held live s (plug t (f :: ctx))) : t.root ≠ s.root := by
  obtain ⟨b,mem,same⟩ := rootAboveMem f ctx t.root
  rw [held.root,plugRoot,same]
  intro focus
  exact (plugApart held.nodup).2.2 b (rootMem focus) mem

theorem fitsItem {d : Side} {a b : Nat} {x : ColorTree Nat} {c' : Color} (above : List (Frame Nat))
    (fits : Fits (above ++ ⟨d,c',a,x⟩ :: ctx) c n) : Fits (above ++ ⟨d,c',b,x⟩ :: ctx) c n := by
  induction above generalizing c n with
  | nil =>
    cases fits with
    | red sibling rest => exact .red sibling rest
    | black sibling rest => exact .black sibling rest
  | cons g above ih =>
    cases fits with
    | red sibling rest => exact .red sibling (ih rest)
    | black sibling rest => exact .black sibling (ih rest)

end Place

section Exit
variable {live : Nat → Bool} {s : Rb} {t x y : ColorTree Nat} {ctx : List (Frame Nat)} {d : Side} {c c' : Color}
  {a n fuel : Nat}

theorem blackenWhole (held : Held live s t) (balanced : Balanced t .black n) :
    Yields live t.items (blackenElm live s s.root) := by
  rw [held.root]
  cases balanced with
  | leaf => exact ⟨s,rfl,_,_,held,.leaf,rfl⟩
  | @black l a r c c' n left right =>
    have top : Held live s (plug (grow .left .black l a r) []) := held
    obtain ⟨s',coloured,held'⟩ := heldColor top .black
    exact ⟨s',coloured,_,_,held',.black left right,rfl⟩

theorem blackenRed (held : Held live s (plug (grow d .red x a y) ctx)) (near : Balanced x c n) (far : Balanced y c' n)
    (fits : Fits ctx .black (n + 1)) :
    Yields live (plug (grow d .red x a y) ctx).items (removeColor live (fuel + 1) s (up ctx) (some a)) := by
  obtain ⟨s',coloured,held'⟩ := heldColor held .black
  obtain ⟨m,balanced⟩ := fitsBalanced fits (growBlack near far)
  have red : isBlack live s (some a) = .ok false := by
    rw [isBlack,if_neg (by simp),heldLoad held,okBind,entColor]
    rfl
  refine ⟨s',?_,_,m,held',balanced,plugSame (itemsRecolor ..) ctx⟩
  simpa [removeColor,red,okBind,blackenElm] using coloured

end Exit

section Pass
variable {live : Nat → Bool} {s : Rb} {t x y u v w : ColorTree Nat} {ctx rest : List (Frame Nat)} {d : Side}
  {c c₁ c₂ : Color} {a b p : Nat} {n fuel : Nat}

theorem redSibling (held : Held live s (plug (grow d .black t p (grow d .red x a y)) rest)) :
    ∃ s', removeColorRed live d s (some p) = .ok (s',x.root) ∧
      Held live s' (plug (grow d .black (grow d .red t p x) a y) rest) := by
  have loaded := heldLoad (heldFar held)
  have mirrored : Held live s (plug (grow d.flip .black (grow d.flip .red y a x) p t) rest) := by
    rw [growFlip,growFlip]
    exact held
  obtain ⟨s₁,coloured,held₁⟩ := heldBlackred mirrored
  rw [growFlip,growFlip] at held₁
  obtain ⟨s₂,rotated,held₂⟩ := heldRotate held₁
  refine ⟨s₂,?_,held₂⟩
  simp only [removeColorRed,heldLoad held,okBind,entFar,rootGrow,loaded,entColor,if_true,coloured,rotated,
    heldLoad (heldNear held₂)]

theorem blackSibling (held : Held live s (plug (grow d c t p (grow d .black x a y)) rest)) :
    removeColorRed live d s (some p) = .ok (s,some a) := by
  have loaded := heldLoad (heldFar held)
  simp [removeColorRed,heldLoad held,okBind,loaded]

theorem innerTurn (held : Held live s (plug (grow d .black (grow d .red u a v) b y) ctx)) :
    ∃ s₁ s₂ s₃, setColor live s (some a) .black = .ok s₁ ∧ setColor live s₁ (some b) .red = .ok s₂ ∧
      rotate live d.flip s₂ (some b) = .ok s₃ ∧ Held live s₃ (plug (grow d .black u a (grow d .red v b y)) ctx) := by
  obtain ⟨s₁,first,held₁⟩ := heldColor (heldNear held) .black
  obtain ⟨s₂,second,held₂⟩ := heldColor (heldUp held₁) .red
  have mirrored : Held live s₂ (plug (grow d.flip .red y b (grow d.flip .black v a u)) ctx) := by
    rw [growFlip,growFlip]
    exact held₂
  obtain ⟨s₃,rotated,held₃⟩ := heldRotate mirrored
  rw [growFlip,growFlip] at held₃
  exact ⟨s₁,s₂,s₃,first,second,rotated,held₃⟩

theorem outerTurn (held : Held live s (plug (grow d c t p (grow d .black x a (grow d .red u b v))) rest)) :
    ∃ s₁ s₂ s₃ s₄ e, setColor live s (some a) c = .ok s₁ ∧ setColor live s₁ (some p) .black = .ok s₂ ∧
      load live s₂ (some a) = .ok e ∧ e.child d.flip = some b ∧ setColor live s₂ (some b) .black = .ok s₃ ∧
      rotate live d s₃ (some p) = .ok s₄ ∧
      Held live s₄ (plug (grow d c (grow d .black t p x) a (grow d .black u b v)) rest) := by
  obtain ⟨s₁,first,held₁⟩ := heldColor (heldFar held) c
  rw [plugFlip] at held₁
  obtain ⟨s₂,second,held₂⟩ := heldColor held₁ .black
  obtain ⟨s₃,third,held₃⟩ := heldColor (heldFar (heldFar held₂)) .black
  rw [plugFlip,plugFlip] at held₃
  obtain ⟨s₄,rotated,held₄⟩ := heldRotate held₃
  refine ⟨s₁,s₂,s₃,s₄,_,first,second,heldLoad (heldFar held₂),?_,third,rotated,held₄⟩
  rw [entFar,rootGrow]

-- Whatever its colour was, the sibling is black now, and one higher than the focus.
theorem siblingHeld (held : Held live s (plug t (⟨d,c,p,w⟩ :: rest))) (fits : Fits (⟨d,c,p,w⟩ :: rest) .black (n + 1)) :
    ∃ s' c' x a y rest' c₁ c₂, removeColorRed live d s (some p) = .ok (s',some a) ∧
      Held live s' (plug (grow d c' t p (grow d .black x a y)) rest') ∧
      (plug (grow d c' t p (grow d .black x a y)) rest').items = (plug t (⟨d,c,p,w⟩ :: rest)).items ∧
      Balanced x c₁ n ∧ Balanced y c₂ n ∧
      (c' = .red ∧ Fits rest' .red (n + 1) ∨ c' = .black ∧ rest' = rest ∧ Fits rest .black (n + 2)) := by
  cases fits with
  | red sibling beyond =>
    obtain ⟨x,a,y,c₁,c₂,rfl,near,far⟩ := balancedHigh sibling d
    exact ⟨s,.red,x,a,y,rest,c₁,c₂,blackSibling held,held,rfl,near,far,.inl ⟨rfl,beyond⟩⟩
  | @black _ _ _ _ _ c' _ sibling beyond =>
    cases c' with
    | black =>
      obtain ⟨x,a,y,c₁,c₂,rfl,near,far⟩ := balancedHigh sibling d
      exact ⟨s,.black,x,a,y,rest,c₁,c₂,blackSibling held,held,rfl,near,far,.inr ⟨rfl,rfl,beyond⟩⟩
    | red =>
      obtain ⟨x,a,y,rfl,near,far⟩ := balancedRed sibling d
      obtain ⟨u,b,v,c₁,c₂,rfl,inner,outer⟩ := balancedHigh near d
      obtain ⟨s',turned,held'⟩ := redSibling held
      rw [rootGrow] at turned
      refine ⟨s',.red,u,b,v,⟨d,.black,a,y⟩ :: rest,c₁,c₂,turned,held',?_,inner,outer,.inl ⟨rfl,.black far beyond⟩⟩
      refine plugSame (?_ : (grow d .black (grow d .red t p (grow d .black u b v)) a y).items =
        (grow d .black t p (grow d .red (grow d .black u b v) a y)).items) rest
      exact (growSame (itemsRecolor ..) rfl).trans (rotateItems d .black .red ..).symm

theorem bothBlackHeld (held : Held live s (plug (grow d c x a y) rest)) (near : Balanced x c₁ n)
    (far : Balanced y c₂ n) :
    ∃ e, load live s (some a) = .ok e ∧ bothBlack live s e = .ok (decide (c₁ = .black ∧ c₂ = .black)) := by
  have nearBlack := isBlackBalanced (heldNear held) near
  have farBlack := isBlackBalanced (heldFar held) far
  refine ⟨_,heldLoad held,?_⟩
  cases d <;> cases c₁ <;> cases c₂ <;> simp [bothBlack,ent,nearBlack,farBlack,okBind]

theorem lastHeld (held : Held live s (plug (grow d c t p (grow d .black x a y)) rest)) (near : Balanced x c₁ n)
    (far : Balanced y c₂ n) (red : ¬ (c₁ = .black ∧ c₂ = .black)) :
    ∃ s' x' b y', removeColorLast live d s (some p) (some a) = .ok s' ∧
      Held live s' (plug (grow d c (grow d .black t p x') b y') rest) ∧
      (plug (grow d c (grow d .black t p x') b y') rest).items =
        (plug (grow d c t p (grow d .black x a y)) rest).items ∧
      (∃ c', Balanced x' c' n) ∧ Balanced y' .black (n + 1) := by
  have parent := heldLoad held
  have sibling := heldLoad (heldFar held)
  have outer := isBlackBalanced (heldFar (heldFar held)) far
  cases c₂ with
  | red =>
    obtain ⟨u,b,v,rfl,left,right⟩ := balancedRed far d
    obtain ⟨s₁,s₂,s₃,s₄,e,first,second,loaded,child,third,rotated,held₄⟩ := outerTurn held
    refine ⟨s₄,x,a,_,?_,held₄,?_,⟨c₁,near⟩,growBlack left right⟩
    · rw [rootGrow] at outer
      simp [removeColorLast,sibling,okBind,outer,parent,first,second,loaded,child,third,rotated]
    · refine plugSame ?_ rest
      exact (growSame (itemsRecolor ..) (itemsRecolor ..)).trans (rotateItems d c .black ..).symm
  | black =>
    cases c₁ with
    | black => exact absurd ⟨rfl,rfl⟩ red
    | red =>
      obtain ⟨u,b,v,rfl,left,right⟩ := balancedRed near d
      obtain ⟨s₁,s₂,s₃,innerBlack,siblingRed,turned,held₃⟩ := innerTurn (heldFar held)
      rw [plugFlip] at held₃
      have parent₃ := heldLoad held₃
      obtain ⟨s₄,s₅,s₆,s₇,e,first,second,loaded,child,third,rotated,held₇⟩ := outerTurn held₃
      refine ⟨s₇,u,b,_,?_,held₇,?_,⟨_,left⟩,growBlack right far⟩
      · simp [removeColorLast,sibling,okBind,outer,innerBlack,siblingRed,turned,parent₃,first,second,loaded,child,third,
          rotated]
      · refine plugSame ?_ rest
        have turn : (grow d c u b (grow d .black v a y)).items = (grow d .black (grow d .red u b v) a y).items :=
          (growSame rfl (itemsRecolor ..)).trans (rotateItems d .red .black ..)
        exact (rotateItems d .black c ..).symm.trans (growSame rfl turn)

theorem siblingApart (held : Held live s (plug t (⟨d,c,p,w⟩ :: rest)))
    (fits : Fits (⟨d,c,p,w⟩ :: rest) .black (n + 1)) : w.root ≠ t.root := by
  have parts := heldParts (heldUp held)
  have apart : ∀ k ∈ t.items, k ∉ w.items := fun k mem => (parts.nearApart k mem).1
  obtain ⟨k,root⟩ : ∃ k, w.root = some k := by
    cases fits with
    | red sibling _ => cases sibling; exact ⟨_,rfl⟩
    | black sibling _ => cases sibling <;> exact ⟨_,rfl⟩
  intro same
  exact apart k (rootMem (same.symm.trans root)) (rootMem root)

-- The induction is on the fuel; a pass that does not end the loop moves the focus to its parent.
theorem removeColorHeld (held : Held live s (plug t ctx)) (focus : Balanced t .black n) (fits : Fits ctx .black (n + 1))
    (enough : ctx.length < fuel) :
    Yields live (plug t ctx).items (removeColor live fuel s (up ctx) t.root) := by
  induction fuel generalizing s t ctx n with
  | zero => omega
  | succ fuel ih =>
    have black := isBlackBalanced held focus
    cases ctx with
    | nil =>
      have done := blackenWhole held focus
      have stop : removeColor live (fuel + 1) s (up []) t.root = blackenElm live s s.root := by
        simp [removeColor,black,okBind,show s.root = t.root from held.root]
      rw [stop]
      exact done
    | cons f rest =>
      obtain ⟨d,c,p,w⟩ := f
      have notRoot := rootNotFocus held
      obtain ⟨s',c',x,a,y,rest',c₁,c₂,ran,held',same,near,far,place⟩ := siblingHeld held fits
      obtain ⟨e,loaded,both⟩ := bothBlackHeld (heldFar held') near far
      have other := siblingApart held fits
      have loadedP := heldLoad (heldUp held)
      rw [← same]
      by_cases reds : c₁ = .black ∧ c₂ = .black
      · obtain ⟨rfl,rfl⟩ := reds
        obtain ⟨s₁,coloured,held₁⟩ := heldColor (heldFar held') .red
        rw [plugFlip] at held₁
        have pass : removeColor live (fuel + 1) s (up (⟨d,c,p,w⟩ :: rest)) t.root =
            removeColor live fuel s₁ (up rest') (some p) := by
          simp [removeColor,up,black,okBind,notRoot,loadedP,entSide other,ran,loaded,both,coloured,heldLoad held₁]
        have kept : (plug (grow d c' t p (grow d .black x a y)) rest').items =
            (plug (grow d c' t p (grow d .red x a y)) rest').items := plugSame (growSame rfl (itemsRecolor ..)) rest'
        rw [pass,kept]
        obtain ⟨k,rfl⟩ : ∃ k, fuel = k + 1 := ⟨fuel - 1,by simp at enough; omega⟩
        rcases place with ⟨rfl,beyond⟩ | ⟨rfl,rfl,beyond⟩
        · exact blackenRed held₁ focus (growRed near far) (fitsBlack beyond)
        · have higher : Balanced (grow d .black t p (grow d .red x a y)) .black (n + 1) :=
            growBlack focus (growRed near far)
          have next := ih held₁ higher beyond (by simpa using enough)
          rwa [rootGrow] at next
      · obtain ⟨s₁,x',b,y',last,held₁,kept,⟨c₃,left⟩,right⟩ := lastHeld held' near far reds
        have pass : removeColor live (fuel + 1) s (up (⟨d,c,p,w⟩ :: rest)) t.root = blackenElm live s₁ s₁.root := by
          simp [removeColor,up,black,okBind,notRoot,loadedP,entSide other,ran,loaded,both,reds,last]
        have whole : ∃ m, Balanced (plug (grow d c' (grow d .black t p x') b y') rest') .black m := by
          rcases place with ⟨rfl,beyond⟩ | ⟨rfl,rfl,beyond⟩
          · exact fitsBalanced beyond (growRed (growBlack focus left) right)
          · exact fitsBalanced beyond (growBlack (growBlack focus left) right)
        obtain ⟨m,balanced⟩ := whole
        rw [pass,← kept]
        exact blackenWhole held₁ balanced

end Pass

section Remove
variable {live : Nat → Bool} {s : Rb} {x y : ColorTree Nat} {ctx : List (Frame Nat)} {d : Side} {c c' : Color}
  {a b n fuel : Nat} {front back : List Nat}

theorem splicedFixed (held : Held live s (plug y ctx)) (fits : Fits ctx c' n) (was : Balanced (grow d c .leaf a y) c' n)
    (enough : ctx.length < fuel) : Yields live (plug y ctx).items
      (if c = .black then removeColor live fuel s (up ctx) y.root else .ok s) := by
  cases c with
  | red =>
    have child : Balanced y .black n := by
      cases d with
      | left => cases was with
        | red left right => exact right
      | right => cases was with
        | red left right => exact left
    obtain ⟨m,balanced⟩ := fitsBalanced (fitsBlack fits) child
    exact ⟨s,rfl,_,m,held,balanced,rfl⟩
  | black =>
    obtain ⟨h,c₁,child,height⟩ : ∃ h c₁, Balanced y c₁ h ∧ n = h + 1 := by
      cases d with
      | left => cases was with
        | black left right => cases left; exact ⟨_,_,right,rfl⟩
      | right => cases was with
        | black left right => cases right; exact ⟨_,_,left,rfl⟩
    subst height
    cases c₁ with
    | black => exact removeColorHeld held child (fitsBlack fits) enough
    | red =>
      obtain ⟨l,b,r,rfl,left,right⟩ := balancedRed child .left
      obtain ⟨k,rfl⟩ : ∃ k, fuel = k + 1 := ⟨fuel - 1,by omega⟩
      exact blackenRed held left right (fitsBlack fits)

theorem removeEnd (held : Held live s (plug (grow d c .leaf a y) ctx))
    (balanced : Balanced (plug (grow d c .leaf a y) ctx) .black n) (enough : ctx.length < fuel) :
    Yields live (plug y ctx).items (rbRemove live fuel s (some a)) := by
  have loaded := heldLoad held
  obtain ⟨s₁,spliced,held₁,-⟩ := heldSplice held
  have child : (if y.root = none then none else y.root) = y.root := ite_eq_right_iff.mpr Eq.symm
  have ran : rbRemove live fuel s (some a) =
      if c = .black then removeColor live fuel s₁ (up ctx) y.root else .ok s₁ := by
    cases d with
    | left => simp [rbRemove,loaded,okBind,ent,spliced]
    | right => simp [rbRemove,loaded,okBind,ent,child,spliced]
  obtain ⟨c',h,fits,was⟩ := balancedFits balanced
  rw [ran]
  exact splicedFixed held₁ fits was enough

theorem successorParent {t : ColorTree Nat} {ctx' : List (Frame Nat)} (apart : a ∉ (plug t ctx').items) :
    (if up (ctx' ++ ⟨.right,c,a,x⟩ :: ctx) = some a then some b else up (ctx' ++ ⟨.right,c,a,x⟩ :: ctx)) =
      up (ctx' ++ ⟨.right,c,b,x⟩ :: ctx) := by
  cases ctx' with
  | nil => exact if_pos rfl
  | cons f rest =>
    refine if_neg (fun same => apart ?_)
    cases same
    exact memPlug.mpr (.inr (memAbove.mpr (.inl rfl)))

theorem successorItems {ctx' : List (Frame Nat)} (first : before ctx' = []) :
    (plug y (ctx' ++ ⟨.right,c,b,x⟩ :: ctx)).items =
      before ctx ++ x.items ++ ((plug (.node c' .leaf b y) ctx').items ++ after ctx) := by
  rw [plugAppend]
  change (plug (.node c x b (plug y ctx')) ctx).items = _
  rw [nodeItems,nodeItems,plugItems,first]
  simp [items]

-- The node behind `a` has no left child: it is unlinked and takes over the links of `a`.
theorem removeInner (held : Held live s (plug (.node c x a y) ctx))
    (balanced : Balanced (plug (.node c x a y) ctx) .black n) (left : x ≠ .leaf) (right : y ≠ .leaf)
    (enough : (plug (.node c x a y) ctx).height < fuel) :
    Yields live (before ctx ++ x.items ++ (y.items ++ after ctx)) (rbRemove live fuel s (some a)) := by
  have loaded : load live s (some a) = .ok ⟨x.root,y.root,up ctx,c⟩ := heldLoad (d := .left) held
  have apart := (heldParts (d := .left) held).apart.2.1
  obtain ⟨e,focus⟩ := rootSome right
  obtain ⟨e',focus'⟩ := rootSome left
  have size : y.height < fuel := by
    have place := placeHeight (.node c x a y) ctx
    rw [height] at place
    omega
  have whole : Held live s (plug y (⟨.right,c,a,x⟩ :: ctx)) := held
  have balancedWhole : Balanced (plug y (⟨.right,c,a,x⟩ :: ctx)) .black n := balanced
  obtain ⟨c₁,m,z,ctx',rfl,first,found⟩ := leftmostHeld whole focus size
  rw [← plugAppend] at whole balancedWhole
  obtain ⟨c₂,h,fits,was⟩ := balancedFits balancedWhole
  have entry : load live s (some m) = .ok ⟨none,z.root,up (ctx' ++ ⟨.right,c,a,x⟩ :: ctx),c₁⟩ :=
    heldLoad (d := .left) whole
  have alive : live m = true := (heldParts (d := .left) whole).alive
  obtain ⟨s₁,spliced,held₁,kept,fresh⟩ := heldSplice (d := .left) whole
  have again : load live s₁ (some m) = load live s (some m) := by rw [loadLive alive,loadLive alive,kept]
  rw [plugAppend] at held₁ fresh
  obtain ⟨s₂,replaced,held₂⟩ := heldReplace held₁ left alive fresh
  have held₃ : Held live s₂ (plug z (ctx' ++ ⟨.right,c,m,x⟩ :: ctx)) := by
    rw [plugAppend]
    exact held₂
  have same : (plug z (ctx' ++ ⟨.right,c,m,x⟩ :: ctx)).items =
      before ctx ++ x.items ++ ((plug (.node c₁ .leaf m z) ctx').items ++ after ctx) := successorItems first
  have deep : (ctx' ++ ⟨.right,c,m,x⟩ :: ctx).length < fuel := by
    have place := placeHeight (.node c₁ .leaf m z) (ctx' ++ ⟨.right,c,a,x⟩ :: ctx)
    rw [plugAppend] at place
    simp only [List.length_append,List.length_cons] at place ⊢
    exact Nat.lt_of_le_of_lt (Nat.le_trans (Nat.le_add_right ..) place) enough
  have top : ∃ p, up (ctx' ++ ⟨.right,c,m,x⟩ :: ctx) = some p := by cases ctx' <;> exact ⟨_,rfl⟩
  obtain ⟨p,top⟩ := top
  have climbed := climbUp held₃ deep p top
  have fixed := splicedFixed (d := .left) held₃ (fitsItem ctx' fits) was deep
  have ran : rbRemove live fuel s (some a) =
      if c₁ = .black then removeColor live fuel s₂ (up (ctx' ++ ⟨.right,c,m,x⟩ :: ctx)) z.root else .ok s₂ := by
    have parent : (if up (ctx' ++ ⟨.right,c,a,x⟩ :: ctx) = some a then some m
        else up (ctx' ++ ⟨.right,c,a,x⟩ :: ctx)) = some p := (successorParent apart).trans top
    rw [top]
    simp [rbRemove,loaded,okBind,focus,focus',found,entry,spliced,again,replaced,parent,climbed]
  rw [ran,← same]
  exact fixed

theorem rbRemoveHolds (holds : Holds live s (front ++ a :: back)) (room : Room (front ++ a :: back) fuel) :
    Yields live (front ++ back) (rbRemove live fuel s (some a)) := by
  obtain ⟨c,x,y,ctx,n,held,balanced,rfl,rfl⟩ := holdsPlace holds
  have enough := room _ n balanced (nodeItems ..)
  have place := placeHeight (.node c x a y) ctx
  by_cases left : x = .leaf
  · subst left
    have done := removeEnd (d := .left) held balanced (by omega : _ < fuel)
    rw [plugItems] at done
    simpa [items] using done
  · by_cases right : y = .leaf
    · subst right
      have done := removeEnd (d := .right) held balanced (by omega : _ < fuel)
      rw [plugItems] at done
      simpa [items] using done
    · exact removeInner held balanced left right enough

end Remove

end Qtl.RbTree
