import Qtl.RbRead

/-! RB_INSERT on a red-black tree in memory: the search finds an equal node or the leaf
where the new one belongs, and the loop of RB_INSERT_COLOR ends with a balanced tree. -/
namespace Qtl.RbTree
open Base.ColoredTree
open ColorTree

section Colors
variable {live : Nat → Bool} {s : Rb} {t x y u sib : ColorTree Nat} {ctx rest : List (Frame Nat)} {d : Side}
  {c c' : Color} {a b p g : Nat} {n : Nat}

theorem isRedBalanced (held : Held live s (plug t ctx)) (balanced : Balanced t c n) :
    isRed live s t.root = .ok (decide (c = .red)) := by
  cases balanced with
  | leaf => rfl
  | red left right =>
    have loaded := heldLoad (d := .left) held
    rw [isRed,ColorTree.root,if_neg (by simp),loaded]
    rfl
  | black left right =>
    have loaded := heldLoad (d := .left) held
    rw [isRed,ColorTree.root,if_neg (by simp),loaded]
    rfl

theorem isBlackBalanced (held : Held live s (plug t ctx)) (balanced : Balanced t c n) :
    isBlack live s t.root = .ok (decide (c = .black)) := by
  cases balanced with
  | leaf => rfl
  | red left right =>
    have loaded := heldLoad (d := .left) held
    rw [isBlack,ColorTree.root,if_neg (by simp),loaded]
    rfl
  | black left right =>
    have loaded := heldLoad (d := .left) held
    rw [isBlack,ColorTree.root,if_neg (by simp),loaded]
    rfl

theorem heldBlackred (held : Held live s (plug (grow d c (grow d c' x a y) b u) ctx)) :
    ∃ s', setBlackred live s (some a) (some b) = .ok s' ∧
      Held live s' (plug (grow d .red (grow d .black x a y) b u) ctx) := by
  obtain ⟨s₁,first,held₁⟩ := heldColor (heldNear held) .black
  obtain ⟨s₂,second,held₂⟩ := heldColor (heldUp held₁) .red
  refine ⟨s₂,?_,held₂⟩
  rw [setBlackred,first,okBind,second]

theorem heldBlackenRoot (held : Held live s (plug t ctx)) (some : t ≠ .leaf) :
    ∃ s', setColor live s s.root .black = .ok s' ∧ Held live s' (plug t ctx).blacken := by
  have more : plug t ctx ≠ .leaf := by
    intro none
    have length := placeLength t ctx
    rw [none] at length
    cases t with
    | leaf => exact some rfl
    | node => simp [items] at length
  have root := held.root
  generalize plug t ctx = whole at held root more
  cases whole with
  | leaf => exact absurd rfl more
  | node c l a r =>
    rw [root]
    have top : Held live s (plug (grow .left c l a r) []) := held
    exact heldColor top .black

end Colors

section Pass
variable {live : Nat → Bool} {s : Rb} {t x y u sib : ColorTree Nat} {ctx rest : List (Frame Nat)} {d : Side}
  {c c' : Color} {a e p g : Nat} {n fuel : Nat}

theorem passRecolor {d₀ d₁ : Side} {ul ur : ColorTree Nat} {q : Nat}
    (held : Held live s (plug (grow d .black (grow d₀ .red t p sib) g (grow d₁ .red ul q ur)) rest)) :
    ∃ s', insertColorPass live d s (some e) (some p) (some g) = .ok (s',some g) ∧
      Held live s' (plug (grow d .red (grow d₀ .black t p sib) g (grow d₁ .black ul q ur)) rest) := by
  have uncle : Held live s (plug (grow d₁ .red ul q ur) (⟨d.flip,.black,g,grow d₀ .red t p sib⟩ :: rest)) := by
    rw [plugFlip]
    exact held
  obtain ⟨s₁,first,held₁⟩ := heldColor uncle .black
  rw [plugFlip] at held₁
  obtain ⟨s₂,parent,held₂⟩ := heldColor (heldNear held₁) .black
  obtain ⟨s₃,grand,held₃⟩ := heldColor (heldUp held₂) .red
  have red : isRed live s (some q) = .ok true := by
    rw [isRed,if_neg (by simp),heldLoad uncle,okBind,entColor]
    rfl
  refine ⟨s₃,?_,held₃⟩
  simp only [insertColorPass,heldLoad held,okBind,entFar,rootGrow,red,if_true,first,setBlackred,parent,grand]

theorem passTurn (held : Held live s (plug (grow d .black (grow d .red t p sib) g u) rest)) :
    ∃ s₁ s₂, setBlackred live s (some p) (some g) = .ok s₁ ∧ rotate live d.flip s₁ (some g) = .ok s₂ ∧
      Held live s₂ (plug (grow d.flip .black (grow d.flip .red u g sib) p t) rest) := by
  obtain ⟨s₁,coloured,held₁⟩ := heldBlackred held
  have turned : Held live s₁ (plug (grow d.flip .red u g (grow d.flip .black sib p t)) rest) := by
    rw [growFlip,growFlip]
    exact held₁
  obtain ⟨s₂,rotated,held₂⟩ := heldRotate turned
  exact ⟨s₁,s₂,coloured,rotated,held₂⟩

theorem turnItems (d : Side) (c c' : Color) (t sib u : ColorTree Nat) (p g : Nat) :
    (grow d.flip c' (grow d.flip c u g sib) p t).items = (grow d c (grow d c' t p sib) g u).items := by
  rw [← rotateItems,growFlip,growFlip]

theorem passOuter (held : Held live s (plug (grow d .black (grow d .red t p sib) g u) rest)) (focus : t.root = some e)
    (black : isRed live s u.root = .ok false) : ∃ s', insertColorPass live d s (some e) (some p) (some g) =
      .ok (s',some e) ∧ Held live s' (plug t (⟨d,.black,p,grow d.flip .red u g sib⟩ :: rest)) := by
  have parent := heldLoad (heldNear held)
  have outer : sib.root ≠ some e := by
    intro same
    have parts := heldParts (heldNear held)
    exact (parts.nearApart e (rootMem focus)).1 (rootMem same)
  obtain ⟨s₁,s₂,coloured,rotated,held₂⟩ := passTurn held
  refine ⟨s₂,?_,?_⟩
  · simp only [insertColorPass,heldLoad held,okBind,entFar,black,parent,outer,Bool.false_eq_true,if_false,
      decide_false,coloured,rotated]
  · rw [plug,← growFlip]
    exact held₂

theorem passInner (held : Held live s (plug (grow d .black (grow d.flip .red (grow d .red x e y) p sib) g u) rest))
    (black : isRed live s u.root = .ok false) : ∃ s', insertColorPass live d s (some e) (some p) (some g) =
      .ok (s',some p) ∧ Held live s' (plug (grow d .red sib p x) (⟨d,.black,e,grow d.flip .red u g y⟩ :: rest)) := by
  have parent := heldLoad (heldNear held)
  have inside : Held live s (plug (grow d .red sib p (grow d .red x e y)) (⟨d,.black,g,u⟩ :: rest)) := by
    rw [← growFlip]
    exact held
  obtain ⟨s₁,rotated,held₁⟩ := heldRotate inside
  obtain ⟨s₂,s₃,coloured,turned,held₃⟩ := passTurn (heldUp held₁)
  refine ⟨s₃,?_,?_⟩
  · simp only [insertColorPass,heldLoad held,okBind,entFar,black,parent,entNear,rootGrow,Bool.false_eq_true,if_false,
      decide_true,if_true,rotated,coloured,turned]
  · rw [plug,← growFlip]
    exact held₃

def Yields (live : Nat → Bool) (nodes : List Nat) (r : Except Fault Rb) : Prop :=
  ∃ s', r = .ok s' ∧ Holds live s' nodes

theorem insertColorStop (held : Held live s (plug t ctx)) (focus : t.root = some e) (red : Balanced t .red n)
    (stop : Fits ctx .red n ∨ ctx = []) :
    Yields live (plug t ctx).items (insertColor live (fuel + 1) s (some e)) := by
  obtain ⟨entry,loaded,parent⟩ := loadFocus held focus
  obtain ⟨s',coloured,held'⟩ := heldBlackenRoot held (by rintro rfl; cases focus)
  have black : isRed live s (up ctx) = .ok false := by
    rcases stop with fits | rfl
    · cases fits with
      | black sibling rest =>
        rw [up,isRed,if_neg (by simp),heldLoad held,okBind,entColor]
        rfl
    · rfl
  have balanced : ∃ m, Balanced (plug t ctx).blacken .black m := by
    rcases stop with fits | rfl
    · obtain ⟨m,whole⟩ := fitsBalanced fits red
      rw [blackenSame whole]
      exact ⟨m,whole⟩
    · cases red with
      | red left right => exact ⟨_,.black left right⟩
  obtain ⟨m,whole⟩ := balanced
  refine ⟨s',?_,_,m,held',whole,blackenItems _⟩
  simp only [insertColor,loaded,okBind,parent,black,Bool.false_eq_true,if_false,coloured]

theorem insertColorPassed {s' : Rb} {d₀ : Side} {e' : Nat}
    (held : Held live s (plug t (⟨d₀,.red,p,sib⟩ :: ⟨d,.black,g,u⟩ :: rest))) (focus : t.root = some e)
    (passed : insertColorPass live d s (some e) (some p) (some g) = .ok (s',some e')) :
    insertColor live (fuel + 1) s (some e) = insertColor live fuel s' (some e') := by
  obtain ⟨entry,loaded,parent⟩ := loadFocus held focus
  have redParent : isRed live s (some p) = .ok true := by
    rw [isRed,if_neg (by simp),heldLoad held,okBind,entColor]
    rfl
  have loadedP := heldLoad (heldUp held)
  have loadedG := heldLoad (heldUp (heldUp held))
  have outer : u.root ≠ some p := by
    intro same
    have parts := heldParts (heldUp (heldUp held))
    exact (parts.nearApart p (memGrow.mpr (.inr (.inl rfl)))).1 (rootMem same)
  simp only [insertColor,loaded,okBind,parent,up,redParent,if_true,loadedP,entParent,loadedG,rootGrow,entSideOf outer,
    passed]

theorem insertColorBlack {d₀ : Side} (held : Held live s (plug t (⟨d₀,.red,p,sib⟩ :: ⟨d,.black,g,u⟩ :: rest)))
    (focus : t.root = some e) (red : Balanced t .red n) (sibling : Balanced sib .black n) (uncle : Balanced u .black n)
    (beyond : Fits rest .black (n + 1)) :
    Yields live (plug t (⟨d₀,.red,p,sib⟩ :: ⟨d,.black,g,u⟩ :: rest)).items
      (insertColor live (fuel + 2) s (some e)) := by
  have black : isRed live s u.root = .ok false := by
    have uncleHeld : Held live s (plug u (⟨d.flip,.black,g,grow d₀ .red t p sib⟩ :: rest)) := heldFar (heldUp held)
    exact isRedBalanced uncleHeld uncle
  by_cases side : d₀ = d
  · subst side
    obtain ⟨s',passed,held'⟩ := passOuter held focus black
    rw [insertColorPassed held focus passed]
    have same : (plug t (⟨d₀,.black,p,grow d₀.flip .red u g sib⟩ :: rest)).items =
        (plug t (⟨d₀,.red,p,sib⟩ :: ⟨d₀,.black,g,u⟩ :: rest)).items := by
      refine plugSame (?_ : (grow d₀ .black t p (grow d₀.flip .red u g sib)).items = _) rest
      rw [← growFlip d₀ .black,turnItems]
      exact growSame (itemsRecolor ..) rfl
    rw [← same]
    exact insertColorStop held' focus red (.inl (.black (growRed uncle sibling) beyond))
  · obtain rfl : d₀ = d.flip := by cases d₀ <;> cases d <;> simp_all [Side.flip]
    obtain ⟨x,a,y,rfl,near,far⟩ := balancedRed red d
    rw [rootGrow] at focus
    cases focus
    obtain ⟨s',passed,held'⟩ := passInner held black
    rw [insertColorPassed held (rootGrow ..) passed]
    have same : (plug (grow d .red sib p x) (⟨d,.black,e,grow d.flip .red u g y⟩ :: rest)).items =
        (plug (grow d .red x e y) (⟨d.flip,.red,p,sib⟩ :: ⟨d,.black,g,u⟩ :: rest)).items := by
      refine plugSame (?_ : (grow d .black (grow d .red sib p x) e (grow d.flip .red u g y)).items =
        (grow d .black (grow d.flip .red (grow d .red x e y) p sib) g u).items) rest
      rw [← growFlip d .black,turnItems,growFlip]
      exact growSame ((itemsRecolor ..).trans (rotateItems d .red .red ..).symm) rfl
    rw [← same]
    exact insertColorStop held' (rootGrow ..) (growRed sibling near) (.inl (.black (growRed uncle far) beyond))

-- The induction is on the fuel; every pass that does not end the loop moves two places up.
theorem insertColorHeld (held : Held live s (plug t ctx)) (focus : t.root = some e) (red : Balanced t .red n)
    (fits : Fits ctx .black n) (enough : ctx.length < fuel) :
    Yields live (plug t ctx).items (insertColor live fuel s (some e)) := by
  induction fuel generalizing s t ctx e n with
  | zero => omega
  | succ fuel ih =>
    cases fits with
    | top => exact insertColorStop held focus red (.inr rfl)
    | black sibling rest => exact insertColorStop held focus red (.inl (.black sibling rest))
    | @red d₀ p sib ctx _ sibling beyond =>
      cases beyond with
      | @black d g u rest _ c' _ uncle beyond =>
        have room : rest.length + 1 < fuel := by simpa using enough
        cases c' with
        | black =>
          obtain ⟨k,rfl⟩ : ∃ k, fuel = k + 1 := ⟨fuel - 1,by omega⟩
          exact insertColorBlack held focus red sibling uncle beyond
        | red =>
          obtain ⟨ul,q,ur,rfl,near,far⟩ := balancedRed uncle .left
          have shown : Held live s (plug (grow d .black (grow d₀ .red t p sib) g (grow .left .red ul q ur)) rest) :=
            held
          obtain ⟨s',passed,held'⟩ := passRecolor (e := e) shown
          have whole : Balanced (grow d .red (grow d₀ .black t p sib) g (grow .left .black ul q ur)) .red (n + 1) :=
            growRed (growBlack red sibling) (growBlack near far)
          have same : (plug t (⟨d₀,.red,p,sib⟩ :: ⟨d,.black,g,grow .left .red ul q ur⟩ :: rest)).items =
              (plug (grow d .red (grow d₀ .black t p sib) g (grow .left .black ul q ur)) rest).items := by
            refine plugSame (?_ : (grow d .black (grow d₀ .red t p sib) g (grow .left .red ul q ur)).items = _) rest
            exact growSame (itemsRecolor ..) (itemsRecolor ..)
          rw [insertColorPassed held focus passed,same]
          exact ih held' (rootGrow ..) whole beyond (by omega)

end Pass

section Insert
variable {live : Nat → Bool} {s : Rb} {e fuel : Nat} {cmp : Nat → Int} {nodes : List Nat}

theorem rbInsertHolds (holds : Holds live s nodes) (sided : Sided cmp nodes) (alive : live e = true) (fresh : e ∉ nodes)
    (room : Room nodes fuel) :
    (∃ a ∈ nodes, cmp a = 0 ∧ rbInsert live cmp fuel s (some e) = .ok (s,some a)) ∨
    ∃ s' front back, rbInsert live cmp fuel s (some e) = .ok (s',none) ∧ Holds live s' (front ++ e :: back) ∧
      nodes = front ++ back ∧ (∀ k ∈ front, 0 < cmp k) ∧ ∀ k ∈ back, cmp k < 0 := by
  obtain ⟨t,n,held,balanced,rfl⟩ := holds
  have enough := room t n balanced rfl
  rcases searchHolds held sided enough with ⟨a,mem,zero,found⟩ | ⟨ctx,comp,rfl,vacant,found⟩
  · refine .inl ⟨a,mem,zero,?_⟩
    rw [rbInsert,found]
    rfl
  · obtain ⟨s₁,linked,held₁⟩ := heldLink held alive fresh vacant.sided
    obtain ⟨c,h,fits,bare⟩ := balancedFits balanced
    cases bare
    have place := placeHeight .leaf ctx
    have red : Balanced (.node .red .leaf e .leaf) .red 0 := .red .leaf .leaf
    obtain ⟨s₂,coloured,holds₂⟩ := insertColorHeld held₁ rfl red fits (by omega : _ < fuel)
    rw [nodeItems] at holds₂
    refine .inr ⟨s₂,before ctx,after ctx,?_,?_,plugLeaf ctx,vacant.front,vacant.back⟩
    · simp only [rbInsert,found,okBind,linked,coloured]
    · simpa [items] using holds₂

end Insert

end Qtl.RbTree
