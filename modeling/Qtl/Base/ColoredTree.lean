import Mathlib.Algebra.Group.Nat.Defs
import Mathlib.Data.List.Basic
import Mathlib.Order.Basic

/-! Binary trees with coloured nodes, the place of a subtree in the whole, and the
balance of red-black trees. Both sides of a node are treated alike: `grow` takes the
side its first subtree hangs on. -/
namespace Qtl.Base.ColoredTree

inductive Side where | left | right
  deriving DecidableEq, Repr

def Side.flip : Side → Side
  | .left => .right
  | .right => .left

inductive Color where | black | red
  deriving DecidableEq, Repr

inductive ColorTree (α : Type) where
  | leaf
  | node (color : Color) (l : ColorTree α) (a : α) (r : ColorTree α)

/-- What stands above a subtree: the side it hangs on, the node it hangs from and that
node's other subtree. -/
structure Frame (α : Type) where
  side : Side
  color : Color
  item : α
  sibling : ColorTree α

variable {α : Type}

namespace ColorTree

def grow (d : Side) (c : Color) (near : ColorTree α) (a : α) (far : ColorTree α) : ColorTree α :=
  match d with
  | .left => .node c near a far
  | .right => .node c far a near

theorem growFlip (d : Side) (c : Color) (x : ColorTree α) (a : α) (y : ColorTree α) :
    grow d.flip c x a y = grow d c y a x := by
  cases d <;> rfl

def root : ColorTree α → Option α
  | leaf => none
  | node _ _ a _ => some a

def items : ColorTree α → List α
  | leaf => []
  | node _ l a r => l.items ++ a :: r.items

def height : ColorTree α → Nat
  | leaf => 0
  | node _ l _ r => max l.height r.height + 1

def blacken : ColorTree α → ColorTree α
  | leaf => leaf
  | node _ l a r => node .black l a r

@[simp] theorem rootLeaf : (leaf : ColorTree α).root = none := rfl

@[simp] theorem rootNode (c : Color) (l : ColorTree α) (a : α) (r : ColorTree α) : (node c l a r).root = some a := rfl

@[simp] theorem rootGrow (d : Side) (c : Color) (x : ColorTree α) (a : α) (y : ColorTree α) :
    (grow d c x a y).root = some a := by
  cases d <;> rfl

theorem memGrow {d : Side} {c : Color} {x y : ColorTree α} {a b : α} :
    b ∈ (grow d c x a y).items ↔ b ∈ x.items ∨ b = a ∨ b ∈ y.items := by
  cases d with
  | left => simp [grow,items]
  | right =>
    simp only [grow,items,List.mem_append,List.mem_cons]
    tauto

theorem growSame {d : Side} {c c' : Color} {x x' y y' : ColorTree α} {a : α} (near : x.items = x'.items)
    (far : y.items = y'.items) : (grow d c x a y).items = (grow d c' x' a y').items := by
  cases d <;> simp [grow,items,near,far]

theorem itemsRecolor {d : Side} (c c' : Color) (x : ColorTree α) (a : α) (y : ColorTree α) :
    (grow d c x a y).items = (grow d c' x a y).items := growSame rfl rfl

theorem blackenItems (t : ColorTree α) : t.blacken.items = t.items := by
  cases t <;> rfl

theorem rotateItems (d : Side) (c c' : Color) (x m y : ColorTree α) (a b : α) :
    (grow d c x a (grow d c' m b y)).items = (grow d c' (grow d c x a m) b y).items := by
  cases d <;> simp [grow,items]

theorem heightNear (d : Side) (c : Color) (x : ColorTree α) (a : α) (y : ColorTree α) :
    x.height < (grow d c x a y).height := by
  cases d <;> simp only [grow,height] <;> omega

theorem heightItems (t : ColorTree α) : t.height ≤ t.items.length := by
  induction t with
  | leaf => exact Nat.zero_le _
  | node c l a r ihl ihr =>
    simp only [height,items,List.length_append,List.length_cons]
    omega

theorem rootMem {t : ColorTree α} {a : α} (here : t.root = some a) : a ∈ t.items := by
  cases t with
  | leaf => cases here
  | node c l b r =>
    cases here
    simp [items]

theorem rootSome {t : ColorTree α} (more : t ≠ leaf) : ∃ a, t.root = some a := by
  cases t with
  | leaf => exact absurd rfl more
  | node c l a r => exact ⟨a,rfl⟩

end ColorTree

open ColorTree

section Place

def plug (t : ColorTree α) : List (Frame α) → ColorTree α
  | [] => t
  | f :: ctx => plug (grow f.side f.color t f.item f.sibling) ctx

def up : List (Frame α) → Option α
  | [] => none
  | f :: _ => some f.item

def before : List (Frame α) → List α
  | [] => []
  | ⟨.left,_,_,_⟩ :: ctx => before ctx
  | ⟨.right,_,a,t⟩ :: ctx => before ctx ++ t.items ++ [a]

def after : List (Frame α) → List α
  | [] => []
  | ⟨.left,_,a,t⟩ :: ctx => a :: t.items ++ after ctx
  | ⟨.right,_,_,_⟩ :: ctx => after ctx

variable {t t' : ColorTree α} {ctx ctx' : List (Frame α)}

theorem plugAppend (t : ColorTree α) (ctx ctx' : List (Frame α)) : plug t (ctx ++ ctx') = plug (plug t ctx) ctx' := by
  induction ctx generalizing t with
  | nil => rfl
  | cons f ctx ih => exact ih _

theorem plugFlip (d : Side) (c : Color) (x : ColorTree α) (a : α) (y : ColorTree α) (ctx : List (Frame α)) :
    plug y (⟨d.flip,c,a,x⟩ :: ctx) = plug (grow d c x a y) ctx := by
  rw [plug,growFlip]

theorem plugItems (t : ColorTree α) (ctx : List (Frame α)) :
    (plug t ctx).items = before ctx ++ t.items ++ after ctx := by
  induction ctx generalizing t with
  | nil => simp [plug,before,after]
  | cons f ctx ih =>
    obtain ⟨side,c,a,s⟩ := f
    rw [plug,ih]
    cases side <;> simp [grow,items,before,after]

theorem plugSame (same : t.items = t'.items) (ctx : List (Frame α)) : (plug t ctx).items = (plug t' ctx).items := by
  rw [plugItems,plugItems,same]

theorem nodeItems (c : Color) (x : ColorTree α) (a : α) (y : ColorTree α) (ctx : List (Frame α)) :
    (plug (.node c x a y) ctx).items = (before ctx ++ x.items) ++ a :: (y.items ++ after ctx) := by
  rw [plugItems]
  simp [items]

theorem unlinkItems (d : Side) (c : Color) (a : α) (y : ColorTree α) (ctx : List (Frame α)) : ∃ front back,
    (plug (grow d c .leaf a y) ctx).items = front ++ a :: back ∧ (plug y ctx).items = front ++ back := by
  rw [plugItems,plugItems]
  cases d with
  | left => exact ⟨before ctx,y.items ++ after ctx,by simp [grow,items],by simp⟩
  | right => exact ⟨before ctx ++ y.items,after ctx,by simp [grow,items],by simp⟩

theorem beforeAppend (ctx ctx' : List (Frame α)) : before (ctx ++ ctx') = before ctx' ++ before ctx := by
  induction ctx with
  | nil => simp [before]
  | cons f ctx ih =>
    obtain ⟨side,c,a,t⟩ := f
    cases side <;> simp [before,ih]

theorem placeLength (t : ColorTree α) (ctx : List (Frame α)) :
    ctx.length + t.items.length ≤ (plug t ctx).items.length := by
  induction ctx generalizing t with
  | nil => simp [plug]
  | cons f ctx ih =>
    have more := ih (grow f.side f.color t f.item f.sibling)
    have size : t.items.length + 1 ≤ (grow f.side f.color t f.item f.sibling).items.length := by
      cases f.side <;> simp [grow,items]
    rw [plug,List.length_cons]
    omega

theorem placeHeight (t : ColorTree α) (ctx : List (Frame α)) : ctx.length + t.height ≤ (plug t ctx).height := by
  induction ctx generalizing t with
  | nil => simp [plug]
  | cons f ctx ih =>
    have more := ih (grow f.side f.color t f.item f.sibling)
    have higher := heightNear f.side f.color t f.item f.sibling
    rw [plug,List.length_cons]
    omega

theorem memPlace {a : α} (mem : a ∈ t.items) : ∃ d c x y ctx, plug (grow d c x a y) ctx = t := by
  induction t with
  | leaf => cases mem
  | node c l b r ihl ihr =>
    rcases List.mem_append.mp mem with mem | mem
    · obtain ⟨d,c',x,y,ctx,rfl⟩ := ihl mem
      exact ⟨d,c',x,y,ctx ++ [⟨.left,c,b,r⟩],plugAppend _ _ _⟩
    · rcases List.mem_cons.mp mem with rfl | mem
      · exact ⟨.left,c,l,r,[],rfl⟩
      · obtain ⟨d,c',x,y,ctx,rfl⟩ := ihr mem
        exact ⟨d,c',x,y,ctx ++ [⟨.right,c,b,l⟩],plugAppend _ _ _⟩

end Place

section Balance

/-- No red node has a red child, and every way down meets `n` black nodes. -/
inductive Balanced : ColorTree α → Color → Nat → Prop where
  | leaf : Balanced .leaf .black 0
  | red {l a r n} (left : Balanced l .black n) (right : Balanced r .black n) : Balanced (.node .red l a r) .red n
  | black {l a r c c' n} (left : Balanced l c n) (right : Balanced r c' n) :
      Balanced (.node .black l a r) .black (n + 1)

inductive Fits : List (Frame α) → Color → Nat → Prop where
  | top {n} : Fits [] .black n
  | red {d a t ctx n} (sibling : Balanced t .black n) (rest : Fits ctx .red n) : Fits (⟨d,.red,a,t⟩ :: ctx) .black n
  | black {d a t ctx c c' n} (sibling : Balanced t c' n) (rest : Fits ctx .black (n + 1)) :
      Fits (⟨d,.black,a,t⟩ :: ctx) c n

variable {t x y : ColorTree α} {a : α} {d : Side} {c c' : Color} {n : Nat} {ctx : List (Frame α)}

theorem growRed (near : Balanced x .black n) (far : Balanced y .black n) : Balanced (grow d .red x a y) .red n := by
  cases d with
  | left => exact .red near far
  | right => exact .red far near

theorem growBlack (near : Balanced x c n) (far : Balanced y c' n) : Balanced (grow d .black x a y) .black (n + 1) := by
  cases d with
  | left => exact .black near far
  | right => exact .black far near

theorem balancedRed (whole : Balanced t .red n) (d : Side) : ∃ x a y, t = grow d .red x a y ∧
    Balanced x .black n ∧ Balanced y .black n := by
  cases whole with
  | red left right =>
    cases d with
    | left => exact ⟨_,_,_,rfl,left,right⟩
    | right => exact ⟨_,_,_,rfl,right,left⟩

theorem balancedHigh (whole : Balanced t .black (n + 1)) (d : Side) : ∃ x a y c c', t = grow d .black x a y ∧
    Balanced x c n ∧ Balanced y c' n := by
  cases whole with
  | black left right =>
    cases d with
    | left => exact ⟨_,_,_,_,_,rfl,left,right⟩
    | right => exact ⟨_,_,_,_,_,rfl,right,left⟩

theorem fitsBlack (fits : Fits ctx c n) : Fits ctx .black n := by
  cases fits with
  | top => exact .top
  | red sibling rest => exact .red sibling rest
  | black sibling rest => exact .black sibling rest

theorem fitsBalanced (fits : Fits ctx c n) (whole : Balanced t c n) : ∃ n', Balanced (plug t ctx) .black n' := by
  induction ctx generalizing t c n with
  | nil =>
    cases fits
    exact ⟨n,whole⟩
  | cons f ctx ih =>
    cases fits with
    | red sibling rest => exact ih rest (growRed whole sibling)
    | black sibling rest => exact ih rest (growBlack whole sibling)

theorem balancedFits (whole : Balanced (plug t ctx) .black n) : ∃ c n', Fits ctx c n' ∧ Balanced t c n' := by
  induction ctx generalizing t with
  | nil => exact ⟨_,n,.top,whole⟩
  | cons f ctx ih =>
    obtain ⟨side,color,b,s⟩ := f
    obtain ⟨c,n',fits,grown⟩ := ih whole
    dsimp only at grown
    cases color with
    | red =>
      have red : c = .red := by cases side <;> cases grown <;> rfl
      subst red
      obtain ⟨x,a,y,same,near,far⟩ := balancedRed grown side
      have parts : t = x ∧ s = y := by cases side <;> cases same <;> exact ⟨rfl,rfl⟩
      obtain ⟨rfl,rfl⟩ := parts
      exact ⟨_,n',.red far fits,near⟩
    | black =>
      cases side <;> cases grown with
      | black left right => first | exact ⟨_,_,.black right fits,left⟩ | exact ⟨_,_,.black left fits,right⟩

theorem blackenSame (whole : Balanced t .black n) : t.blacken = t := by
  cases whole <;> rfl

theorem balancedHeight (whole : Balanced t c n) : t.height ≤ 2 * n + if c = .red then 1 else 0 := by
  induction whole with
  | leaf => simp [height]
  | red left right ihl ihr =>
    simp only [height,if_true,reduceCtorEq,if_false] at ihl ihr ⊢
    omega
  | black left right ihl ihr =>
    simp only [height,reduceCtorEq,if_false]
    split at ihl <;> split at ihr <;> omega

theorem balancedItems (whole : Balanced t c n) : 2 ^ n ≤ t.items.length + 1 := by
  induction whole with
  | leaf => simp [items]
  | red left right ihl ihr =>
    simp only [items,List.length_append,List.length_cons]
    omega
  | black left right ihl ihr =>
    simp only [items,List.length_append,List.length_cons,Nat.pow_succ]
    omega

/-- No balanced tree of these items is as high as this. -/
def Room (nodes : List α) (fuel : Nat) : Prop := ∀ t n, Balanced t .black n → t.items = nodes → t.height < fuel

theorem roomLength {nodes : List α} {fuel : Nat} (enough : nodes.length < fuel) : Room nodes fuel := by
  rintro t n _ rfl
  exact Nat.lt_of_le_of_lt (heightItems t) enough

-- A way down has no more red nodes than black ones, and a tree twice as many items for every black node on it.
theorem roomLog {nodes : List α} {fuel : Nat} (enough : 2 * (nodes.length + 1).log2 < fuel) : Room nodes fuel := by
  rintro t n whole rfl
  have high := balancedHeight whole
  have wide : n ≤ (t.items.length + 1).log2 := (Nat.le_log2 (Nat.succ_ne_zero _)).mpr (balancedItems whole)
  simp only [reduceCtorEq,if_false] at high
  omega

end Balance

end Qtl.Base.ColoredTree
