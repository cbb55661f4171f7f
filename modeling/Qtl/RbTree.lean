import Qtl.Base.ColoredTree

/-! The RB_ macros of adt_tree.h at pointer level. A dereference of NULL or of memory that
is not allocated is a fault. Mirrored branches of the source are one definition with a
side. -/
namespace Qtl.RbTree
open Base.ColoredTree (Side Color)

inductive Fault where
  | nullPointer | deadPointer | doubleFree | endlessLoop
  deriving DecidableEq, Repr

structure RbEntry where
  left : Option Nat
  right : Option Nat
  parent : Option Nat
  color : Color
  deriving DecidableEq, Repr

def RbEntry.child (e : RbEntry) : Side → Option Nat
  | .left => e.left
  | .right => e.right

def RbEntry.setChild (e : RbEntry) (d : Side) (p : Option Nat) : RbEntry := match d with
  | .left => {e with left := p}
  | .right => {e with right := p}

structure Rb where
  entry : Nat → RbEntry
  root : Option Nat

-- The macros never allocate or free, so what is allocated is a parameter.
variable (live : Nat → Bool)

def deref : Option Nat → Except Fault Nat
  | none => .error .nullPointer
  | some a => if live a then .ok a else .error .deadPointer

def load (s : Rb) (p : Option Nat) : Except Fault RbEntry := do
  let a ← deref live p
  .ok (s.entry a)

def store (s : Rb) (p : Option Nat) (f : RbEntry → RbEntry) : Except Fault Rb := do
  let a ← deref live p
  .ok {s with entry := Function.update s.entry a (f (s.entry a))}

def setColor (s : Rb) (p : Option Nat) (c : Color) : Except Fault Rb := store live s p ({· with color := c})

def setBlackred (s : Rb) (black red : Option Nat) : Except Fault Rb := do
  let s ← setColor live s black .black
  setColor live s red .red

def isRed (s : Rb) (p : Option Nat) : Except Fault Bool :=
  if p.isNone then .ok false else do .ok ((← load live s p).color = .red)

def isBlack (s : Rb) (p : Option Nat) : Except Fault Bool :=
  if p.isNone then .ok true else do .ok ((← load live s p).color = .black)

def reparent (s : Rb) (p parent : Option Nat) : Except Fault Rb :=
  if p.isNone then .ok s else store live s p ({· with parent := parent})

def relink (s : Rb) (parent old new : Option Nat) : Except Fault Rb :=
  if parent.isNone then .ok {s with root := new}
  else do
    let e ← load live s parent
    store live s parent (RbEntry.setChild · (if e.left = old then .left else .right) new)

-- RB_ROTATE_LEFT for the side left, RB_ROTATE_RIGHT for the side right.
def rotate (d : Side) (s : Rb) (elm : Option Nat) : Except Fault Rb := do
  let tmp := (← load live s elm).child d.flip
  let inner := (← load live s tmp).child d
  let s ← store live s elm (RbEntry.setChild · d.flip inner)
  let s ← reparent live s ((← load live s tmp).child d) elm
  let parent := (← load live s elm).parent
  let s ← store live s tmp ({· with parent := parent})
  let s ← relink live s parent elm tmp
  let s ← store live s tmp (RbEntry.setChild · d elm)
  store live s elm ({· with parent := tmp})

-- One pass of the loop of RB_INSERT_COLOR; `d` is the side of `parent` below `gparent`.
def insertColorPass (d : Side) (s : Rb) (elm parent gparent : Option Nat) : Except Fault (Rb × Option Nat) := do
  let tmp := (← load live s gparent).child d.flip
  if ← isRed live s tmp then
    let s ← setColor live s tmp .black
    let s ← setBlackred live s parent gparent
    .ok (s,gparent)
  else
    let inside := decide ((← load live s parent).child d.flip = elm)
    let s ← if inside then rotate live d s parent else .ok s
    let (elm,parent) := if inside then (parent,elm) else (elm,parent)
    let s ← setBlackred live s parent gparent
    let s ← rotate live d.flip s gparent
    .ok (s,elm)

def insertColor : Nat → Rb → Option Nat → Except Fault Rb
  | 0,_,_ => .error .endlessLoop
  | fuel + 1,s,elm => do
      let parent := (← load live s elm).parent
      if ← isRed live s parent then
        let gparent := (← load live s parent).parent
        let d := if parent = (← load live s gparent).left then .left else .right
        let (s,elm) ← insertColorPass live d s elm parent gparent
        insertColor fuel s elm
      else setColor live s s.root .black

def removeColorRed (d : Side) (s : Rb) (parent : Option Nat) : Except Fault (Rb × Option Nat) := do
  let tmp := (← load live s parent).child d.flip
  if (← load live s tmp).color = .red then
    let s ← setBlackred live s tmp parent
    let s ← rotate live d s parent
    .ok (s,(← load live s parent).child d.flip)
  else .ok (s,tmp)

def removeColorLast (d : Side) (s : Rb) (parent tmp : Option Nat) : Except Fault Rb := do
  let t ← load live s tmp
  let outerBlack ← isBlack live s (t.child d.flip)
  let s ← if outerBlack then do
      let inner := t.child d
      let s ← if inner.isNone then .ok s else setColor live s inner .black
      let s ← setColor live s tmp .red
      rotate live d.flip s tmp
    else .ok s
  let tmp ← if outerBlack then do .ok ((← load live s parent).child d.flip) else .ok tmp
  let s ← setColor live s tmp (← load live s parent).color
  let s ← setColor live s parent .black
  let outer := (← load live s tmp).child d.flip
  let s ← if outer.isNone then .ok s else setColor live s outer .black
  rotate live d s parent

def bothBlack (s : Rb) (e : RbEntry) : Except Fault Bool := do
  if ← isBlack live s e.left then isBlack live s e.right else .ok false

def blackenElm (s : Rb) (elm : Option Nat) : Except Fault Rb :=
  if elm.isNone then .ok s else setColor live s elm .black

def removeColor : Nat → Rb → (parent elm : Option Nat) → Except Fault Rb
  | 0,_,_,_ => .error .endlessLoop
  | fuel + 1,s,parent,elm => do
      if (← isBlack live s elm) && elm ≠ s.root then
        let d := if (← load live s parent).left = elm then .left else .right
        let (s,tmp) ← removeColorRed live d s parent
        if ← bothBlack live s (← load live s tmp) then
          let s ← setColor live s tmp .red
          removeColor fuel s (← load live s parent).parent parent
        else
          let s ← removeColorLast live d s parent tmp
          blackenElm live s s.root
      else blackenElm live s elm

def leftmost : Nat → Rb → Option Nat → Except Fault (Option Nat)
  | 0,_,_ => .error .endlessLoop
  | fuel + 1,s,elm => do
      let left := (← load live s elm).left
      if left.isNone then .ok elm else leftmost fuel s left

-- The loop that augments all parents; RB_AUGMENT is empty here.
def climb : Nat → Rb → Option Nat → Except Fault Unit
  | 0,_,_ => .error .endlessLoop
  | fuel + 1,s,left => do
      let parent := (← load live s left).parent
      if parent.isNone then .ok () else climb fuel s parent

def splice (s : Rb) (elm child parent : Option Nat) : Except Fault Rb := do
  let s ← reparent live s child parent
  relink live s parent elm child

def replace (s : Rb) (old elm : Option Nat) : Except Fault Rb := do
  let o ← load live s old
  let s ← store live s elm (fun _ => o)
  let s ← relink live s (← load live s old).parent old elm
  let s ← store live s (← load live s old).left ({· with parent := elm})
  reparent live s (← load live s old).right elm

def rbRemove (fuel : Nat) (s : Rb) (old : Option Nat) : Except Fault Rb := do
  let e ← load live s old
  if e.left.isNone || e.right.isNone then
    let child := if e.left.isNone then e.right else e.left
    let s ← splice live s old child e.parent
    if e.color = .black then removeColor live fuel s e.parent child else .ok s
  else
    let elm ← leftmost live fuel s e.right
    let m ← load live s elm
    let s ← splice live s elm m.right m.parent
    let parent := if (← load live s elm).parent = old then elm else m.parent
    let s ← replace live s old elm
    if parent.isSome then climb live fuel s parent
    if m.color = .black then removeColor live fuel s parent m.right else .ok s

def compare (cmp : Nat → Int) (p : Option Nat) : Except Fault Int := do
  let a ← deref live p
  .ok (cmp a)

inductive Found where
  | equal (p : Option Nat)
  | absent (parent : Option Nat) (comp : Int)

def search (cmp : Nat → Int) : Nat → Rb → (parent : Option Nat) → Int → (tmp : Option Nat) → Except Fault Found
  | 0,_,_,_,_ => .error .endlessLoop
  | fuel + 1,s,parent,comp,tmp =>
      if tmp.isNone then .ok (.absent parent comp)
      else do
        let comp ← compare live cmp tmp
        if comp < 0 then search cmp fuel s tmp comp (← load live s tmp).left
        else if comp > 0 then search cmp fuel s tmp comp (← load live s tmp).right
        else .ok (.equal tmp)

def link (d : Side) (s : Rb) (elm parent : Option Nat) : Except Fault Rb := do
  let s ← store live s elm (fun _ => ⟨none,none,parent,.red⟩)
  if parent.isNone then .ok {s with root := elm} else store live s parent (RbEntry.setChild · d elm)

def rbInsert (cmp : Nat → Int) (fuel : Nat) (s : Rb) (elm : Option Nat) : Except Fault (Rb × Option Nat) := do
  match ← search live cmp fuel s none 0 s.root with
  | .equal p => .ok (s,p)
  | .absent parent comp =>
      let s ← link live (if comp < 0 then .left else .right) s elm parent
      let s ← insertColor live fuel s elm
      .ok (s,none)

def rbFind (cmp : Nat → Int) (fuel : Nat) (s : Rb) : Except Fault (Option Nat) := do
  match ← search live cmp fuel s none 0 s.root with
  | .equal p => .ok p
  | .absent _ _ => .ok none

def minmax : Nat → Rb → (parent tmp : Option Nat) → Except Fault (Option Nat)
  | 0,_,_,_ => .error .endlessLoop
  | fuel + 1,s,parent,tmp =>
      if tmp.isNone then .ok parent else do minmax fuel s tmp (← load live s tmp).left

def rbMin (fuel : Nat) (s : Rb) : Except Fault (Option Nat) := minmax live fuel s none s.root

def ascend : Nat → Rb → Option Nat → Except Fault (Option Nat)
  | 0,_,_ => .error .endlessLoop
  | fuel + 1,s,elm => do
      let parent := (← load live s elm).parent
      if parent.isNone then .ok parent
      else if elm = (← load live s parent).right then ascend fuel s parent
      else .ok parent

def rbNext (fuel : Nat) (s : Rb) (elm : Option Nat) : Except Fault (Option Nat) := do
  let e ← load live s elm
  if e.right.isSome then leftmost live fuel s e.right
  else
    let fromLeft ← if e.parent.isNone then .ok false else do .ok (elm = (← load live s e.parent).left)
    if fromLeft then .ok e.parent else ascend live fuel s elm

end Qtl.RbTree
