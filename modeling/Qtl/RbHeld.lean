import Mathlib.Data.List.Nodup
import Qtl.RbTree

/-! The memory of a tree and what the parts of the macros do to it: each is described by
the subtree it works on and the place of that subtree. -/
namespace Qtl.RbTree
open Base.ColoredTree
open ColorTree

def ent (d : Side) (near far parent : Option Nat) (c : Color) : RbEntry := match d with
  | .left => ⟨near,far,parent,c⟩
  | .right => ⟨far,near,parent,c⟩

def layout : ColorTree Nat → Option Nat → List (Nat × RbEntry)
  | .leaf,_ => []
  | .node c l a r,parent => (a,⟨l.root,r.root,parent,c⟩) :: (layout l (some a) ++ layout r (some a))

def layoutAbove : List (Frame Nat) → Option Nat → List (Nat × RbEntry)
  | [],_ => []
  | f :: ctx,p => (f.item,ent f.side p f.sibling.root (up ctx) f.color) ::
      (layout f.sibling (some f.item) ++ layoutAbove ctx (some f.item))

def rootAbove : List (Frame Nat) → Option Nat → Option Nat
  | [],p => p
  | f :: ctx,_ => rootAbove ctx (some f.item)

def above (ctx : List (Frame Nat)) : List Nat := before ctx ++ after ctx

def Mem (s : Rb) (links : List (Nat × RbEntry)) : Prop := ∀ x ∈ links, s.entry x.1 = x.2

/-- The tree is in memory: its nodes are allocated, distinct and linked as it says. -/
structure Held (live : Nat → Bool) (s : Rb) (t : ColorTree Nat) : Prop where
  root : s.root = t.root
  links : Mem s (layout t none)
  nodup : t.items.Nodup
  alive : ∀ a ∈ t.items, live a = true

def Holds (live : Nat → Bool) (s : Rb) (nodes : List Nat) : Prop :=
  ∃ t n, Held live s t ∧ Balanced t .black n ∧ t.items = nodes

section Entry
variable {d : Side} {near far parent p : Option Nat} {c c' : Color}

@[simp] theorem entNear : (ent d near far parent c).child d = near := by cases d <;> rfl

@[simp] theorem entFar : (ent d near far parent c).child d.flip = far := by cases d <;> rfl

@[simp] theorem entParent : (ent d near far parent c).parent = parent := by cases d <;> rfl

@[simp] theorem entColor : (ent d near far parent c).color = c := by cases d <;> rfl

@[simp] theorem entSetNear : (ent d near far parent c).setChild d p = ent d p far parent c := by cases d <;> rfl

@[simp] theorem entSetFar : (ent d near far parent c).setChild d.flip p = ent d near p parent c := by cases d <;> rfl

@[simp] theorem entSetParent : {ent d near far parent c with parent := p} = ent d near far p c := by cases d <;> rfl

@[simp] theorem entSetColor : {ent d near far parent c with color := c'} = ent d near far parent c' := by
  cases d <;> rfl

theorem entSide (apart : far ≠ near) : (if (ent d near far parent c).left = near then Side.left else .right) = d := by
  cases d with
  | left => exact if_pos rfl
  | right => exact if_neg apart

theorem entSideOf (apart : far ≠ near) : (if near = (ent d near far parent c).left then Side.left else .right) = d := by
  cases d with
  | left => exact if_pos rfl
  | right => exact if_neg apart.symm

end Entry

section Links
variable {live : Nat → Bool} {s s' : Rb} {t x y : ColorTree Nat} {ctx : List (Frame Nat)} {d : Side} {c : Color}
  {a : Nat} {parent : Option Nat} {links links' : List (Nat × RbEntry)}

theorem memAppend : Mem s (links ++ links') ↔ Mem s links ∧ Mem s links' := List.forall_mem_append

theorem memCons {l : Nat × RbEntry} : Mem s (l :: links) ↔ s.entry l.1 = l.2 ∧ Mem s links := List.forall_mem_cons

theorem memNil : Mem s [] := fun _ mem => by cases mem

theorem memFrame (held : Mem s links) (same : ∀ x ∈ links, s'.entry x.1 = s.entry x.1) : Mem s' links :=
  fun x mem => (same x mem).trans (held x mem)

theorem layoutItems {l : Nat × RbEntry} (mem : l ∈ layout t parent) : l.1 ∈ t.items := by
  induction t generalizing parent with
  | leaf => cases mem
  | node c l' b r ihl ihr =>
    rcases List.mem_cons.mp mem with rfl | mem
    · simp [items]
    · rcases List.mem_append.mp mem with mem | mem
      · simp [items,ihl mem]
      · simp [items,ihr mem]

theorem plugLeaf (ctx : List (Frame Nat)) : (plug .leaf ctx).items = above ctx := by
  rw [plugItems]
  simp [items,above]

theorem memAbove {f : Frame Nat} {k : Nat} :
    k ∈ above (f :: ctx) ↔ k = f.item ∨ k ∈ f.sibling.items ∨ k ∈ above ctx := by
  rw [← plugLeaf,plug,plugItems,List.mem_append,List.mem_append,memGrow,above,List.mem_append,items]
  simp only [List.not_mem_nil,false_or]
  tauto

theorem layoutAboveItems {l : Nat × RbEntry} (mem : l ∈ layoutAbove ctx parent) : l.1 ∈ above ctx := by
  induction ctx generalizing parent with
  | nil => cases mem
  | cons f ctx ih =>
    rw [memAbove]
    rcases List.mem_cons.mp mem with rfl | mem
    · exact .inl rfl
    · rcases List.mem_append.mp mem with mem | mem
      · exact .inr (.inl (layoutItems mem))
      · exact .inr (.inr (ih mem))

theorem memGrowLinks : Mem s (layout (grow d c x a y) parent) ↔
    s.entry a = ent d x.root y.root parent c ∧ Mem s (layout x (some a)) ∧ Mem s (layout y (some a)) := by
  cases d with
  | left => simp only [grow,layout,memCons,memAppend,ent]
  | right =>
    simp only [grow,layout,memCons,memAppend,ent]
    tauto

theorem plugLinks : Mem s (layout (plug t ctx) none) ↔
    Mem s (layout t (up ctx)) ∧ Mem s (layoutAbove ctx t.root) := by
  induction ctx generalizing t with
  | nil => simp [plug,up,layoutAbove,Mem]
  | cons f ctx ih =>
    obtain ⟨side,color,b,u⟩ := f
    rw [plug,ih,memGrowLinks,rootGrow,layoutAbove,memCons,memAppend]
    dsimp only [up]
    tauto

theorem plugRoot : (plug t ctx).root = rootAbove ctx t.root := by
  induction ctx generalizing t with
  | nil => rfl
  | cons f ctx ih => rw [plug,ih,rootGrow,rootAbove]

theorem plugApart (nodup : (plug t ctx).items.Nodup) :
    t.items.Nodup ∧ (above ctx).Nodup ∧ ∀ a ∈ t.items, a ∉ above ctx := by
  rw [plugItems,List.append_assoc,List.nodup_append_comm,List.append_assoc,List.nodup_append] at nodup
  obtain ⟨inner,outer,apart⟩ := nodup
  refine ⟨inner,List.nodup_append_comm.mp outer,fun a mem mem' => ?_⟩
  exact apart a mem a (List.perm_append_comm.mem_iff.mp mem') rfl

theorem growApart (nodup : (grow d c x a y).items.Nodup) :
    x.items.Nodup ∧ y.items.Nodup ∧ a ∉ x.items ∧ a ∉ y.items ∧ ∀ b ∈ x.items, b ∉ y.items := by
  cases d <;>
  · simp only [grow,items,List.nodup_append,List.nodup_cons,List.mem_cons] at nodup
    grind

theorem aboveApart {f : Frame Nat} (nodup : (above (f :: ctx)).Nodup) : (above ctx).Nodup ∧
    f.item ∉ f.sibling.items ∧ f.item ∉ above ctx ∧ ∀ k ∈ f.sibling.items, k ∉ above ctx := by
  rw [← plugLeaf,plug] at nodup
  obtain ⟨inner,outer,apart⟩ := plugApart nodup
  obtain ⟨_,_,_,fresh,_⟩ := growApart inner
  exact ⟨outer,fresh,apart _ (memGrow.mpr (.inr (.inl rfl))),fun k mem => apart k (memGrow.mpr (.inr (.inr mem)))⟩

end Links

def put (s : Rb) (a : Nat) (e : RbEntry) : Rb := {s with entry := Function.update s.entry a e}

section Put
variable {live : Nat → Bool} {s s' : Rb} {t x y m : ColorTree Nat} {ctx : List (Frame Nat)} {d : Side} {c c' : Color}
  {a b k : Nat} {e : RbEntry} {parent old new : Option Nat} {f : RbEntry → RbEntry} {links : List (Nat × RbEntry)}

@[simp] theorem putRoot : (put s a e).root = s.root := rfl

@[simp] theorem putSelf : (put s a e).entry a = e := Function.update_self ..

theorem putOther (other : k ≠ a) : (put s a e).entry k = s.entry k := Function.update_of_ne other ..

theorem putMem (held : Mem s links) (apart : ∀ l ∈ links, l.1 ≠ a) : Mem (put s a e) links :=
  memFrame held (fun l mem => putOther (apart l mem))

theorem putLayout (held : Mem s (layout t parent)) (apart : a ∉ t.items) : Mem (put s a e) (layout t parent) :=
  putMem held (fun _ mem same => apart (same ▸ layoutItems mem))

theorem putAbove (held : Mem s (layoutAbove ctx parent)) (apart : a ∉ above ctx) :
    Mem (put s a e) (layoutAbove ctx parent) :=
  putMem held (fun _ mem same => apart (same ▸ layoutAboveItems mem))

theorem okBind {α β : Type} (a : α) (f : α → Except Fault β) : (Except.ok a >>= f) = f a := rfl

theorem loadLive (alive : live a = true) : load live s (some a) = .ok (s.entry a) := by
  simp [load,deref,alive]
  rfl

theorem storeLive (alive : live a = true) : store live s (some a) f = .ok (put s a (f (s.entry a))) := by
  simp [store,deref,alive]
  rfl

theorem reparentRoot (held : Mem s (layout t parent)) (nodup : t.items.Nodup) (alive : ∀ a ∈ t.items, live a = true)
    (new : Option Nat) : ∃ s', reparent live s t.root new = .ok s' ∧ Mem s' (layout t new) ∧ s'.root = s.root ∧
      ∀ k ∉ t.items, s'.entry k = s.entry k := by
  cases t with
  | leaf => exact ⟨s,rfl,memNil,rfl,fun _ _ => rfl⟩
  | node c l a r =>
    obtain ⟨_,_,freshLeft,freshRight,_⟩ := growApart (d := .left) nodup
    obtain ⟨here,left,right⟩ := (memGrowLinks (d := .left)).mp held
    have mem : a ∈ (ColorTree.node c l a r).items := by simp [items]
    have ran : reparent live s (some a) new = .ok (put s a {s.entry a with parent := new}) :=
      (if_neg (by simp)).trans (storeLive (alive a mem))
    refine ⟨_,ran,(memGrowLinks (d := .left)).mpr ⟨?_,putLayout left freshLeft,putLayout right freshRight⟩,rfl,?_⟩
    · rw [putSelf,here,entSetParent]
    · intro k other
      exact putOther (fun same => other (same ▸ mem))

theorem aboveSet {f : Frame Nat} (held : Mem s (layoutAbove (f :: ctx) parent)) (nodup : (above (f :: ctx)).Nodup)
    (new : Option Nat) :
    Mem (put s f.item (ent f.side new f.sibling.root (up ctx) f.color)) (layoutAbove (f :: ctx) new) := by
  obtain ⟨_,fresh,outside,_⟩ := aboveApart nodup
  rw [layoutAbove,memCons,memAppend] at held ⊢
  exact ⟨putSelf,putLayout held.2.1 fresh,putAbove held.2.2 outside⟩

theorem relinkAbove (held : Mem s (layoutAbove ctx (some a))) (root : s.root = rootAbove ctx (some a))
    (nodup : (above ctx).Nodup) (apart : a ∉ above ctx) (alive : ∀ k ∈ above ctx, live k = true) (new : Option Nat) :
    ∃ s', relink live s (up ctx) (some a) new = .ok s' ∧ Mem s' (layoutAbove ctx new) ∧
      s'.root = rootAbove ctx new ∧ ∀ k ∉ above ctx, s'.entry k = s.entry k := by
  cases ctx with
  | nil => exact ⟨{s with root := new},rfl,memNil,rfl,fun _ _ => rfl⟩
  | cons f ctx =>
    have mem : f.item ∈ above (f :: ctx) := memAbove.mpr (.inl rfl)
    have other : f.sibling.root ≠ some a := fun same => apart (memAbove.mpr (.inr (.inl (rootMem same))))
    have ran : relink live s (some f.item) (some a) new =
        .ok (put s f.item (ent f.side new f.sibling.root (up ctx) f.color)) := by
      have linked : s.entry f.item = ent f.side (some a) f.sibling.root (up ctx) f.color := (memCons.mp held).1
      rw [relink,if_neg (by simp),loadLive (alive _ mem),okBind,storeLive (alive _ mem),linked,entSide other,entSetNear]
    exact ⟨_,ran,aboveSet held nodup new,root,fun k away => putOther (fun same => away (same ▸ mem))⟩

end Put

structure Parts (live : Nat → Bool) (s : Rb) (d : Side) (c : Color) (x : ColorTree Nat) (a : Nat) (y : ColorTree Nat)
    (ctx : List (Frame Nat)) : Prop where
  entry : s.entry a = ent d x.root y.root (up ctx) c
  near : Mem s (layout x (some a))
  far : Mem s (layout y (some a))
  beyond : Mem s (layoutAbove ctx (some a))
  root : s.root = rootAbove ctx (some a)
  apart : a ∉ x.items ∧ a ∉ y.items ∧ a ∉ above ctx
  nearApart : ∀ k ∈ x.items, k ∉ y.items ∧ k ∉ above ctx
  farApart : ∀ k ∈ y.items, k ∉ above ctx
  nearNodup : x.items.Nodup
  farNodup : y.items.Nodup
  overNodup : (above ctx).Nodup
  alive : live a = true
  nearAlive : ∀ k ∈ x.items, live k = true
  farAlive : ∀ k ∈ y.items, live k = true
  overAlive : ∀ k ∈ above ctx, live k = true

section Held
variable {live : Nat → Bool} {s : Rb} {t t' x y m : ColorTree Nat} {ctx : List (Frame Nat)} {d : Side} {c c' : Color}
  {a b k : Nat}

theorem memPlug : k ∈ (plug t ctx).items ↔ k ∈ t.items ∨ k ∈ above ctx := by
  rw [plugItems,above,List.mem_append,List.mem_append,List.mem_append]
  tauto

theorem heldUp {f : Frame Nat} (held : Held live s (plug t (f :: ctx))) :
    Held live s (plug (grow f.side f.color t f.item f.sibling) ctx) := held

theorem heldNear (held : Held live s (plug (grow d c x a y) ctx)) : Held live s (plug x (⟨d,c,a,y⟩ :: ctx)) := held

theorem heldFar (held : Held live s (plug (grow d c x a y) ctx)) : Held live s (plug y (⟨d.flip,c,a,x⟩ :: ctx)) := by
  rw [plugFlip]
  exact held

theorem heldParts (held : Held live s (plug (grow d c x a y) ctx)) : Parts live s d c x a y ctx := by
  obtain ⟨root,links,nodup,alive⟩ := held
  obtain ⟨inner,outer,apart⟩ := plugApart nodup
  obtain ⟨nearNodup,farNodup,freshNear,freshFar,between⟩ := growApart inner
  obtain ⟨focus,beyond⟩ := plugLinks.mp links
  obtain ⟨entry,near,far⟩ := memGrowLinks.mp focus
  rw [plugRoot,rootGrow] at root
  rw [rootGrow] at beyond
  have memA : a ∈ (grow d c x a y).items := memGrow.mpr (.inr (.inl rfl))
  have memX (k : Nat) (mem : k ∈ x.items) : k ∈ (grow d c x a y).items := memGrow.mpr (.inl mem)
  have memY (k : Nat) (mem : k ∈ y.items) : k ∈ (grow d c x a y).items := memGrow.mpr (.inr (.inr mem))
  exact {
    entry := entry, near := near, far := far, beyond := beyond, root := root
    apart := ⟨freshNear,freshFar,apart a memA⟩
    nearApart := fun k mem => ⟨between k mem,apart k (memX k mem)⟩
    farApart := fun k mem => apart k (memY k mem)
    nearNodup := nearNodup, farNodup := farNodup, overNodup := outer
    alive := alive a (memPlug.mpr (.inl memA))
    nearAlive := fun k mem => alive k (memPlug.mpr (.inl (memX k mem)))
    farAlive := fun k mem => alive k (memPlug.mpr (.inl (memY k mem)))
    overAlive := fun k mem => alive k (memPlug.mpr (.inr mem)) }

theorem heldLoad (held : Held live s (plug (grow d c x a y) ctx)) :
    load live s (some a) = .ok (ent d x.root y.root (up ctx) c) := by
  have parts := heldParts held
  rw [loadLive parts.alive,parts.entry]

theorem heldColor (held : Held live s (plug (grow d c x a y) ctx)) (c' : Color) :
    ∃ s', setColor live s (some a) c' = .ok s' ∧ Held live s' (plug (grow d c' x a y) ctx) := by
  have parts := heldParts held
  have same : (plug (grow d c' x a y) ctx).items = (plug (grow d c x a y) ctx).items :=
    plugSame (itemsRecolor ..) ctx
  refine ⟨_,storeLive parts.alive,?_,plugLinks.mpr ⟨memGrowLinks.mpr ⟨?_,?_,?_⟩,?_⟩,?_,?_⟩
  · rw [plugRoot,rootGrow]
    exact parts.root
  · rw [putSelf,parts.entry,entSetColor]
  · exact putLayout parts.near parts.apart.1
  · exact putLayout parts.far parts.apart.2.1
  · rw [rootGrow]
    exact putAbove parts.beyond parts.apart.2.2
  · rw [same]
    exact held.nodup
  · rw [same]
    exact held.alive

structure Turn (live : Nat → Bool) (s : Rb) (d : Side) (c c' : Color) (x : ColorTree Nat) (a : Nat)
    (m : ColorTree Nat) (b : Nat) (y : ColorTree Nat) (ctx : List (Frame Nat)) : Prop where
  outer : Parts live s d c x a (grow d c' m b y) ctx
  inner : Parts live s d c' m b y (⟨d.flip,c,a,x⟩ :: ctx)
  other : a ≠ b
  apart : a ∉ m.items ∧ a ∉ y.items
  childAbove : b ∉ above ctx
  midAbove : ∀ k ∈ m.items, k ∉ above ctx
  nearApart : ∀ k ∈ x.items, k ≠ b ∧ k ∉ m.items ∧ k ∉ y.items

theorem heldTurn (held : Held live s (plug (grow d c x a (grow d c' m b y)) ctx)) :
    Turn live s d c c' x a m b y ctx := by
  have outer := heldParts held
  have memB : b ∈ (grow d c' m b y).items := memGrow.mpr (.inr (.inl rfl))
  refine ⟨outer,heldParts (heldFar held),fun same => outer.apart.2.1 (same ▸ memB),?_,outer.farApart b memB,
    fun k mem => outer.farApart k (memGrow.mpr (.inl mem)),fun k mem => ?_⟩
  · have fresh := outer.apart.2.1
    rw [memGrow] at fresh
    tauto
  · have apart := (outer.nearApart k mem).1
    rw [memGrow] at apart
    tauto

-- The inner subtree changes hands, then what pointed to `a` points to `b`; the rest of the tree stays.
theorem rotateRun (turn : Turn live s d c c' x a m b y ctx) : ∃ s', rotate live d s (some a) = .ok s' ∧
    s'.root = rootAbove ctx (some b) ∧ s'.entry b = ent d (some a) y.root (up ctx) c' ∧
    s'.entry a = ent d x.root m.root (some b) c ∧ Mem s' (layout m (some a)) ∧ Mem s' (layoutAbove ctx (some b)) ∧
    ∀ k, k ≠ a → k ≠ b → k ∉ above ctx → k ∉ m.items → s'.entry k = s.entry k := by
  obtain ⟨outer,inner,other,⟨freshM,freshY⟩,aboveB,mAbove,_⟩ := turn
  have aboveA : a ∉ above ctx := outer.apart.2.2
  have innerEntry : s.entry b = ent d m.root y.root (some a) c' := inner.entry
  have outerEntry : s.entry a = ent d x.root (some b) (up ctx) c := by rw [outer.entry,rootGrow]
  obtain ⟨s₂,moved,mHeld,root₂,frame₂⟩ : ∃ s₂,
      reparent live (put s a (ent d x.root m.root (up ctx) c)) m.root (some a) = .ok s₂ ∧
      Mem s₂ (layout m (some a)) ∧ s₂.root = s.root ∧ ∀ k ∉ m.items, s₂.entry k = (put s a _).entry k :=
    reparentRoot (putLayout inner.near freshM) inner.nearNodup inner.nearAlive (some a)
  have entryA₂ : s₂.entry a = ent d x.root m.root (up ctx) c := (frame₂ a freshM).trans putSelf
  have entryB₂ : s₂.entry b = ent d m.root y.root (some a) c' :=
    (frame₂ b inner.apart.1).trans ((putOther other.symm).trans innerEntry)
  have beyond₃ : Mem (put s₂ b (ent d m.root y.root (up ctx) c')) (layoutAbove ctx (some a)) := by
    refine putAbove (memFrame (putAbove outer.beyond aboveA) (fun l mem => frame₂ l.1 (fun inside => ?_))) aboveB
    exact mAbove l.1 inside (layoutAboveItems mem)
  obtain ⟨s₄,relinked,beyond₄,root₄,frame₄⟩ := relinkAbove beyond₃ (root₂.trans outer.root) outer.overNodup aboveA
    outer.overAlive (some b)
  have entryA₄ : s₄.entry a = ent d x.root m.root (up ctx) c :=
    (frame₄ a aboveA).trans ((putOther other).trans entryA₂)
  have entryB₄ : s₄.entry b = ent d m.root y.root (up ctx) c' := (frame₄ b aboveB).trans putSelf
  have frame (k : Nat) (notA : k ≠ a) (notB : k ≠ b) (away : k ∉ above ctx) :
      (put (put s₄ b (ent d (some a) y.root (up ctx) c')) a (ent d x.root m.root (some b) c)).entry k = s₂.entry k := by
    rw [putOther notA,putOther notB,frame₄ k away,putOther notB]
  refine ⟨put (put s₄ b (ent d (some a) y.root (up ctx) c')) a (ent d x.root m.root (some b) c),?_,root₄,?_,putSelf,?_,
    putAbove (putAbove beyond₄ aboveB) aboveA,fun k notA notB away notM => ?_⟩
  · simp only [rotate,loadLive outer.alive,loadLive inner.alive,storeLive outer.alive,storeLive inner.alive,okBind,
      outerEntry,innerEntry,entFar,entNear,entSetFar,putOther other.symm,moved,entryA₂,entryB₂,entParent,
      entSetParent,relinked,entryB₄,entSetNear,putOther other,entryA₄]
  · rw [putOther other.symm,putSelf]
  · refine memFrame mHeld (fun l mem => ?_)
    have inside := layoutItems mem
    exact frame l.1 (fun same => freshM (same ▸ inside)) (fun same => inner.apart.1 (same ▸ inside)) (mAbove l.1 inside)
  · rw [frame k notA notB away,frame₂ k notM,putOther notA]

theorem heldRotate (held : Held live s (plug (grow d c x a (grow d c' m b y)) ctx)) :
    ∃ s', rotate live d s (some a) = .ok s' ∧ Held live s' (plug (grow d c' (grow d c x a m) b y) ctx) := by
  have turn := heldTurn held
  have outer := turn.outer
  have inner := turn.inner
  obtain ⟨s',ran,root,entryB,entryA,mid,beyond,frame⟩ := rotateRun turn
  have same := plugSame (rotateItems d c c' x m y a b) ctx
  refine ⟨s',ran,?_,plugLinks.mpr ⟨memGrowLinks.mpr ⟨?_,memGrowLinks.mpr ⟨entryA,?_,mid⟩,?_⟩,?_⟩,?_,?_⟩
  · rw [plugRoot,rootGrow]
    exact root
  · rw [entryB,rootGrow]
  · refine memFrame outer.near (fun l mem => ?_)
    have inside := layoutItems mem
    obtain ⟨notB,notM,_⟩ := turn.nearApart l.1 inside
    exact frame l.1 (fun same => outer.apart.1 (same ▸ inside)) notB (outer.nearApart l.1 inside).2 notM
  · refine memFrame inner.far (fun l mem => ?_)
    have inside := layoutItems mem
    have notAbove : l.1 ∉ above ctx := outer.farApart l.1 (memGrow.mpr (.inr (.inr inside)))
    exact frame l.1 (fun same => turn.apart.2 (same ▸ inside)) (fun same => inner.apart.2.1 (same ▸ inside)) notAbove
      (fun mem' => (inner.nearApart l.1 mem').1 inside)
  · rw [rootGrow]
    exact beyond
  · rw [← same]
    exact held.nodup
  · rw [← same]
    exact held.alive

theorem heldLink {side : Side} (held : Held live s (plug .leaf ctx)) (alive : live a = true)
    (fresh : a ∉ (plug .leaf ctx).items) (sided : ∀ f ∈ ctx.head?, f.side = side) :
    ∃ s', link live side s (some a) (up ctx) = .ok s' ∧ Held live s' (plug (.node .red .leaf a .leaf) ctx) := by
  obtain ⟨root,links,nodup,alives⟩ := held
  have beyond := (plugLinks.mp links).2
  have items : (plug (.node .red .leaf a .leaf) ctx).items = before ctx ++ a :: after ctx := by
    rw [plugItems]
    simp [ColorTree.items]
  rw [plugLeaf] at fresh nodup alives
  have nodup' : (plug (.node .red .leaf a .leaf) ctx).items.Nodup := by
    rw [items,List.nodup_middle]
    exact List.nodup_cons.mpr ⟨fresh,nodup⟩
  have alive' : ∀ k ∈ (plug (.node .red .leaf a .leaf) ctx).items, live k = true := by
    intro k mem
    rcases memPlug.mp mem with mem | mem
    · simp only [ColorTree.items,List.nil_append,List.mem_singleton] at mem
      exact mem ▸ alive
    · exact alives k mem
  cases ctx with
  | nil =>
    refine ⟨{put s a ⟨none,none,none,.red⟩ with root := some a},?_,rfl,?_,nodup',alive'⟩
    · rw [link,storeLive alive]
      rfl
    · simp [plug,layout,Mem,put,ColorTree.root]
  | cons f ctx =>
    have mem : f.item ∈ above (f :: ctx) := memAbove.mpr (.inl rfl)
    have other : f.item ≠ a := fun same => fresh (same ▸ mem)
    have linked : s.entry f.item = ent f.side none f.sibling.root (up ctx) f.color := (memCons.mp beyond).1
    have ran : link live side s (some a) (some f.item) = .ok (put (put s a ⟨none,none,some f.item,.red⟩) f.item
        (ent f.side (some a) f.sibling.root (up ctx) f.color)) := by
      rw [link,storeLive alive,okBind,if_neg (by simp),storeLive (alives _ mem),putOther other,linked,
        ← sided f rfl,entSetNear]
    refine ⟨_,ran,?_,plugLinks.mpr ⟨?_,aboveSet (putAbove beyond fresh) nodup (some a)⟩,nodup',alive'⟩
    · rw [plugRoot] at root ⊢
      exact root
    · refine (memGrowLinks (d := .left)).mpr ⟨?_,memNil,memNil⟩
      rw [putOther other.symm,putSelf]
      rfl

theorem heldSplice (held : Held live s (plug (grow d c .leaf a y) ctx)) :
    ∃ s', splice live s (some a) y.root (up ctx) = .ok s' ∧ Held live s' (plug y ctx) ∧ s'.entry a = s.entry a ∧
      a ∉ (plug y ctx).items := by
  have parts := heldParts held
  obtain ⟨s₁,moved,far₁,root₁,frame₁⟩ := reparentRoot parts.far parts.farNodup parts.farAlive (up ctx)
  have over₁ : Mem s₁ (layoutAbove ctx (some a)) :=
    memFrame parts.beyond (fun l mem => frame₁ l.1 (fun inside => parts.farApart l.1 inside (layoutAboveItems mem)))
  obtain ⟨s₂,relinked,over₂,root₂,frame₂⟩ := relinkAbove over₁ (root₁.trans parts.root) parts.overNodup parts.apart.2.2
    parts.overAlive y.root
  obtain ⟨front,back,was,now⟩ := unlinkItems d c a y ctx
  have nodup := held.nodup
  rw [was,List.nodup_middle,List.nodup_cons,← now] at nodup
  refine ⟨s₂,?_,⟨?_,plugLinks.mpr ⟨?_,over₂⟩,nodup.2,?_⟩,?_,nodup.1⟩
  · rw [splice,moved]
    exact relinked
  · rw [plugRoot]
    exact root₂
  · exact memFrame far₁ (fun l mem => frame₂ l.1 (parts.farApart l.1 (layoutItems mem)))
  · intro k mem
    refine held.alive k ?_
    rw [now,List.mem_append] at mem
    rw [was,List.mem_append,List.mem_cons]
    tauto
  · rw [frame₂ a parts.apart.2.2,frame₁ a parts.apart.2.1]

theorem heldReplace (held : Held live s (plug (.node c x a y) ctx)) (left : x ≠ .leaf) (alive : live b = true)
    (fresh : b ∉ (plug (.node c x a y) ctx).items) :
    ∃ s', replace live s (some a) (some b) = .ok s' ∧ Held live s' (plug (.node c x b y) ctx) := by
  have parts : Parts live s .left c x a y ctx := heldParts held
  obtain ⟨freshX,freshAY,freshAbove⟩ : b ∉ x.items ∧ (b ≠ a ∧ b ∉ y.items) ∧ b ∉ above ctx := by
    simp only [memPlug,ColorTree.items,List.mem_append,List.mem_cons] at fresh
    tauto
  obtain ⟨other,freshY⟩ := freshAY
  obtain ⟨aX,aY,aAbove⟩ := parts.apart
  have entry : s.entry a = ⟨x.root,y.root,up ctx,c⟩ := parts.entry
  obtain ⟨s₂,relinked,over₂,root₂,frame₂⟩ := relinkAbove
    (putAbove parts.beyond freshAbove : Mem (put s b ⟨x.root,y.root,up ctx,c⟩) _) parts.root parts.overNodup aAbove
    parts.overAlive (some b)
  have entryA₂ : s₂.entry a = ⟨x.root,y.root,up ctx,c⟩ := (frame₂ a aAbove).trans ((putOther other.symm).trans entry)
  have near₂ : Mem s₂ (layout x (some a)) := by
    refine memFrame (putLayout parts.near freshX) (fun l mem => frame₂ l.1 ?_)
    exact (parts.nearApart l.1 (layoutItems mem)).2
  have far₂ : Mem s₂ (layout y (some a)) :=
    memFrame (putLayout parts.far freshY) (fun l mem => frame₂ l.1 (parts.farApart l.1 (layoutItems mem)))
  obtain ⟨s₃,moved₃,near₃,root₃,frame₃⟩ := reparentRoot near₂ parts.nearNodup parts.nearAlive (some b)
  have far₃ : Mem s₃ (layout y (some a)) := by
    refine memFrame far₂ (fun l mem => frame₃ l.1 (fun inside => ?_))
    exact (parts.nearApart l.1 inside).1 (layoutItems mem)
  have entryA₃ : s₃.entry a = ⟨x.root,y.root,up ctx,c⟩ := (frame₃ a aX).trans entryA₂
  obtain ⟨s₄,moved₄,far₄,root₄,frame₄⟩ := reparentRoot far₃ parts.farNodup parts.farAlive (some b)
  have leftChild : reparent live s₂ x.root (some b) = store live s₂ x.root ({· with parent := some b}) := by
    cases x with
    | leaf => exact absurd rfl left
    | node => rfl
  have same (k : Nat) : k ∈ (plug (.node c x b y) ctx).items ↔
      k ∈ x.items ∨ k = b ∨ k ∈ y.items ∨ k ∈ above ctx := by
    simp only [memPlug,ColorTree.items,List.mem_append,List.mem_cons]
    tauto
  refine ⟨s₄,?_,?_,plugLinks.mpr ⟨(memGrowLinks (d := .left)).mpr ⟨?_,?_,far₄⟩,?_⟩,?_,?_⟩
  · rw [leftChild] at moved₃
    simp only [replace,loadLive parts.alive,okBind,entry,storeLive alive,putOther other.symm,relinked,entryA₂,
      moved₃,entryA₃,moved₄]
  · rw [root₄,root₃,root₂,plugRoot]
    rfl
  · rw [frame₄ b freshY,frame₃ b freshX,frame₂ b freshAbove,putSelf]
    rfl
  · exact memFrame near₃ (fun l mem => frame₄ l.1 (parts.nearApart l.1 (layoutItems mem)).1)
  · refine memFrame over₂ (fun l mem => ?_)
    have inside := layoutAboveItems mem
    rw [frame₄ l.1 (fun mem' => parts.farApart l.1 mem' inside),
      frame₃ l.1 (fun mem' => (parts.nearApart l.1 mem').2 inside)]
  · have nodup := held.nodup
    rw [nodeItems] at nodup fresh ⊢
    rw [List.nodup_middle,List.nodup_cons] at nodup ⊢
    refine ⟨fun mem => fresh ?_,nodup.2⟩
    rcases List.mem_append.mp mem with mem | mem
    · exact List.mem_append_left _ mem
    · exact List.mem_append_right _ (List.mem_cons_of_mem _ mem)
  · intro k mem
    rcases (same k).mp mem with mem | rfl | mem | mem
    · exact parts.nearAlive k mem
    · exact alive
    · exact parts.farAlive k mem
    · exact parts.overAlive k mem

end Held

end Qtl.RbTree
