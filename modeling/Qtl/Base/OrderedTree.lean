import Mathlib.Data.List.Perm.Basic
import Mathlib.Order.Lattice

/-! Ordered trees of items under a three-way comparison: what such a tree promises its
user, and a plain search tree that keeps the promise. An item that compares equal to
one in the tree is not inserted. -/
namespace Qtl.Base

structure OrderedTree (τ ν : Type) (cmp : ν → ν → Int) where
  items : τ → List ν
  init : τ
  insert : τ → ν → τ × Option ν
  find : τ → ν → Option ν
  remove : τ → ν → τ
  min : τ → Option ν
  next : τ → ν → Option ν
  isEmpty : τ → Bool
  sorted : ∀ t, (items t).Pairwise (fun a b => cmp a b < 0)
  initItems : items init = []
  insertNew : ∀ t x, (∀ y ∈ items t, cmp x y ≠ 0) →
    (insert t x).2 = none ∧ (items (insert t x).1).Perm (x :: items t)
  insertOld : ∀ t x y, y ∈ items t → cmp x y = 0 → insert t x = (t,some y)
  findSome : ∀ t x y, find t x = some y ↔ y ∈ items t ∧ cmp x y = 0
  removeItems : ∀ t before x rest, items t = before ++ x :: rest → items (remove t x) = before ++ rest
  minHead : ∀ t, min t = (items t).head?
  nextHead : ∀ t before x rest, items t = before ++ x :: rest → next t x = rest.head?
  isEmptyItems : ∀ t, isEmpty t = true ↔ items t = []

namespace OrderedTree

structure Ranked {ν κ : Type} [LinearOrder κ] (cmp : ν → ν → Int) (rank : ν → κ) : Prop where
  less : ∀ a b, cmp a b < 0 ↔ rank a < rank b
  greater : ∀ a b, 0 < cmp a b ↔ rank b < rank a

section Ranked
variable {ν κ : Type} [LinearOrder κ] {cmp : ν → ν → Int} {rank : ν → κ} {a b c : ν}

theorem rankedZero (ranked : Ranked cmp rank) : cmp a b = 0 ↔ rank a = rank b := by
  have less := ranked.less a b
  have greater := ranked.greater a b
  refine ⟨fun zero => ?_,fun same => ?_⟩
  · refine le_antisymm (le_of_not_gt (fun h => ?_)) (le_of_not_gt (fun h => ?_))
    · have := greater.mpr h
      omega
    · have := less.mpr h
      omega
  · have notLess := mt less.mp (by rw [same]; exact lt_irrefl _)
    have notGreater := mt greater.mp (by rw [same]; exact lt_irrefl _)
    omega

theorem rankedFlip (ranked : Ranked cmp rank) : 0 < cmp a b ↔ cmp b a < 0 := by
  rw [ranked.greater,ranked.less]

end Ranked

inductive Search (ν : Type) where
  | leaf
  | node (left : Search ν) (item : ν) (right : Search ν)

namespace Search
variable {ν : Type}

def items : Search ν → List ν
  | leaf => []
  | node left item right => left.items ++ item :: right.items

def insert (cmp : ν → ν → Int) (x : ν) : Search ν → Search ν × Option ν
  | leaf => (node leaf x leaf,none)
  | node left item right =>
      let comp := cmp x item
      if comp < 0 then (node (insert cmp x left).1 item right,(insert cmp x left).2)
      else if comp > 0 then (node left item (insert cmp x right).1,(insert cmp x right).2)
      else (node left item right,some item)

def find (cmp : ν → ν → Int) (x : ν) : Search ν → Option ν
  | leaf => none
  | node left item right =>
      let comp := cmp x item
      if comp < 0 then find cmp x left else if comp > 0 then find cmp x right else some item

def min : Search ν → Option ν
  | leaf => none
  | node left item _ => left.min.orElse (fun _ => some item)

def dropMin : Search ν → Search ν
  | leaf => leaf
  | node leaf _ right => right
  | node (node ll li lr) item right => node (dropMin (node ll li lr)) item right

-- The node that follows takes the place of one that has two children.
def join (left right : Search ν) : Search ν :=
  match left,right.min with
  | leaf,_ => right
  | left,none => left
  | left,some item => node left item right.dropMin

def remove [DecidableEq ν] (x : ν) : Search ν → Search ν
  | leaf => leaf
  | node left item right => if x = item then join left right else node (remove x left) item (remove x right)

-- `after` is the item that follows the whole subtree.
def next [DecidableEq ν] (x : ν) : Search ν → (after : Option ν) → Option ν
  | leaf,_ => none
  | node left item right,after =>
      if x = item then right.min.orElse (fun _ => after)
      else (next x left (some item)).orElse (fun _ => next x right after)

def isEmpty : Search ν → Bool
  | leaf => true
  | node .. => false

def Sorted (cmp : ν → ν → Int) (t : Search ν) : Prop := t.items.Pairwise (fun a b => cmp a b < 0)

variable {κ : Type} [LinearOrder κ] {cmp : ν → ν → Int} {rank : ν → κ} {t left right : Search ν} {x y : ν}

theorem sortedNode : Sorted cmp (node left y right) ↔ Sorted cmp left ∧ Sorted cmp right ∧
    (∀ a ∈ left.items, cmp a y < 0) ∧ (∀ b ∈ right.items, cmp y b < 0) ∧
    ∀ a ∈ left.items, ∀ b ∈ right.items, cmp a b < 0 := by
  simp only [Sorted,items,List.pairwise_append,List.pairwise_cons,List.mem_cons,forall_eq_or_imp,forall_and]
  tauto

theorem insertNew (ranked : Ranked cmp rank) (sorted : Sorted cmp t) (new : ∀ y ∈ t.items, cmp x y ≠ 0) :
    (insert cmp x t).2 = none ∧ ∃ before after, t.items = before ++ after ∧
      (insert cmp x t).1.items = before ++ x :: after ∧
      (∀ a ∈ before, cmp a x < 0) ∧ ∀ b ∈ after, cmp x b < 0 := by
  induction t with
  | leaf => exact ⟨rfl,[],[],rfl,rfl,by simp,by simp⟩
  | node left y right ihl ihr =>
    obtain ⟨sl,sr,lower,upper,_⟩ := sortedNode.mp sorted
    have trans {a b c : ν} (h : cmp a b < 0) (h' : cmp b c < 0) : cmp a c < 0 := by
      rw [ranked.less] at *
      exact lt_trans h h'
    simp only [insert,items,List.mem_append,List.mem_cons] at new ⊢
    split_ifs with less greater
    · obtain ⟨none,before,after,same,now,small,large⟩ := ihl sl (fun a mem => new a (.inl mem))
      refine ⟨none,before,after ++ y :: right.items,by rw [same]; simp,by simp [items,now],small,?_⟩
      intro b mem
      rcases List.mem_append.mp mem with mem | mem
      · exact large b mem
      · rcases List.mem_cons.mp mem with rfl | mem
        · exact less
        · exact trans less (upper b mem)
    · obtain ⟨none,before,after,same,now,small,large⟩ := ihr sr (fun b mem => new b (.inr (.inr mem)))
      have above : cmp y x < 0 := (rankedFlip ranked).mp greater
      refine ⟨none,left.items ++ y :: before,after,by rw [same]; simp,by simp [items,now],?_,large⟩
      intro a mem
      rcases List.mem_append.mp mem with mem | mem
      · exact trans (lower a mem) above
      · rcases List.mem_cons.mp mem with rfl | mem
        · exact above
        · exact small a mem
    · exact absurd (by omega) (new y (.inr (.inl rfl)))

theorem sameSide (ranked : Ranked cmp rank) (sorted : Sorted cmp (node left y right)) {z : ν}
    (mem : z ∈ (node left y right).items) (same : cmp x z = 0) :
    (cmp x y < 0 ∧ z ∈ left.items) ∨ (cmp x y = 0 ∧ z = y) ∨ (0 < cmp x y ∧ z ∈ right.items) := by
  obtain ⟨_,_,lower,upper,_⟩ := sortedNode.mp sorted
  have equal := (rankedZero ranked).mp same
  simp only [items,List.mem_append,List.mem_cons] at mem
  rcases mem with mem | rfl | mem
  · have below := lower z mem
    rw [ranked.less,← equal,← ranked.less] at below
    exact .inl ⟨below,mem⟩
  · exact .inr (.inl ⟨same,rfl⟩)
  · have above := upper z mem
    rw [ranked.less,← equal,← ranked.greater] at above
    exact .inr (.inr ⟨above,mem⟩)

theorem insertOld (ranked : Ranked cmp rank) (sorted : Sorted cmp t) {z : ν} (mem : z ∈ t.items)
    (same : cmp x z = 0) : insert cmp x t = (t,some z) := by
  induction t with
  | leaf => simp [items] at mem
  | node left y right ihl ihr =>
    obtain ⟨sl,sr,_⟩ := sortedNode.mp sorted
    rcases sameSide ranked sorted mem same with ⟨less,mem⟩ | ⟨zero,rfl⟩ | ⟨greater,mem⟩
    · simp [insert,less,ihl sl mem]
    · simp [insert,zero]
    · simp [insert,greater,Int.not_lt.mpr (Int.le_of_lt greater),ihr sr mem]

theorem findSome (ranked : Ranked cmp rank) (sorted : Sorted cmp t) {z : ν} :
    find cmp x t = some z ↔ z ∈ t.items ∧ cmp x z = 0 := by
  induction t with
  | leaf => simp [find,items]
  | node left y right ihl ihr =>
    obtain ⟨sl,sr,_⟩ := sortedNode.mp sorted
    refine ⟨fun found => ?_,fun ⟨mem,same⟩ => ?_⟩
    · simp only [find] at found
      simp only [items,List.mem_append,List.mem_cons]
      split_ifs at found with less greater
      · obtain ⟨mem,same⟩ := (ihl sl).mp found
        exact ⟨.inl mem,same⟩
      · obtain ⟨mem,same⟩ := (ihr sr).mp found
        exact ⟨.inr (.inr mem),same⟩
      · cases found
        exact ⟨.inr (.inl rfl),by omega⟩
    · rcases sameSide ranked sorted mem same with ⟨less,mem⟩ | ⟨zero,rfl⟩ | ⟨greater,mem⟩
      · simp [find,less,(ihl sl).mpr ⟨mem,same⟩]
      · simp [find,zero]
      · simp [find,greater,Int.not_lt.mpr (Int.le_of_lt greater),(ihr sr).mpr ⟨mem,same⟩]

theorem minHead (t : Search ν) : t.min = t.items.head? := by
  induction t with
  | leaf => rfl
  | node left y right ihl ihr =>
    simp only [min,items,ihl]
    cases left.items <;> rfl

theorem dropMinTail (t : Search ν) : t.dropMin.items = t.items.tail := by
  induction t with
  | leaf => rfl
  | node left y right ihl ihr =>
    cases left with
    | leaf => rfl
    | node ll li lr =>
      have some : (node ll li lr).items ≠ [] := by simp [items]
      rw [dropMin,items,ihl]
      exact (List.tail_append_of_ne_nil some).symm

theorem joinItems (left right : Search ν) : (join left right).items = left.items ++ right.items := by
  unfold join
  split
  · rfl
  · rename_i none
    rw [minHead,List.head?_eq_none_iff] at none
    simp [none]
  · rename_i item found
    rw [minHead] at found
    rw [items,dropMinTail]
    cases right' : right.items with
    | nil => simp [right'] at found
    | cons first rest =>
      rw [right'] at found
      cases found
      rfl

theorem splitNode {before rest : List ν} (whole : (node left y right).items = before ++ x :: rest) :
    (∃ later, left.items = before ++ x :: later ∧ rest = later ++ y :: right.items) ∨
    (x = y ∧ before = left.items ∧ rest = right.items) ∨
    ∃ earlier, right.items = earlier ++ x :: rest ∧ before = left.items ++ y :: earlier := by
  rw [items,List.append_eq_append_iff] at whole
  rcases whole with ⟨earlier,same,split⟩ | ⟨later,same,split⟩
  · cases earlier with
    | nil =>
      simp only [List.nil_append,List.cons.injEq] at split
      exact .inr (.inl ⟨split.1.symm,by simpa using same,split.2.symm⟩)
    | cons first earlier =>
      simp only [List.cons_append,List.cons.injEq] at split
      exact .inr (.inr ⟨earlier,split.2,by rw [same,split.1]⟩)
  · cases later with
    | nil =>
      simp only [List.nil_append,List.cons.injEq] at split
      exact .inr (.inl ⟨split.1,by simpa using same.symm,split.2⟩)
    | cons first later =>
      simp only [List.cons_append,List.cons.injEq] at split
      exact .inl ⟨later,by rw [same,split.1],split.2⟩

theorem nodupNode (nodup : (node left y right).items.Nodup) : left.items.Nodup ∧ right.items.Nodup ∧
    y ∉ left.items ∧ y ∉ right.items ∧ ∀ a ∈ left.items, a ∉ right.items := by
  obtain ⟨nl,nr,apart⟩ := List.nodup_append.mp nodup
  obtain ⟨fresh,nr⟩ := List.nodup_cons.mp nr
  refine ⟨nl,nr,fun mem => apart y mem y List.mem_cons_self rfl,fresh,fun a mem mem' => ?_⟩
  exact apart a mem a (List.mem_cons_of_mem _ mem') rfl

section Identity
variable [DecidableEq ν] {before rest : List ν}

theorem removeAbsent (absent : x ∉ t.items) : (remove x t).items = t.items := by
  induction t with
  | leaf => rfl
  | node left y right ihl ihr =>
    simp only [items,List.mem_append,List.mem_cons,not_or] at absent
    obtain ⟨fl,fy,fr⟩ := absent
    rw [remove,if_neg fy,items,ihl fl,ihr fr,items]

theorem nextAbsent {after : Option ν} (absent : x ∉ t.items) : next x t after = none := by
  induction t generalizing after with
  | leaf => rfl
  | node left y right ihl ihr =>
    simp only [items,List.mem_append,List.mem_cons,not_or] at absent
    obtain ⟨fl,fy,fr⟩ := absent
    rw [next,if_neg fy,ihl fl,ihr fr]
    rfl

theorem removeItems (nodup : t.items.Nodup) (whole : t.items = before ++ x :: rest) :
    (remove x t).items = before ++ rest := by
  induction t generalizing before rest with
  | leaf => simp [items] at whole
  | node left y right ihl ihr =>
    obtain ⟨nl,nr,fl,fr,apart⟩ := nodupNode nodup
    rcases splitNode whole with ⟨later,inside,rfl⟩ | ⟨rfl,rfl,rfl⟩ | ⟨earlier,inside,rfl⟩
    · have mem : x ∈ left.items := by simp [inside]
      rw [remove,if_neg (ne_of_mem_of_not_mem mem fl),items,ihl nl inside,removeAbsent (apart x mem)]
      simp
    · rw [remove,if_pos rfl,joinItems]
    · have mem : x ∈ right.items := by simp [inside]
      rw [remove,if_neg (ne_of_mem_of_not_mem mem fr),items,ihr nr inside,
        removeAbsent (fun mem' => apart x mem' mem)]
      simp

theorem nextHead {after : Option ν} (nodup : t.items.Nodup) (whole : t.items = before ++ x :: rest) :
    next x t after = rest.head?.orElse (fun _ => after) := by
  induction t generalizing before rest after with
  | leaf => simp [items] at whole
  | node left y right ihl ihr =>
    obtain ⟨nl,nr,fl,fr,apart⟩ := nodupNode nodup
    rcases splitNode whole with ⟨later,inside,rfl⟩ | ⟨rfl,rfl,rfl⟩ | ⟨earlier,inside,rfl⟩
    · have mem : x ∈ left.items := by simp [inside]
      rw [next,if_neg (ne_of_mem_of_not_mem mem fl),ihl nl inside]
      cases later <;> rfl
    · rw [next,if_pos rfl,minHead]
    · have mem : x ∈ right.items := by simp [inside]
      rw [next,if_neg (ne_of_mem_of_not_mem mem fr),nextAbsent (fun mem' => apart x mem' mem),ihr nr inside]
      rfl

end Identity

theorem sortedNodup (ranked : Ranked cmp rank) (sorted : Sorted cmp t) : t.items.Nodup := by
  refine List.Pairwise.imp (fun {a b} less => ?_) sorted
  rintro rfl
  exact lt_irrefl _ ((ranked.less _ _).mp less)

theorem insertSorted (ranked : Ranked cmp rank) (sorted : Sorted cmp t) : Sorted cmp (insert cmp x t).1 := by
  by_cases new : ∀ y ∈ t.items, cmp x y ≠ 0
  · obtain ⟨_,before,after,whole,now,small,large⟩ := insertNew ranked sorted new
    rw [Sorted,whole,List.pairwise_append] at sorted
    obtain ⟨first,last,across⟩ := sorted
    rw [Sorted,now,List.pairwise_append]
    refine ⟨first,List.pairwise_cons.mpr ⟨large,last⟩,fun a mem b mem' => ?_⟩
    rcases List.mem_cons.mp mem' with rfl | mem'
    · exact small a mem
    · exact across a mem b mem'
  · simp only [not_forall,not_not] at new
    obtain ⟨y,mem,same⟩ := new
    rw [insertOld ranked sorted mem same]
    exact sorted

theorem removeSorted [DecidableEq ν] (ranked : Ranked cmp rank) (sorted : Sorted cmp t) :
    Sorted cmp (remove x t) := by
  by_cases mem : x ∈ t.items
  · obtain ⟨before,rest,whole⟩ := List.append_of_mem mem
    rw [Sorted,removeItems (sortedNodup ranked sorted) whole]
    rw [Sorted,whole] at sorted
    exact List.Pairwise.sublist ((List.sublist_cons_self x rest).append_left before) sorted
  · rw [Sorted,removeAbsent mem]
    exact sorted

end Search

section Instance
variable {ν κ : Type} [LinearOrder κ] [DecidableEq ν] {cmp : ν → ν → Int} {rank : ν → κ}

def searchTree (ranked : Ranked cmp rank) : OrderedTree {t : Search ν // t.Sorted cmp} ν cmp where
  items t := t.1.items
  init := ⟨.leaf,List.Pairwise.nil⟩
  insert t x := (⟨(t.1.insert cmp x).1,Search.insertSorted ranked t.2⟩,(t.1.insert cmp x).2)
  find t x := t.1.find cmp x
  remove t x := ⟨t.1.remove x,Search.removeSorted ranked t.2⟩
  min t := t.1.min
  next t x := t.1.next x none
  isEmpty t := t.1.isEmpty
  sorted t := t.2
  initItems := rfl
  insertNew t x new := by
    obtain ⟨none,before,after,whole,now,_⟩ := Search.insertNew ranked t.2 new
    refine ⟨none,?_⟩
    rw [now,whole]
    exact List.perm_middle
  insertOld t x y mem same := by
    have old := Search.insertOld ranked t.2 mem same
    exact Prod.ext (Subtype.ext (by simp only [old])) (by simp only [old])
  findSome t x y := Search.findSome ranked t.2
  removeItems t before x rest whole := Search.removeItems (Search.sortedNodup ranked t.2) whole
  minHead t := Search.minHead t.1
  nextHead t before x rest whole := by
    rw [Search.nextHead (Search.sortedNodup ranked t.2) whole]
    cases rest <;> rfl
  isEmptyItems t := by
    cases h : t.1 <;> simp [Search.isEmpty,Search.items]

end Instance

end OrderedTree

end Qtl.Base
