import Qtl.Base.StableOrder

/-! Search trees whose nodes carry all the items of one key. The newest item of a
key is the one linked into the tree, the older ones hang behind it. Read in order,
oldest first, such a tree is a stably ordered list. -/
namespace Qtl.Base

inductive ChainTree (κ ι : Type) where
  | leaf
  | node (left : ChainTree κ ι) (key : κ) (older : List ι) (newest : ι) (right : ChainTree κ ι)

namespace ChainTree
open StableOrder

variable {κ ι : Type}

def bucket (key : κ) (items : List ι) : List (κ × ι) := items.map (key,·)

def entries : ChainTree κ ι → List (κ × ι)
  | leaf => []
  | node left key older newest right =>
      entries left ++ (bucket key (older ++ [newest]) ++ entries right)

def items (t : ChainTree κ ι) : List ι := t.entries.map Prod.snd

@[simp] theorem itemsLeaf : (leaf : ChainTree κ ι).items = [] := rfl

@[simp] theorem itemsNode (left right : ChainTree κ ι) (key : κ) (older : List ι) (newest : ι) :
    (node left key older newest right).items =
      left.items ++ (older ++ [newest] ++ right.items) := by
  simp [items,entries,bucket,Function.comp_def]

theorem memBucket {key : κ} {xs : List ι} {e : κ × ι} (mem : e ∈ bucket key xs) : e.1 = key := by
  obtain ⟨x,_,rfl⟩ := List.mem_map.mp mem
  rfl

def takeFirst : ChainTree κ ι → Option ((κ × ι) × ChainTree κ ι)
  | leaf => none
  | node leaf key [] newest right => some ((key,newest),right)
  | node leaf key (oldest :: older) newest right =>
      some ((key,oldest),node leaf key older newest right)
  | node (node l k o n r) key older newest right =>
      (takeFirst (node l k o n r)).map (fun (e,left) => (e,node left key older newest right))

theorem takeFirstEntries {t t' : ChainTree κ ι} {e} (h : t.takeFirst = some (e,t')) :
    t.entries = e :: t'.entries := by
  induction t generalizing e t' with
  | leaf => simp [takeFirst] at h
  | node left key older newest right ihl ihr =>
    cases left with
    | leaf =>
      cases older with
      | nil => cases h; rfl
      | cons oldest older => cases h; rfl
    | node l k o n r =>
      simp only [takeFirst,Option.map_eq_some_iff] at h
      obtain ⟨⟨e,left⟩,found,same⟩ := h
      cases same
      rw [entries,ihl found]
      rfl

theorem takeFirstExists {t : ChainTree κ ι} (h : t ≠ leaf) : ∃ e t', t.takeFirst = some (e,t') := by
  induction t with
  | leaf => contradiction
  | node left key older newest right ihl ihr =>
    cases left with
    | leaf => cases older <;> exact ⟨_,_,rfl⟩
    | node l k o n r =>
      obtain ⟨e,left,found⟩ := ihl nofun
      exact ⟨e,node left key older newest right,by simp [takeFirst,found]⟩

theorem takeFirstItems {t t' : ChainTree κ ι} {e} (h : t.takeFirst = some (e,t')) :
    t.items = e.2 :: t'.items := by simp [items,takeFirstEntries h]

theorem entriesNil {t : ChainTree κ ι} : t.entries = [] ↔ t = leaf := by
  cases t <;> simp [entries,bucket]

def tips : ChainTree κ ι → List ι
  | leaf => []
  | node left _ _ newest right => tips left ++ newest :: tips right

theorem tipsItems {t : ChainTree κ ι} {x : ι} (mem : x ∈ t.tips) : x ∈ t.items := by
  induction t with
  | leaf => cases mem
  | node left key older newest right ihl ihr =>
    rw [itemsNode]
    rcases List.mem_append.mp mem with mem | mem
    · simp [ihl mem]
    · rcases List.mem_cons.mp mem with rfl | mem
      · simp
      · simp [ihr mem]

theorem takeFirstTips {t t' : ChainTree κ ι} {e} (h : t.takeFirst = some (e,t')) {x : ι}
    (mem : x ∈ t'.tips) : x ∈ t.tips := by
  induction t generalizing e t' with
  | leaf => simp [takeFirst] at h
  | node left key older newest right ihl ihr =>
    cases left with
    | leaf =>
      cases older with
      | nil => cases h; exact List.mem_cons_of_mem _ mem
      | cons oldest older => cases h; exact mem
    | node l k o n r =>
      simp only [takeFirst,Option.map_eq_some_iff] at h
      obtain ⟨⟨e,left⟩,found,same⟩ := h
      cases same
      rcases List.mem_append.mp mem with mem | mem
      · exact List.mem_append_left _ (ihl found mem)
      · exact List.mem_append_right _ mem

section Ordered
variable [LinearOrder κ]

def Ordered : ChainTree κ ι → Prop
  | leaf => True
  | node left key _ _ right =>
      Ordered left ∧ Ordered right ∧ (∀ e ∈ left.entries, e.1 < key) ∧ ∀ e ∈ right.entries, key < e.1

def insert (key : κ) (x : ι) : ChainTree κ ι → ChainTree κ ι
  | leaf => node leaf key [] x leaf
  | node left k older newest right =>
      if k = key then node left k (older ++ [newest]) x right
      else if k < key then node left k older newest (insert key x right)
      else node (insert key x left) k older newest right

theorem orderedSorted {t : ChainTree κ ι} (h : t.Ordered) : Sorted t.entries := by
  induction t with
  | leaf => exact .nil
  | node left key older newest right ihl ihr =>
    obtain ⟨hl,hr,below,above⟩ := h
    have same : Sorted (bucket key (older ++ [newest])) :=
      List.pairwise_of_forall_mem_list (fun a ha b hb => by rw [memBucket ha,memBucket hb])
    refine List.pairwise_append.mpr ⟨ihl hl,List.pairwise_append.mpr ⟨same,ihr hr,?_⟩,?_⟩
    · intro a ha b hb
      rw [memBucket ha]
      exact (above b hb).le
    · intro a ha b hb
      rcases List.mem_append.mp hb with hb | hb
      · rw [memBucket hb]; exact (below a ha).le
      · exact ((below a ha).trans (above b hb)).le

theorem insertEntries {t : ChainTree κ ι} (h : t.Ordered) (key : κ) (x : ι) :
    (t.insert key x).entries = enter (key,x) t.entries := by
  induction t with
  | leaf => rfl
  | node left k older newest right ihl ihr =>
    obtain ⟨hl,hr,below,above⟩ := h
    rw [insert]
    split
    · rename_i same
      subst same
      simp only [entries]
      rw [enterAppend (fun a ha => (below a ha).le),
        enterAppend (fun a ha => (memBucket ha).le),enterBefore above]
      simp [bucket]
    · split
      · rename_i different less
        simp only [entries]
        rw [ihr hr,enterAppend (fun a ha => ((below a ha).trans less).le),
          enterAppend (fun a ha => (memBucket ha).trans_le less.le)]
      · rename_i different less
        have greater : key < k := lt_of_le_of_ne (not_lt.mp less) (Ne.symm different)
        simp only [entries]
        rw [ihl hl]
        refine (enterKeeps ?_).symm
        intro a ha
        rcases List.mem_append.mp ha with ha | ha
        · rw [memBucket ha]; exact greater
        · exact greater.trans (above a ha)

theorem insertOrdered {t : ChainTree κ ι} (h : t.Ordered) (key : κ) (x : ι) :
    (t.insert key x).Ordered := by
  induction t with
  | leaf => exact ⟨trivial,trivial,by simp [entries],by simp [entries]⟩
  | node left k older newest right ihl ihr =>
    obtain ⟨hl,hr,below,above⟩ := h
    rw [insert]
    split
    · exact ⟨hl,hr,below,above⟩
    · split
      · rename_i different less
        refine ⟨hl,ihr hr,below,?_⟩
        intro e mem
        rw [insertEntries hr] at mem
        rcases memEnter.mp mem with rfl | mem
        · exact less
        · exact above e mem
      · rename_i different less
        refine ⟨ihl hl,hr,?_,above⟩
        intro e mem
        rw [insertEntries hl] at mem
        rcases memEnter.mp mem with rfl | mem
        · exact lt_of_le_of_ne (not_lt.mp less) (Ne.symm different)
        · exact below e mem

theorem takeFirstOrdered {t t' : ChainTree κ ι} {e} (h : t.Ordered)
    (found : t.takeFirst = some (e,t')) : t'.Ordered := by
  induction t generalizing e t' with
  | leaf => simp [takeFirst] at found
  | node left key older newest right ihl ihr =>
    obtain ⟨hl,hr,below,above⟩ := h
    cases left with
    | leaf =>
      cases older with
      | nil => cases found; exact hr
      | cons oldest older => cases found; exact ⟨hl,hr,below,above⟩
    | node l k o n r =>
      simp only [takeFirst,Option.map_eq_some_iff] at found
      obtain ⟨⟨e,left⟩,first,same⟩ := found
      cases same
      refine ⟨ihl hl first,hr,?_,above⟩
      intro a mem
      exact below a (by rw [takeFirstEntries first]; exact List.mem_cons_of_mem _ mem)

theorem insertItems {t : ChainTree κ ι} (h : t.Ordered) (key : κ) (x : ι) :
    (t.insert key x).items.Perm (x :: t.items) := by
  have perm := (enterPerm (key,x) t.entries).map Prod.snd
  rwa [← insertEntries h] at perm

theorem insertTip (t : ChainTree κ ι) (key : κ) (x : ι) : x ∈ (t.insert key x).tips := by
  induction t with
  | leaf => exact List.mem_cons_self
  | node left k older newest right ihl ihr =>
    rw [insert]
    split
    · exact List.mem_append_right _ List.mem_cons_self
    · split
      · exact List.mem_append_right _ (List.mem_cons_of_mem _ ihr)
      · exact List.mem_append_left _ ihl

theorem insertTips {t : ChainTree κ ι} {key : κ} {x y : ι} (mem : y ∈ (t.insert key x).tips) :
    y = x ∨ y ∈ t.tips := by
  induction t with
  | leaf => exact .inl (List.mem_singleton.mp mem)
  | node left k older newest right ihl ihr =>
    rw [insert] at mem
    simp only [tips,List.mem_append,List.mem_cons]
    split at mem
    · simp only [tips,List.mem_append,List.mem_cons] at mem
      rcases mem with mem | mem | mem
      · exact .inr (.inl mem)
      · exact .inl mem
      · exact .inr (.inr (.inr mem))
    · split at mem
      · simp only [tips,List.mem_append,List.mem_cons] at mem
        rcases mem with mem | mem | mem
        · exact .inr (.inl mem)
        · exact .inr (.inr (.inl mem))
        · exact (ihr mem).imp id (fun h => .inr (.inr h))
      · simp only [tips,List.mem_append,List.mem_cons] at mem
        rcases mem with mem | mem
        · exact (ihl mem).imp id .inl
        · exact .inr (.inr mem)

end Ordered
end ChainTree
end Qtl.Base
