import Qtl.Base.ChainTree
import Qtl.EventTree

/-! What a heap of nodes stands for: a search tree of chains, read back as the
order in which the nodes will be read. Every field a later call reads is fixed by
the shape; `next` of a chain's newest node and `head` of its older ones are not
among them. -/
namespace Qtl.EventTreeShape
open Queue EventTree
open Base (ChainTree)
open Base.ChainTree

abbrev Shape := ChainTree Nat Nat

def Linked (nodes : List TreeNode) (key : Nat) : (before : Option Nat) → List Nat → Prop
  | _, [] => True
  | before, a :: rest =>
      (∃ n, nodes[a]? = some n ∧ n.timestamp = key ∧ n.prev = before ∧
        ∀ b, rest.head? = some b → n.next = some b) ∧ Linked nodes key (some a) rest

def RepTree (nodes : List TreeNode) : Option Nat → Shape → Prop
  | p, leaf => p = none
  | p, node left key older newest right =>
      p = some newest ∧ Linked nodes key none (older ++ [newest]) ∧
      ∃ n, nodes[newest]? = some n ∧ n.head = (older ++ [newest]).head? ∧
        RepTree nodes n.left left ∧ RepTree nodes n.right right

variable {nodes nodes' : List TreeNode} {key : Nat} {before p : Option Nat} {t : Shape}

def chainFields (n : TreeNode) : Nat × Option Nat × Option Nat := (n.timestamp,n.prev,n.next)

theorem linkedFields {chain : List Nat}
    (same : ∀ a ∈ chain, nodes'[a]?.map chainFields = nodes[a]?.map chainFields)
    (h : Linked nodes key before chain) : Linked nodes' key before chain := by
  induction chain generalizing before with
  | nil => trivial
  | cons a rest ih =>
    obtain ⟨⟨n,hn,time,prev,next⟩,tail⟩ := h
    have here := same a List.mem_cons_self
    rw [hn] at here
    obtain ⟨n',hn',fields⟩ := Option.map_eq_some_iff.mp here
    obtain ⟨time',prev',next'⟩ : n'.timestamp = n.timestamp ∧ n'.prev = n.prev ∧ n'.next = n.next := by
      simpa [chainFields] using fields
    exact ⟨⟨n',hn',time'.trans time,prev'.trans prev,fun b front => next'.trans (next b front)⟩,
      ih (fun b mem => same b (List.mem_cons_of_mem _ mem)) tail⟩

theorem linkedFrame {chain : List Nat} (same : ∀ a ∈ chain, nodes'[a]? = nodes[a]?)
    (h : Linked nodes key before chain) : Linked nodes' key before chain :=
  linkedFields (fun a mem => by rw [same a mem]) h

theorem repFrame (same : ∀ a ∈ t.items, nodes'[a]? = nodes[a]?) (h : RepTree nodes p t) :
    RepTree nodes' p t := by
  induction t generalizing p with
  | leaf => exact h
  | node left key older newest right ihl ihr =>
    obtain ⟨hp,chain,n,hn,head,hl,hr⟩ := h
    simp only [itemsNode,List.mem_append] at same
    refine ⟨hp,linkedFrame (fun a mem => same a (.inr (.inl (List.mem_append.mp mem)))) chain,n,?_,head,?_,?_⟩
    · exact (same newest (by simp)).trans hn
    · exact ihl (fun a mem => same a (.inl mem)) hl
    · exact ihr (fun a mem => same a (.inr (.inr mem))) hr

theorem linkedAt {chain : List Nat} (h : Linked nodes key before chain) {a} (mem : a ∈ chain) :
    ∃ n, nodes[a]? = some n ∧ n.timestamp = key := by
  induction chain generalizing before with
  | nil => simp at mem
  | cons b rest ih =>
    obtain ⟨⟨n,hn,time,_⟩,tail⟩ := h
    rcases List.mem_cons.mp mem with rfl | mem
    · exact ⟨n,hn,time⟩
    · exact ih tail mem

theorem repAt (h : RepTree nodes p t) {e} (mem : e ∈ t.entries) :
    ∃ n, nodes[e.2]? = some n ∧ n.timestamp = e.1 := by
  induction t generalizing p with
  | leaf => simp [entries] at mem
  | node left key older newest right ihl ihr =>
    obtain ⟨_,chain,n,hn,_,hl,hr⟩ := h
    simp only [entries,List.mem_append] at mem
    rcases mem with mem | mem | mem
    · exact ihl hl mem
    · obtain ⟨a,ha,rfl⟩ := List.mem_map.mp mem
      exact linkedAt chain ha
    · exact ihr hr mem

theorem repAllocated (h : RepTree nodes p t) {a} (mem : a ∈ t.items) : a < nodes.length := by
  obtain ⟨e,he,rfl⟩ := List.mem_map.mp mem
  obtain ⟨n,hn,_⟩ := repAt h he
  exact (List.getElem?_eq_some_iff.mp hn).1

theorem repSize (h : RepTree nodes p t) (nodup : t.items.Nodup) : t.items.length ≤ nodes.length := by
  have inside : t.items ⊆ List.range nodes.length :=
    fun a mem => List.mem_range.mpr (repAllocated h mem)
  simpa using (List.subperm_of_subset nodup inside).length_le

theorem repRoot (h : RepTree nodes p t) : p = none ↔ t = leaf := by
  cases t with
  | leaf => simpa [RepTree] using h
  | node => simp [h.1]

theorem linkedSnoc {chain : List Nat} {x y : Nat} {n m : TreeNode}
    (h : Linked nodes key before (chain ++ [x])) (hx : nodes[x]? = some n)
    (hx' : nodes'[x]? = some {n with next := some y}) (hy' : nodes'[y]? = some m)
    (time : m.timestamp = key) (prev : m.prev = some x)
    (same : ∀ a ∈ chain, nodes'[a]? = nodes[a]?) :
    Linked nodes' key before (chain ++ [x] ++ [y]) := by
  induction chain generalizing before with
  | nil =>
    obtain ⟨⟨n',hn',fields⟩,_⟩ := h
    cases Option.some.inj (hx.symm.trans hn')
    exact ⟨⟨_,hx',fields.1,fields.2.1,by simp⟩,⟨m,hy',time,prev,by simp⟩,trivial⟩
  | cons a rest ih =>
    obtain ⟨⟨n',hn',time',prev',next'⟩,tail⟩ := h
    refine ⟨⟨n',(same a List.mem_cons_self).trans hn',time',prev',?_⟩,
      ih tail (fun b mem => same b (List.mem_cons_of_mem _ mem))⟩
    intro b front
    refine next' b ?_
    rw [← front]
    cases rest <;> rfl

theorem linkedTail {oldest second : Nat} {rest : List Nat} {n : TreeNode}
    (h : Linked nodes key before (oldest :: second :: rest)) (hs : nodes[second]? = some n)
    (hs' : nodes'[second]? = some {n with prev := none})
    (same : ∀ a ∈ rest, nodes'[a]? = nodes[a]?) :
    Linked nodes' key none (second :: rest) := by
  obtain ⟨_,⟨n',hn',time,_,next⟩,tail⟩ := h
  cases Option.some.inj (hs.symm.trans hn')
  exact ⟨⟨_,hs',time,rfl,next⟩,linkedFrame same tail⟩

section Memory
variable {s s' : World} {a b : Nat} {n : TreeNode} {f : TreeNode → TreeNode}

@[simp] theorem putLength : (s.put a f).nodes.length = s.nodes.length := by simp [World.put]
@[simp] theorem putQueues : (s.put a f).queues = s.queues := rfl
@[simp] theorem putRoot : (s.put a f).root = s.root := rfl
@[simp] theorem putLast : (s.put a f).last = s.last := rfl

theorem putNode : (s.put a f).nodes[b]? = if a = b then f <$> s.nodes[b]? else s.nodes[b]? := by
  simp only [World.put,List.getElem?_modify]
  split <;> simp

theorem putSame (h : s.nodes[a]? = some n) : (s.put a f).nodes[a]? = some (f n) := by
  simp [putNode,h]

theorem putOther (h : a ≠ b) : (s.put a f).nodes[b]? = s.nodes[b]? := by
  simp [putNode,h]

theorem loadSome (h : s.nodes[a]? = some n) : s.load (some a) = .ok n := by
  simp only [World.load,h]

theorem storeSome (h : s.nodes[a]? = some n) : s.store (some a) f = .ok (s.put a f) :=
  if_pos (List.getElem?_eq_some_iff.mp h).1

theorem storeInv {q : Option Nat} (h : s.store q f = .ok s') : ∃ a, q = some a ∧ s' = s.put a f := by
  cases q with
  | none => simp [World.store] at h
  | some a =>
    simp only [World.store] at h
    split at h <;> try contradiction
    exact ⟨a,rfl,(Except.ok.inj h).symm⟩

theorem storeFound (h : s.store (some b) f = .ok s') :
    ∃ n, s.nodes[b]? = some n ∧ s'.nodes[b]? = some (f n) := by
  simp only [World.store] at h
  split at h <;> cases h
  rename_i inside
  have known := List.getElem?_eq_getElem inside
  exact ⟨_,known,putSame known⟩

theorem storeField {β : Type} {g : TreeNode → β} {q : Option Nat} (h : s.store q f = .ok s') (b : Nat)
    (kept : ∀ n, q = some b → g (f n) = g n) : s'.nodes[b]?.map g = s.nodes[b]?.map g := by
  obtain ⟨a,rfl,rfl⟩ := storeInv h
  rw [putNode]
  split
  · rename_i same
    cases s.nodes[b]? with
    | none => rfl
    | some n => exact congrArg some (kept n (by rw [same]))
  · rfl

end Memory

end Qtl.EventTreeShape
