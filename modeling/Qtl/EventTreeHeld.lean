import Qtl.EventTreeRun

/-! Which nodes can still be found from an event_tree_t by following its pointers,
and which queues therefore still have a way to the reader. -/
namespace Qtl.EventTreeHeld
open Queue EventTree EventTreeShape EventTreeRead EventTreeTracked EventTreeRun
open Base (ChainTree)
open Base.ChainTree
open Base.Trace (Run)

inductive Below (nodes : List TreeNode) : Option Nat → Nat → Prop where
  | here {a} : Below nodes (some a) a
  | left {a b n} (node : nodes[a]? = some n) (further : Below nodes n.left b) : Below nodes (some a) b
  | right {a b n} (node : nodes[a]? = some n) (further : Below nodes n.right b) : Below nodes (some a) b

inductive Behind (nodes : List TreeNode) : Nat → Nat → Prop where
  | here {a} : Behind nodes a a
  | prev {a b c n} (node : nodes[a]? = some n) (link : n.prev = some b) (further : Behind nodes b c) :
      Behind nodes a c

def Holds (s : World) (b : Nat) : Prop :=
  (∃ a, Below s.nodes s.root a ∧ Behind s.nodes a b) ∨ s.last = some b

variable {nodes : List TreeNode} {key x a b : Nat} {before p : Option Nat} {chain : List Nat} {t : Shape}

theorem linkedInit (h : Linked nodes key before (chain ++ [x])) : Linked nodes key before chain := by
  induction chain generalizing before with
  | nil => trivial
  | cons a rest ih =>
    obtain ⟨⟨n,hn,time,prev,next⟩,tail⟩ := h
    refine ⟨⟨n,hn,time,prev,fun b front => next b ?_⟩,ih tail⟩
    cases rest with
    | nil => cases front
    | cons => exact front

theorem behindChain (h : Linked nodes key none (chain ++ [x])) :
    Behind nodes x b ↔ b ∈ chain ++ [x] := by
  induction chain using List.reverseRecOn generalizing x with
  | nil =>
    obtain ⟨n,hn,_⟩ := linkedAt h (List.mem_append_right [] List.mem_cons_self)
    have oldest : n.prev = none := linkedNewest [] h hn
    refine ⟨fun behind => ?_,fun mem => ?_⟩
    · cases behind with
      | here => simp
      | prev node link =>
        cases Option.some.inj (hn.symm.trans node)
        rw [oldest] at link
        cases link
    · cases List.mem_singleton.mp mem
      exact .here
  | append_singleton chain c ih =>
    obtain ⟨n,hn,_⟩ := linkedAt h (List.mem_append_right (chain ++ [c]) List.mem_cons_self)
    have prev : n.prev = some c := by
      rw [linkedNewest _ h hn,List.getLast?_concat]
      rfl
    have older := ih (linkedInit h)
    refine ⟨fun behind => ?_,fun mem => ?_⟩
    · cases behind with
      | here => simp
      | prev node link further =>
        cases Option.some.inj (hn.symm.trans node)
        cases Option.some.inj (prev.symm.trans link)
        exact List.mem_append_left _ (older.mp further)
    · rcases List.mem_append.mp mem with mem | mem
      · exact .prev hn prev (older.mpr mem)
      · cases List.mem_singleton.mp mem
        exact .here

theorem belowItems (rep : RepTree nodes p t) (below : Below nodes p a) (behind : Behind nodes a b) :
    b ∈ t.items := by
  induction below generalizing t with
  | here =>
    cases t with
    | leaf => cases rep
    | node left key older newest right =>
      obtain ⟨top,chain,_⟩ := rep
      cases top
      rw [itemsNode]
      exact List.mem_append_right _ (List.mem_append_left _ ((behindChain chain).mp behind))
  | left node further ih =>
    cases t with
    | leaf => cases rep
    | node left key older newest right =>
      obtain ⟨top,_,n,hn,_,hl,_⟩ := rep
      cases top
      cases Option.some.inj (hn.symm.trans node)
      rw [itemsNode]
      exact List.mem_append_left _ (ih hl behind)
  | right node further ih =>
    cases t with
    | leaf => cases rep
    | node left key older newest right =>
      obtain ⟨top,_,n,hn,_,_,hr⟩ := rep
      cases top
      cases Option.some.inj (hn.symm.trans node)
      rw [itemsNode]
      exact List.mem_append_right _ (List.mem_append_right _ (ih hr behind))

theorem itemsBelow (rep : RepTree nodes p t) (mem : b ∈ t.items) :
    ∃ a, Below nodes p a ∧ Behind nodes a b := by
  induction t generalizing p with
  | leaf => simp at mem
  | node left key older newest right ihl ihr =>
    obtain ⟨rfl,chain,n,hn,_,hl,hr⟩ := rep
    simp only [itemsNode,List.mem_append] at mem
    rcases mem with mem | mem | mem
    · obtain ⟨a,below,behind⟩ := ihl hl mem
      exact ⟨a,.left hn below,behind⟩
    · exact ⟨newest,.here,(behindChain chain).mpr (List.mem_append.mpr mem)⟩
    · obtain ⟨a,below,behind⟩ := ihr hr mem
      exact ⟨a,.right hn below,behind⟩

theorem holdsHeld {s : World} (rep : RepTree s.nodes s.root t) : Holds s b ↔ b ∈ held s t := by
  rw [held,List.mem_append,Option.mem_toList]
  refine or_congr ⟨?_,itemsBelow rep⟩ .rfl
  rintro ⟨_,below,behind⟩
  exact belowItems rep below behind

variable {c : Cfg} {q : Nat} {trace : List Label} {w : World}

theorem ownerUnique (sound : Sound c t) (mem : some q ∈ names c.world t) :
    ∃! a, Holds c.world a ∧ queueOf c.world a = some q := by
  obtain ⟨a,inside,name⟩ := List.mem_map.mp mem
  have rep := sound.tracked.rep
  refine ⟨a,⟨(holdsHeld rep).mpr inside,name⟩,fun b ⟨there,name'⟩ => ?_⟩
  exact heldUnique sound.tracked ((holdsHeld rep).mp there) inside (name'.trans name.symm)

/-- A queue event_tree_add accepted stays with one node until its kOnQueueClosed has
been read, and event_tree_add accepts exactly the queues that are not empty. -/
theorem acceptedQueueHeld (run : Run (Step SoundMemory noAsserts) ⟨eventTreeInit w,false⟩ trace c)
    (running : Label.init ∉ trace) (once : (added trace).Nodup) :
    (∀ q, Label.add q true ∈ trace → ¬ ClosedRead q trace →
      ∃! a, Holds c.world a ∧ queueOf c.world a = some q) ∧
    ∀ q m, SoundMemory c.world (.add q m) → q ∉ added trace →
      ∃ c', perform noAsserts c (.add q m) =
        .ok (.add q (decide (contents (c.world.queues q) ≠ [])),c') := by
  have sound : Sound ⟨eventTreeInit w,false⟩ leaf := ⟨emptyTracked rfl rfl,nofun⟩
  have once' : (names (eventTreeInit w) leaf ++ (added trace).map some).Nodup :=
    once.map (Option.some_injective _)
  obtain ⟨t,inv⟩ := runInv sound run once'
  refine ⟨fun q accepted open' => ?_,fun q m allowed new => ?_⟩
  · exact ownerUnique inv.sound (inv.kept running q (.inr accepted) open')
  · have unknown : some q ∉ names c.world t := by
      intro mem
      have known : some q ∈ (added trace).map some := inv.origin _ mem
      exact new (by simpa using known)
    obtain ⟨_,c',_,ran,_,same,_⟩ := soundAdd noAsserts inv.sound allowed unknown
    exact ⟨c',same ▸ ran⟩

section TwoQueues

def twoQueues : World :=
  ⟨[],fun i => ⟨none,⟨4,fun _ => ⟨5,.kAsk,none⟩,0,if i = 0 then 1 else 0⟩,
    ⟨by simp,by simp [Spsc.uintRange],by simp,by dsimp only; split <;> simp⟩⟩,none,none⟩

def unfiled : TreeNode := ⟨0,5,none,none,none,none,none⟩

-- The second event_tree_is_empty files the node of queue 0 again, which the read left empty.
def heldTrace : List Label := [.add 0 true,.isEmpty false,.read 0 ⟨5,.kAsk,none⟩ ⟨5,.kAsk,none⟩,
  .push 0 ⟨7,.kBid,none⟩ true,.isEmpty false,.push 1 ⟨6,.kAsk,none⟩ true,.add 1 true,.isEmpty false,
  .read 1 ⟨6,.kAsk,none⟩ ⟨6,.kAsk,none⟩]

theorem stillOpen (q : Nat) : ¬ ClosedRead q heldTrace := by
  rintro ⟨popped,returned,mem,closed⟩
  simp only [heldTrace,List.mem_cons,Label.read.injEq,reduceCtorEq,List.not_mem_nil,false_or,or_false] at mem
  rcases mem with ⟨_,rfl,_⟩ | ⟨_,rfl,_⟩ <;> cases closed

theorem acceptedQueueHeldTwo : ∃ c : Cfg,
    Run (Step SoundMemory noAsserts) ⟨eventTreeInit twoQueues,false⟩ heldTrace c ∧
    (∃! a, Holds c.world a ∧ queueOf c.world a = some 0) ∧
    (∃! a, Holds c.world a ∧ queueOf c.world a = some 1) ∧
    ∃ c', perform noAsserts c (.add 2 unfiled) = .ok (.add 2 false,c') := by
  obtain ⟨trace,c,run,same⟩ := playSeen SoundMemory noAsserts ⟨eventTreeInit twoQueues,false⟩
    [.add 0 unfiled,.isEmpty,.read,.push 0 ⟨7,.kBid,none⟩,.isEmpty,.push 1 ⟨6,.kAsk,none⟩,.add 1 unfiled,
      .isEmpty,.read] (fun r => (r.1,contents (r.2.world.queues 2))) (heldTrace,[])
    (by simp [SoundMemory,Initialised,unfiled]) rfl
  obtain ⟨rfl,vacant⟩ := Prod.mk.inj same
  obtain ⟨kept,accepts⟩ := acceptedQueueHeld run (by decide) (by decide)
  obtain ⟨c',ran⟩ := accepts 2 unfiled (fun _ _ => ⟨rfl,rfl,rfl⟩) (by decide)
  exact ⟨c,run,kept 0 (by decide) (stillOpen 0),kept 1 (by decide) (stillOpen 1),c',by simpa [vacant] using ran⟩

/-- Queue 1 is passed to event_tree_add while empty. An event pushed to it afterwards
has no node to be read through, and the tree reports nothing to read. -/
theorem emptyQueueDropped : ∃ c : Cfg,
    Run (Step SoundMemory noAsserts) ⟨eventTreeInit twoQueues,false⟩
      [.add 1 false,.push 1 ⟨5,.kAsk,none⟩ true,.isEmpty true] c ∧
    contents (c.world.queues 1) ≠ [] ∧
    ¬ ∃ a, Holds c.world a ∧ queueOf c.world a = some 1 := by
  have run : Run (Step SoundMemory noAsserts) ⟨eventTreeInit twoQueues,false⟩
      [.add 1 false,.push 1 ⟨5,.kAsk,none⟩ true,.isEmpty true] _ :=
    .snoc (.snoc (.snoc .nil ⟨.add 1 ⟨0,5,none,none,none,none,none⟩,fun full _ => absurd rfl full,rfl⟩)
      ⟨.push 1 ⟨5,.kAsk,none⟩,trivial,rfl⟩) ⟨.isEmpty,trivial,rfl⟩
  refine ⟨_,run,by decide,?_⟩
  rintro ⟨a,⟨b,below,_⟩ | parked,_⟩
  · cases below
  · cases parked

end TwoQueues

end Qtl.EventTreeHeld
