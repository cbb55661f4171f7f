import Qtl.Base.StableMerge
import Qtl.EventTreeRun

/-! Reading an event tree delivers what the stable merge of its queues' complete event
sequences delivers. When the events are pushed decides only how far a run gets. -/
namespace Qtl.EventTreeMerge
open Queue EventTree EventTreeShape EventTreeTracked EventTreeRun
open Base (ChainTree)
open Base.ChainTree Base.StableOrder
open Base.StableMerge (Delivery deliver rejoin rejoinSome lineAfter sources)
open Base.Trace (Run)

structure WellFormed (s : World) (t : Shape) : Prop where
  rep : RepTree s.nodes s.root t
  ordered : t.Ordered
  distinct : t.items.Nodup
  timed : ∀ a ∈ t.entries, ∀ n, s.nodes[a.2]? = some n →
    ∃ e rest, contents (s.queues n.queue) = e :: rest ∧ e.timestamp = a.1
  parked : ∀ a, s.last = some a → a ∉ t.items ∧ a < s.nodes.length

theorem wellFormedTracked {s : World} {t : Shape} (h : WellFormed s t) (separate : (names s t).Nodup) :
    Tracked s t := by
  refine ⟨h.rep,h.ordered,fun a mem => ?_,separate,fun a mem n hn => ?_⟩
  · rcases List.mem_append.mp mem with mem | mem
    · exact repAllocated h.rep mem
    · exact (h.parked a (Option.mem_toList.mp mem)).2
  · obtain ⟨entry,inside,rfl⟩ := List.mem_map.mp mem
    obtain ⟨e,rest,front,_⟩ := h.timed entry inside n hn
    rw [front]
    exact List.cons_ne_nil _ _

def Scheduled (_ : World) : Action → Prop
  | .init => False
  | .add .. => False
  | _ => True

def pushedTo (q : Nat) : List Label → List Event := List.filterMap (fun l => match l with
  | .push p e true => if p = q then some e else none
  | _ => none)

def poppedFrom (q : Nat) : List Label → List Event := List.filterMap (fun l => match l with
  | .read p e _ => if p = q then some e else none
  | _ => none)

def readings : List Label → List (Option Nat × Event × Event) := List.filterMap (fun l => match l with
  | .read q popped returned => some (some q,popped,returned)
  | _ => none)

theorem pushedSnoc (q : Nat) (trace : List Label) (l : Label) :
    pushedTo q (trace ++ [l]) = pushedTo q trace ++ pushedTo q [l] := List.filterMap_append

theorem poppedSnoc (q : Nat) (trace : List Label) (l : Label) :
    poppedFrom q (trace ++ [l]) = poppedFrom q trace ++ poppedFrom q [l] := List.filterMap_append

theorem readingsSnoc (trace : List Label) (l : Label) :
    readings (trace ++ [l]) = readings trace ++ readings [l] := List.filterMap_append

abbrev Merge := Base.StableMerge.State Nat Nat Event

def closing (e : Event) : Bool := e.type = .kOnQueueClosed

def MergeStep : Merge → Delivery Nat Event → Merge → Prop := Base.StableMerge.Step Event.timestamp closing

def shown (s : World) (d : Delivery Nat Event) : Option Nat × Event × Event :=
  (queueOf s d.source,d.item,if d.alone then newOnSimulationStopEvent else d.item)

/-- The merge a tree is about to perform when `stream` is everything its queues hold
and will be given. A node parked without further events blocks it. -/
def mergeOf (s : World) (t : Shape) (stream : Nat → List Event) : Merge :=
  let rest := fun a => ((queueOf s a).map stream).getD []
  ⟨match s.last with
    | none => t.entries
    | some a => rejoin Event.timestamp 0 a (rest a) t.entries,rest⟩

structure Mirrors (s₀ : World) (t₀ : Shape) (stream : Nat → List Event) (trace : List Label) (c : Cfg)
    (t : Shape) (m : Merge) : Prop where
  sound : Sound c t
  names : queueOf c.world = queueOf s₀
  inside : ∀ a ∈ held c.world t, a ∈ held s₀ t₀
  balance : ∀ q, poppedFrom q trace ++ contents (c.world.queues q) =
    contents (s₀.queues q) ++ pushedTo q trace
  rest : ∀ a ∈ held s₀ t₀, ∀ q, queueOf s₀ a = some q → poppedFrom q trace ++ m.rest a = stream q
  line : match c.world.last with
    | none => m.line = t.entries
    | some a => ∃ k, m.line = rejoin Event.timestamp k a (m.rest a) t.entries

def Within (s₀ : World) (t₀ : Shape) (stream : Nat → List Event) (trace : List Label) : Prop :=
  ∀ q, some q ∈ EventTreeTracked.names s₀ t₀ → contents (s₀.queues q) ++ pushedTo q trace <+: stream q

variable {s₀ : World} {t₀ t : Shape} {stream : Nat → List Event} {trace : List Label} {c c' : Cfg}
  {m : Merge} {l : Label}

theorem withinSnoc (h : Within s₀ t₀ stream (trace ++ [l])) : Within s₀ t₀ stream trace := by
  intro q mem
  have longer := h q mem
  rw [pushedSnoc,← List.append_assoc] at longer
  exact (List.prefix_append ..).trans longer

theorem mirrorsStart (tracked : Tracked s₀ t₀) :
    Mirrors s₀ t₀ stream [] ⟨s₀,false⟩ t₀ (mergeOf s₀ t₀ stream) := by
  refine ⟨⟨tracked,nofun⟩,rfl,fun _ mem => mem,fun q => by simp [poppedFrom,pushedTo],?_,?_⟩
  · intro a _ q name
    simp [mergeOf,name,poppedFrom]
  · unfold mergeOf
    dsimp only
    split
    · rfl
    · exact ⟨0,rfl⟩

theorem contentsPrefix (mirrors : Mirrors s₀ t₀ stream trace c t m) (within : Within s₀ t₀ stream trace)
    {a : Nat} {n : TreeNode} (mem : a ∈ held c.world t) (hn : c.world.nodes[a]? = some n) :
    contents (c.world.queues n.queue) <+: m.rest a := by
  have name : queueOf s₀ a = some n.queue := by rw [← mirrors.names,queueOfNode hn]
  have started := mirrors.inside a mem
  have known : some n.queue ∈ EventTreeTracked.names s₀ t₀ := List.mem_map.mpr ⟨a,started,name⟩
  have upto := within n.queue known
  rw [← mirrors.balance,← mirrors.rest a started n.queue name] at upto
  exact (List.prefix_append_right_inj _).mp upto

theorem mirrorsPush (mirrors : Mirrors s₀ t₀ stream trace c t m) {q : Nat} {e : Event}
    (ran : perform noAsserts c (.push q e) = .ok (l,c')) :
    readings [l] = [] ∧ Mirrors s₀ t₀ stream (trace ++ [l]) c' t m := by
  obtain ⟨ok,c'',ran',sound,_,last,nodes,_,grown⟩ := soundPush noAsserts mirrors.sound q e
  obtain ⟨rfl,rfl⟩ := Prod.mk.inj (Except.ok.inj (ran.symm.trans ran'))
  have silent (i : Nat) : poppedFrom i (trace ++ [.push q e ok]) = poppedFrom i trace := by
    rw [poppedSnoc]
    simp [poppedFrom]
  refine ⟨rfl,sound,?_,?_,fun i => ?_,fun a mem i name => ?_,?_⟩
  · rw [← mirrors.names]
    funext a
    rw [queueOf,nodes,queueOf]
  · intro a mem
    rw [held,last] at mem
    exact mirrors.inside a mem
  · rw [silent,grown,pushedSnoc,← List.append_assoc,← mirrors.balance]
    by_cases same : i = q
    · subst same
      cases ok <;> simp [pushedTo]
    · cases ok <;> simp [pushedTo,same,Ne.symm same]
  · rw [silent]
    exact mirrors.rest a mem i name
  · rw [last]
    exact mirrors.line

theorem mirrorsIsEmpty (mirrors : Mirrors s₀ t₀ stream trace c t m) (within : Within s₀ t₀ stream trace)
    (ran : perform noAsserts c .isEmpty = .ok (l,c')) :
    readings [l] = [] ∧ ∃ t', Mirrors s₀ t₀ stream (trace ++ [l]) c' t' m := by
  obtain ⟨empty,w,t',ran',sound,checked,perm⟩ := soundIsEmpty noAsserts mirrors.sound
  obtain ⟨rfl,rfl⟩ := Prod.mk.inj (Except.ok.inj (ran.symm.trans ran'))
  have silent (i : Nat) : poppedFrom i (trace ++ [.isEmpty empty]) = poppedFrom i trace := by
    rw [poppedSnoc]
    simp [poppedFrom]
  have quiet (i : Nat) : pushedTo i (trace ++ [.isEmpty empty]) = pushedTo i trace := by
    rw [pushedSnoc]
    simp [pushedTo]
  have rest (a : Nat) (mem : a ∈ held s₀ t₀) (q : Nat) (name : queueOf s₀ a = some q) :
      poppedFrom q (trace ++ [.isEmpty empty]) ++ m.rest a = stream q := by
    rw [silent]
    exact mirrors.rest a mem q name
  refine ⟨rfl,t',?_⟩
  cases checked with
  | bare => exact ⟨sound,mirrors.names,mirrors.inside,by simpa [silent,quiet] using mirrors.balance,rest,mirrors.line⟩
  | ready => exact ⟨sound,mirrors.names,mirrors.inside,by simpa [silent,quiet] using mirrors.balance,rest,mirrors.line⟩
  | drained => exact ⟨sound,mirrors.names,mirrors.inside,by simpa [silent,quiet] using mirrors.balance,rest,mirrors.line⟩
  | @refiled a n e more s' last node front keeps =>
    have ordered := mirrors.sound.tracked.ordered
    have here : a ∈ held c.world t := by simp [held,last]
    refine ⟨sound,?_,fun b mem => ?_,fun q => ?_,rest,?_⟩
    · exact (funext keeps.queue : queueOf s' = queueOf c.world).trans mirrors.names
    · rw [held,Option.toList_none,List.append_nil,(insertItems ordered _ _).mem_iff] at mem
      refine mirrors.inside b ?_
      rcases List.mem_cons.mp mem with rfl | mem
      · exact here
      · exact List.mem_append_left _ mem
    · rw [silent,quiet,← mirrors.balance]
      exact congrArg (poppedFrom q trace ++ contents · ) (congrFun keeps.queues q)
    · have line := mirrors.line
      rw [last] at line
      obtain ⟨k,line⟩ := line
      obtain ⟨later,whole⟩ := contentsPrefix mirrors within here node
      rw [front] at whole
      change m.line = (t.insert e.timestamp a).entries
      rw [line,← whole,insertEntries ordered]
      rfl

theorem otherQueue (tracked : Tracked s₀ t₀) {a b q p : Nat} (ha : a ∈ held s₀ t₀) (hb : b ∈ held s₀ t₀)
    (nameA : queueOf s₀ a = some q) (nameB : queueOf s₀ b = some p) (apart : a ≠ b) : q ≠ p := by
  rintro rfl
  exact apart (heldUnique tracked ha hb (nameA.trans nameB.symm))

section Reading
variable {a : Nat} {e : Event} {rest : List Event} {t₁ t' : Shape} {last : Option Nat} {returned : Event}

theorem disposedReturned (disposed : Disposed t₁ a e rest t' last returned) (k : Nat) (later : List Event) :
    returned = if (lineAfter Event.timestamp closing k a e (rest ++ later) t₁.entries).isEmpty
      then newOnSimulationStopEvent else e := by
  cases disposed with
  | closed type => simp [lineAfter,closing,type]
  | drained type => simp [lineAfter,closing,type,rejoinSome]
  | refiled type => simp [lineAfter,closing,type,rejoinSome]

theorem disposedHeld (ordered : t₁.Ordered) (disposed : Disposed t₁ a e rest t' last returned) {b : Nat}
    (mem : b ∈ t'.items ++ last.toList) : b = a ∨ b ∈ t₁.items := by
  cases disposed with
  | closed => exact .inr (by simpa using mem)
  | drained =>
    rcases List.mem_append.mp mem with mem | mem
    · exact .inr mem
    · exact .inl (List.mem_singleton.mp mem)
  | refiled =>
    rw [Option.toList_none,List.append_nil,(insertItems ordered _ _).mem_iff] at mem
    exact List.mem_cons.mp mem

theorem disposedLine (ordered : t₁.Ordered) (k : Nat) (later : List Event) (left : Nat → List Event) :
    Disposed t₁ a e rest t' last returned → match last with
    | none => lineAfter Event.timestamp closing k a e (rest ++ later) t₁.entries = t'.entries
    | some b => ∃ k', lineAfter Event.timestamp closing k a e (rest ++ later) t₁.entries =
        rejoin Event.timestamp k' b (Function.update left a (rest ++ later) b) t'.entries := by
  intro disposed
  cases disposed with
  | closed type => simp [lineAfter,closing,type]
  | drained type => exact ⟨k,by simp [lineAfter,closing,type]⟩
  | refiled type more =>
    rw [insertEntries ordered]
    simp [lineAfter,closing,type,more,rejoin]

theorem readSilent (trace : List Label) (q i : Nat) (e returned : Event) :
    pushedTo i (trace ++ [.read q e returned]) = pushedTo i trace := by
  rw [pushedSnoc]
  simp [pushedTo]

theorem readPops (trace : List Label) (q : Nat) (e returned : Event) :
    poppedFrom q (trace ++ [.read q e returned]) = poppedFrom q trace ++ [e] := by
  rw [poppedSnoc]
  simp [poppedFrom]

theorem readKeeps (trace : List Label) {q i : Nat} (e returned : Event) (other : i ≠ q) :
    poppedFrom i (trace ++ [.read q e returned]) = poppedFrom i trace := by
  rw [poppedSnoc]
  simp [poppedFrom,Ne.symm other]

theorem mirrorsRead (tracked : Tracked s₀ t₀) (mirrors : Mirrors s₀ t₀ stream trace c t m)
    (within : Within s₀ t₀ stream trace) (ran : perform noAsserts c .read = .ok (l,c')) :
    ∃ t' d m', MergeStep m d m' ∧ readings [l] = [shown s₀ d] ∧
      Mirrors s₀ t₀ stream (trace ++ [l]) c' t' m' := by
  have guarded : c.guarded = true := by
    cases h : c.guarded with
    | true => rfl
    | false => simp [perform,h] at ran
  obtain ⟨a,n,e,rest,w,t',returned,ran',sound,from',_⟩ :=
    soundRead (show noAsserts .readLast = false from rfl) mirrors.sound guarded
  obtain ⟨rfl,rfl⟩ := Prod.mk.inj (Except.ok.inj (ran.symm.trans ran'))
  obtain ⟨k,t₁,first,disposed⟩ := from'.first
  have unparked := (mirrors.sound.guard guarded).1
  have ordered := takeFirstOrdered mirrors.sound.tracked.ordered first
  have line := mirrors.line
  rw [unparked,takeFirstEntries first] at line
  have here : a ∈ held c.world t := by simp [held,takeFirstItems first]
  have name : queueOf s₀ a = some n.queue := by rw [← mirrors.names,queueOfNode from'.node]
  obtain ⟨later,whole⟩ := contentsPrefix mirrors within here from'.node
  rw [from'.front,List.cons_append] at whole
  have step : MergeStep m _ _ := Base.StableMerge.stepFront line whole.symm
  -- the merge loses the event the queue loses, and nothing else of either moves
  refine ⟨t',_,_,step,?_,sound,from'.names.trans mirrors.names,fun b mem => ?_,fun i => ?_,fun b mem q hq => ?_,
    disposedLine ordered k later m.rest disposed⟩
  · change [(some n.queue,e,returned)] = [(queueOf s₀ a,e,_)]
    rw [name,disposedReturned disposed k later]
  · refine mirrors.inside b ?_
    rcases disposedHeld ordered disposed mem with rfl | mem
    · exact here
    · simp [held,takeFirstItems first,mem]
  · rw [readSilent,← mirrors.balance,from'.queues]
    by_cases same : i = n.queue
    · subst same
      rw [readPops,Function.update_self,(popFront from'.front).2,from'.front]
      simp
    · rw [readKeeps trace e returned same,Function.update_of_ne same]
  · dsimp only
    by_cases same : b = a
    · subst same
      cases hq.symm.trans name
      rw [readPops,Function.update_self,← mirrors.rest b mem _ name,← whole]
      simp
    · rw [readKeeps trace e returned (otherQueue tracked mem (mirrors.inside a here) hq name same),
        Function.update_of_ne same]
      exact mirrors.rest b mem q hq

end Reading

theorem mirrorsStep (tracked : Tracked s₀ t₀) (mirrors : Mirrors s₀ t₀ stream trace c t m)
    (within : Within s₀ t₀ stream trace) (step : Step Scheduled noAsserts c l c') :
    ∃ t' deliveries m', Run MergeStep m deliveries m' ∧ readings [l] = deliveries.map (shown s₀) ∧
      Mirrors s₀ t₀ stream (trace ++ [l]) c' t' m' := by
  obtain ⟨action,allowed,ran⟩ := step
  cases action with
  | init => exact absurd allowed id
  | add => exact absurd allowed id
  | push q e =>
    obtain ⟨silent,mirrors'⟩ := mirrorsPush mirrors ran
    exact ⟨t,[],m,.nil,silent,mirrors'⟩
  | isEmpty =>
    obtain ⟨silent,t',mirrors'⟩ := mirrorsIsEmpty mirrors within ran
    exact ⟨t',[],m,.nil,silent,mirrors'⟩
  | read =>
    obtain ⟨t',d,m',merged,same,mirrors'⟩ := mirrorsRead tracked mirrors within ran
    exact ⟨t',[d],m',Base.Trace.runSingle merged,same,mirrors'⟩

theorem mirrorsRun (tracked : Tracked s₀ t₀) (run : Run (Step Scheduled noAsserts) ⟨s₀,false⟩ trace c)
    (within : Within s₀ t₀ stream trace) :
    ∃ t deliveries m, Run MergeStep (mergeOf s₀ t₀ stream) deliveries m ∧
      readings trace = deliveries.map (shown s₀) ∧ Mirrors s₀ t₀ stream trace c t m := by
  induction run with
  | nil => exact ⟨t₀,[],_,.nil,rfl,mirrorsStart tracked⟩
  | snoc before last ih =>
    obtain ⟨t,deliveries,m,merged,same,mirrors⟩ := ih (withinSnoc within)
    obtain ⟨t',deliveries',m',merged',same',mirrors'⟩ :=
      mirrorsStep tracked mirrors (withinSnoc within) last
    refine ⟨t',deliveries ++ deliveries',m',Base.Trace.runAppend merged merged',?_,mirrors'⟩
    rw [readingsSnoc,same,same',List.map_append]

end Qtl.EventTreeMerge
