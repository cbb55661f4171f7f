import Qtl.EventTreeMerge

/-! The stream of events an event tree returns: its order, its independence of the
schedule, and what it has returned when everything has been read. -/
namespace Qtl.EventTreeStream
open Queue EventTree EventTreeShape EventTreeTracked EventTreeRun EventTreeMerge
open Base (ChainTree)
open Base.ChainTree Base.StableOrder
open Base.StableMerge (Delivery rejoin rejoinPerm sources itemsOf Timely Closes Open)
open Base.Trace (Run)

def popped (trace : List Label) : List Event := (readings trace).map (fun r => r.2.1)

def returned (trace : List Label) : List Event := (readings trace).map (fun r => r.2.2)

def returnedFrom (q : Nat) (trace : List Label) : List Event :=
  ((readings trace).filter (fun r => r.1 = some q)).map (fun r => r.2.2)

variable {w : World} {t : Shape} {stream : Nat → List Event} {trace trace' : List Label} {c c' : Cfg}
  {deliveries : List (Delivery Nat Event)}

theorem mergeSources : (sources (mergeOf w t stream)).Perm (held w t) := by
  unfold mergeOf sources held
  cases w.last with
  | none => simp [items]
  | some a => exact rejoinPerm.trans (List.perm_append_singleton a t.items).symm

theorem mergeRest {a q : Nat} (name : queueOf w a = some q) : (mergeOf w t stream).rest a = stream q := by
  simp [mergeOf,name]

theorem heldNamed (tracked : Tracked w t) {a : Nat} (mem : a ∈ held w t) :
    ∃ q, queueOf w a = some q ∧ some q ∈ names w t := by
  have inside := tracked.allocated a mem
  have name := queueOfNode (List.getElem?_eq_getElem inside)
  exact ⟨_,name,List.mem_map.mpr ⟨a,mem,name⟩⟩

section Pair

def pair : World :=
  ⟨[⟨0,5,none,some 1,none,none,some 0⟩,⟨1,6,none,none,none,none,some 1⟩],
    fun i => lone (if i = 0 then ⟨5,.kOnQueueClosed,none⟩ else ⟨6,.kAsk,none⟩),some 0,none⟩

def pairShape : Shape := node leaf 5 [] 0 (node leaf 6 [] 1 leaf)

def pairStream (q : Nat) : List Event :=
  if q = 0 then [⟨5,.kOnQueueClosed,none⟩] else [⟨6,.kAsk,none⟩,⟨7,.kOnQueueClosed,none⟩]

theorem pairWellFormed : WellFormed pair pairShape := by
  have fronts (a : Nat × Nat) (mem : a ∈ pairShape.entries) : a = (5,0) ∨ a = (6,1) := by
    simpa [pairShape,entries,bucket] using mem
  refine ⟨?_,?_,by decide,?_,?_⟩
  · simp [pair,pairShape,RepTree,Linked]
  · simp [pairShape,Ordered,entries,bucket]
  · intro a mem n hn
    rcases fronts a mem with rfl | rfl
    · cases hn
      exact ⟨_,_,rfl,rfl⟩
    · cases hn
      exact ⟨_,_,rfl,rfl⟩
  · intro a parked
    cases parked

theorem pairSeparate : (names pair pairShape).Nodup := by decide

theorem pairNames {q : Nat} (known : some q ∈ names pair pairShape) : q = 0 ∨ q = 1 := by
  simpa [names,held,pairShape,pair,queueOf] using known

end Pair

section Order

def Monotone (items : List Event) : Prop := items.Pairwise (fun a b => a.timestamp ≤ b.timestamp)

/-- Popped events are in time order and returned as they are, but for a final closing
event in whose place the simulation stop is returned. -/
def InTime (trace : List Label) : Prop :=
  Monotone (popped trace) ∧
  (returned trace = popped trace ∨ ∃ before e, popped trace = before ++ [e] ∧
    e.type = .kOnQueueClosed ∧ returned trace = before ++ [newOnSimulationStopEvent])

theorem mergeTimely (wf : WellFormed w t) (separate : (names w t).Nodup)
    (monotone : ∀ q, some q ∈ names w t → Monotone (stream q)) (within : Within w t stream []) :
    Timely Event.timestamp (mergeOf w t stream) := by
  have tracked := wellFormedTracked wf separate
  have sorted := orderedSorted wf.ordered
  have next : ∀ p ∈ t.entries, ∀ e ∈ ((mergeOf w t stream).rest p.2).head?, e.timestamp = p.1 := by
    intro p mem e first
    obtain ⟨n,hn,_⟩ := repAt wf.rep mem
    obtain ⟨e',rest,front,stamp⟩ := wf.timed p mem n hn
    have inside : p.2 ∈ held w t := List.mem_append_left _ (List.mem_map.mpr ⟨p,mem,rfl⟩)
    obtain ⟨more,whole⟩ := within n.queue (List.mem_map.mpr ⟨p.2,inside,queueOfNode hn⟩)
    rw [mergeRest (queueOfNode hn),← whole,front] at first
    cases first
    exact stamp
  refine ⟨?_,?_,?_,?_⟩
  · unfold mergeOf
    cases w.last with
    | none => exact sorted
    | some a =>
      dsimp only
      cases ((queueOf w a).map stream).getD [] with
      | nil => exact List.pairwise_cons.mpr ⟨fun p _ => Nat.zero_le p.1,sorted⟩
      | cons e more => exact enterSorted sorted
  · intro p mem e first
    cases last : w.last with
    | none =>
      refine next p ?_ e first
      simpa [mergeOf,last] using mem
    | some a =>
      have line : (mergeOf w t stream).line =
          rejoin Event.timestamp 0 a ((mergeOf w t stream).rest a) t.entries := by
        simp [mergeOf,last]
      rw [line] at mem
      cases items : (mergeOf w t stream).rest a with
      | nil =>
        rw [items] at mem
        rcases List.mem_cons.mp mem with rfl | mem
        · rw [items] at first
          cases first
        · exact next p mem e first
      | cons e' more =>
        rw [items] at mem
        rcases memEnter.mp mem with rfl | mem
        · rw [items] at first
          cases first
          rfl
        · exact next p mem e first
  · exact mergeSources.nodup_iff.mpr (trackedNodup tracked)
  · intro a mem
    obtain ⟨q,name,known⟩ := heldNamed tracked (mergeSources.mem_iff.mp mem)
    rw [mergeRest name]
    exact monotone q known

theorem withinNil (within : Within w t stream trace) : Within w t stream [] := by
  intro q known
  have longer := within q known
  simpa [pushedTo] using (List.prefix_append ..).trans longer

theorem shownInTime {m m' : Merge} (timely : Timely Event.timestamp m)
    (merged : Run MergeStep m deliveries m') (same : readings trace = deliveries.map (shown w)) :
    InTime trace := by
  obtain ⟨ordered,_,_⟩ := Base.StableMerge.runTimely timely merged
  have popped' : popped trace = deliveries.map Delivery.item := by
    simp [popped,same,shown,Function.comp_def]
  have returned' : returned trace =
      deliveries.map (fun d => if d.alone then newOnSimulationStopEvent else d.item) := by
    simp [returned,same,shown,Function.comp_def]
  refine ⟨?_,?_⟩
  · rw [popped']
    exact List.pairwise_map.mpr ordered
  · by_cases ended : ∃ d ∈ deliveries, d.alone = true
    · obtain ⟨d,mem,alone⟩ := ended
      obtain ⟨before,after,rfl⟩ := List.append_of_mem mem
      obtain ⟨rfl,_⟩ := Base.StableMerge.aloneLast merged rfl alone
      have final := Base.StableMerge.runAloneFinal merged d mem alone
      refine .inr ⟨before.map Delivery.item,d.item,by simp [popped'],by simpa [closing] using final,?_⟩
      rw [returned',List.map_append,List.map_singleton,if_pos alone]
      congr 1
      refine List.map_congr_left (fun x inside => ?_)
      rw [if_neg]
      intro early
      obtain ⟨front,back,rfl⟩ := List.append_of_mem inside
      have whole : front ++ x :: back ++ [d] = front ++ x :: (back ++ [d]) := by simp
      exact absurd (Base.StableMerge.aloneLast merged whole early).1 (by simp)
    · refine .inl ?_
      rw [returned',popped']
      refine List.map_congr_left (fun x inside => if_neg (fun alone => ended ⟨x,inside,alone⟩))

def closingSoon : World :=
  ⟨[⟨0,5,none,none,none,none,some 0⟩],
    fun _ => ⟨none,⟨4,fun i => if i = 0 then ⟨5,.kAsk,none⟩ else ⟨6,.kOnQueueClosed,none⟩,0,2⟩,
      ⟨by simp,by simp [Spsc.uintRange],by simp,by simp⟩⟩,some 0,none⟩

def sharing : World :=
  ⟨[⟨0,5,none,none,some 1,none,some 0⟩,⟨0,5,none,some 2,none,some 0,some 0⟩,
      ⟨1,6,none,none,none,none,some 2⟩],
    fun q => ⟨none,⟨4,fun i => ⟨if q = 1 then 6 else if i = 0 then 5 else 8 + i,.kAsk,none⟩,0,3⟩,
      ⟨by simp,by simp [Spsc.uintRange],by simp,by simp⟩⟩,some 1,none⟩

end Order

section Conservation

def ordinary (e : Event) : Bool := e.type ≠ .kOnQueueClosed ∧ e.type ≠ .kOnSimulatorStop

def Complete (items : List Event) : Prop :=
  ∃ body e, items = body ++ [e] ∧ e.type = .kOnQueueClosed ∧ ∀ x ∈ body, ordinary x = true

theorem completeCloses {items : List Event} (h : Complete items) : Closes closing items := by
  obtain ⟨body,e,whole,type,plain⟩ := h
  refine ⟨body,e,whole,by simp [closing,type],fun x mem => ?_⟩
  have := plain x mem
  simp only [ordinary,Bool.decide_and,Bool.and_eq_true,decide_eq_true_eq] at this
  simp [closing,this.1]

theorem completeNoStop {items : List Event} (h : Complete items) : ∀ e ∈ items, e.type ≠ .kOnSimulatorStop := by
  obtain ⟨body,e,rfl,type,plain⟩ := h
  intro x mem
  rcases List.mem_append.mp mem with mem | mem
  · have := plain x mem
    simp only [ordinary,Bool.decide_and,Bool.and_eq_true,decide_eq_true_eq] at this
    exact this.2
  · cases List.mem_singleton.mp mem
    rw [type]
    exact nofun

structure Conserved (w : World) (t : Shape) (stream : Nat → List Event) (trace : List Label) (c : Cfg) :
    Prop where
  owners : ∀ r ∈ readings trace, r.1 ∈ names w t
  ordinary : ∀ q, some q ∈ names w t →
    (returnedFrom q trace).filter ordinary = (stream q).filter ordinary
  closed : (returned trace).countP closing = t.items.length - 1
  stop : ∃ before, returned trace = before ++ [newOnSimulationStopEvent] ∧
    ∀ e ∈ before, e.type ≠ .kOnSimulatorStop
  root : c.world.root = none
  last : c.world.last = none
  isEmpty : eventTreeIsEmpty noAsserts c.world = .ok (c.world,true)

theorem ordinaryShown (final : ∀ d ∈ deliveries, d.alone = true → closing d.item = true) :
    (deliveries.map (fun d => if d.alone then newOnSimulationStopEvent else d.item)).filter ordinary =
      (deliveries.map Delivery.item).filter ordinary := by
  induction deliveries with
  | nil => rfl
  | cons d rest ih =>
    have tail := ih (fun x mem => final x (List.mem_cons_of_mem _ mem))
    simp only [List.map_cons,List.filter_cons,tail]
    cases alone : d.alone with
    | false => rfl
    | true =>
      have closed : d.item.type = .kOnQueueClosed := by
        simpa [closing] using final d List.mem_cons_self alone
      have plain : ordinary d.item = false := by simp [ordinary,closed]
      rw [plain]
      rfl

theorem mergeHeld {a : Nat} (mem : a ∈ sources (mergeOf w t stream)) : a ∈ held w t := mergeSources.mem_iff.mp mem

theorem mergeOpen (tracked : Tracked w t) (complete : ∀ q, some q ∈ names w t → Complete (stream q)) :
    Open closing (mergeOf w t stream) := by
  refine ⟨mergeSources.nodup_iff.mpr (trackedNodup tracked),fun a mem => ?_⟩
  obtain ⟨q,name,known⟩ := heldNamed tracked (mergeHeld mem)
  rw [mergeRest name]
  exact completeCloses (complete q known)

section Finished
variable {m : Merge} {t' : Shape}

theorem restDone (tracked : Tracked w t) (mirrors : Mirrors w t stream trace c t' m)
    (pushed : ∀ q, some q ∈ names w t → contents (w.queues q) ++ pushedTo q trace = stream q)
    (read : ∀ q, some q ∈ names w t → contents (c.world.queues q) = []) {a : Nat} (mem : a ∈ held w t) :
    m.rest a = [] := by
  obtain ⟨q,name,known⟩ := heldNamed tracked mem
  have balance := mirrors.balance q
  rw [read q known,List.append_nil,pushed q known] at balance
  have rest := mirrors.rest a mem q name
  rwa [balance,List.append_right_eq_self] at rest

theorem lineDone (mirrors : Mirrors w t stream trace c t' m) (line : m.line = []) :
    c.world.root = none ∧ c.world.last = none := by
  have mirrored := mirrors.line
  cases last : c.world.last with
  | none =>
    rw [last,line] at mirrored
    exact ⟨(repRoot mirrors.sound.tracked.rep).mpr (entriesNil.mp mirrored.symm),rfl⟩
  | some a =>
    rw [last,line] at mirrored
    obtain ⟨k,mirrored⟩ := mirrored
    exact absurd mirrored.symm Base.StableMerge.rejoinSome

theorem deliveredWhole (merged : Run MergeStep (mergeOf w t stream) deliveries m) {a q : Nat}
    (done : m.rest a = []) (name : queueOf w a = some q) : itemsOf a deliveries = stream q := by
  have kept := Base.StableMerge.runConserves merged a
  rwa [done,List.append_nil,mergeRest name] at kept

theorem returnedFromOwn (tracked : Tracked w t) (same : readings trace = deliveries.map (shown w))
    (source : ∀ d ∈ deliveries, d.source ∈ held w t) {a q : Nat} (mem : a ∈ held w t) (name : queueOf w a = some q) :
    returnedFrom q trace = (deliveries.filter (·.source = a)).map
      (fun d => if d.alone then newOnSimulationStopEvent else d.item) := by
  have own : ∀ d ∈ deliveries, (queueOf w d.source = some q) = (d.source = a) := by
    intro d inside
    refine propext ⟨fun same => ?_,fun same => same ▸ name⟩
    exact heldUnique tracked (source d inside) mem (same.trans name.symm)
  rw [returnedFrom,same,List.filter_map,List.map_map]
  congr 1
  refine List.filter_congr (fun d inside => ?_)
  simp [shown,own d inside]

theorem returnedStop {before : List (Delivery Nat Event)} {d : Delivery Nat Event}
    (same : readings trace = (before ++ [d]).map (shown w)) (alone : d.alone = true)
    (others : ∀ x ∈ before, x.alone = false) :
    returned trace = before.map Delivery.item ++ [newOnSimulationStopEvent] := by
  simp only [returned,same,List.map_map,List.map_append,List.map_singleton,shown,if_pos alone]
  congr 1
  refine List.map_congr_left (fun x mem => ?_)
  simp [shown,others x mem]

end Finished

theorem streamConserved (tracked : Tracked w t) (unparked : w.last = none) (some' : t ≠ leaf)
    (complete : ∀ q, some q ∈ names w t → Complete (stream q))
    (run : Run (Step Scheduled noAsserts) ⟨w,false⟩ trace c)
    (pushed : ∀ q, some q ∈ names w t → contents (w.queues q) ++ pushedTo q trace = stream q)
    (read : ∀ q, some q ∈ names w t → contents (c.world.queues q) = []) :
    Conserved w t stream trace c := by
  have within : Within w t stream trace := fun q known => (pushed q known) ▸ List.prefix_rfl
  obtain ⟨t',deliveries,m,merged,same,mirrors⟩ := mirrorsRun tracked run within
  have done {a : Nat} (mem : a ∈ held w t) : m.rest a = [] := restDone tracked mirrors pushed read mem
  have start : (mergeOf w t stream).line = t.entries := by simp [mergeOf,unparked]
  obtain ⟨line,count,before,d,rfl,alone,final,others⟩ := Base.StableMerge.runComplete (mergeOpen tracked complete)
    merged (by rw [start]; exact fun h => some' (entriesNil.mp h)) (fun a mem => done (mergeHeld mem))
  have source : ∀ x ∈ before ++ [d], x.source ∈ held w t :=
    fun x inside => mergeHeld ((Base.StableMerge.runSources merged).2 x inside)
  have returned' := returnedStop same alone others
  obtain ⟨root,last⟩ := lineDone mirrors line
  refine ⟨?_,?_,?_,⟨_,returned',?_⟩,root,last,by simp [eventTreeIsEmpty,root,last]⟩
  · intro r mem
    rw [same] at mem
    obtain ⟨x,inside,rfl⟩ := List.mem_map.mp mem
    exact List.mem_map.mpr ⟨x.source,source x inside,rfl⟩
  · intro q known
    obtain ⟨a,mem,name⟩ := List.mem_map.mp known
    rw [returnedFromOwn tracked same source mem name,ordinaryShown,← itemsOf,deliveredWhole merged (done mem) name]
    intro x inside
    exact Base.StableMerge.runAloneFinal merged x (List.mem_of_mem_filter inside)
  · rw [List.countP_append,List.countP_singleton,if_pos final,start] at count
    rw [returned',List.countP_append,List.countP_map,List.countP_singleton,if_neg (by decide),items,
      List.length_map,← count]
    rfl
  · intro e mem
    obtain ⟨x,inside,rfl⟩ := List.mem_map.mp mem
    have mem' : x ∈ before ++ [d] := List.mem_append_left _ inside
    obtain ⟨q,name,known⟩ := heldNamed tracked (source x mem')
    refine completeNoStop (complete q known) _ ?_
    rw [← deliveredWhole merged (done (source x mem')) name]
    exact List.mem_map.mpr ⟨x,List.mem_filter.mpr ⟨mem',by simp⟩,rfl⟩

theorem streamConservedPair : ∃ trace c, Run (Step Scheduled noAsserts) ⟨pair,false⟩ trace c ∧
    trace = [.isEmpty false,.read 0 ⟨5,.kOnQueueClosed,none⟩ ⟨5,.kOnQueueClosed,none⟩,.isEmpty false,
      .read 1 ⟨6,.kAsk,none⟩ ⟨6,.kAsk,none⟩,.isEmpty true,.push 1 ⟨7,.kOnQueueClosed,none⟩ true,.isEmpty false,
      .read 1 ⟨7,.kOnQueueClosed,none⟩ newOnSimulationStopEvent] ∧
    Conserved pair pairShape pairStream trace c := by
  obtain ⟨trace,c,run,seen⟩ := playSeen Scheduled noAsserts ⟨pair,false⟩
    [.isEmpty,.read,.isEmpty,.read,.isEmpty,.push 1 ⟨7,.kOnQueueClosed,none⟩,.isEmpty,.read]
    (fun r => (r.1,contents (r.2.world.queues 0),contents (r.2.world.queues 1)))
    (_,[],[]) (by simp [Scheduled]) rfl
  simp only [Prod.mk.injEq] at seen
  obtain ⟨rfl,drained,drained'⟩ := seen
  refine ⟨_,c,run,rfl,streamConserved (wellFormedTracked pairWellFormed pairSeparate) rfl nofun ?_ run ?_ ?_⟩
  · intro q known
    rcases pairNames known with rfl | rfl
    · exact ⟨[],_,rfl,rfl,by simp⟩
    · exact ⟨[⟨6,.kAsk,none⟩],_,rfl,rfl,by decide⟩
  · intro q known
    rcases pairNames known with rfl | rfl <;> rfl
  · intro q known
    rcases pairNames known with rfl | rfl
    · exact drained
    · exact drained'

end Conservation

end Qtl.EventTreeStream
