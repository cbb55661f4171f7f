import Qtl.BusPart
import Qtl.EventTreeInsert

/-! Two runs of the bus over the same event streams hand over the same events from a pipe,
whatever the threads do in between: the tree merges the streams, and what it has merged
does not depend on when the events came. -/
namespace Qtl.BusReplay
open Queue EventTreeShape EventTreeRun EventTreeLocal Pipe Bus PipeTracked BusSystem BusPart
open EventTree (TreeNode World)
open EventTreeMerge (MergeStep Mirrors WellFormed mergeOf mirrorsRun readings shown)
open EventTreeStream (Monotone)
open BusStore (Store pipeWorld)
open BusRealtime (FreshPipe Registered unheardFree)
open BusRefines (standsRun)
open BusServes (pushedTo)
open Base.Trace (Run)

variable {alloc alloc' : PipeName → Nat → Option TreeNode} {utcNow utcNow' : Nat → Nat} {b : EventBus Store}
variable {c c' c₁ c₂ : Caller Store} {p : PipeName} {t : PipeName → Shape} {stream : Nat → List Event}
variable {before trace trace' : List BusSystem.Moment} {labels : List EventTreeRun.Label}

theorem partMirrors (clean : ∀ p, CleanNodes (alloc p)) (sound : BusSystem.Sound c t (fun _ => false))
    (bare : pending (pipeWorld c.bus.pipes p) = []) (run : Run (BusSystem.Step alloc utcNow) c trace c')
    (fixed : ∀ q, .registered q p ∉ trace)
    (within : ∀ q, Has (treeOf c p) (t p) q → contents (c.bus.pipes.queues q) ++ pushedTo q trace <+: stream q) :
    ∃ labels deliveries m t' found' queues', Run MergeStep (mergeOf (treeOf c p) (t p) stream) deliveries m ∧
      readings labels = deliveries.map (shown (treeOf c p)) ∧ Part p c t trace c' t' labels ∧
      Projects p c' t' found' queues' ∧ Mirrors (treeOf c p) (t p) stream labels (part p c' found' queues') (t' p) m := by
  have projects : Projects p c t (fun _ => false) c.bus.pipes.queues := ⟨sound,bare,fun _ _ => rfl⟩
  obtain ⟨t',found',queues',labels,ran,projects',part⟩ := partRun clean projects run fixed
  have upTo : EventTreeMerge.Within (treeOf c p) (t p) stream labels := fun q mine =>
    ((List.prefix_append_right_inj _).mpr (part.told q)).trans (within q mine)
  obtain ⟨t₁,deliveries,m,merged,same,mirrors⟩ := mirrorsRun (sound.store.pipe p).tracked ran upTo
  cases EventTreeInsert.repUnique mirrors.sound.tracked.rep (projects'.sound.store.pipe p).tracked.rep
  exact ⟨labels,deliveries,m,t',found',queues',merged,same,part,projects',mirrors⟩

theorem standsIdle (clean : ∀ p, CleanNodes (alloc p)) (fresh : ∀ p, FreshPipe (b.pipes.pipes p))
    (setup : Run (BusSystem.Step alloc utcNow) ⟨b,.outside⟩ before c) (idle : c.point = .outside) :
    ∃ t, BusSystem.Sound c t (fun _ => false) := by
  obtain ⟨_,⟨t,found,sound,_⟩,_⟩ := standsRun clean fresh setup
  exact ⟨t,sound.store,by simp,by simp [idle]⟩

theorem handedCompares (clean : ∀ p, CleanNodes (alloc p)) (clean' : ∀ p, CleanNodes (alloc' p))
    (sound : BusSystem.Sound c t (fun _ => false)) (bare : pending (pipeWorld c.bus.pipes p) = [])
    (run : Run (BusSystem.Step alloc utcNow) c trace c₁) (fixed : ∀ q, .registered q p ∉ trace)
    (run' : Run (BusSystem.Step alloc' utcNow') c trace' c₂) (fixed' : ∀ q, .registered q p ∉ trace')
    (within : ∀ q, Registered (pipeWorld c.bus.pipes p) q →
      contents (c.bus.pipes.queues q) ++ pushedTo q trace <+: stream q ∧
        contents (c.bus.pipes.queues q) ++ pushedTo q trace' <+: stream q) :
    handedBy p trace <+: handedBy p trace' ∨ handedBy p trace' <+: handedBy p trace := by
  obtain ⟨labels,deliveries,m,_,_,_,merged,same,own,_⟩ :=
    partMirrors clean sound bare run fixed (fun q mine => (within q (hasRegistered sound bare mine)).1)
  obtain ⟨labels',deliveries',m',_,_,_,merged',same',own',_⟩ :=
    partMirrors clean' sound bare run' fixed' (fun q mine => (within q (hasRegistered sound bare mine)).2)
  rw [← own.events,← own'.events,EventTreeStream.returned,EventTreeStream.returned,same,same',List.map_map,List.map_map]
  exact (Base.Trace.runDeterministic Base.StableMerge.stepDeterministic merged merged').imp
    (fun h => h.map _) (fun h => h.map _)

-- In time order, but for a stop event in place of the last closing event.
def InOrder (events : List Event) : Prop :=
  Monotone events ∨ ∃ before, events = before ++ [newOnSimulationStopEvent] ∧ Monotone before

theorem inTimeOrder (inTime : EventTreeStream.InTime labels) : InOrder (EventTreeStream.returned labels) := by
  obtain ⟨monotone,same | ⟨before,e,popped,_,same⟩⟩ := inTime
  · exact .inl (by rw [same]; exact monotone)
  · rw [popped] at monotone
    exact .inr ⟨before,same,(List.pairwise_append.mp monotone).1⟩

theorem handedOrder (clean : ∀ p, CleanNodes (alloc p)) (sound : BusSystem.Sound c t (fun _ => false))
    (bare : pending (pipeWorld c.bus.pipes p) = []) (run : Run (BusSystem.Step alloc utcNow) c trace c')
    (fixed : ∀ q, .registered q p ∉ trace)
    (within : ∀ q, Registered (pipeWorld c.bus.pipes p) q →
      contents (c.bus.pipes.queues q) ++ pushedTo q trace <+: stream q)
    {shape : Shape} (wf : WellFormed (treeOf c p) shape)
    (monotone : ∀ q, Registered (pipeWorld c.bus.pipes p) q → Monotone (stream q)) : InOrder (handedBy p trace) := by
  have tracked := (sound.store.pipe p).tracked
  cases EventTreeInsert.repUnique wf.rep tracked.rep
  obtain ⟨labels,deliveries,m,_,_,_,merged,same,own,_⟩ :=
    partMirrors clean sound bare run fixed (fun q mine => within q (hasRegistered sound bare mine))
  have starts : EventTreeMerge.Within (treeOf c p) (t p) stream [] := fun q mine => by
    have upTo := within q (hasRegistered sound bare mine)
    exact (List.append_nil _).symm ▸ (List.prefix_append ..).trans upTo
  have timely := EventTreeStream.mergeTimely wf tracked.separate
    (fun q mine => monotone q (hasRegistered sound bare mine)) starts
  rw [← own.events]
  exact inTimeOrder (EventTreeStream.shownInTime timely merged same)

def simulationBus : EventBus Store := BusStore.newBus BusRealtime.busOf.pipes.queues .kSimulation 0 0

def withData : Caller Store :=
  ((turnStep BusRealtime.malloc BusRealtime.clock ⟨simulationBus,.outside⟩ (.addQueue true 0 .kDataPipe)).toOption.map
    Prod.snd).getD ⟨simulationBus,.outside⟩

theorem withDataRun :
    Run (BusSystem.Step BusRealtime.malloc BusRealtime.clock) ⟨simulationBus,.outside⟩ [.registered 0 .data] withData :=
  Base.Trace.runSingle
    ⟨.addQueue true 0 .kDataPipe,⟨by decide,fun _ => rfl,fun p => unheardFree (by cases p <;> rfl)⟩,rfl⟩

def dataPass : List BusSystem.Moment := [.call (.entered .kSimulation) none,
  .call (.found (.pipe .data) false) none,.call (.kept .kSimulation (some front)) (some (0,front)),
  .call (.found (.pipe .execution) true) none,
  .call (.found (.pipe .command) true) none,.call (.found (.pipe .service) true) none,
  .call (.returned .saved (some front)) none]

def fed (s : Caller Store) (turn : Option (Nat × Event)) : Option (BusSystem.Moment × Caller Store) :=
  (turnStep BusRealtime.malloc BusRealtime.clock s (turn.elim .dequeue (fun r => .push r.1 r.2))).toOption

theorem fedRun {s s' : Caller Store} (run : Run (Base.Trace.Moves fed) s trace s') :
    Run (BusSystem.Step BusRealtime.malloc BusRealtime.clock) s trace s' := by
  refine Base.Trace.runMono (fun _ _ _ ⟨turn,done⟩ => ⟨_,?_,okOption done⟩) run
  cases turn <;> trivial

def withTwo : Caller Store :=
  ((turnStep BusRealtime.malloc BusRealtime.clock withData (.addQueue true 1 .kDataPipe)).toOption.map
    Prod.snd).getD withData

theorem withTwoRun : Run (BusSystem.Step BusRealtime.malloc BusRealtime.clock) ⟨simulationBus,.outside⟩
    ([.registered 0 .data] ++ [.registered 1 .data]) withTwo :=
  .snoc withDataRun
    ⟨.addQueue true 1 .kDataPipe,⟨by decide,fun _ => rfl,fun p => unheardFree (by cases p <;> rfl)⟩,rfl⟩

def seventh : Event := ⟨7,.kTrade,some 1⟩
def ninth : Event := ⟨9,.kTrade,some 2⟩
def eleventh : Event := ⟨11,.kTrade,some 3⟩

def twoStreams (q : Nat) : List Event := if q = 0 then [front,ninth] else [seventh,eleventh]

def dataCall (q : Nat) (e : Event) : List BusSystem.Moment := [.call (.found (.pipe .data) false) none,
  .call (.kept .kSimulation (some e)) (some (q,e)),.call (.found (.pipe .execution) true) none,
  .call (.found (.pipe .command) true) none,.call (.found (.pipe .service) true) none,
  .call (.returned .saved (some e)) none]

def early : List BusSystem.Moment := .call (.entered .kSimulation) none :: dataCall 0 front ++
  .pushed 0 ninth true :: .call (.entered .kSimulation) none :: dataCall 1 seventh ++
  .pushed 1 eleventh true :: .call (.entered .kSimulation) none :: dataCall 0 ninth

-- The second call rests before the producer pushes, and the third has begun.
def late : List BusSystem.Moment := .call (.entered .kSimulation) none :: dataCall 0 front ++
  [.call (.entered .kSimulation) none,.call (.found (.pipe .data) true) none,
    .call (.found (.pipe .execution) true) none,.call (.found (.pipe .command) true) none,
    .call (.found (.pipe .service) true) none,.call (.found .saved true) none,.call (.found .stop true) none,
    .pushed 0 ninth true,.call (.rested .uvSleep) none] ++ dataCall 1 seventh ++
  [.call (.entered .kSimulation) none,.pushed 1 eleventh true] ++ dataCall 0 ninth

theorem earlyRun : ∃ c, Run (BusSystem.Step BusRealtime.malloc BusRealtime.clock) withTwo early c := by
  obtain ⟨trace,c,run,same⟩ := Base.Trace.playSeen (List.replicate 7 none ++ some (0,ninth) :: List.replicate 7 none ++
      some (1,eleventh) :: List.replicate 7 none) Prod.fst
    (show (Base.Trace.play fed withTwo _).map _ = some early from rfl)
  cases same
  exact ⟨c,fedRun run⟩

theorem lateRun : ∃ c, Run (BusSystem.Step BusRealtime.malloc BusRealtime.clock) withTwo late c := by
  obtain ⟨trace,c,run,same⟩ := Base.Trace.playSeen (List.replicate 14 none ++ some (0,ninth) :: List.replicate 8 none ++
      some (1,eleventh) :: List.replicate 6 none) Prod.fst
    (show (Base.Trace.play fed withTwo _).map _ = some late from rfl)
  cases same
  exact ⟨c,fedRun run⟩

theorem withTwoWithin (q : Nat) (known : Registered (pipeWorld withTwo.bus.pipes .data) q) :
    contents (withTwo.bus.pipes.queues q) ++ pushedTo q early <+: twoStreams q ∧
      contents (withTwo.bus.pipes.queues q) ++ pushedTo q late <+: twoStreams q := by
  rcases known with mem | ⟨a,_,name⟩
  · cases mem
  · match a with
    | 0 => cases name; exact ⟨List.prefix_rfl,List.prefix_rfl⟩
    | 1 => cases name; exact ⟨List.prefix_rfl,List.prefix_rfl⟩
    | a + 2 => cases name

end Qtl.BusReplay
