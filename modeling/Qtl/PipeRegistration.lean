import Qtl.Pipe
import Qtl.SpscObserve

/-! event_pipe_add from a thread that does not own the pipe, access by access, against
the owner's event_pipe_is_empty and event_pipe_read. Each of these first drains the
ring of registrations; what the tree then does is a parameter. -/
namespace Qtl.PipeRegistration
open Queue EventTree Spsc Pipe
open SpscInterleaving (System Producer Consumer Call Inv producerStep consumerStep written given)
open SpscObserve (items itemsDistance)
open Base.Trace (Run)

structure TreeCalls (τ : Type) where
  add : τ → Nat → Option τ
  isEmpty : τ → Option τ
  read : τ → Option τ

def worldCalls (asserts : Assertion → Bool) (alloc : Nat → Option TreeNode) : TreeCalls World where
  add s q := (eventTreeAdd asserts s (alloc s.nodes.length) q).toOption.map Prod.fst
  isEmpty s := (eventTreeIsEmpty asserts s).toOption.map Prod.fst
  read s := (eventTreeRead asserts s).toOption.map Prod.fst

inductive PipeCall where | isEmpty | read
  deriving DecidableEq, Repr

def TreeCalls.answer {τ : Type} (calls : TreeCalls τ) : PipeCall → τ → Option τ
  | .isEmpty => calls.isEmpty
  | .read => calls.read

inductive Owner where
  | outside
  | draining (call : PipeCall)
  | adding (call : PipeCall) (q : Nat)
  | finishing (call : PipeCall)

-- `quiet`: no registration was under way when the drain started, and none since.
structure Registration (τ : Type) where
  ring : System Nat
  tree : τ
  owner : Owner
  quiet : Bool

inductive Label where
  | passed (q : Nat)
  | checked (q pending : Nat) (event : SpscInterleaving.Event Nat)
  | stored (event : SpscInterleaving.Event Nat)
  | started (call : PipeCall)
  | reading (event : SpscInterleaving.Event Nat)
  | drained (call : PipeCall) (quiet : Bool) (event : SpscInterleaving.Event Nat)
  | handed (q : Nat)
  | finished (call : PipeCall)
  deriving DecidableEq

inductive Turn where
  | adder (q : Nat)
  | owner (call : PipeCall)

section Machine
variable {τ : Type} (calls : TreeCalls τ)

def resting (s : Registration τ) : Bool := match s.ring.producer with
  | .idle => true
  | _ => false

-- The accesses of spsc_queue_write; its result is dropped.
def adderStep (q : Nat) (s : Registration τ) : Label × Registration τ :=
  let (ring,event) := producerStep q s.ring
  let label := match s.ring.producer with
    | .idle => .passed q
    | .positioned q _ => .checked q (items s.ring.queue) event
    | _ => .stored event
  (label,{s with ring := ring, quiet := false})

def ownerStep (call : PipeCall) (s : Registration τ) : Option (Label × Registration τ) :=
  match s.owner with
  | .outside => some (.started call,{s with owner := .draining call, quiet := resting s})
  | .draining call =>
      let (ring,event) := consumerStep .read s.ring
      match event with
      | .gave q => some (.reading event,{s with ring := ring, owner := .adding call q})
      | .empty _ => some (.drained call s.quiet event,{s with ring := ring, owner := .finishing call})
      | _ => some (.reading event,{s with ring := ring})
  | .adding call q => do
      let tree ← calls.add s.tree q
      some (.handed q,{s with tree := tree, owner := .draining call})
  | .finishing call => do
      let tree ← calls.answer call s.tree
      some (.finished call,{s with tree := tree, owner := .outside})

def turnStep (s : Registration τ) : Turn → Option (Label × Registration τ)
  | .adder q => some (adderStep q s)
  | .owner call => ownerStep calls call s

abbrev Step : Registration τ → Label → Registration τ → Prop := Base.Trace.Moves (turnStep calls)

def begin (pendingAdd : SpscQueue Nat) (tree : τ) : Registration τ :=
  ⟨SpscInterleaving.begin pendingAdd,tree,.outside,false⟩

end Machine

def ringEvents : List Label → List (SpscInterleaving.Event Nat) := List.filterMap (fun label => match label with
  | .passed _ => some .silent
  | .checked _ _ event => some event
  | .stored event => some event
  | .reading event => some event
  | .drained _ _ event => some event
  | _ => none)

def passed : List Label → List Nat := List.filterMap (fun label => match label with
  | .passed q => some q
  | _ => none)

def handed : List Label → List Nat := List.filterMap (fun label => match label with
  | .handed q => some q
  | _ => none)

def refused : List Label → List Nat := List.filterMap (fun label => match label with
  | .checked _ _ (.refused q) => some q
  | _ => none)

def Roomy (size : Nat) (trace : List Label) : Prop :=
  ∀ q pending event, .checked q pending event ∈ trace → pending < size - 1

def underWay {τ : Type} (s : Registration τ) : List Nat := match s.ring.producer with
  | .idle => []
  | .positioned q _ => [q]
  | .admitted q _ _ => [q]
  | .filled q _ => [q]

def inHand {τ : Type} (s : Registration τ) : List Nat := match s.owner with
  | .adding _ q => [q]
  | _ => []

variable {τ : Type} {calls : TreeCalls τ} {s s' : Registration τ} {trace later : List Label} {size : Nat}

structure RegInv (size : Nat) (trace : List Label) (s : Registration τ) : Prop where
  ring : Inv size (ringEvents trace) s.ring
  tookOver : given (ringEvents trace) = handed trace ++ inHand s
  kept : refused trace = [] → passed trace = written (ringEvents trace) ++ underWay s
  lost : (passed trace).length =
    (written (ringEvents trace)).length + (underWay s).length + (refused trace).length
  quiet : s.quiet = true → resting s = true

theorem ringEventsSnoc (trace : List Label) (label : Label) :
    ringEvents (trace ++ [label]) = ringEvents trace ++ ringEvents [label] := List.filterMap_append

theorem passedSnoc (trace : List Label) (label : Label) : passed (trace ++ [label]) = passed trace ++ passed [label] :=
  List.filterMap_append

theorem handedSnoc (trace : List Label) (label : Label) : handed (trace ++ [label]) = handed trace ++ handed [label] :=
  List.filterMap_append

theorem refusedSnoc (trace : List Label) (label : Label) :
    refused (trace ++ [label]) = refused trace ++ refused [label] := List.filterMap_append

theorem adderCounts (q : Nat) (s : Registration τ) :
    ringEvents [(adderStep q s).1] = [(producerStep q s.ring).2] ∧
    handed [(adderStep q s).1] = [] ∧ given [(producerStep q s.ring).2] = [] ∧
    underWay s ++ passed [(adderStep q s).1] =
      written [(producerStep q s.ring).2] ++ refused [(adderStep q s).1] ++ underWay (adderStep q s).2 := by
  obtain ⟨⟨queue,producer,consumer⟩,tree,owner,quiet⟩ := s
  cases producer with
  | idle => exact ⟨rfl,rfl,rfl,rfl⟩
  | positioned q' current =>
    simp only [adderStep,producerStep]
    split <;> exact ⟨rfl,rfl,rfl,rfl⟩
  | admitted => exact ⟨rfl,rfl,rfl,rfl⟩
  | filled => exact ⟨rfl,rfl,rfl,rfl⟩

theorem adderInv (inv : RegInv size trace s) (q : Nat) :
    RegInv size (trace ++ [(adderStep q s).1]) (adderStep q s).2 := by
  obtain ⟨event,noHand,noGive,moved⟩ := adderCounts q s
  have lengths := congrArg List.length moved
  simp only [List.length_append] at lengths
  refine ⟨?_,?_,fun none => ?_,?_,fun h => absurd h Bool.false_ne_true⟩
  · rw [ringEventsSnoc,event]
    exact SpscInterleaving.producerPreserves inv.ring q
  · rw [ringEventsSnoc,event,SpscObserve.givenAppend,noGive,handedSnoc,noHand,List.append_nil,List.append_nil]
    exact inv.tookOver
  · rw [refusedSnoc,List.append_eq_nil_iff] at none
    rw [none.2,List.append_nil] at moved
    rw [passedSnoc,ringEventsSnoc,event,SpscObserve.writtenAppend,inv.kept none.1,List.append_assoc,moved,
      List.append_assoc]
  · have lost := inv.lost
    rw [passedSnoc,ringEventsSnoc,event,SpscObserve.writtenAppend,refusedSnoc]
    simp only [List.length_append]
    omega

theorem quietLabel {label : Label} (inv : RegInv size trace s) (noEvent : ringEvents [label] = [])
    (noPass : passed [label] = []) (noRefusal : refused [label] = []) {t : Registration τ} (same : t.ring = s.ring)
    (moved : inHand s = handed [label] ++ inHand t) (quiet : t.quiet = true → resting t = true) :
    RegInv size (trace ++ [label]) t := by
  have way : underWay t = underWay s := by simp only [underWay,same]
  refine ⟨?_,?_,fun none => ?_,?_,quiet⟩
  · rw [ringEventsSnoc,noEvent,List.append_nil,same]
    exact inv.ring
  · rw [ringEventsSnoc,noEvent,List.append_nil,inv.tookOver,moved,handedSnoc,List.append_assoc]
  · rw [refusedSnoc,List.append_eq_nil_iff] at none
    rw [passedSnoc,noPass,ringEventsSnoc,noEvent,List.append_nil,List.append_nil,way]
    exact inv.kept none.1
  · rw [passedSnoc,noPass,ringEventsSnoc,noEvent,refusedSnoc,noRefusal,way]
    simpa using inv.lost

theorem consumerProducer (t : System Nat) : (consumerStep .read t).1.producer = t.producer := by
  unfold consumerStep
  split <;> try rfl
  split <;> rfl

theorem drainLabel {label : Label} (inv : RegInv size trace s) {t : Registration τ}
    (event : ringEvents [label] = [(consumerStep .read s.ring).2]) (noPass : passed [label] = [])
    (noRefusal : refused [label] = []) (noHand : handed [label] = []) (same : t.ring = (consumerStep .read s.ring).1)
    (moved : given [(consumerStep .read s.ring).2] = inHand t) (emptyHand : inHand s = [])
    (quiet : t.quiet = s.quiet) : RegInv size (trace ++ [label]) t := by
  have producer : t.ring.producer = s.ring.producer := by rw [same,consumerProducer]
  have way : underWay t = underWay s := by simp only [underWay,producer]
  have rest : resting t = resting s := by simp only [resting,producer]
  have noWrite := (SpscObserve.consumerKeeps s.ring .read).2.2
  refine ⟨?_,?_,fun none => ?_,?_,?_⟩
  · rw [ringEventsSnoc,event,same]
    exact SpscInterleaving.consumerPreserves inv.ring .read
  · rw [ringEventsSnoc,event,SpscObserve.givenAppend,inv.tookOver,emptyHand,moved,handedSnoc,noHand]
  · rw [refusedSnoc,List.append_eq_nil_iff] at none
    rw [passedSnoc,noPass,ringEventsSnoc,event,SpscObserve.writtenAppend,noWrite,List.append_nil,List.append_nil,way]
    exact inv.kept none.1
  · rw [passedSnoc,noPass,ringEventsSnoc,event,SpscObserve.writtenAppend,noWrite,refusedSnoc,noRefusal,way]
    simpa using inv.lost
  · rw [quiet,rest]
    exact inv.quiet

theorem ownerInv (inv : RegInv size trace s) {label : Label} {call : PipeCall}
    (done : ownerStep calls call s = some (label,s')) : RegInv size (trace ++ [label]) s' := by
  obtain ⟨ring,tree,owner,quiet⟩ := s
  cases owner with
  | outside =>
    cases done
    exact quietLabel inv rfl rfl rfl rfl rfl (fun h => h)
  | draining call =>
    simp only [ownerStep] at done
    cases told : (consumerStep .read ring).2 <;> simp only [told] at done <;> cases done
    all_goals exact drainLabel inv (by rw [told]; rfl) rfl rfl rfl rfl (by rw [told]; rfl) rfl rfl
  | adding call q =>
    obtain ⟨tree',_,last⟩ := Option.bind_eq_some_iff.mp done
    cases last
    exact quietLabel inv rfl rfl rfl rfl rfl inv.quiet
  | finishing call =>
    obtain ⟨tree',_,last⟩ := Option.bind_eq_some_iff.mp done
    cases last
    exact quietLabel inv rfl rfl rfl rfl rfl inv.quiet

theorem regStep (inv : RegInv size trace s) {label : Label} (step : Step calls s label s') :
    RegInv size (trace ++ [label]) s' := by
  obtain ⟨turn,done⟩ := step
  cases turn with
  | adder q =>
    cases done
    exact adderInv inv q
  | owner call => exact ownerInv inv done

def Checked (size : Nat) (label : Label) : Prop := match label with
  | .checked _ pending _ => pending < size - 1 ↔ refused [label] = []
  | _ => True

theorem adderChecked (inv : RegInv size trace s) (q : Nat) : Checked size (adderStep q s).1 := by
  have ok := inv.ring.ok
  have own := inv.ring.producer
  have cap := inv.ring.capacity
  have short := @itemsDistance Nat s.ring.queue
  obtain ⟨⟨queue,producer,consumer⟩,tree,owner,quiet⟩ := s
  dsimp only at ok own cap short
  cases producer with
  | positioned q' current =>
    have same : current = queue.writePos := own
    have full := Base.Window.distanceFull ok.readLt ok.writeLt
    have inside := Base.Window.distanceLt ok.readLt ok.writeLt
    rw [← nextRecordAdvance ok.fits ok.writeLt,← short,cap] at full
    rw [← short,cap] at inside
    subst same
    simp only [adderStep,producerStep]
    split
    · rename_i room
      have other : items queue ≠ size - 1 := fun h => room (full.mp h)
      have free : items queue < size - 1 := by omega
      simp [Checked,refused,free]
    · rename_i none
      have filled : items queue = size - 1 := full.mpr (not_not.mp none)
      simp [Checked,refused,filled]
  | _ => trivial

theorem checkedStep (inv : RegInv size trace s) {label : Label} (step : Step calls s label s') :
    Checked size label := by
  obtain ⟨turn,done⟩ := step
  cases turn with
  | owner call =>
    simp only [turnStep] at done
    unfold ownerStep at done
    split at done
    · cases done; trivial
    · dsimp only at done
      split at done <;> cases done <;> trivial
    · obtain ⟨_,_,last⟩ := Option.bind_eq_some_iff.mp done
      cases last; trivial
    · obtain ⟨_,_,last⟩ := Option.bind_eq_some_iff.mp done
      cases last; trivial
  | adder q =>
    cases done
    exact adderChecked inv q

theorem regRun {pendingAdd : SpscQueue Nat} {tree : τ} {records : Option (Nat → Nat)} (fits : size < uintRange)
    (accepted : spscQueueInit records size = some pendingAdd) (run : Run (Step calls) (begin pendingAdd tree) trace s) :
    RegInv size trace s ∧ (Roomy size trace ↔ refused trace = []) := by
  have start : RegInv size [] (begin pendingAdd tree) :=
    ⟨SpscInterleaving.beginInv fits accepted,rfl,fun _ => rfl,rfl,fun h => absurd h Bool.false_ne_true⟩
  obtain ⟨inv,checked⟩ := Base.Trace.runLabels (RegInv size) (Checked size) start
    (fun _ _ _ _ inv step => ⟨regStep inv step,checkedStep inv step⟩) run
  refine ⟨inv,fun roomy => ?_,fun none q pending event mem => ?_⟩
  · refine List.filterMap_eq_nil_iff.mpr (fun label mem => ?_)
    cases label with
    | checked q pending event =>
      have admitted := (checked _ mem).mp (roomy q pending event mem)
      simpa [refused] using admitted
    | _ => rfl
  · refine (checked _ mem).mpr (List.filterMap_eq_nil_iff.mpr (fun label' mem' => ?_))
    cases List.mem_singleton.mp mem'
    exact List.filterMap_eq_nil_iff.mp none _ mem

theorem drainedMoment (inv : RegInv size trace s) {call : PipeCall} {event : SpscInterleaving.Event Nat}
    (step : Step calls s (.drained call true event) s') :
    underWay s = [] ∧ inHand s = [] ∧ written (ringEvents trace) = given (ringEvents trace) := by
  obtain ⟨turn,done⟩ := step
  have quiet := inv.quiet
  have stream := inv.ring.stream
  obtain ⟨ring,tree,owner,calm⟩ := s
  cases turn with
  | adder q =>
    simp only [turnStep,adderStep] at done
    cases standing : ring.producer <;> simp only [standing] at done <;> cases done
  | owner call' =>
    simp only [turnStep] at done
    unfold ownerStep at done
    split at done
    · cases done
    · rename_i standing
      dsimp only at done standing
      split at done <;> cases done
      rename_i told
      have rest : resting ⟨ring,tree,owner,true⟩ = true := quiet rfl
      have empty : live ring.queue = [] :=
        SpscInterleaving.servesEmpty (SpscInterleaving.stepServes inv.ring ⟨.consumer .read,Prod.ext rfl told⟩)
      dsimp only at stream
      refine ⟨?_,by simp [inHand,standing],by rw [stream,empty,List.append_nil]⟩
      cases idle : ring.producer <;> simp_all [resting,underWay]
    · obtain ⟨_,_,last⟩ := Option.bind_eq_some_iff.mp done
      cases last
    · obtain ⟨_,_,last⟩ := Option.bind_eq_some_iff.mp done
      cases last

/-- The queues handed to the tree are the ones passed, each once and in order, as long as
the ring had room for each; and after a drain that no registration overlaps they are all
of them if and only if it had. -/
theorem registrationsHanded {pendingAdd : SpscQueue Nat} {tree : τ} {records : Option (Nat → Nat)}
    (fits : size < uintRange) (accepted : spscQueueInit records size = some pendingAdd)
    (run : Run (Step calls) (begin pendingAdd tree) trace s) :
    (Roomy size trace → handed trace <+: passed trace) ∧
    ∀ before call event rest, trace = before ++ .drained call true event :: rest →
      (handed before = passed before ↔ Roomy size before) := by
  refine ⟨fun roomy => ?_,?_⟩
  · obtain ⟨inv,roomy'⟩ := regRun fits accepted run
    rw [inv.kept (roomy'.mp roomy),inv.ring.stream,inv.tookOver,List.append_assoc,List.append_assoc]
    exact List.prefix_append ..
  · rintro before call event rest rfl
    obtain ⟨t',upTo,_⟩ := Base.Trace.runSplit (before ++ [.drained call true event]) rest (by simpa using run)
    obtain ⟨t,earlier,step⟩ := Base.Trace.runSnocInv upTo
    obtain ⟨inv,roomy⟩ := regRun fits accepted earlier
    obtain ⟨noWay,noHand,same⟩ := drainedMoment inv step
    have took := inv.tookOver
    have lost := inv.lost
    rw [noHand,List.append_nil] at took
    rw [same,took,noWay] at lost
    rw [roomy]
    refine ⟨fun all => ?_,fun none => ?_⟩
    · rw [all] at lost
      refine List.length_eq_zero_iff.mp ?_
      rw [List.length_nil] at lost
      omega
    · rw [inv.kept none,same,took,noWay,List.append_nil]

section Burst
variable {producer : Producer Nat} {call : PipeCall} {quiet : Bool} {ring : SpscQueue Nat} {tree tree' : τ}

theorem addOne (calls : TreeCalls τ) (ring : SpscQueue Nat) (tree : τ) (quiet : Bool) (q : Nat) : ∃ trace,
    Run (Step calls) ⟨⟨ring,.idle,.idle⟩,tree,.outside,quiet⟩ trace
      ⟨⟨(spscQueueWrite ring q).1,.idle,.idle⟩,tree,.outside,false⟩ ∧ passed trace = [q] ∧ handed trace = [] := by
  let start : Registration τ := ⟨⟨ring,.idle,.idle⟩,tree,.outside,quiet⟩
  have seen : ∃ turns, (Base.Trace.play (turnStep calls) start turns).map (fun r => (r.2,passed r.1,handed r.1)) =
      some (⟨⟨(spscQueueWrite ring q).1,.idle,.idle⟩,tree,.outside,false⟩,[q],[]) := by
    by_cases room : nextRecord ring ring.writePos ≠ ring.readPos
    · refine ⟨List.replicate 4 (.adder q),?_⟩
      simp [Base.Trace.play,turnStep,adderStep,producerStep,spscQueueWrite,room,List.replicate,start,passed,handed]
    · refine ⟨List.replicate 2 (.adder q),?_⟩
      rw [not_not] at room
      simp [Base.Trace.play,turnStep,adderStep,producerStep,spscQueueWrite,room,List.replicate,start,passed,handed]
  obtain ⟨turns,seen⟩ := seen
  obtain ⟨trace,s',run,same⟩ := Base.Trace.playSeen turns _ seen
  simp only [Prod.mk.injEq] at same
  exact ⟨trace,same.1 ▸ run,same.2⟩

theorem addMany (calls : TreeCalls τ) (qs : List Nat) (ring : SpscQueue Nat) (tree : τ) (quiet : Bool) :
    ∃ trace quiet', Run (Step calls) ⟨⟨ring,.idle,.idle⟩,tree,.outside,quiet⟩ trace
      ⟨⟨qs.foldl (fun ring q => (spscQueueWrite ring q).1) ring,.idle,.idle⟩,tree,.outside,quiet'⟩ ∧
    passed trace = qs ∧ handed trace = [] := by
  induction qs generalizing ring quiet with
  | nil => exact ⟨[],quiet,.nil,rfl,rfl⟩
  | cons q qs ih =>
    obtain ⟨trace,first,gone,stayed⟩ := addOne calls ring tree quiet q
    obtain ⟨trace',quiet',rest,gone',stayed'⟩ := ih (spscQueueWrite ring q).1 false
    refine ⟨trace ++ trace',quiet',Base.Trace.runAppend first rest,?_,?_⟩
    · rw [passed,List.filterMap_append]
      exact congrArg₂ (· ++ ·) gone gone'
    · rw [handed,List.filterMap_append]
      exact congrArg₂ (· ++ ·) stayed stayed'

theorem writtenTake (qs : List Nat) {ring : SpscQueue Nat} (ok : Ok ring) :
    Ok (qs.foldl (fun ring q => (spscQueueWrite ring q).1) ring) ∧
    live (qs.foldl (fun ring q => (spscQueueWrite ring q).1) ring) = (live ring ++ qs).take (ring.capacity - 1) := by
  induction qs generalizing ring with
  | nil =>
    have short := liveLength ok
    exact ⟨ok,by simp only [List.foldl_nil,List.append_nil]; exact (List.take_of_length_le (by omega)).symm⟩
  | cons q qs ih =>
    have cap : (spscQueueWrite ring q).1.capacity = ring.capacity := by
      simp only [spscQueueWrite]
      split <;> rfl
    obtain ⟨ok',same⟩ := ih (writeOk ok q)
    refine ⟨ok',?_⟩
    rw [List.foldl_cons,same,cap]
    cases told : (spscQueueWrite ring q).2 with
    | true => rw [writeAppends ok told,List.append_assoc]; rfl
    | false =>
      have full := (writeRefused ok).mp told
      rw [writeRefusedSame told]
      rw [List.take_append_of_le_length (by omega),List.take_append_of_le_length (by omega)]

theorem drainEmpty (empty : ring.readPos = ring.writePos) :
    Run (Step calls) ⟨⟨ring,producer,.idle⟩,tree,.draining call,quiet⟩
      [.reading .silent,.drained call quiet (.empty .read)] ⟨⟨ring,producer,.idle⟩,tree,.finishing call,quiet⟩ :=
  Base.Trace.runCons ⟨.owner call,rfl⟩
    (Base.Trace.runSingle ⟨.owner call,by simp [turnStep,ownerStep,consumerStep,empty]⟩)

theorem drainOne (some : ring.readPos ≠ ring.writePos)
    (added : calls.add tree (ring.records ring.readPos) = .some tree') :
    Run (Step calls) ⟨⟨ring,producer,.idle⟩,tree,.draining call,quiet⟩
      [.reading .silent,.reading .silent,.reading .silent,.reading (.gave (ring.records ring.readPos)),
        .handed (ring.records ring.readPos)]
      ⟨⟨(spscQueueRead ring).1,producer,.idle⟩,tree',.draining call,quiet⟩ := by
  have moved : (spscQueueRead ring).1 = {ring with readPos := nextRecord ring ring.readPos} := by
    simp [spscQueueRead,some]
  rw [moved]
  exact Base.Trace.runCons ⟨.owner call,rfl⟩
    (Base.Trace.runCons ⟨.owner call,by simp [turnStep,ownerStep,consumerStep,some]; rfl⟩
      (Base.Trace.runCons ⟨.owner call,rfl⟩
        (Base.Trace.runCons ⟨.owner call,rfl⟩
          (Base.Trace.runSingle ⟨.owner call,by simp [turnStep,ownerStep,added]⟩))))

theorem drainMany (producer : Producer Nat) (call : PipeCall) (quiet : Bool) (qs : List Nat) {ring : SpscQueue Nat}
    (ok : Ok ring) (same : live ring = qs) {tree tree' : τ}
    (added : qs.foldlM calls.add tree = some tree') : ∃ trace ring',
    Run (Step calls) ⟨⟨ring,producer,.idle⟩,tree,.draining call,quiet⟩ (trace ++ [.drained call quiet (.empty .read)])
      ⟨⟨ring',producer,.idle⟩,tree',.finishing call,quiet⟩ ∧ passed trace = [] ∧ handed trace = qs := by
  induction qs generalizing ring tree with
  | nil =>
    cases added
    have empty : ring.readPos = ring.writePos := (Base.Window.windowEmpty ok.readLt).mp same
    exact ⟨[.reading .silent],ring,drainEmpty empty,rfl,rfl⟩
  | cons q qs ih =>
    obtain ⟨middle,first,later⟩ := Option.bind_eq_some_iff.mp added
    have some : ring.readPos ≠ ring.writePos := by
      intro empty
      have none : live ring = [] := (Base.Window.windowEmpty ok.readLt).mpr empty
      rw [none] at same
      cases same
    obtain ⟨item,tail⟩ := readExact ok
    rw [same] at item tail
    have front : ring.records ring.readPos = q := by simpa [spscQueueRead,some] using item
    obtain ⟨trace,ring',rest,gone,got⟩ := ih (readOk ok) tail later
    rw [← front] at first
    refine ⟨_ ++ trace,ring',by rw [List.append_assoc]; exact Base.Trace.runAppend (drainOne some first) rest,?_,?_⟩
    · rw [passed,List.filterMap_append]
      exact gone
    · rw [handed,List.filterMap_append,front]
      exact congrArg _ got

theorem burstHanded (qs : List Nat) {size : Nat} {pendingAdd : SpscQueue Nat} {records : Option (Nat → Nat)}
    (fits : size < uintRange) (accepted : spscQueueInit records size = some pendingAdd) {tree tree' : τ}
    (added : (qs.take (size - 1)).foldlM calls.add tree = some tree') (call : PipeCall) : ∃ trace s,
    Run (Step calls) (begin pendingAdd tree) (trace ++ [.drained call true (.empty .read)]) s ∧
    passed trace = qs ∧ handed trace = qs.take (size - 1) := by
  obtain ⟨ok,cap,none⟩ := initOk fits accepted
  obtain ⟨ok',same⟩ := writtenTake qs ok
  rw [none,List.nil_append,cap] at same
  obtain ⟨trace,quiet,first,gone,stayed⟩ := addMany calls qs pendingAdd tree false
  obtain ⟨trace',ring',rest,gone',got⟩ := drainMany .idle call true _ ok' same added
  have whole := Base.Trace.runAppend first (Base.Trace.runCons ⟨.owner call,rfl⟩ rest)
  refine ⟨trace ++ .started call :: trace',_,by rw [List.append_assoc]; exact whole,?_,?_⟩
  · rw [passed,List.filterMap_append]
    exact (congrArg₂ (· ++ ·) gone gone').trans (List.append_nil _)
  · rw [handed,List.filterMap_append]
    exact (congrArg₂ (· ++ ·) stayed got).trans (List.nil_append _)

end Burst

section Drain
variable {asserts : Assertion → Bool} {alloc : Nat → Option TreeNode} {producer : Producer Nat}
variable {quiet : Bool} {call : PipeCall}

theorem treeAddCalls {w w' : PipeWorld} {q : Nat} (added : treeAdd asserts alloc w q = .ok w') :
    (worldCalls asserts alloc).add w.toWorld q = some w'.toWorld ∧ w'.pendingAdd = w.pendingAdd := by
  obtain ⟨⟨tree,_⟩,lifted,done⟩ := bindOk added
  cases done
  refine ⟨?_,rfl⟩
  simp only [worldCalls,liftOk lifted]
  rfl

theorem drainRuns {fuel : Nat} {w w' : PipeWorld} (done : processPendingAdd asserts alloc fuel w = .ok w') :
    ∃ trace, Run (Step (worldCalls asserts alloc)) ⟨⟨w.pendingAdd,producer,.idle⟩,w.toWorld,.draining call,quiet⟩
      (trace ++ [.drained call quiet (.empty .read)])
      ⟨⟨w'.pendingAdd,producer,.idle⟩,w'.toWorld,.finishing call,quiet⟩ := by
  induction fuel generalizing w with
  | zero => cases done
  | succ fuel ih =>
    obtain ⟨empty,rfl⟩ | ⟨some,_,middle,told,later⟩ := processCases done
    · exact ⟨[.reading .silent],drainEmpty empty⟩
    · obtain ⟨added,kept⟩ := treeAddCalls told
      obtain ⟨trace,rest⟩ := ih later
      rw [kept] at rest
      exact ⟨_,by rw [List.append_assoc]; exact Base.Trace.runAppend (drainOne some added) rest⟩

end Drain

section Example

def tick : Event := ⟨5,.kTrade,some 0⟩

def memory : TreeNode := ⟨0,0,none,none,none,none,none⟩

def emptyTree : World := ⟨[],fun _ => lone tick,none,none⟩

def treeCalls : TreeCalls World := worldCalls (fun _ => true) (fun _ => some memory)

def newRing : SpscQueue Nat := ⟨1024,fun _ => 0,0,0⟩

def oneTurns : List Turn := List.replicate 4 (.adder 7) ++ List.replicate 8 (.owner .isEmpty)

def oneBefore : List Label := [.passed 7,.checked 7 0 .silent,.stored (.filled 0 7),.stored (.wrote 7),
  .started .isEmpty,.reading .silent,.reading .silent,.reading .silent,.reading (.gave 7),.handed 7,.reading .silent]

theorem oneHanded : ∃ s,
    Run (Step treeCalls) (begin newRing emptyTree) (oneBefore ++ [.drained .isEmpty true (.empty .read)]) s ∧
    handed oneBefore = [7] ∧ (handed oneBefore = passed oneBefore ↔ Roomy 1024 oneBefore) := by
  have seen : (Base.Trace.play (turnStep treeCalls) (begin newRing emptyTree) oneTurns).map Prod.fst =
      some (oneBefore ++ [.drained .isEmpty true (.empty .read)]) := by rfl
  obtain ⟨trace,s,run,same⟩ := Base.Trace.playSeen oneTurns Prod.fst seen
  cases same
  have accepted : spscQueueInit (some fun _ => 0) 1024 = some newRing := rfl
  exact ⟨s,run,rfl,(registrationsHanded (by decide) accepted run).2 _ _ _ [] rfl⟩

def idleTree : World := {emptyTree with queues := fun _ => (eventQueuePop (lone tick)).1}

theorem idleAdd (q : Nat) : treeCalls.add idleTree q = some idleTree := rfl

theorem idleAddAll (qs : List Nat) : qs.foldlM treeCalls.add idleTree = some idleTree := by
  induction qs with
  | nil => rfl
  | cons q qs ih => rw [List.foldlM_cons,idleAdd]; exact ih

-- One registration more than the ring of event_pipe_new holds.
theorem registrationLost : ∃ trace s,
    Run (Step treeCalls) (begin newRing idleTree) (trace ++ [.drained .isEmpty true (.empty .read)]) s ∧
    passed trace = List.range 1024 ∧ handed trace ≠ passed trace := by
  have accepted : spscQueueInit (some fun _ => 0) 1024 = some newRing := rfl
  obtain ⟨trace,s,run,gone,got⟩ := burstHanded (List.range 1024) (by decide) accepted (idleAddAll _) .isEmpty
  refine ⟨trace,s,run,gone,?_⟩
  rw [gone,got]
  intro same
  have sizes := congrArg List.length same
  simp at sizes

end Example

end Qtl.PipeRegistration
