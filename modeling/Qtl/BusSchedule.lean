import Qtl.Bus

/-! event_bus_dequeue as a scheduler of five first-in-first-out sources. Events may
arrive and the mode may change between any two accesses of its loops. -/
namespace Qtl.BusSchedule
open Queue Pipe Bus
open Base.Trace (Run)

abbrev Sources := PipeName → List Event

def sources : Pipes Sources where
  isEmpty p s := .ok (s,(s p).isEmpty)
  read p s := .ok (Function.update s p (s p).tail,(s p).head?)

inductive Turn where
  | arrive (p : PipeName) (e : Event)
  | setMode (mode : EventBusMode)
  | dequeue

inductive Moment where
  | arrived (p : PipeName) (e : Event)
  | mode (mode : EventBusMode)
  | call (l : Label)
  deriving DecidableEq, Repr

def turnStep (utcNow : Nat → Nat) (s : Caller Sources) : Turn → Option (Moment × Caller Sources)
  | .arrive p e =>
      some (.arrived p e,{s with bus := {s.bus with pipes := Function.update s.bus.pipes p (s.bus.pipes p ++ [e])}})
  | .setMode mode => some (.mode mode,{s with bus := eventBusSetMode s.bus mode})
  | .dequeue => (dequeueStep sources utcNow s).toOption.map (fun r => (.call r.1,r.2))

abbrev Step (utcNow : Nat → Nat) : Caller Sources → Moment → Caller Sources → Prop :=
  Base.Trace.Moves (turnStep utcNow)

def arrivedAt (p : PipeName) (trace : List Moment) : List Event := trace.flatMap (fun
  | .arrived p' e => if p' = p then [e] else []
  | _ => [])

def returnedFrom (source : Source) (trace : List Moment) : List Event := trace.flatMap (fun
  | .call (.returned source' e) => if source' = source then e.toList else []
  | _ => [])

def dataReads (trace : List Moment) : List (EventBusMode × Event) := trace.flatMap (fun
  | .call (.kept loop e) => e.toList.map (loop,·)
  | .call (.swallowed e) => [(.kSimulation,e)]
  | _ => [])

def stopsSimulation (r : EventBusMode × Event) : Bool := r.1 == .kSimulation && r.2.type == .kOnSimulatorStop

def lookedAhead (trace : List Moment) : List Event :=
  ((dataReads trace).filter (fun r => !stopsSimulation r)).map Prod.snd

def stopPending (flag : Bool) (trace : List Moment) : Bool := trace.foldl (fun flag l => match l with
  | .call (.swallowed _) => true
  | .call (.returned .stop _) => false
  | _ => flag) flag

-- The moments since the last check of the data pipe, which opens every pass of a loop.
def pass (trace : List Moment) : List Moment := trace.foldl (fun pass l => match l with
  | .call (.found (.pipe .data) _) => []
  | l => pass ++ [l]) []

def above : Source → List Source
  | .pipe .command => [.pipe .execution]
  | .pipe .service => [.pipe .execution,.pipe .command]
  | .saved => [.pipe .execution,.pipe .command,.pipe .service]
  | .stop => [.pipe .execution,.pipe .command,.pipe .service,.saved]
  | _ => []

def Cleared (trace : List Moment) (source : Source) : Prop :=
  ∀ higher ∈ above source, Moment.call (.found higher true) ∈ pass trace

def Ready (trace : List Moment) (s : Caller Sources) : Prop := match s.point with
  | .check _ p => p ≠ .historical ∧ Cleared trace (.pipe p)
  | .read _ p => p ≠ .historical ∧ Cleared trace (.pipe p) ∧ s.bus.pipes p ≠ [] ∧
      (p = .data → s.bus.savedEvent = none)
  | .checkSaved _ => Cleared trace .saved
  | .checkStop => Cleared trace .stop ∧ s.bus.savedEvent = none
  | _ => True

variable {utcNow : Nat → Nat} {b : EventBus Sources} {s s' : Caller Sources} {trace : List Moment} {l : Moment}

structure Inv (b : EventBus Sources) (trace : List Moment) (s : Caller Sources) : Prop where
  passedOn : ∀ p, p ∈ [.execution,.command,.service] →
    b.pipes p ++ arrivedAt p trace = returnedFrom (.pipe p) trace ++ s.bus.pipes p
  taken : b.pipes .data ++ arrivedAt .data trace = (dataReads trace).map Prod.snd ++ s.bus.pipes .data
  saved : b.savedEvent.toList ++ lookedAhead trace = returnedFrom .saved trace ++ s.bus.savedEvent.toList
  flag : s.bus.isSimulationStop = stopPending b.isSimulationStop trace
  ready : Ready trace s

theorem beginInv (b : EventBus Sources) : Inv b [] ⟨b,.outside⟩ :=
  ⟨fun _ _ => List.append_nil _,List.append_nil _,List.append_nil _,rfl,trivial⟩

theorem arrivedSnoc (p : PipeName) (trace : List Moment) (l : Moment) :
    arrivedAt p (trace ++ [l]) = arrivedAt p trace ++ arrivedAt p [l] := List.flatMap_append

theorem returnedSnoc (source : Source) (trace : List Moment) (l : Moment) :
    returnedFrom source (trace ++ [l]) = returnedFrom source trace ++ returnedFrom source [l] := List.flatMap_append

theorem dataSnoc (trace : List Moment) (l : Moment) :
    dataReads (trace ++ [l]) = dataReads trace ++ dataReads [l] := List.flatMap_append

theorem aheadSnoc (trace : List Moment) (l : Moment) :
    lookedAhead (trace ++ [l]) = lookedAhead trace ++ lookedAhead [l] := by
  rw [lookedAhead,dataSnoc,List.filter_append,List.map_append]
  rfl

theorem stopSnoc (flag : Bool) (trace : List Moment) (l : Moment) :
    stopPending flag (trace ++ [l]) = stopPending (stopPending flag trace) [l] := List.foldl_append

def opensPass : Moment → Bool
  | .call (.found (.pipe .data) _) => true
  | _ => false

theorem passSnoc (trace : List Moment) (l : Moment) :
    pass (trace ++ [l]) = if opensPass l then [] else pass trace ++ [l] := by
  rw [pass,List.foldl_append]
  simp only [List.foldl_cons,List.foldl_nil]
  unfold opensPass
  split <;> simp_all [pass]

theorem clearedSnoc {source : Source} (cleared : Cleared trace source) (inside : opensPass l = false) :
    Cleared (trace ++ [l]) source := by
  intro higher mem
  rw [passSnoc,inside]
  exact List.mem_append_left _ (cleared higher mem)

theorem clearedFound {source higher : Source} (cleared : Cleared trace higher)
    (inside : opensPass (.call (.found higher true)) = false) (next : above source = above higher ++ [higher]) :
    Cleared (trace ++ [.call (.found higher true)]) source := by
  intro h mem
  rw [passSnoc,inside]
  rw [next] at mem
  rcases List.mem_append.mp mem with mem | mem
  · exact List.mem_append_left _ (cleared h mem)
  · cases List.mem_singleton.mp mem
    exact List.mem_append_right _ List.mem_cons_self

theorem readyKeeps (ready : Ready trace s) (inside : opensPass l = false) (point : s'.point = s.point)
    (saved : s'.bus.savedEvent = s.bus.savedEvent) (grown : ∀ p, s.bus.pipes p ≠ [] → s'.bus.pipes p ≠ []) :
    Ready (trace ++ [l]) s' := by
  obtain ⟨bus,point'⟩ := s
  obtain ⟨bus',point''⟩ := s'
  cases point
  cases point' with
  | check loop p => exact ⟨ready.1,clearedSnoc ready.2 inside⟩
  | read loop p =>
    obtain ⟨served,cleared,some,unsaved⟩ := ready
    exact ⟨served,clearedSnoc cleared inside,grown p some,fun same => saved.trans (unsaved same)⟩
  | checkSaved loop => exact clearedSnoc ready inside
  | checkStop => exact ⟨clearedSnoc ready.1 inside,saved.trans ready.2⟩
  | outside => trivial
  | rest loop => trivial

theorem momentInv (inv : Inv b trace s)
    (passedOn : ∀ p ∈ [PipeName.execution,.command,.service],
      s.bus.pipes p ++ arrivedAt p [l] = returnedFrom (.pipe p) [l] ++ s'.bus.pipes p)
    (taken : s.bus.pipes .data ++ arrivedAt .data [l] = (dataReads [l]).map Prod.snd ++ s'.bus.pipes .data)
    (saved : s.bus.savedEvent.toList ++ lookedAhead [l] = returnedFrom .saved [l] ++ s'.bus.savedEvent.toList)
    (flag : s'.bus.isSimulationStop = stopPending s.bus.isSimulationStop [l])
    (ready : Ready (trace ++ [l]) s') : Inv b (trace ++ [l]) s' := by
  refine ⟨fun p mem => ?_,?_,?_,?_,ready⟩
  · rw [arrivedSnoc,returnedSnoc,← List.append_assoc,inv.passedOn p mem,List.append_assoc,passedOn p mem,
      List.append_assoc]
  · rw [arrivedSnoc,dataSnoc,← List.append_assoc,inv.taken,List.append_assoc,taken,List.map_append,List.append_assoc]
  · rw [aheadSnoc,returnedSnoc,← List.append_assoc,inv.saved,List.append_assoc,saved,List.append_assoc]
  · rw [flag,inv.flag,stopSnoc]

theorem arriveInv (inv : Inv b trace s) (p : PipeName) (e : Event) : Inv b (trace ++ [.arrived p e])
    {s with bus := {s.bus with pipes := Function.update s.bus.pipes p (s.bus.pipes p ++ [e])}} := by
  have grown (p' : PipeName) : s.bus.pipes p' ++ arrivedAt p' [.arrived p e] =
      Function.update s.bus.pipes p (s.bus.pipes p ++ [e]) p' := by
    by_cases same : p' = p
    · subst same
      simp [arrivedAt]
    · rw [Function.update_of_ne same]
      simp [arrivedAt,Ne.symm same]
  refine momentInv inv (fun p' _ => grown p') (grown .data) (List.append_nil _) rfl
    (readyKeeps inv.ready rfl rfl rfl (fun p' some => ?_))
  change Function.update s.bus.pipes p (s.bus.pipes p ++ [e]) p' ≠ []
  rw [← grown p']
  exact List.append_ne_nil_of_left_ne_nil some _

theorem modeInv (inv : Inv b trace s) (mode : EventBusMode) :
    Inv b (trace ++ [.mode mode]) {s with bus := eventBusSetMode s.bus mode} :=
  momentInv inv (fun _ _ => List.append_nil _) (List.append_nil _) (List.append_nil _) rfl
    (readyKeeps inv.ready rfl rfl rfl (fun _ some => some))

theorem followingReady {loop : EventBusMode} {p : PipeName} {bus : EventBus Sources} (served : p ≠ .historical)
    (cleared : Cleared trace (.pipe p)) (data : p ≠ .data) :
    Ready (trace ++ [.call (.found (.pipe p) true)]) ⟨bus,following loop p⟩ := by
  cases p with
  | data => exact absurd rfl data
  | execution => exact ⟨nofun,clearedFound cleared rfl rfl⟩
  | command => exact ⟨nofun,clearedFound cleared rfl rfl⟩
  | service => exact (clearedFound cleared rfl rfl : Cleared _ .saved)
  | historical => exact absurd rfl served

theorem insidePass {p : PipeName} (data : p ≠ .data) (empty : Bool) :
    opensPass (.call (.found (.pipe p) empty)) = false := by
  cases p with
  | data => exact absurd rfl data
  | _ => rfl

theorem dataCleared (trace : List Moment) : Cleared trace (.pipe .data) := nofun

theorem executionCleared (trace : List Moment) : Cleared trace (.pipe .execution) := nofun

theorem checkInv {loop : EventBusMode} {p : PipeName} {bus : EventBus Sources} (inv : Inv b trace ⟨bus,.check loop p⟩) :
    ∃ l s', dequeueStep sources utcNow ⟨bus,.check loop p⟩ = .ok (l,s') ∧ Inv b (trace ++ [.call l]) s' := by
  obtain ⟨served,cleared⟩ := inv.ready
  refine ⟨_,_,rfl,momentInv inv (fun _ _ => List.append_nil _) (List.append_nil _) (List.append_nil _) rfl ?_⟩
  dsimp only
  cases empty : (bus.pipes p).isEmpty with
  | true =>
    by_cases data : p = .data
    · subst data
      exact ⟨nofun,executionCleared _⟩
    · exact followingReady served cleared data
  | false =>
    have some : bus.pipes p ≠ [] := by rwa [← List.isEmpty_eq_false_iff]
    by_cases data : p = .data
    · subst data
      cases held : bus.savedEvent with
      | none => exact ⟨nofun,dataCleared _,some,fun _ => rfl⟩
      | some e => exact ⟨nofun,executionCleared _⟩
    · have other : (p != .data) = true := by simpa using data
      rw [other]
      exact ⟨served,clearedSnoc cleared (insidePass data false),some,fun same => absurd same data⟩

theorem sourcesRead {p : PipeName} {q : Sources} {e : Event} {rest : List Event} (front : q p = e :: rest) :
    sources.read p q = .ok (Function.update q p rest,some e) := by
  simp only [sources,front,List.tail_cons,List.head?_cons]

theorem readDataInv {loop : EventBusMode} {bus : EventBus Sources} (inv : Inv b trace ⟨bus,.read loop .data⟩) :
    ∃ l s', dequeueStep sources utcNow ⟨bus,.read loop .data⟩ = .ok (l,s') ∧ Inv b (trace ++ [.call l]) s' := by
  obtain ⟨_,_,some,free⟩ := inv.ready
  have some : bus.pipes .data ≠ [] := some
  obtain ⟨e,rest,front⟩ := List.exists_cons_of_ne_nil some
  have unsaved : bus.savedEvent = none := free rfl
  have others : ∀ p ∈ [PipeName.execution,.command,.service],
      bus.pipes p ++ [] = [] ++ Function.update bus.pipes .data rest p := by
    intro p mem
    rw [Function.update_of_ne,List.append_nil,List.nil_append]
    rintro rfl
    simp at mem
  have taken : bus.pipes .data ++ [] = [e] ++ Function.update bus.pipes .data rest .data := by
    rw [Function.update_self,front]
    simp
  rw [dataRead (sourcesRead front)]
  cases loop with
  | kRealtime =>
    refine ⟨_,_,rfl,momentInv inv others taken ?_ rfl ⟨nofun,executionCleared _⟩⟩
    simp [unsaved,lookedAhead,dataReads,stopsSimulation,returnedFrom]
  | kSimulation =>
    by_cases stop : e.type = .kOnSimulatorStop
    · refine ⟨.swallowed e,⟨{bus with pipes := Function.update bus.pipes .data rest, isSimulationStop := true},
        .check .kSimulation .data⟩,by rw [keepData,if_pos stop],momentInv inv others taken ?_ rfl
        ⟨nofun,dataCleared _⟩⟩
      simp [unsaved,lookedAhead,dataReads,stopsSimulation,returnedFrom,stop]
    · obtain ⟨n,looked⟩ := getDatetimeKeeps utcNow {bus with pipes := Function.update bus.pipes .data rest}
      rw [keepData,if_neg stop,looked]
      refine ⟨_,_,rfl,momentInv inv others taken ?_ rfl ⟨nofun,executionCleared _⟩⟩
      simp [unsaved,lookedAhead,dataReads,stopsSimulation,returnedFrom,stop]

theorem readInv {loop : EventBusMode} {p : PipeName} {bus : EventBus Sources} (data : p ≠ .data)
    (inv : Inv b trace ⟨bus,.read loop p⟩) :
    ∃ l s', dequeueStep sources utcNow ⟨bus,.read loop p⟩ = .ok (l,s') ∧ Inv b (trace ++ [.call l]) s' := by
  obtain ⟨served,_,some,_⟩ := inv.ready
  have some : bus.pipes p ≠ [] := some
  obtain ⟨e,rest,front⟩ := List.exists_cons_of_ne_nil some
  refine ⟨_,_,pipeRead data (sourcesRead front),momentInv inv (fun p' _ => ?_) ?_ ?_ ?_ trivial⟩
  · change bus.pipes p' ++ [] = (if .pipe p = Source.pipe p' then [e] else []) ++ [] ++ Function.update bus.pipes p rest p'
    by_cases same : p' = p
    · subst same
      simp [front]
    · simp [Function.update_of_ne same,Ne.symm same]
  · change bus.pipes .data ++ [] = [] ++ Function.update bus.pipes p rest .data
    rw [Function.update_of_ne (Ne.symm data),List.append_nil,List.nil_append]
  · exact List.append_nil _
  · rfl

theorem savedInv {loop : EventBusMode} {bus : EventBus Sources} (inv : Inv b trace ⟨bus,.checkSaved loop⟩) :
    ∃ l s', dequeueStep sources utcNow ⟨bus,.checkSaved loop⟩ = .ok (l,s') ∧ Inv b (trace ++ [.call l]) s' := by
  have cleared : Cleared trace .saved := inv.ready
  cases held : bus.savedEvent with
  | some e =>
    refine ⟨.returned .saved (some e),⟨{bus with savedEvent := none},.outside⟩,?_,
      momentInv inv (fun _ _ => List.append_nil _) (List.append_nil _) ?_ rfl trivial⟩
    · simp [dequeueStep,held,enqueueAttach]
    · simp [held,lookedAhead,dataReads,returnedFrom]
  | none =>
    refine ⟨.found .saved true,⟨bus,if loop = .kSimulation then .checkStop else .rest loop⟩,?_,
      momentInv inv (fun _ _ => List.append_nil _) (List.append_nil _) (List.append_nil _) rfl ?_⟩
    · simp [dequeueStep,held]
    · cases loop with
      | kRealtime => trivial
      | kSimulation => exact ⟨(clearedFound cleared rfl rfl : Cleared _ .stop),held⟩

theorem stopInv {bus : EventBus Sources} (inv : Inv b trace ⟨bus,.checkStop⟩) :
    ∃ l s', dequeueStep sources utcNow ⟨bus,.checkStop⟩ = .ok (l,s') ∧ Inv b (trace ++ [.call l]) s' := by
  have unsaved : bus.savedEvent = none := inv.ready.2
  cases pending : bus.isSimulationStop with
  | true =>
    obtain ⟨n,done⟩ := stopReturned sources utcNow pending
    refine ⟨_,_,done,momentInv inv (fun _ _ => List.append_nil _) (List.append_nil _) ?_ rfl trivial⟩
    simp [unsaved,lookedAhead,dataReads,returnedFrom]
  | false =>
    refine ⟨.found .stop true,⟨bus,.rest .kSimulation⟩,by simp [dequeueStep,pending],
      momentInv inv (fun _ _ => List.append_nil _) (List.append_nil _) (List.append_nil _) rfl trivial⟩

theorem dequeueInv (utcNow : Nat → Nat) (inv : Inv b trace s) :
    ∃ l s', dequeueStep sources utcNow s = .ok (l,s') ∧ Inv b (trace ++ [.call l]) s' := by
  obtain ⟨bus,point⟩ := s
  cases point with
  | outside =>
    exact ⟨_,_,rfl,momentInv inv (fun _ _ => List.append_nil _) (List.append_nil _) (List.append_nil _) rfl
      ⟨nofun,dataCleared _⟩⟩
  | check loop p => exact checkInv inv
  | read loop p =>
    by_cases data : p = .data
    · subst data
      exact readDataInv inv
    · exact readInv data inv
  | checkSaved loop => exact savedInv inv
  | checkStop => exact stopInv inv
  | rest loop =>
    exact ⟨_,_,rfl,momentInv inv (fun _ _ => List.append_nil _) (List.append_nil _) (List.append_nil _) rfl
      ⟨nofun,dataCleared _⟩⟩

theorem stepInv (inv : Inv b trace s) (step : Step utcNow s l s') : Inv b (trace ++ [l]) s' := by
  obtain ⟨turn,done⟩ := step
  cases turn with
  | arrive p e =>
    cases done
    exact arriveInv inv p e
  | setMode mode =>
    cases done
    exact modeInv inv mode
  | dequeue =>
    obtain ⟨l',s'',ran,inv'⟩ := dequeueInv utcNow inv
    rw [turnStep,ran] at done
    cases done
    exact inv'

theorem runInv (run : Run (Step utcNow) ⟨b,.outside⟩ trace s) : Inv b trace s :=
  Base.Trace.runInvariant (Inv b) (beginInv b) (fun _ _ _ _ => stepInv) run

def Lawful (b : EventBus Sources) (before : List Moment) : Moment → Prop
  | .call (.kept _ _) => b.savedEvent.toList ++ lookedAhead before = returnedFrom .saved before
  | .call (.swallowed _) => b.savedEvent.toList ++ lookedAhead before = returnedFrom .saved before
  | .call (.returned source e) => e ≠ none ∧ source ≠ .pipe .data ∧ source ≠ .pipe .historical ∧
      Cleared before source ∧ (source = .stop → stopPending b.isSimulationStop before = true)
  | _ => True

theorem stepLawful (inv : Inv b trace s) (step : Step utcNow s l s') : Lawful b trace l := by
  obtain ⟨turn,done⟩ := step
  cases turn with
  | arrive p e => cases done; trivial
  | setMode mode => cases done; trivial
  | dequeue =>
    rw [turnStep] at done
    obtain ⟨bus,point⟩ := s
    have ready := inv.ready
    cases point with
    | outside => cases done; trivial
    | check loop p => cases done; trivial
    | read loop p =>
      obtain ⟨served,cleared,some,free⟩ := ready
      have some : bus.pipes p ≠ [] := some
      obtain ⟨e,rest,front⟩ := List.exists_cons_of_ne_nil some
      by_cases data : p = .data
      · subst data
        have saved := inv.saved
        rw [(free rfl : bus.savedEvent = none),Option.toList_none,List.append_nil] at saved
        rw [dataRead (sourcesRead front)] at done
        cases loop with
        | kRealtime => cases done; exact saved
        | kSimulation =>
          unfold keepData at done
          dsimp only at done
          split at done <;> cases done <;> exact saved
      · rw [pipeRead data (sourcesRead front)] at done
        cases done
        exact ⟨Option.some_ne_none e,by simpa using data,by simpa using served,cleared,by simp⟩
    | checkSaved loop =>
      cases held : bus.savedEvent with
      | none =>
        simp only [dequeueStep,held] at done
        cases done
        trivial
      | some e =>
        simp only [dequeueStep,held,enqueueAttach] at done
        cases done
        exact ⟨Option.some_ne_none e,by simp,by simp,ready,by simp⟩
    | checkStop =>
      cases pending : bus.isSimulationStop with
      | false =>
        simp only [dequeueStep,pending] at done
        cases done
        trivial
      | true =>
        obtain ⟨n,returned⟩ := stopReturned sources utcNow pending
        rw [returned] at done
        cases done
        exact ⟨Option.some_ne_none _,by simp,by simp,ready.1,fun _ => inv.flag.symm.trans pending⟩
    | rest loop => cases done; trivial

/-- event_bus_dequeue loses and doubles nothing, keeps the order of each pipe, reads ahead
one data event at a time, and returns an event only after the same pass found everything
of a higher priority empty. -/
theorem dequeueSchedules (run : Run (Step utcNow) ⟨b,.outside⟩ trace s) :
    (∀ p ∈ [PipeName.execution,.command,.service],
      b.pipes p ++ arrivedAt p trace = returnedFrom (.pipe p) trace ++ s.bus.pipes p) ∧
    b.pipes .data ++ arrivedAt .data trace = (dataReads trace).map Prod.snd ++ s.bus.pipes .data ∧
    b.savedEvent.toList ++ lookedAhead trace = returnedFrom .saved trace ++ s.bus.savedEvent.toList ∧
    s.bus.isSimulationStop = stopPending b.isSimulationStop trace ∧
    (∀ before l after, trace = before ++ l :: after → Lawful b before l) ∧
    ∃ l s', dequeueStep sources utcNow s = .ok (l,s') := by
  have inv := runInv run
  obtain ⟨l,s',onward,_⟩ := dequeueInv utcNow inv
  refine ⟨inv.passedOn,inv.taken,inv.saved,inv.flag,?_,l,s',onward⟩
  rintro before l after rfl
  obtain ⟨t,upTo,_⟩ := Base.Trace.runSplit (before ++ [l]) after (by simpa using run)
  obtain ⟨t',earlier,step⟩ := Base.Trace.runSnocInv upTo
  exact stepLawful (runInv earlier) step

section Example

def tick : Event := ⟨5,.kTrade,some 0⟩
def order : Event := ⟨6,.kAsk,some 1⟩
def stop : Event := ⟨7,.kOnSimulatorStop,some 2⟩

def waiting : EventBus Sources :=
  ⟨fun p => if p = .data then [tick,stop] else [],.kSimulation,.kIdleWait,0,0,false,none,0⟩

def overtaking : List Turn :=
  [.dequeue,.dequeue,.dequeue,.arrive .execution order,.dequeue,.dequeue,.setMode .kRealtime] ++
    List.replicate 6 .dequeue

theorem dequeueSchedulesOne : ∃ trace s, Run (Step (fun n => n)) ⟨waiting,.outside⟩ trace s ∧
    returnedFrom (.pipe .execution) trace = [order] ∧ returnedFrom .saved trace = [tick] ∧
    s.bus.pipes .data = [stop] ∧ ∀ before l after, trace = before ++ l :: after → Lawful waiting before l := by
  have seen : (Base.Trace.play (turnStep (fun n => n)) ⟨waiting,.outside⟩ overtaking).map (fun r =>
      (returnedFrom (.pipe .execution) r.1,returnedFrom .saved r.1,r.2.bus.pipes .data)) =
      some ([order],[tick],[stop]) := by rfl
  obtain ⟨trace,s,run,same⟩ := Base.Trace.playSeen overtaking _ seen
  simp only [Prod.mk.injEq] at same
  exact ⟨trace,s,run,same.1,same.2.1,same.2.2,(dequeueSchedules run).2.2.2.2.1⟩

end Example

end Qtl.BusSchedule
