import Qtl.BusStore

/-! event_bus_clear and what a caller may do with the bus afterwards. Clearing a pipe
destroys the storage of its pending_add ring, which nothing ever creates again. -/
namespace Qtl.BusClear
open Queue EventTree Spsc Pipe Bus BusStore

section Run
variable (asserts : Assertion → Bool) (alloc : PipeName → Nat → Option TreeNode) (utcNow : Nat → Nat)

def play (s : Caller Store) : List Turn → Except Failure (List Answer × Caller Store)
  | [] => .ok ([],s)
  | turn :: rest => do
      let (answer,s) ← turnStep asserts alloc utcNow s turn
      let (answers,s) ← play s rest
      .ok (answer.toList ++ answers,s)

def NoStorageError {α : Type} (r : Except Failure α) : Prop :=
  r ≠ .error .absentStorage ∧ r ≠ .error .destroyedTwice

def blank (b : EventBus Store) : EventBus Store :=
  {newBus b.pipes.queues b.mode b.localClockDatetime b.exchangeClockDatetime with
    idleMode := b.idleMode, utcCalls := b.utcCalls}

/-- After event_bus_clear no call and no event_bus_free touches a destroyed ring, and the
calls return what they return on a new bus. -/
def ClearedLikeNew (b : EventBus Store) : Prop :=
  ∃ cleared, eventBusClear b = .ok cleared ∧ ∀ turns,
    NoStorageError (play asserts alloc utcNow ⟨cleared,.outside⟩ turns) ∧
    (∀ answers s, play asserts alloc utcNow ⟨cleared,.outside⟩ turns = .ok (answers,s) →
      NoStorageError (eventBusFree s.bus)) ∧
    (play asserts alloc utcNow ⟨cleared,.outside⟩ turns).map Prod.fst =
      (play asserts alloc utcNow ⟨blank b,.outside⟩ turns).map Prod.fst

end Run

variable {asserts : Assertion → Bool} {alloc : PipeName → Nat → Option TreeNode} {utcNow : Nat → Nat}
variable {b cleared : EventBus Store} {s s' : Store} {p : PipeName}

def clearAll (s : Store) (pipes : List PipeName) : Except Failure Store := pipes.foldlM (fun s p => clearPipe p s) s

theorem clearPipes (b : EventBus Store) : eventBusClear b = (do
    let s ← clearAll b.pipes [.service,.data,.execution,.historical]
    .ok {b with pipes := s, savedEvent := none, isSimulationStop := false}) := by
  simp only [eventBusClear,clearAll,List.foldlM_cons,List.foldlM_nil,bind_assoc,pure_bind]

-- event_pipe_free does to the pipe what event_pipe_clear does.
theorem freePipes (b : EventBus Store) : eventBusFree b = (do
    let _ ← clearAll b.pipes [.command,.data,.execution,.service,.historical]
    .ok ()) := by
  simp only [clearAll,List.foldlM_cons,List.foldlM_nil,bind_assoc,pure_bind]
  rfl

theorem clearPipeGone (gone : (s.pipes p).storage = false) : clearPipe p s = .error .destroyedTwice := by
  simp [clearPipe,eventPipeClear,pendingDestroy,pipeWorld,gone]
  rfl

theorem clearPipeThere (there : (s.pipes p).storage = true) :
    ∃ s', clearPipe p s = .ok s' ∧ (s'.pipes p).storage = false ∧
      ∀ p', p' ≠ p → s'.pipes p' = s.pipes p' := by
  refine ⟨putPipe s p {pipeWorld s p with toWorld := eventTreeClear (pipeWorld s p).toWorld, storage := false},?_,?_,
    fun p' other => putPipeOther other⟩
  · simp [clearPipe,eventPipeClear,pendingDestroy,pipeWorld,there]
    rfl
  · simp [putPipe,stateOf]

theorem clearAllGone {pipes : List PipeName} (mem : p ∈ pipes) (gone : (s.pipes p).storage = false) :
    clearAll s pipes = .error .destroyedTwice := by
  induction pipes generalizing s with
  | nil => cases mem
  | cons head rest ih =>
    rw [clearAll,List.foldlM_cons]
    cases there : (s.pipes head).storage with
    | false =>
      rw [clearPipeGone there]
      rfl
    | true =>
      obtain ⟨s',done,_,others⟩ := clearPipeThere there
      have other : p ≠ head := by
        rintro rfl
        rw [gone] at there
        cases there
      rw [okBind done]
      exact ih ((List.mem_cons.mp mem).resolve_left other) (by rw [others p other]; exact gone)

theorem clearAllLeaves {pipes : List PipeName} (done : clearAll s pipes = .ok s') :
    (∀ p ∈ pipes, (s'.pipes p).storage = false) ∧ ∀ p, (s.pipes p).storage = false → (s'.pipes p).storage = false := by
  induction pipes generalizing s with
  | nil =>
    cases done
    exact ⟨nofun,fun _ gone => gone⟩
  | cons head rest ih =>
    rw [clearAll,List.foldlM_cons] at done
    obtain ⟨middle,first,later⟩ := bindOk done
    cases there : (s.pipes head).storage with
    | false =>
      rw [clearPipeGone there] at first
      cases first
    | true =>
      obtain ⟨middle',same,gone,others⟩ := clearPipeThere there
      cases first.symm.trans same
      obtain ⟨inside,stays⟩ := ih later
      refine ⟨fun p mem => ?_,fun p gone' => ?_⟩
      · rcases List.mem_cons.mp mem with rfl | mem
        · exact stays p gone
        · exact inside p mem
      · by_cases same : p = head
        · exact stays p (same ▸ gone)
        · exact stays p (by rw [others p same]; exact gone')

theorem clearAllError {pipes : List PipeName} {f : Failure} (failed : clearAll s pipes = .error f) :
    f = .destroyedTwice := by
  induction pipes generalizing s with
  | nil => cases failed
  | cons head rest ih =>
    rw [clearAll,List.foldlM_cons] at failed
    cases there : (s.pipes head).storage with
    | false =>
      rw [clearPipeGone there] at failed
      cases failed
      rfl
    | true =>
      obtain ⟨middle,done,_⟩ := clearPipeThere there
      rw [okBind done] at failed
      exact ih failed

theorem clearedStorage (done : eventBusClear b = .ok cleared)
    (mem : p ∈ [PipeName.service,.data,.execution,.historical]) :
    (cleared.pipes.pipes p).storage = false := by
  rw [clearPipes] at done
  obtain ⟨s,all,last⟩ := bindOk done
  cases last
  exact (clearAllLeaves all).1 p mem

theorem clearError {f : Failure} (failed : eventBusClear b = .error f) : f = .destroyedTwice := by
  rw [clearPipes] at failed
  cases all : clearAll b.pipes [.service,.data,.execution,.historical] with
  | error f' =>
    rw [all] at failed
    cases failed
    exact clearAllError all
  | ok s =>
    rw [all] at failed
    cases failed

theorem clearTwice (done : eventBusClear b = .ok cleared) : eventBusClear cleared = .error .destroyedTwice := by
  rw [clearPipes,clearAllGone (by simp) (clearedStorage done (p := .service) (by simp))]
  rfl

theorem freeCleared (done : eventBusClear b = .ok cleared) : eventBusFree cleared = .error .destroyedTwice := by
  rw [freePipes,clearAllGone (by simp) (clearedStorage done (p := .data) (by simp))]
  rfl

theorem clearPipeRing (done : clearPipe p s = .ok s') (p' : PipeName) :
    (s'.pipes p').pendingAdd = (s.pipes p').pendingAdd := by
  obtain ⟨w,cleared,last⟩ := bindOk done
  obtain ⟨w',destroyed,last'⟩ := bindOk cleared
  unfold pendingDestroy at destroyed
  split at destroyed <;> cases destroyed
  cases last'
  cases last
  by_cases same : p' = p
  · subst same
    simp only [putPipe,Function.update_self]
    rfl
  · rw [putPipeOther same]

theorem clearAllRing {pipes : List PipeName} (done : clearAll s pipes = .ok s') (p : PipeName) :
    (s'.pipes p).pendingAdd = (s.pipes p).pendingAdd := by
  induction pipes generalizing s with
  | nil =>
    cases done
    rfl
  | cons head rest ih =>
    rw [clearAll,List.foldlM_cons] at done
    obtain ⟨middle,first,later⟩ := bindOk done
    exact (ih later).trans (clearPipeRing first p)

theorem pendingMet (done : eventBusClear b = .ok cleared) (mem : p ∈ [PipeName.service,.data,.execution,.historical])
    (waiting : pending (pipeWorld b.pipes p) ≠ []) :
    (storePipes asserts alloc).isEmpty p cleared.pipes = .error .absentStorage := by
  have gone := clearedStorage done mem
  rw [clearPipes] at done
  obtain ⟨s,all,last⟩ := bindOk done
  cases last
  have ring := clearAllRing all p
  have ok := (s.pipes p).pendingOk
  have some : (s.pipes p).pendingAdd.readPos ≠ (s.pipes p).pendingAdd.writePos := by
    intro same
    refine waiting ?_
    change live (b.pipes.pipes p).pendingAdd = []
    rw [← ring]
    exact (Base.Window.windowEmpty ok.readLt).mpr same
  have two := ok.two
  obtain ⟨fuel,room⟩ : ∃ fuel, (s.pipes p).pendingAdd.capacity = fuel + 1 := Nat.exists_eq_add_one.mpr (by omega)
  have stuck : processPendingAdd asserts (alloc p) (fuel + 1) (pipeWorld s p) = .error .absentStorage :=
    processAbsent some gone
  change (eventPipeIsEmpty asserts (alloc p) (pipeWorld s p) >>= _) = _
  rw [eventPipeIsEmpty,show (pipeWorld s p).pendingAdd.capacity = fuel + 1 from room,stuck]
  rfl

theorem laterRegistration (done : eventBusClear b = .ok cleared) (q : Nat) (pipe : EventBusPipe)
    (room : nextRecord (cleared.pipes.pipes pipe.name).pendingAdd (cleared.pipes.pipes pipe.name).pendingAdd.writePos ≠
      (cleared.pipes.pipes pipe.name).pendingAdd.readPos) :
    eventBusAddQueue asserts alloc false cleared q pipe = .error .absentStorage := by
  have gone := clearedStorage done (p := pipe.name) (by cases pipe <;> simp [EventBusPipe.name])
  have refused : pendingWrite (pipeWorld cleared.pipes pipe.name) q = .error .absentStorage := by
    simp [pendingWrite,pipeWorld,room,gone]
  change (pendingWrite (pipeWorld cleared.pipes pipe.name) q >>= _) = _
  rw [refused]
  rfl

/-- From no state at all is a bus usable after event_bus_clear: freeing it, or clearing
it once more, destroys the ring of a pipe a second time. -/
theorem clearNeverUsable (asserts : Assertion → Bool) (alloc : PipeName → Nat → Option TreeNode) (utcNow : Nat → Nat)
    (b : EventBus Store) : (eventBusClear b >>= eventBusFree) = .error .destroyedTwice ∧
    (eventBusClear b >>= eventBusClear) = .error .destroyedTwice ∧
    ¬ ClearedLikeNew asserts alloc utcNow b := by
  have stuck {α : Type} (next : EventBus Store → Except Failure α)
      (fails : ∀ cleared, eventBusClear b = .ok cleared → next cleared = .error .destroyedTwice) :
      (eventBusClear b >>= next) = .error .destroyedTwice := by
    cases done : eventBusClear b with
    | error f => rw [clearError done]; rfl
    | ok cleared => exact fails cleared done
  refine ⟨stuck _ (fun _ => freeCleared),stuck _ (fun _ => clearTwice),?_⟩
  rintro ⟨cleared,done,usable⟩
  exact ((usable []).2.1 [] ⟨cleared,.outside⟩ rfl).2 (freeCleared done)

theorem newBusFreedTwice : ∃ cleared,
    eventBusClear (newBus (fun _ => lone ⟨5,.kTrade,some 0⟩) .kRealtime 0 0) = .ok cleared ∧
    eventBusFree cleared = .error .destroyedTwice :=
  ⟨_,rfl,rfl⟩

end Qtl.BusClear
