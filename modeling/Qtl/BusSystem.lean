import Qtl.BusOwnership
import Qtl.BusRealtime

/-! The whole bus: any thread may push, register a queue or change the mode between any
two accesses of event_bus_dequeue. A moment says what was done and which queue an event
was taken from. -/
namespace Qtl.BusSystem
open Queue EventTree EventTreeShape EventTreeTracked EventTreeRun EventTreeTaken Spsc Pipe Bus BusStore BusOwnership
open PipeTracked BusRealtime
open Base (ChainTree)
open Base.ChainTree
open Base.Trace (Run)

inductive Turn where
  | addQueue (owner : Bool) (queue : Nat) (pipe : EventBusPipe)
  | push (queue : Nat) (e : Event)
  | setMode (mode : EventBusMode)
  | dequeue

inductive Moment where
  | registered (queue : Nat) (pipe : PipeName)
  | pushed (queue : Nat) (e : Event) (ret : Bool)
  | mode (mode : EventBusMode)
  | call (l : Bus.Label) (taken : Option (Nat × Event))
  deriving DecidableEq, Repr

section Machine
variable (alloc : PipeName → Nat → Option TreeNode) (utcNow : Nat → Nat)

def takes (s : Caller Store) : Option (Nat × Event) := match s.point with
  | .read _ p => (drained noAsserts alloc s.bus.pipes p).toOption.bind (fun w => upcoming w.toWorld)
  | _ => none

def turnStep (s : Caller Store) : Turn → Except Failure (Moment × Caller Store)
  | .addQueue owner q pipe => do
      let (b,_) ← eventBusAddQueue noAsserts alloc owner s.bus q pipe
      .ok (.registered q pipe.name,{s with bus := b})
  | .push q e =>
      let (store,ret) := pushTo s.bus.pipes q e
      .ok (.pushed q e ret,{s with bus := {s.bus with pipes := store}})
  | .setMode mode => .ok (.mode mode,{s with bus := eventBusSetMode s.bus mode})
  | .dequeue => do
      let (l,s') ← dequeueStep (storePipes noAsserts alloc) utcNow s
      .ok (.call l (takes alloc s),s')

/-- A queue is registered with an event in it and while no pipe has it, by the owner only
outside event_bus_dequeue. -/
def Allowed (s : Caller Store) : Turn → Prop
  | .addQueue owner q _ => contents (s.bus.pipes.queues q) ≠ [] ∧ (owner = true → s.point = .outside) ∧
      ∀ p, ¬ Registered (pipeWorld s.bus.pipes p) q
  | _ => True

def Step (s : Caller Store) (m : Moment) (s' : Caller Store) : Prop :=
  ∃ turn, Allowed s turn ∧ turnStep alloc utcNow s turn = .ok (m,s')

end Machine

variable {alloc : PipeName → Nat → Option TreeNode} {utcNow : Nat → Nat} {c c' : Caller Store}
variable {t : PipeName → Shape} {found : PipeName → Bool} {p : PipeName} {q : Nat} {w : PipeWorld} {t' : Shape}

/-- The invariant of a run. `found` says which pipes were found to have an event that was
not read yet: of the data pipe it is kept while an event is saved. -/
structure Sound (s : Caller Store) (t : PipeName → Shape) (found : PipeName → Bool) : Prop where
  store : StoreOk s.bus.pipes t
  ready : ∀ p, found p = true → (s.bus.pipes.pipes p).last = none ∧ t p ≠ leaf
  reads : ∀ loop p, s.point = .read loop p → found p = true

theorem freshSound (b : EventBus Store) (fresh : ∀ p, FreshPipe (b.pipes.pipes p)) :
    Sound ⟨b,.outside⟩ (fun _ => leaf) (fun _ => false) :=
  ⟨(freshInv b fresh).store,by simp,by simp⟩

def Within (s : Store) (t : PipeName → Shape) (s' : Store) (t' : PipeName → Shape) : Prop :=
  ∀ p, ∀ x ∈ claimed (pipeWorld s' p) (t' p), x ∈ claimed (pipeWorld s p) (t p)

theorem putOrigin {s : Store} {x : Option Nat} {p' : PipeName}
    (mem : x ∈ claimed (pipeWorld (putPipe s p w) p') (Function.update t p t' p')) :
    (p' = p ∧ x ∈ claimed w t') ∨ x ∈ claimed (pipeWorld s p') (t p') := by
  by_cases same : p' = p
  · subst same
    rw [pipeWorldPut,Function.update_self] at mem
    exact .inl ⟨rfl,mem⟩
  · rw [pipeWorldOther same,Function.update_of_ne same] at mem
    exact .inr mem

theorem putWithin {s : Store} (origin : ∀ x ∈ claimed w t', x ∈ claimed (pipeWorld s p) (t p)) :
    Within s t (putPipe s p w) (Function.update t p t') := by
  intro p' x mem
  rcases putOrigin mem with ⟨rfl,inside⟩ | away
  · exact origin x inside
  · exact away

theorem putSound (sound : Sound c t found) (unknown : ∀ p, some q ∉ claimed (pipeWorld c.bus.pipes p) (t p))
    (ok : PipeOk w t') (queues : w.queues = c.bus.pipes.queues)
    (origin : ∀ x ∈ claimed w t', x = some q ∨ x ∈ claimed (pipeWorld c.bus.pipes p) (t p))
    (last : w.last = (c.bus.pipes.pipes p).last) (linked : t p ≠ leaf → t' ≠ leaf) :
    Sound {c with bus := {c.bus with pipes := putPipe c.bus.pipes p w}} (Function.update t p t') found := by
  refine ⟨storePut sound.store ok (fun x mem => ?_) (fun i _ full => queues ▸ full),fun p' due => ?_,sound.reads⟩
  · rcases origin x mem with rfl | mem
    · exact .inr (fun p' _ => unknown p')
    · exact .inl mem
  · obtain ⟨unparked,some⟩ := sound.ready p' due
    by_cases same : p' = p
    · subst same
      rw [Function.update_self]
      exact ⟨putLast.trans (last.trans unparked),linked some⟩
    · rw [Function.update_of_ne same]
      exact ⟨(congrArg PipeState.last (putPipeOther same)).trans unparked,some⟩

theorem addSound (clean : ∀ p, CleanNodes (alloc p)) (sound : Sound c t found) {owner : Bool} {pipe : EventBusPipe}
    (allowed : Allowed c (.addQueue owner q pipe)) : ∃ s t', eventBusAddQueue noAsserts alloc owner c.bus q pipe =
      .ok ({c.bus with pipes := s},true) ∧ Sound {c with bus := {c.bus with pipes := s}} t' found ∧
      ∀ p, ∀ x ∈ claimed (pipeWorld s p) (t' p), (p = pipe.name ∧ x = some q) ∨
        x ∈ claimed (pipeWorld c.bus.pipes p) (t p) := by
  obtain ⟨full,_,apart⟩ := allowed
  have unknown (p : PipeName) : some q ∉ claimed (pipeWorld c.bus.pipes p) (t p) := fun mem =>
    apart p ((registeredClaimed (sound.store.pipe p)).mpr mem)
  have ok := sound.store.pipe pipe.name
  obtain ⟨w,t',added,ok',queues,last,linked,origin⟩ : ∃ w t',
      eventPipeAdd noAsserts (alloc pipe.name) owner (pipeWorld c.bus.pipes pipe.name) q = .ok w ∧ PipeOk w t' ∧
      w.queues = c.bus.pipes.queues ∧ w.last = (c.bus.pipes.pipes pipe.name).last ∧
      (t pipe.name ≠ leaf → t' ≠ leaf) ∧
      ∀ x ∈ claimed w t', x = some q ∨ x ∈ claimed (pipeWorld c.bus.pipes pipe.name) (t pipe.name) := by
    cases owner with
    | true =>
      obtain ⟨w,t',added,ok',_,grew⟩ := treeAddOk (clean pipe.name) ok (unknown pipe.name) full
      exact ⟨w,t',added,ok',grew.queues,grew.last,grew.linked,fun x mem => List.mem_cons.mp (grew.origin x mem)⟩
    | false =>
      obtain ⟨w,added,ok',queues,last,origin⟩ := pendingWriteOk ok (unknown pipe.name) full
      exact ⟨w,_,added,ok',queues,last,id,origin⟩
  refine ⟨putPipe c.bus.pipes pipe.name w,Function.update t pipe.name t',by rw [eventBusAddQueue,okBind added],
    putSound sound unknown ok' queues origin last linked,fun p x mem => ?_⟩
  rcases putOrigin mem with ⟨rfl,inside⟩ | away
  · exact (origin x inside).imp (fun same => ⟨rfl,same⟩) id
  · exact .inr away

theorem pushSound (sound : Sound c t found) (q : Nat) (e : Event) :
    Sound {c with bus := {c.bus with pipes := (pushTo c.bus.pipes q e).1}} t found :=
  ⟨storePush sound.store q e,sound.ready,sound.reads⟩

theorem notDue (due : (c.bus.pipes.pipes p).last = none ∧ t p ≠ leaf) :
    ¬ (Parked (pipeWorld c.bus.pipes p) ∨ names (pipeWorld c.bus.pipes p).toWorld (t p) = []) := by
  obtain ⟨unparked,linked⟩ := due
  rintro (⟨a,_,parked,_⟩ | none)
  · have unset : (pipeWorld c.bus.pipes p).last = none := unparked
    rw [unset] at parked
    cases parked
  · refine linked (entriesNil.mp ?_)
    have items : (t p).items = [] := List.append_eq_nil_iff.mp (List.map_eq_nil_iff.mp none) |>.1
    exact List.map_eq_nil_iff.mp items

theorem checkSound (clean : ∀ p, CleanNodes (alloc p)) (sound : Sound c t found) (p : PipeName) :
    ∃ s empty t', (storePipes noAsserts alloc).isEmpty p c.bus.pipes = .ok (s,empty) ∧ Within c.bus.pipes t s t' ∧
      (found p = true → empty = false) ∧
      ∀ point, (∀ loop p', point = .read loop p' → p' = p ∧ empty = false) →
        Sound ⟨{c.bus with pipes := s},point⟩ t' (Function.update found p (found p || !empty)) := by
  obtain ⟨w,t',empty,done,ok,queues,origin,some,none⟩ := pipeIsEmptyOk (clean p) (sound.store.pipe p)
  have asked : (storePipes noAsserts alloc).isEmpty p c.bus.pipes = .ok (putPipe c.bus.pipes p w,empty) := okBind done
  have store : StoreOk (putPipe c.bus.pipes p w) (Function.update t p t') :=
    storePut sound.store ok (fun x mem => .inl (origin x mem)) (fun q _ full => queues ▸ full)
  have again (due : found p = true) : empty = false := by
    cases empty with
    | false => rfl
    | true => exact absurd (none rfl) (notDue (sound.ready p due))
  have ready (due : (found p || !empty) = true) : empty = false := by
    rcases Bool.or_eq_true_iff.mp due with due | more
    · exact again due
    · simpa using more
  refine ⟨_,empty,_,asked,putWithin origin,again,fun point away => ⟨store,fun p' due => ?_,fun loop' p' at_ => ?_⟩⟩
  · by_cases same : p' = p
    · subst same
      rw [Function.update_self] at due ⊢
      obtain ⟨unparked,linked⟩ := some (ready due)
      exact ⟨putLast.trans unparked,linked⟩
    · rw [Function.update_of_ne same] at due ⊢
      obtain ⟨unparked,linked⟩ := sound.ready p' due
      exact ⟨(congrArg PipeState.last (putPipeOther same)).trans unparked,linked⟩
  · obtain ⟨rfl,more⟩ := away loop' p' at_
    rw [Function.update_self,more,Bool.not_false,Bool.or_true]

theorem readSound (clean : ∀ p, CleanNodes (alloc p)) (sound : Sound c t found) (due : found p = true) :
    ∃ s e t' q, (storePipes noAsserts alloc).read p c.bus.pipes = .ok (s,some e) ∧ Within c.bus.pipes t s t' ∧
      some q ∈ claimed (pipeWorld c.bus.pipes p) (t p) ∧
      s.queues = Function.update c.bus.pipes.queues q (eventQueuePop (c.bus.pipes.queues q)).1 ∧
      ∀ c' : Caller Store, c'.bus.pipes = s → (∀ loop p', c'.point ≠ .read loop p') →
        Sound c' t' (Function.update found p false) := by
  obtain ⟨unparked,linked⟩ := sound.ready p due
  obtain ⟨w,t',e,q,done,ok,mine,queues,origin⟩ := pipeReadOk (clean p) (sound.store.pipe p) unparked linked
  have got : (storePipes noAsserts alloc).read p c.bus.pipes = .ok (putPipe c.bus.pipes p w,some e) := okBind done
  have store : StoreOk (putPipe c.bus.pipes p w) (Function.update t p t') := by
    refine storePut sound.store ok (fun x mem => .inl (origin x mem)) (fun i away full => ?_)
    have other : i ≠ q := by
      rintro rfl
      exact away mine
    rw [queues,Function.update_of_ne other]
    exact full
  refine ⟨_,e,_,q,got,putWithin origin,mine,queues,fun c' same away => ⟨by rw [same]; exact store,fun p' due' => ?_,
    fun loop p' at_ => absurd at_ (away loop p')⟩⟩
  by_cases here : p' = p
  · subst here
    rw [Function.update_self] at due'
    cases due'
  · rw [Function.update_of_ne here] at due' ⊢
    obtain ⟨unparked,linked⟩ := sound.ready p' due'
    exact ⟨by rw [same]; exact (congrArg PipeState.last (putPipeOther here)).trans unparked,linked⟩

theorem restSound (sound : Sound c t found) (same : c'.bus.pipes = c.bus.pipes)
    (away : ∀ loop p, c'.point ≠ .read loop p) : Sound c' t found :=
  ⟨same ▸ sound.store,same ▸ sound.ready,fun loop p at_ => absurd at_ (away loop p)⟩

theorem followingAway (loop loop' : EventBusMode) (p p' : PipeName) : following loop p ≠ .read loop' p' := by
  cases p <;> simp [following]

inductive Looks (alloc : PipeName → Nat → Option TreeNode) (s : Caller Store) (t : PipeName → Shape)
    (found : PipeName → Bool) : (PipeName → Bool) → Prop where
  | checked {loop : EventBusMode} {p : PipeName} {store : Store} {empty : Bool} (here : s.point = .check loop p)
      (asked : (storePipes noAsserts alloc).isEmpty p s.bus.pipes = .ok (store,empty))
      (again : found p = true → empty = false) : Looks alloc s t found (Function.update found p (found p || !empty))
  | read {loop : EventBusMode} {p : PipeName} {store : Store} {e : Event} {q : Nat} (here : s.point = .read loop p)
      (due : found p = true) (got : (storePipes noAsserts alloc).read p s.bus.pipes = .ok (store,some e))
      (mine : some q ∈ claimed (pipeWorld s.bus.pipes p) (t p))
      (popped : store.queues = Function.update s.bus.pipes.queues q (eventQueuePop (s.bus.pipes.queues q)).1) :
      Looks alloc s t found (Function.update found p false)
  | neither (checks : ∀ loop p, s.point ≠ .check loop p) (reads : ∀ loop p, s.point ≠ .read loop p) :
      Looks alloc s t found found

theorem keepGoesOn (utcNow : Nat → Nat) (loop : EventBusMode) (b : EventBus Store) (e : Event) :
    ∃ l c', keepData utcNow loop b (some e) = .ok (l,c') ∧ c'.bus.pipes = b.pipes ∧
      ∀ loop p, c'.point ≠ .read loop p := by
  cases loop with
  | kRealtime => exact ⟨_,_,rfl,rfl,fun loop p => followingAway .kRealtime loop .data p⟩
  | kSimulation =>
    by_cases type : e.type = .kOnSimulatorStop
    · exact ⟨_,_,if_pos type,rfl,by simp⟩
    · obtain ⟨n,looked⟩ := getDatetimeKeeps utcNow b
      refine ⟨_,_,if_neg type,?_,fun loop p => followingAway .kSimulation loop .data p⟩
      rw [looked]

theorem withinRefl (s : Store) (t : PipeName → Shape) : Within s t s t := fun _ _ => id

theorem dequeueSound (clean : ∀ p, CleanNodes (alloc p)) (utcNow : Nat → Nat) (sound : Sound c t found) :
    ∃ l c' t' found', dequeueStep (storePipes noAsserts alloc) utcNow c = .ok (l,c') ∧ Sound c' t' found' ∧
      Within c.bus.pipes t c'.bus.pipes t' ∧ Looks alloc c t found found' := by
  obtain ⟨b,point⟩ := c
  have quiet (checks : ∀ loop p, point ≠ .check loop p) (reads : ∀ loop p, point ≠ .read loop p) {l : Bus.Label}
      {c' : Caller Store} (done : dequeueStep (storePipes noAsserts alloc) utcNow ⟨b,point⟩ = .ok (l,c'))
      (same : c'.bus.pipes = b.pipes) (away : ∀ loop p, c'.point ≠ .read loop p) :
      ∃ l c' t' found', dequeueStep (storePipes noAsserts alloc) utcNow ⟨b,point⟩ = .ok (l,c') ∧ Sound c' t' found' ∧
        Within b.pipes t c'.bus.pipes t' ∧ Looks alloc ⟨b,point⟩ t found found' :=
    ⟨l,c',t,found,done,restSound sound same away,by rw [same]; exact withinRefl b.pipes t,.neither checks reads⟩
  cases point with
  | outside => exact quiet (by simp) (by simp) rfl rfl (by simp)
  | check loop p =>
    obtain ⟨s,empty,t',asked,within,again,kept⟩ := checkSound clean sound p
    refine ⟨_,_,t',_,pipeCheck asked,kept _ (fun loop' p' at_ => ?_),within,.checked rfl asked again⟩
    split at at_
    · rename_i reads
      cases at_
      rw [Bool.and_eq_true,Bool.not_eq_true'] at reads
      exact ⟨rfl,reads.1⟩
    · exact absurd at_ (followingAway loop loop' p p')
  | read loop p =>
    have due := sound.reads loop p rfl
    obtain ⟨s,e,t',q,got,within,mine,popped,kept⟩ := readSound clean sound due
    have looks : Looks alloc ⟨b,.read loop p⟩ t found (Function.update found p false) := .read rfl due got mine popped
    by_cases data : p = .data
    · subst data
      obtain ⟨l,c',goesOn,same,away⟩ := keepGoesOn utcNow loop {b with pipes := s} e
      exact ⟨l,c',t',_,(dataRead got).trans goesOn,kept c' same away,by rw [same]; exact within,looks⟩
    · exact ⟨_,_,t',_,pipeRead data got,kept _ rfl (by simp),within,looks⟩
  | checkSaved loop =>
    cases held : b.savedEvent with
    | some e =>
      have done : dequeueStep (storePipes noAsserts alloc) utcNow ⟨b,.checkSaved loop⟩ =
          .ok (.returned .saved (some e),⟨{b with savedEvent := none},.outside⟩) := by
        simp [dequeueStep,held,enqueueAttach]
      exact quiet (by simp) (by simp) done rfl (by simp)
    | none =>
      have done : dequeueStep (storePipes noAsserts alloc) utcNow ⟨b,.checkSaved loop⟩ =
          .ok (.found .saved true,⟨b,if loop = .kSimulation then .checkStop else .rest loop⟩) := by
        simp [dequeueStep,held]
      exact quiet (by simp) (by simp) done rfl (fun loop' p => by dsimp only; split <;> simp)
  | checkStop =>
    cases pending : b.isSimulationStop with
    | true =>
      obtain ⟨n,done⟩ := stopReturned (storePipes noAsserts alloc) utcNow pending
      exact quiet (by simp) (by simp) done rfl (by simp)
    | false =>
      have done : dequeueStep (storePipes noAsserts alloc) utcNow ⟨b,.checkStop⟩ =
          .ok (.found .stop true,⟨b,.rest .kSimulation⟩) := by
        simp [dequeueStep,pending]
      exact quiet (by simp) (by simp) done rfl (by simp)
  | rest loop => exact quiet (by simp) (by simp) rfl rfl (by simp)

section Example

def access (s : Caller Store) (_ : Unit) : Option (Moment × Caller Store) := (turnStep malloc clock s .dequeue).toOption

theorem accessRun {s s' : Caller Store} {trace : List Moment} (run : Run (Base.Trace.Moves access) s trace s') :
    Run (Step malloc clock) s trace s' :=
  Base.Trace.runMono (fun _ _ _ ⟨_,done⟩ => ⟨.dequeue,trivial,okOption done⟩) run

def front : Event := ⟨5,.kTrade,some 0⟩

def served : List Moment := [.registered 0 .service,.call (.entered .kRealtime) none,
  .call (.found (.pipe .data) true) none,.call (.found (.pipe .execution) true) none,
  .call (.found (.pipe .command) true) none,.call (.found (.pipe .service) false) none,
  .call (.returned (.pipe .service) (some front)) (some (0,front))]

def withQueue : Caller Store :=
  ((turnStep malloc clock ⟨busOf,.outside⟩ (.addQueue true 0 .kServicePipe)).toOption.map Prod.snd).getD
    ⟨busOf,.outside⟩

theorem servedRun : ∃ c, Run (Step malloc clock) ⟨busOf,.outside⟩ served c ∧ c.point = .outside := by
  have allowed : Allowed ⟨busOf,.outside⟩ (.addQueue true 0 .kServicePipe) :=
    ⟨by decide,fun _ => rfl,fun p => unheardFree (by cases p <;> rfl)⟩
  have first : Step malloc clock ⟨busOf,.outside⟩ (.registered 0 .service) withQueue := ⟨_,allowed,rfl⟩
  obtain ⟨trace,c,run,same⟩ := Base.Trace.playSeen (List.replicate 6 ()) (fun r => (r.1,r.2.point))
    (show (Base.Trace.play access withQueue (List.replicate 6 ())).map _ = some (served.tail,.outside) from rfl)
  obtain ⟨rfl,idle⟩ := Prod.mk.inj same
  exact ⟨c,Base.Trace.runCons first (accessRun run),idle⟩

end Example

end Qtl.BusSystem
