import Qtl.BusStore
import Qtl.EventTreeHeld
import Qtl.PipeTracked

/-! What one pass of a dequeue loop finds in the pipes of a bus in use. Every queue is
registered with events in it and while no pipe has it, and every node comes with its
links set. -/
namespace Qtl.BusRealtime
open Queue EventTree EventTreeShape EventTreeTracked EventTreeRun EventTreeHeld Spsc Pipe Bus BusStore PipeTracked
open Base (ChainTree)
open Base.ChainTree
open Base.Trace (Run)

section Pass
variable {σ : Type} (pipes : Pipes σ) (utcNow : Nat → Nat)

def passFrom : Nat → Caller σ → Except Failure (Option (Option Event) × Caller σ)
  | 0,_ => .error (.fault .endlessLoop)
  | fuel + 1,s => do
      let (l,s) ← dequeueStep pipes utcNow s
      match l,s.point with
      | .returned _ e,_ => .ok (some e,s)
      | _,.rest _ => .ok (none,s)
      | _,_ => passFrom fuel s

def realtimePass (b : EventBus σ) : Except Failure (Option (Option Event) × Caller σ) :=
  passFrom pipes utcNow 6 ⟨b,.check .kRealtime .data⟩

end Pass

def Allowed (s : Caller Store) : Turn → Prop
  | .addQueue owner q _ => contents (s.bus.pipes.queues q) ≠ [] ∧ (owner = true → s.point = .outside)
  | .clear => False
  | _ => True

instance (s : Caller Store) : (turn : Turn) → Decidable (Allowed s turn)
  | .addQueue _ _ _ => inferInstanceAs (Decidable (_ ∧ _))
  | .clear => inferInstanceAs (Decidable False)
  | .push _ _ => inferInstanceAs (Decidable True)
  | .dequeue => inferInstanceAs (Decidable True)

structure Move where
  before : Caller Store
  turn : Turn

def allowedStep (alloc : PipeName → Nat → Option TreeNode) (utcNow : Nat → Nat) (s : Caller Store) (turn : Turn) :
    Option (Move × Caller Store) :=
  if Allowed s turn then (turnStep noAsserts alloc utcNow s turn).toOption.map (fun r => (⟨s,turn⟩,r.2)) else none

abbrev Step (alloc : PipeName → Nat → Option TreeNode) (utcNow : Nat → Nat) :
    Caller Store → Move → Caller Store → Prop := Base.Trace.Moves (allowedStep alloc utcNow)

theorem stepTurn {alloc : PipeName → Nat → Option TreeNode} {utcNow : Nat → Nat} {s s' : Caller Store} {m : Move}
    (step : Step alloc utcNow s m s') :
    m.before = s ∧ Allowed s m.turn ∧ ∃ a, turnStep noAsserts alloc utcNow s m.turn = .ok (a,s') := by
  obtain ⟨turn,done⟩ := step
  simp only [allowedStep] at done
  split at done
  · rename_i allowed
    obtain ⟨r,ran,same⟩ := Option.map_eq_some_iff.mp done
    cases same
    exact ⟨rfl,allowed,r.1,okOption ran⟩
  · cases done

def Registered (w : PipeWorld) (q : Nat) : Prop :=
  q ∈ pending w ∨ ∃ a, Holds w.toWorld a ∧ queueOf w.toWorld a = some q

/-- A queue is registered while no pipe has it. -/
def Apart (m : Move) : Prop :=
  ∀ owner q pipe, m.turn = .addQueue owner q pipe → ∀ p, ¬ Registered (pipeWorld m.before.bus.pipes p) q

structure FreshPipe (s : PipeState) : Prop where
  root : s.root = none
  last : s.last = none
  none : live s.pendingAdd = []
  storage : s.storage = true

structure StoreOk (s : Store) (t : PipeName → Shape) : Prop where
  pipe : ∀ p, PipeOk (pipeWorld s p) (t p)
  apart : ∀ p p', p ≠ p' → ∀ x ∈ claimed (pipeWorld s p) (t p), x ∉ claimed (pipeWorld s p') (t p')

structure Inv (s : Caller Store) (t : PipeName → Shape) : Prop where
  store : StoreOk s.bus.pipes t
  ready : ∀ loop p, s.point = .read loop p → (s.bus.pipes.pipes p).last = none ∧ t p ≠ leaf

variable {alloc : PipeName → Nat → Option TreeNode} {utcNow : Nat → Nat} {s : Store} {t : PipeName → Shape}
variable {p : PipeName} {w : PipeWorld} {t' : Shape}

theorem registeredClaimed {q : Nat} (ok : PipeOk w t') : Registered w q ↔ some q ∈ claimed w t' := by
  rw [claimed,List.mem_append,names,List.mem_map,List.mem_map,Registered,or_comm]
  refine or_congr (exists_congr (fun a => and_congr_left (fun _ => holdsHeld ok.tracked.rep))) ?_
  simp only [Option.some.injEq,exists_eq_right]

def withQueues (w : PipeWorld) (queues : Nat → EventQueue) : PipeWorld := {w with queues := queues}

theorem pipeOkQueues {queues : Nat → EventQueue} (ok : PipeOk w t')
    (grown : ∀ q, some q ∈ claimed w t' → contents (w.queues q) ≠ [] → contents (queues q) ≠ []) :
    PipeOk (withQueues w queues) t' := by
  refine ⟨trackedQueues ok.tracked (fun a mem n hn => ?_),ok.storage,ok.separate,fun q mem => ?_⟩
  · refine grown n.queue (List.mem_append_left _ ?_) (ok.tracked.ready a mem n hn)
    exact List.mem_map.mpr ⟨a,List.mem_append_left _ mem,queueOfNode hn⟩
  · exact grown q (List.mem_append_right _ (List.mem_map_of_mem mem)) (ok.waiting q mem)

theorem pipeWorldOther {p' : PipeName} (other : p' ≠ p) :
    pipeWorld (putPipe s p w) p' = withQueues (pipeWorld s p') w.queues := by
  simp only [pipeWorld,putPipe,withQueues,Function.update_of_ne other]

theorem claimedQueues {queues : Nat → EventQueue} : claimed (withQueues w queues) t' = claimed w t' := rfl

theorem storePut (ok : StoreOk s t) (ok' : PipeOk w t')
    (origin : ∀ x ∈ claimed w t', x ∈ claimed (pipeWorld s p) (t p) ∨
      ∀ p', p' ≠ p → x ∉ claimed (pipeWorld s p') (t p'))
    (grown : ∀ q, some q ∉ claimed (pipeWorld s p) (t p) → contents (s.queues q) ≠ [] →
      contents (w.queues q) ≠ []) :
    StoreOk (putPipe s p w) (Function.update t p t') := by
  have apart' (p' : PipeName) (other : p' ≠ p) (x : Option Nat) (mem : x ∈ claimed w t') :
      x ∉ claimed (pipeWorld s p') (t p') := by
    rcases origin x mem with here | away
    · exact ok.apart p p' (Ne.symm other) x here
    · exact away p' other
  refine ⟨fun p' => ?_,fun p₁ p₂ different x mem mem' => ?_⟩
  · by_cases same : p' = p
    · subst same
      rw [pipeWorldPut,Function.update_self]
      exact ok'
    · rw [pipeWorldOther same,Function.update_of_ne same]
      exact pipeOkQueues (ok.pipe p') (fun q mem => grown q (ok.apart p' p same _ mem))
  · by_cases first : p₁ = p
    · subst first
      rw [pipeWorldPut,Function.update_self] at mem
      rw [pipeWorldOther (Ne.symm different),claimedQueues,Function.update_of_ne (Ne.symm different)] at mem'
      exact apart' p₂ (Ne.symm different) x mem mem'
    · rw [pipeWorldOther first,claimedQueues,Function.update_of_ne first] at mem
      by_cases second : p₂ = p
      · subst second
        rw [pipeWorldPut,Function.update_self] at mem'
        exact apart' p₁ first x mem' mem
      · rw [pipeWorldOther second,claimedQueues,Function.update_of_ne second] at mem'
        exact ok.apart p₁ p₂ different x mem mem'

theorem storePush (ok : StoreOk s t) (q : Nat) (e : Event) : StoreOk (pushTo s q e).1 t := by
  have grown (i : Nat) (some : contents (s.queues i) ≠ []) : contents ((pushTo s q e).1.queues i) ≠ [] := by
    by_cases same : i = q
    · subst same
      rw [show (pushTo s i e).1.queues i = (eventQueuePush (s.queues i) e).queue from Function.update_self ..]
      cases ret : (eventQueuePush (s.queues i) e).ret with
      | true => rw [pushTrue ret]; simp
      | false => rwa [pushFalse ret]
    · rwa [show (pushTo s q e).1.queues i = s.queues i from Function.update_of_ne same ..]
  exact ⟨fun p => pipeOkQueues (ok.pipe p) (fun i _ => grown i),ok.apart⟩

theorem storeIsEmpty (clean : ∀ p, CleanNodes (alloc p)) (ok : StoreOk s t) (p : PipeName) :
    ∃ w' t' empty, (storePipes noAsserts alloc).isEmpty p s = .ok (putPipe s p w',empty) ∧
      StoreOk (putPipe s p w') (Function.update t p t') ∧ w'.queues = s.queues ∧
      (empty = false → w'.last = none ∧ t' ≠ leaf) ∧
      (empty = true → Parked (pipeWorld s p) ∨ names (pipeWorld s p).toWorld (t p) = []) := by
  obtain ⟨w',t',empty,done,ok',queues,origin,some,none⟩ := pipeIsEmptyOk (clean p) (ok.pipe p)
  refine ⟨w',t',empty,?_,storePut ok ok' (fun x mem => .inl (origin x mem)) (fun q _ some => ?_),queues,some,none⟩
  · change (eventPipeIsEmpty noAsserts (alloc p) (pipeWorld s p) >>= _) = _
    rw [done]
    rfl
  · rw [queues]
    exact some

theorem storeRead (clean : ∀ p, CleanNodes (alloc p)) (ok : StoreOk s t) (unparked : (s.pipes p).last = none)
    (linked : t p ≠ leaf) :
    ∃ w' t' e q, (storePipes noAsserts alloc).read p s = .ok (putPipe s p w',some e) ∧
      StoreOk (putPipe s p w') (Function.update t p t') ∧ some q ∈ claimed (pipeWorld s p) (t p) ∧
      w'.queues = Function.update s.queues q (eventQueuePop (s.queues q)).1 := by
  obtain ⟨w',t',e,q,done,ok',mine,queues,origin⟩ := pipeReadOk (clean p) (ok.pipe p) unparked linked
  refine ⟨w',t',e,q,?_,storePut ok ok' (fun x mem => .inl (origin x mem)) (fun i away some => ?_),mine,queues⟩
  · change (eventPipeRead noAsserts (alloc p) (pipeWorld s p) >>= _) = _
    rw [done]
    rfl
  · have other : i ≠ q := by
      rintro rfl
      exact away mine
    rw [queues,Function.update_of_ne other]
    exact some

section Steps
variable {c c' : Caller Store} {trace : List Move} {q : Nat}

theorem pendingWriteOk (ok : PipeOk w t') (unknown : some q ∉ claimed w t') (full : contents (w.queues q) ≠ []) :
    ∃ w', pendingWrite w q = .ok w' ∧ PipeOk w' t' ∧ w'.queues = w.queues ∧ w'.last = w.last ∧
      ∀ x ∈ claimed w' t', x = some q ∨ x ∈ claimed w t' := by
  by_cases room : nextRecord w.pendingAdd w.pendingAdd.writePos = w.pendingAdd.readPos
  · exact ⟨w,by rw [pendingWrite,if_pos room],ok,rfl,rfl,fun _ => .inr⟩
  · have wrote : (spscQueueWrite w.pendingAdd q).2 = true := by simp [spscQueueWrite,room]
    let w' : PipeWorld := {w with
      pendingAdd := (spscQueueWrite w.pendingAdd q).1
      pendingOk := writeOk w.pendingOk q}
    have longer : pending w' = pending w ++ [q] := writeAppends w.pendingOk wrote
    have whole : (claimed w' t').Perm (some q :: claimed w t') := by
      rw [claimed,longer,List.map_append,← List.append_assoc]
      exact List.perm_append_singleton _ _
    refine ⟨w',by rw [pendingWrite,if_neg room,if_pos ok.storage],⟨ok.tracked,ok.storage,?_,fun p mem => ?_⟩,rfl,rfl,
      fun x mem => List.mem_cons.mp (whole.mem_iff.mp mem)⟩
    · exact whole.nodup_iff.mpr (List.nodup_cons.mpr ⟨unknown,ok.separate⟩)
    · rw [longer] at mem
      rcases List.mem_append.mp mem with mem | mem
      · exact ok.waiting p mem
      · cases List.mem_singleton.mp mem
        exact full

theorem putInv (inv : Inv c t) {pipe : EventBusPipe} (unknown : ∀ p, some q ∉ claimed (pipeWorld c.bus.pipes p) (t p))
    (ok' : PipeOk w t') (queues : w.queues = c.bus.pipes.queues)
    (origin : ∀ x ∈ claimed w t', x = some q ∨ x ∈ claimed (pipeWorld c.bus.pipes pipe.name) (t pipe.name))
    (ready : ∀ loop p, c.point = .read loop p → w.last = (c.bus.pipes.pipes pipe.name).last ∧ t' = t pipe.name) :
    Inv {c with bus := {c.bus with pipes := putPipe c.bus.pipes pipe.name w}} (Function.update t pipe.name t') := by
  refine ⟨storePut inv.store ok' (fun x mem => ?_) (fun i _ some => ?_),fun loop p at_ => ?_⟩
  · rcases origin x mem with rfl | mem
    · exact .inr (fun p' _ => unknown p')
    · exact .inl mem
  · rw [queues]
    exact some
  · obtain ⟨unparked,linked⟩ := inv.ready loop p at_
    obtain ⟨last,shape⟩ := ready loop p at_
    by_cases same : p = pipe.name
    · subst same
      rw [Function.update_self,shape]
      refine ⟨?_,linked⟩
      simp only [putPipe,Function.update_self]
      exact last.trans unparked
    · rw [Function.update_of_ne same]
      exact ⟨(congrArg PipeState.last (putPipeOther same)).trans unparked,linked⟩

theorem addInv (clean : ∀ p, CleanNodes (alloc p)) (inv : Inv c t) {owner : Bool} {pipe : EventBusPipe}
    {a : Option Answer} (allowed : Allowed c (.addQueue owner q pipe)) (apart : Apart ⟨c,.addQueue owner q pipe⟩)
    (done : turnStep noAsserts alloc utcNow c (.addQueue owner q pipe) = .ok (a,c')) : ∃ t', Inv c' t' := by
  obtain ⟨full,outside⟩ := allowed
  have unknown (p : PipeName) : some q ∉ claimed (pipeWorld c.bus.pipes p) (t p) := fun mem =>
    apart owner q pipe rfl p ((registeredClaimed (inv.store.pipe p)).mpr mem)
  have ok := inv.store.pipe pipe.name
  have here : ¬ (owner = true ∧ c.point ≠ .outside) := fun h => h.2 (outside h.1)
  rw [turnStep,if_neg here] at done
  obtain ⟨⟨b,ret⟩,called,last⟩ := bindOk done
  obtain ⟨w,added,last'⟩ := bindOk called
  cases last'
  cases last
  cases owner with
  | true =>
    obtain ⟨w',t',ran,ok',_,grew⟩ := treeAddOk (clean pipe.name) ok (unknown pipe.name) full
    cases ran.symm.trans added
    refine ⟨_,putInv inv unknown ok' grew.queues (fun x mem => List.mem_cons.mp (grew.origin x mem))
      (fun loop p at_ => ?_)⟩
    rw [outside rfl] at at_
    cases at_
  | false =>
    obtain ⟨w',ran,ok',queues,last,origin⟩ := pendingWriteOk ok (unknown pipe.name) full
    cases ran.symm.trans added
    exact ⟨_,putInv inv unknown ok' queues origin (fun _ _ _ => ⟨last,rfl⟩)⟩

theorem pushInv (inv : Inv c t) (e : Event) :
    Inv {c with bus := {c.bus with pipes := (pushTo c.bus.pipes q e).1}} t :=
  ⟨storePush inv.store q e,inv.ready⟩

theorem stepInv (store : StoreOk (putPipe c.bus.pipes p w) (Function.update t p t')) {b : EventBus Store}
    {point : Point}
    (same : b.pipes = putPipe c.bus.pipes p w)
    (ready : ∀ loop p', point = .read loop p' → p' = p ∧ w.last = none ∧ t' ≠ leaf) :
    Inv ⟨b,point⟩ (Function.update t p t') := by
  refine ⟨by rw [same]; exact store,fun loop p' at_ => ?_⟩
  obtain ⟨rfl,unparked,linked⟩ := ready loop p' at_
  rw [same,Function.update_self]
  refine ⟨?_,linked⟩
  simp only [putPipe,Function.update_self]
  exact unparked

theorem restInv (inv : Inv c t) {b : EventBus Store} {point : Point} (same : b.pipes = c.bus.pipes)
    (ready : ∀ loop p, point ≠ .read loop p) : Inv ⟨b,point⟩ t :=
  ⟨by rw [same]; exact inv.store,fun loop p at_ => absurd at_ (ready loop p)⟩

theorem readInv (clean : ∀ p, CleanNodes (alloc p)) (inv : Inv c t) {loop : EventBusMode}
    (at_ : c.point = .read loop p) {s' : Store} {e : Option Event}
    (got : (storePipes noAsserts alloc).read p c.bus.pipes = .ok (s',e)) {b : EventBus Store} {point : Point}
    (same : b.pipes = s') (away : ∀ loop p, point ≠ .read loop p) : ∃ t', Inv ⟨b,point⟩ t' := by
  obtain ⟨unparked,linked⟩ := inv.ready loop p at_
  obtain ⟨w',t',e',q,ran,store,_⟩ := storeRead clean inv.store unparked linked
  cases ran.symm.trans got
  exact ⟨_,stepInv store same (fun loop p there => absurd there (away loop p))⟩

theorem dequeueInv (clean : ∀ p, CleanNodes (alloc p)) (inv : Inv c t) {l : Bus.Label}
    (done : dequeueStep (storePipes noAsserts alloc) utcNow c = .ok (l,c')) :
    ∃ t', Inv c' t' := by
  have all := dequeueCases done
  obtain ⟨b,point⟩ := c
  obtain ⟨b',point'⟩ := c'
  dsimp only at all
  have follow (loop : EventBusMode) (p : PipeName) : ∀ loop' p', following loop p ≠ .read loop' p' := by
    intro loop' p'
    cases p <;> simp [following]
  cases all with
  | enter => exact ⟨t,restInv inv rfl nofun⟩
  | check asked =>
    rename_i loop p q empty
    obtain ⟨w',t',empty',ran,store,_,some,_⟩ := storeIsEmpty clean inv.store p
    cases ran.symm.trans asked
    refine ⟨_,stepInv store rfl (fun loop' p' at_ => ?_)⟩
    split at at_
    · rename_i reads
      cases at_
      have found : empty = false := by
        cases empty with
        | true => exact absurd reads Bool.false_ne_true
        | false => rfl
      exact ⟨rfl,some found⟩
    · exact absurd at_ (follow loop p loop' p')
  | swallow got type => exact readInv clean inv rfl got rfl nofun
  | lookAhead n got type => exact readInv clean inv rfl got rfl nofun
  | keep got => exact readInv clean inv rfl got rfl nofun
  | read other got => exact readInv clean inv rfl got rfl nofun
  | saved held => exact ⟨t,restInv inv rfl nofun⟩
  | unsaved held => exact ⟨t,restInv inv rfl (fun loop p => by split <;> nofun)⟩
  | stop n pending => exact ⟨t,restInv inv rfl nofun⟩
  | noStop none => exact ⟨t,restInv inv rfl nofun⟩
  | rest => exact ⟨t,restInv inv rfl nofun⟩

theorem freshInv (b : EventBus Store) (fresh : ∀ p, FreshPipe (b.pipes.pipes p)) :
    Inv ⟨b,.outside⟩ (fun _ => leaf) := by
  have none (p : PipeName) : claimed (pipeWorld b.pipes p) leaf = [] := by
    rw [claimed,names,held,show (pipeWorld b.pipes p).last = none from (fresh p).last,
      show pending (pipeWorld b.pipes p) = [] from (fresh p).none]
    rfl
  refine ⟨⟨fun p => ⟨emptyTracked (fresh p).root (fresh p).last,(fresh p).storage,?_,fun q mem => ?_⟩,
    fun p p' _ x mem => ?_⟩,fun loop p at_ => by cases at_⟩
  · rw [none]
    exact List.nodup_nil
  · rw [show pending (pipeWorld b.pipes p) = [] from (fresh p).none] at mem
    cases mem
  · rw [none] at mem
    cases mem

theorem runInv (clean : ∀ p, CleanNodes (alloc p)) {b : EventBus Store} (fresh : ∀ p, FreshPipe (b.pipes.pipes p))
    (run : Run (Step alloc utcNow) ⟨b,.outside⟩ trace c) (apart : ∀ m ∈ trace, Apart m) : ∃ t, Inv c t := by
  induction run with
  | nil => exact ⟨_,freshInv b fresh⟩
  | snoc before last ih =>
    rename_i trace c m c'
    obtain ⟨t,inv⟩ := ih (fun m mem => apart m (List.mem_append_left _ mem))
    have here := apart m (List.mem_append_right _ List.mem_cons_self)
    obtain ⟨at_,allowed,a,done⟩ := stepTurn last
    obtain ⟨before,turn⟩ := m
    cases at_
    cases turn with
    | addQueue owner q pipe => exact addInv clean inv allowed here done
    | push q e =>
      cases done
      exact ⟨t,pushInv inv e⟩
    | dequeue =>
      obtain ⟨r,ran,same⟩ := mapOk done
      cases same
      exact dequeueInv clean inv ran
    | clear => cases allowed

end Steps

section Pass
variable {b : EventBus Store} {fuel : Nat}

def Due (s : Store) (t : PipeName → Shape) (p : PipeName) : Prop :=
  ¬ Parked (pipeWorld s p) ∧ names (pipeWorld s p).toWorld (t p) ≠ []

def Returns (r : Except Failure (Option (Option Event) × Caller Store)) : Prop := ∃ e c, r = .ok (some (some e),c)

theorem passReturn {σ : Type} {pipes : Pipes σ} {s s' : Caller σ} {source : Source} {e : Option Event}
    (done : dequeueStep pipes utcNow s = .ok (.returned source e,s')) :
    passFrom pipes utcNow (fuel + 1) s = .ok (some e,s') := by
  rw [passFrom,okBind done]

theorem passOn {σ : Type} {pipes : Pipes σ} {s s' : Caller σ} {l : Bus.Label}
    (done : dequeueStep pipes utcNow s = .ok (l,s')) (quiet : ∀ source e, l ≠ .returned source e)
    (on : ∀ loop, s'.point ≠ .rest loop) : passFrom pipes utcNow (fuel + 1) s = passFrom pipes utcNow fuel s' := by
  rw [passFrom,okBind done]
  obtain ⟨b,point⟩ := s'
  cases l with
  | returned source e => exact absurd rfl (quiet source e)
  | _ =>
    cases point with
    | rest loop => exact absurd rfl (on loop)
    | _ => rfl

theorem dueOther {p' : PipeName} (other : p' ≠ p)
    (same : ∀ q, some q ∈ claimed (pipeWorld s p') (t p') → w.queues q = s.queues q) (due : Due s t p') :
    Due (putPipe s p w) (Function.update t p t') p' := by
  obtain ⟨unparked,some⟩ := due
  rw [Due,pipeWorldOther other,Function.update_of_ne other]
  refine ⟨fun ⟨a,q,last,name,empty⟩ => unparked ⟨a,q,last,name,?_⟩,some⟩
  have inside : .some q ∈ claimed (pipeWorld s p') (t p') := by
    refine List.mem_append_left _ (List.mem_map.mpr ⟨a,?_,name⟩)
    exact List.mem_append_right _ (Option.mem_toList.mpr last)
  change contents (s.queues q) = []
  rw [← same q inside]
  exact empty

theorem readReturns (clean : ∀ p, CleanNodes (alloc p)) (ok : StoreOk b.pipes t) {loop : EventBusMode}
    (other : p ≠ .data)
    (unparked : (b.pipes.pipes p).last = none) (linked : t p ≠ leaf) :
    Returns (passFrom (storePipes noAsserts alloc) utcNow (fuel + 1) ⟨b,.read loop p⟩) := by
  obtain ⟨w',t',e,q,got,_⟩ := storeRead clean ok unparked linked
  exact ⟨e,_,passReturn (pipeRead other got)⟩

theorem putLast : ((putPipe s p w).pipes p).last = w.last := by simp only [putPipe,Function.update_self,stateOf]

theorem checkReturns (utcNow : Nat → Nat) (fuel : Nat) (p : PipeName) (clean : ∀ p, CleanNodes (alloc p))
    (ok : StoreOk b.pipes t) (other : p ≠ .data) :
    Returns (passFrom (storePipes noAsserts alloc) utcNow (fuel + 2) ⟨b,.check .kRealtime p⟩) ∨
    (¬ Due b.pipes t p ∧ ∃ b' t', passFrom (storePipes noAsserts alloc) utcNow (fuel + 2) ⟨b,.check .kRealtime p⟩ =
      passFrom (storePipes noAsserts alloc) utcNow (fuel + 1) ⟨b',following .kRealtime p⟩ ∧ StoreOk b'.pipes t' ∧
      b'.savedEvent = b.savedEvent ∧ ∀ p', p' ≠ p → Due b.pipes t p' → Due b'.pipes t' p') := by
  obtain ⟨w',t',empty,asked,store,queues,some,none⟩ := storeIsEmpty clean ok p
  have data : (p != .data) = true := by simpa using other
  have done : dequeueStep (storePipes noAsserts alloc) utcNow ⟨b,.check .kRealtime p⟩ =
      .ok (.found (.pipe p) empty,⟨{b with pipes := putPipe b.pipes p w'},
        if empty then following .kRealtime p else .read .kRealtime p⟩) := by
    rw [pipeCheck asked,data]
    cases empty <;> rfl
  cases empty with
  | false =>
    obtain ⟨unparked,linked⟩ := some rfl
    rw [← Function.update_self p t' t] at linked
    refine .inl ?_
    rw [passOn done nofun nofun]
    exact readReturns clean store other (putLast.trans unparked) linked
  | true =>
    refine .inr ⟨fun due => ?_,_,_,passOn done nofun ?_,store,rfl,fun p' away due => dueOther away (fun q _ => ?_) due⟩
    · exact (none rfl).elim due.1 due.2
    · cases p <;> nofun
    · rw [queues]

theorem dataKept (clean : ∀ p, CleanNodes (alloc p)) (ok : StoreOk b.pipes t) :
    ∃ fuel b' t', realtimePass (storePipes noAsserts alloc) utcNow b =
      passFrom (storePipes noAsserts alloc) utcNow (fuel + 4) ⟨b',.check .kRealtime .execution⟩ ∧ StoreOk b'.pipes t' ∧
      (b.savedEvent ≠ none ∨ Due b.pipes t .data → b'.savedEvent ≠ none) ∧
      ∀ p', p' ≠ .data → Due b.pipes t p' → Due b'.pipes t' p' := by
  obtain ⟨w',t',empty,asked,store,queues,some,none⟩ := storeIsEmpty clean ok .data
  have kept (p' : PipeName) (away : p' ≠ .data) (due : Due b.pipes t p') :
      Due (putPipe b.pipes .data w') (Function.update t .data t') p' := dueOther away (fun q _ => by rw [queues]) due
  have done : dequeueStep (storePipes noAsserts alloc) utcNow ⟨b,.check .kRealtime .data⟩ =
      .ok (.found (.pipe .data) empty,⟨{b with pipes := putPipe b.pipes .data w'},
        if !empty && b.savedEvent.isNone then .read .kRealtime .data else .check .kRealtime .execution⟩) :=
    pipeCheck asked
  rw [realtimePass]
  cases found : (!empty && b.savedEvent.isNone) with
  | true =>
    obtain ⟨unparked,linked⟩ := some (by cases empty with | true => cases found | false => rfl)
    rw [← Function.update_self .data t' t] at linked
    obtain ⟨w'',t'',e,q,got,store',mine,queues'⟩ := storeRead clean store (putLast.trans unparked) linked
    have read : dequeueStep (storePipes noAsserts alloc) utcNow
        ⟨{b with pipes := putPipe b.pipes .data w'},.read .kRealtime .data⟩ =
        .ok (.kept .kRealtime (.some e),⟨{b with
          pipes := putPipe (putPipe b.pipes .data w') .data w''
          savedEvent := .some e},.check .kRealtime .execution⟩) := dataRead got
    rw [found] at done
    rw [passOn done nofun nofun]
    refine ⟨0,{b with pipes := putPipe (putPipe b.pipes .data w') .data w'', savedEvent := .some e},_,
      passOn read nofun nofun,store',fun _ => nofun,fun p' away due => ?_⟩
    refine dueOther away (fun i mem => ?_) (kept p' away due)
    have other : i ≠ q := by
      rintro rfl
      exact store.apart .data p' (Ne.symm away) _ mine mem
    rw [queues',Function.update_of_ne other]
  | false =>
    rw [found] at done
    rw [passOn done nofun nofun]
    refine ⟨1,{b with pipes := putPipe b.pipes .data w'},_,rfl,store,fun due => ?_,kept⟩
    rcases due with held | due
    · exact held
    · cases empty with
      | true => exact absurd (none rfl) (not_or.mpr due)
      | false =>
        intro unsaved
        rw [show b.savedEvent = .none from unsaved] at found
        cases found

def Available (b : EventBus Store) (t : PipeName → Shape) (pipes : List PipeName) : Prop :=
  b.savedEvent ≠ none ∨ ∃ p ∈ pipes, Due b.pipes t p

theorem availableRest {b' : EventBus Store} {t' : PipeName → Shape} {rest : List PipeName}
    (available : Available b t (p :: rest)) (idle : ¬ Due b.pipes t p) (saved : b'.savedEvent = b.savedEvent)
    (kept : ∀ p', p' ≠ p → Due b.pipes t p' → Due b'.pipes t' p') : Available b' t' rest := by
  rcases available with held | ⟨p',mem,due⟩
  · exact .inl (saved ▸ held)
  · have other : p' ≠ p := by
      rintro rfl
      exact idle due
    exact .inr ⟨p',(List.mem_cons.mp mem).resolve_left other,kept p' other due⟩

theorem savedReturns (available : Available b t []) {loop : EventBusMode} :
    Returns (passFrom (storePipes noAsserts alloc) utcNow (fuel + 1) ⟨b,.checkSaved loop⟩) := by
  rcases available with held | ⟨p,mem,_⟩
  · obtain ⟨e,saved⟩ := Option.ne_none_iff_exists'.mp held
    have done : dequeueStep (storePipes noAsserts alloc) utcNow ⟨b,.checkSaved loop⟩ =
        .ok (.returned .saved (some e),⟨{b with savedEvent := none},.outside⟩) := by
      simp [dequeueStep,saved,enqueueAttach]
    exact ⟨e,_,passReturn done⟩
  · cases mem

theorem pipesReturn (clean : ∀ p, CleanNodes (alloc p)) (ok : StoreOk b.pipes t)
    (available : Available b t [.execution,.command,.service]) :
    Returns (passFrom (storePipes noAsserts alloc) utcNow (fuel + 4) ⟨b,.check .kRealtime .execution⟩) := by
  rcases checkReturns utcNow (fuel + 2) .execution clean ok nofun with done | ⟨idle,b₁,t₁,onward,ok₁,saved,kept⟩
  · exact done
  rw [onward]
  have available := availableRest available idle saved kept
  rcases checkReturns utcNow (fuel + 1) .command clean ok₁ nofun with done | ⟨idle,b₂,t₂,onward,ok₂,saved,kept⟩
  · exact done
  rw [following,onward]
  have available := availableRest available idle saved kept
  rcases checkReturns utcNow fuel .service clean ok₂ nofun with done | ⟨idle,b₃,t₃,onward,_,saved,kept⟩
  · exact done
  rw [following,onward]
  exact savedReturns (availableRest available idle saved kept)

/-- In every state of a bus whose queues are registered while no pipe has them, one pass
of the realtime loop returns an event if saved_event is set, or if some pipe has a queue
with an event and no drained queue parked in its tree. -/
theorem realtimePassReturns (clean : ∀ p, CleanNodes (alloc p)) {b : EventBus Store}
    (fresh : ∀ p, FreshPipe (b.pipes.pipes p)) {trace : List Move} {c : Caller Store}
    (run : Run (Step alloc utcNow) ⟨b,.outside⟩ trace c) (apart : ∀ m ∈ trace, Apart m)
    (available : c.bus.savedEvent ≠ none ∨ ∃ p ∈ [PipeName.data,.execution,.command,.service],
      ¬ Parked (pipeWorld c.bus.pipes p) ∧ ∃ a q, Holds (pipeWorld c.bus.pipes p).toWorld a ∧
        queueOf (pipeWorld c.bus.pipes p).toWorld a = some q ∧ contents (c.bus.pipes.queues q) ≠ []) :
    ∃ e c', realtimePass (storePipes noAsserts alloc) utcNow c.bus = .ok (some (some e),c') := by
  obtain ⟨t,inv⟩ := runInv clean fresh run apart
  have due : Available c.bus t [.data,.execution,.command,.service] := by
    refine available.imp id (fun ⟨p,mem,unparked,a,q,inside,name,_⟩ => ⟨p,mem,unparked,fun none => ?_⟩)
    have tracked := (inv.store.pipe p).tracked
    have known : some q ∈ names (pipeWorld c.bus.pipes p).toWorld (t p) :=
      List.mem_map.mpr ⟨a,(holdsHeld tracked.rep).mp inside,name⟩
    rw [none] at known
    cases known
  obtain ⟨fuel,b',t',onward,ok,saved,kept⟩ := dataKept clean inv.store
  rw [onward]
  refine pipesReturn clean ok ?_
  rcases due with held | ⟨p,mem,due⟩
  · exact .inl (saved (.inl held))
  · by_cases data : p = .data
    · exact .inl (saved (.inr (data ▸ due)))
    · exact .inr ⟨p,(List.mem_cons.mp mem).resolve_left data,kept p data due⟩

end Pass

section Example

def cleanNode : TreeNode := ⟨0,0,none,none,none,none,none⟩

def malloc (_ : PipeName) (_ : Nat) : Option TreeNode := some cleanNode

theorem mallocClean (p : PipeName) : CleanNodes (malloc p) := by
  rintro n m same
  cases same
  exact ⟨rfl,rfl,rfl⟩

def busOf : EventBus Store := newBus (fun i => lone ⟨if i = 0 then 5 else 7,.kTrade,some i⟩) .kRealtime 0 0

theorem newPipeFresh : FreshPipe newPipe := ⟨rfl,rfl,rfl,rfl⟩

def clock (n : Nat) : Nat := n

def unheard (w : PipeWorld) (q : Nat) : Bool := (pending w).all (· != q) && w.nodes.all (·.queue != q)

theorem unheardFree {w : PipeWorld} {q : Nat} (free : unheard w q = true) : ¬ Registered w q := by
  simp only [unheard,Bool.and_eq_true,List.all_eq_true,bne_iff_ne] at free
  rintro (waiting | ⟨a,_,name⟩)
  · exact free.1 q waiting rfl
  · obtain ⟨n,at',same⟩ := Option.map_eq_some_iff.mp name
    exact free.2 n (List.mem_of_getElem? at') same

def firstTime (m : Move) : Bool := match m.turn with
  | .addQueue _ q _ => [PipeName.command,.data,.execution,.service,.historical].all
      (fun p => unheard (pipeWorld m.before.bus.pipes p) q)
  | _ => true

theorem firstTimeApart {m : Move} (new : firstTime m = true) : Apart m := by
  intro owner q pipe same p
  simp only [firstTime,same,List.all_eq_true] at new
  exact unheardFree (new p (by cases p <;> decide))

def twoQueues : List Turn :=
  [.addQueue true 0 .kExecutionPipe,.addQueue true 1 .kExecutionPipe] ++ List.replicate 4 .dequeue

-- The drained queue 0 stays parked in the execution pipe while the service pipe is read.
theorem realtimePassReturnsThree : ∃ trace c, Run (Step malloc clock) ⟨busOf,.outside⟩ trace c ∧
    trace.map Move.turn = twoQueues ++ [.addQueue true 2 .kServicePipe] ∧
    Parked (pipeWorld c.bus.pipes .execution) ∧
    ∃ e c', realtimePass (storePipes noAsserts malloc) clock c.bus = .ok (some (some e),c') := by
  obtain ⟨trace,c,run,same⟩ := Base.Trace.playSeen (twoQueues ++ [.addQueue true 2 .kServicePipe])
    (fun r : List Move × Caller Store => (r.1.map Move.turn,r.1.all firstTime,pipeWorld r.2.bus.pipes .execution,
      pipeWorld r.2.bus.pipes .service))
    (show (Base.Trace.play (allowedStep malloc clock) ⟨busOf,.outside⟩ _).map _ = some (_,true,_,_) from rfl)
  simp only [Prod.mk.injEq] at same
  obtain ⟨turns,new,execution,service⟩ := same
  have apart : ∀ m ∈ trace, Apart m := fun m mem => firstTimeApart (List.all_eq_true.mp new m mem)
  refine ⟨trace,c,run,turns,?_,realtimePassReturns mallocClean (fun _ => newPipeFresh) run apart
    (.inr ⟨.service,by decide,?_,?_⟩)⟩
  · rw [execution]
    exact ⟨0,0,rfl,rfl,rfl⟩
  · rw [service]
    rintro ⟨a,q,last,_⟩
    cases last
  · refine ⟨0,2,?_,?_,?_⟩
    · rw [service]
      exact .inl ⟨0,.here,.here⟩
    · rw [service]
      rfl
    · change contents ((pipeWorld c.bus.pipes .service).queues 2) ≠ []
      rw [service]
      decide

def sharedQueue : List Turn := [.addQueue true 0 .kExecutionPipe,.addQueue true 0 .kServicePipe,
  .addQueue true 1 .kServicePipe] ++ List.replicate 4 .dequeue

def twiceQueue : List Turn := [.addQueue true 0 .kExecutionPipe,.addQueue true 0 .kExecutionPipe,
  .addQueue true 1 .kExecutionPipe] ++ List.replicate 4 .dequeue ++ [.push 0 ⟨6,.kOnQueueClosed,some 2⟩] ++
  List.replicate 4 .dequeue

def passAnswer (c : Caller Store) : Option (Option (Option Event)) :=
  (realtimePass (storePipes noAsserts malloc) clock c.bus).toOption.map Prod.fst

def seen (p : PipeName) (r : List Move × Caller Store) :
    Option (Option (Option Event)) × List Event × Option Nat × Option Nat × List TreeNode :=
  (passAnswer r.2,contents (r.2.bus.pipes.queues 1),(r.2.bus.pipes.pipes p).root,(r.2.bus.pipes.pipes p).last,
    (r.2.bus.pipes.pipes p).nodes)

def Missed (p : PipeName) (last : Option Nat) (answer : Option (Option Event)) : Prop :=
  ∃ trace c, Run (Step malloc clock) ⟨busOf,.outside⟩ trace c ∧ (c.bus.pipes.pipes p).last = last ∧
    (∃ a, Holds (pipeWorld c.bus.pipes p).toWorld a ∧ queueOf (pipeWorld c.bus.pipes p).toWorld a = some 1) ∧
    contents (c.bus.pipes.queues 1) ≠ [] ∧ passAnswer c = some answer

theorem missedRun {turns : List Turn} {p : PipeName} {root last : Option Nat} {nodes : List TreeNode}
    {answer : Option (Option Event)} {a b : Nat}
    (outcome : (Base.Trace.play (allowedStep malloc clock) ⟨busOf,.outside⟩ turns).map (seen p) =
      some (some answer,[⟨7,.kTrade,some 1⟩],root,last,nodes))
    (below : Below nodes root b) (behind : Behind nodes b a) (name : nodes[a]?.map TreeNode.queue = some 1) :
    Missed p last answer := by
  obtain ⟨trace,c,run,same⟩ := Base.Trace.playSeen turns (seen p) outcome
  simp only [seen,Prod.mk.injEq] at same
  obtain ⟨answered,events,rfl,rfl,rfl⟩ := same
  refine ⟨trace,c,run,rfl,⟨a,.inl ⟨b,below,behind⟩,name⟩,?_,answered⟩
  rw [events]
  exact List.cons_ne_nil _ _

/-- The drained queue 0 parked in the execution pipe hides the event of queue 1. A queue
registered with two pipes, or twice with one, gives a pass that returns the null pointer
although no queue is parked. -/
theorem idleQueueHides : Missed .execution (some 0) none ∧ Missed .service none (some none) ∧
    Missed .execution none (some none) := by
  have parked : (Base.Trace.play (allowedStep malloc clock) ⟨busOf,.outside⟩ twoQueues).map (seen .execution) =
      some (some none,[⟨7,.kTrade,some 1⟩],some 1,some 0,
        [⟨0,0,none,none,none,none,some 0⟩,⟨1,7,none,none,none,none,some 1⟩]) := by rfl
  have shared : (Base.Trace.play (allowedStep malloc clock) ⟨busOf,.outside⟩ sharedQueue).map (seen .service) =
      some (some (some none),[⟨7,.kTrade,some 1⟩],some 0,none,
        [⟨0,0,none,some 1,none,none,some 0⟩,⟨1,7,none,none,none,none,some 1⟩]) := by rfl
  have twice : (Base.Trace.play (allowedStep malloc clock) ⟨busOf,.outside⟩ twiceQueue).map (seen .execution) =
      some (some (some none),[⟨7,.kTrade,some 1⟩],some 2,none,
        [⟨0,6,none,none,none,none,some 0⟩,⟨0,5,none,none,none,none,some 1⟩,
          ⟨1,7,some 0,none,none,none,some 2⟩]) := by rfl
  refine ⟨missedRun parked .here .here rfl,missedRun shared (.right rfl .here) .here rfl,?_⟩
  exact missedRun twice .here .here rfl

end Example

end Qtl.BusRealtime
