import Qtl.Base.Trace
import Qtl.Spsc

/-! One producer and one consumer of a shared ring, one memory access at a time.
Every position load, slot access and position store is a step of its own, so a
position loaded by one side may be stale when the other side moves. -/
namespace Qtl.SpscInterleaving
open Base.Window Spsc
open Base.Trace (Run)

variable {α : Type}

inductive Producer (α : Type) where
  | idle
  | positioned (e : α) (currentWrite : Nat)
  | admitted (e : α) (currentWrite nextRecord : Nat)
  | filled (e : α) (nextRecord : Nat)

inductive Call where | read | peek
  deriving DecidableEq, Repr

inductive Consumer (α : Type) where
  | idle
  | positioned (call : Call) (currentRead : Nat)
  | available (call : Call) (currentRead : Nat)
  | taken (item : α) (nextRecord : Nat)

inductive Event (α : Type) where
  | silent
  | refused (e : α)
  | filled (slot : Nat) (e : α)
  | wrote (e : α)
  | empty (call : Call)
  | peeked (item : α)
  | gave (item : α)
  deriving DecidableEq

structure System (α : Type) where
  queue : SpscQueue α
  producer : Producer α
  consumer : Consumer α

def begin (q : SpscQueue α) : System α := ⟨q,.idle,.idle⟩

-- The argument is used when a call starts; a running call keeps its own.
def producerStep (e : α) (s : System α) : System α × Event α :=
  match s.producer with
  | .idle => ({s with producer := .positioned e s.queue.writePos},.silent)
  | .positioned e currentWrite =>
      let next := nextRecord s.queue currentWrite
      if next ≠ s.queue.readPos then ({s with producer := .admitted e currentWrite next},.silent)
      else ({s with producer := .idle},.refused e)
  | .admitted e currentWrite next =>
      ({s with
        queue := {s.queue with records := Function.update s.queue.records currentWrite e}
        producer := .filled e next},.filled currentWrite e)
  | .filled e next =>
      ({s with queue := {s.queue with writePos := next}, producer := .idle},.wrote e)

def consumerStep (call : Call) (s : System α) : System α × Event α :=
  match s.consumer with
  | .idle => ({s with consumer := .positioned call s.queue.readPos},.silent)
  | .positioned call currentRead =>
      if currentRead = s.queue.writePos then ({s with consumer := .idle},.empty call)
      else ({s with consumer := .available call currentRead},.silent)
  | .available .read currentRead =>
      let next := nextRecord s.queue currentRead
      ({s with consumer := .taken (s.queue.records currentRead) next},.silent)
  | .available .peek currentRead =>
      ({s with consumer := .idle},.peeked (s.queue.records currentRead))
  | .taken item next =>
      ({s with queue := {s.queue with readPos := next}, consumer := .idle},.gave item)

inductive Turn (α : Type) where
  | producer (e : α)
  | consumer (call : Call)

def turnStep (s : System α) : Turn α → System α × Event α
  | .producer e => producerStep e s
  | .consumer call => consumerStep call s

def play (s : System α) : List (Turn α) → System α × List (Event α)
  | [] => (s,[])
  | turn :: turns =>
      let (s',event) := turnStep s turn
      let (s'',trace) := play s' turns
      (s'',event :: trace)

def Step (s : System α) (event : Event α) (s' : System α) : Prop :=
  ∃ turn, turnStep s turn = (s',event)

theorem playRun (s : System α) (turns : List (Turn α)) :
    Run Step s (play s turns).2 (play s turns).1 := by
  induction turns generalizing s with
  | nil => exact .nil
  | cons turn turns ih => exact Base.Trace.runCons ⟨turn,rfl⟩ (ih _)

theorem writeAlone (q : SpscQueue α) (e : α) :
    ∃ n, (play (begin q) (List.replicate n (.producer e))).1 = begin (spscQueueWrite q e).1 := by
  by_cases room : nextRecord q q.writePos ≠ q.readPos
  · exact ⟨4,by simp [play,turnStep,producerStep,begin,spscQueueWrite,room]⟩
  · exact ⟨2,by simp [play,turnStep,producerStep,begin,spscQueueWrite,room]⟩

theorem readAlone (q : SpscQueue α) :
    ∃ n, (play (begin q) (List.replicate n (.consumer .read))).1 = begin (spscQueueRead q).1 := by
  by_cases same : q.readPos = q.writePos
  · exact ⟨2,by simp [play,turnStep,consumerStep,begin,spscQueueRead,same]⟩
  · exact ⟨4,by simp [play,turnStep,consumerStep,begin,spscQueueRead,same]⟩

def written : List (Event α) → List α := List.filterMap (fun event => match event with
  | .wrote e => some e
  | _ => none)

def given : List (Event α) → List α := List.filterMap (fun event => match event with
  | .gave item => some item
  | _ => none)

def peekOf : Event α → Option α
  | .peeked item => some item
  | _ => none

theorem writtenSnoc (trace : List (Event α)) (event : Event α) :
    written (trace ++ [event]) = written trace ++ written [event] := List.filterMap_append

theorem givenSnoc (trace : List (Event α)) (event : Event α) :
    given (trace ++ [event]) = given trace ++ given [event] := List.filterMap_append

section Live
variable {q : SpscQueue α}

theorem liveFill (ok : Ok q) (e : α) :
    live {q with records := Function.update q.records q.writePos e} = live q := windowUpdateTail ok.readLt e

theorem livePush {e : α} (ok : Ok q) (room : advance q.capacity q.writePos ≠ q.readPos)
    (filled : q.records q.writePos = e) :
    live {q with writePos := advance q.capacity q.writePos} = live q ++ [e] := by
  simpa [live,filled] using windowPush q.records ok.readLt ok.writeLt room

theorem livePop {item : α} (ok : Ok q) (apart : q.readPos ≠ q.writePos) (held : q.records q.readPos = item) :
    live q = item :: live {q with readPos := advance q.capacity q.readPos} := by
  rw [← held]
  exact windowPop ok.readLt ok.writeLt apart

end Live

def ProducerOk (q : SpscQueue α) : Producer α → Prop
  | .idle => True
  | .positioned _ currentWrite => currentWrite = q.writePos
  | .admitted _ currentWrite next =>
      currentWrite = q.writePos ∧ next = advance q.capacity q.writePos ∧ next ≠ q.readPos
  | .filled e next =>
      next = advance q.capacity q.writePos ∧ next ≠ q.readPos ∧ q.records q.writePos = e

def ConsumerOk (q : SpscQueue α) : Consumer α → Prop
  | .idle => True
  | .positioned _ currentRead => currentRead = q.readPos
  | .available _ currentRead => currentRead = q.readPos ∧ currentRead ≠ q.writePos
  | .taken item next =>
      next = advance q.capacity q.readPos ∧ q.readPos ≠ q.writePos ∧ q.records q.readPos = item

def PeekOk (q : SpscQueue α) (trace : List (Event α)) : Prop :=
  ∀ before item after, trace = before ++ .peeked item :: after →
    (given after ++ live q).head? = some item

structure Inv (size : Nat) (trace : List (Event α)) (s : System α) : Prop where
  ok : Ok s.queue
  capacity : s.queue.capacity = size
  stream : written trace = given trace ++ live s.queue
  producer : ProducerOk s.queue s.producer
  consumer : ConsumerOk s.queue s.consumer
  peek : PeekOk s.queue trace

theorem peekKeeps {q q' : SpscQueue α} {trace : List (Event α)} {event : Event α}
    (h : PeekOk q trace) (other : peekOf event = none)
    (front : ∀ items item, (items ++ live q).head? = some item →
      (items ++ given [event] ++ live q').head? = some item) : PeekOk q' (trace ++ [event]) := by
  intro before item after whole
  rcases List.eq_nil_or_concat after with rfl | ⟨after,last,rfl⟩
  · obtain ⟨_,same⟩ := List.append_inj' whole rfl
    cases List.singleton_inj.mp same
    simp [peekOf] at other
  · rw [List.concat_eq_append,← List.cons_append,← List.append_assoc] at whole
    obtain ⟨rfl,same⟩ := List.append_inj' whole rfl
    cases List.singleton_inj.mp same
    rw [List.concat_eq_append,givenSnoc]
    exact front _ _ (h before item after rfl)

theorem peekAdds {q : SpscQueue α} {trace : List (Event α)} {item : α}
    (h : PeekOk q trace) (front : (live q).head? = some item) :
    PeekOk q (trace ++ [.peeked item]) := by
  intro before item' after whole
  rcases List.eq_nil_or_concat after with rfl | ⟨after,last,rfl⟩
  · obtain ⟨_,same⟩ := List.append_inj' whole rfl
    cases List.singleton_inj.mp same
    simpa [given] using front
  · rw [List.concat_eq_append,← List.cons_append,← List.append_assoc] at whole
    obtain ⟨rfl,same⟩ := List.append_inj' whole rfl
    cases List.singleton_inj.mp same
    rw [List.concat_eq_append,givenSnoc]
    simpa [given] using h before item' after rfl

theorem silentKeeps {size} {trace : List (Event α)} {s : System α} (inv : Inv size trace s)
    {event : Event α} (noWrite : written [event] = []) (noGive : given [event] = [])
    (other : peekOf event = none) {p : Producer α} {c : Consumer α}
    (hp : ProducerOk s.queue p) (hc : ConsumerOk s.queue c) :
    Inv size (trace ++ [event]) ⟨s.queue,p,c⟩ where
  ok := inv.ok
  capacity := inv.capacity
  stream := by simpa [writtenSnoc,givenSnoc,noWrite,noGive] using inv.stream
  producer := hp
  consumer := hc
  peek := peekKeeps inv.peek other (by intro items item h; simpa [noGive] using h)

theorem producerPreserves {size} {trace : List (Event α)} {s : System α} (inv : Inv size trace s)
    (e : α) : Inv size (trace ++ [(producerStep e s).2]) (producerStep e s).1 := by
  obtain ⟨q,producer,consumer⟩ := s
  have ok := inv.ok
  have hp := inv.producer
  have hc := inv.consumer
  cases producer with
  | idle => exact silentKeeps inv rfl rfl rfl rfl hc
  | positioned e currentWrite =>
    have same : currentWrite = q.writePos := hp
    simp only [producerStep]
    split
    · rename_i room
      refine silentKeeps inv rfl rfl rfl ⟨same,?_,room⟩ hc
      rw [nextRecordAdvance ok.fits (same ▸ ok.writeLt),same]
    · exact silentKeeps inv rfl rfl rfl trivial hc
  | admitted e currentWrite next =>
    obtain ⟨same,hn,room⟩ := hp
    dsimp only at same hn room
    subst same
    have keep := liveFill ok e
    refine ⟨⟨ok.two,ok.fits,ok.readLt,ok.writeLt⟩,inv.capacity,?_,?_,?_,?_⟩
    · simpa [writtenSnoc,givenSnoc,producerStep,written,given,keep] using inv.stream
    · exact ⟨hn,room,Function.update_self ..⟩
    · cases consumer with
      | idle => trivial
      | positioned call currentRead => exact hc
      | available call currentRead => exact hc
      | taken item next =>
        obtain ⟨ha,apart,hi⟩ := hc
        exact ⟨ha,apart,by rw [← hi]; exact Function.update_of_ne apart _ _⟩
    · refine peekKeeps inv.peek rfl ?_
      intro items item h
      simpa [producerStep,given,keep] using h
  | filled e next =>
    obtain ⟨hn,room,hr⟩ := hp
    dsimp only at hn room hr
    subst hn
    have push := livePush ok room hr
    refine ⟨⟨ok.two,ok.fits,ok.readLt,advanceLt ok.writeLt⟩,inv.capacity,?_,trivial,?_,?_⟩
    · have stream : written trace = given trace ++ live q := inv.stream
      have now : written [Event.wrote e] = [e] ∧ given [Event.wrote e] = [] := ⟨rfl,rfl⟩
      simp only [producerStep,writtenSnoc,givenSnoc,now.1,now.2,push,stream,List.append_nil,
        List.append_assoc]
    · cases consumer with
      | idle => trivial
      | positioned call currentRead => exact hc
      | available call currentRead => exact ⟨hc.1,by rw [hc.1]; exact room.symm⟩
      | taken item next => exact ⟨hc.1,room.symm,hc.2.2⟩
    · refine peekKeeps inv.peek rfl ?_
      intro items item h
      simp only [producerStep]
      have now : given [Event.wrote e] = [] := rfl
      rw [push,now,List.append_nil,← List.append_assoc,List.head?_append,h]
      rfl

theorem consumerPreserves {size} {trace : List (Event α)} {s : System α} (inv : Inv size trace s)
    (call : Call) : Inv size (trace ++ [(consumerStep call s).2]) (consumerStep call s).1 := by
  obtain ⟨q,producer,consumer⟩ := s
  have ok := inv.ok
  have hp := inv.producer
  have hc := inv.consumer
  cases consumer with
  | idle => exact silentKeeps inv rfl rfl rfl hp rfl
  | positioned call currentRead =>
    simp only [consumerStep]
    split
    · exact silentKeeps inv rfl rfl rfl hp trivial
    · rename_i some
      exact silentKeeps inv rfl rfl rfl hp ⟨hc,some⟩
  | available call currentRead =>
    obtain ⟨same,apart⟩ := hc
    dsimp only at same apart
    subst same
    cases call with
    | read =>
      refine silentKeeps inv rfl rfl rfl hp ⟨?_,apart,rfl⟩
      exact nextRecordAdvance ok.fits ok.readLt
    | peek =>
      refine ⟨ok,inv.capacity,?_,hp,trivial,peekAdds inv.peek ?_⟩
      · simpa [writtenSnoc,givenSnoc,consumerStep,written,given] using inv.stream
      · exact (congrArg List.head? (livePop ok apart rfl)).trans rfl
  | taken item next =>
    obtain ⟨hn,apart,hr⟩ := hc
    dsimp only at hn apart hr
    subst hn
    have pop := livePop ok apart hr
    refine ⟨⟨ok.two,ok.fits,advanceLt ok.readLt,ok.writeLt⟩,inv.capacity,?_,?_,trivial,?_⟩
    · have stream : written trace = given trace ++ live q := inv.stream
      have now : written [Event.gave item] = [] ∧ given [Event.gave item] = [item] := ⟨rfl,rfl⟩
      simp only [consumerStep,writtenSnoc,givenSnoc,now.1,now.2,stream,pop,List.append_nil,
        List.append_assoc,List.singleton_append]
    · -- the producer's room only grows when the consumer moves on
      have away {next} (hn : next = advance q.capacity q.writePos) :
          next ≠ advance q.capacity q.readPos :=
        fun same => apart (advanceInjective (same.symm.trans hn))
      cases producer with
      | idle => trivial
      | positioned e currentWrite => exact hp
      | admitted e currentWrite next => exact ⟨hp.1,hp.2.1,away hp.2.1⟩
      | filled e next => exact ⟨hp.1,away hp.1,hp.2.2⟩
    · refine peekKeeps inv.peek rfl ?_
      intro items front h
      have now : given [Event.gave item] = [item] := rfl
      simp only [consumerStep,now]
      rw [List.append_assoc,List.singleton_append,← pop]
      exact h

theorem beginInv {memory : Option (Nat → α)} {size q} (fits : size < uintRange)
    (accepted : spscQueueInit memory size = some q) : Inv size [] (begin q) := by
  obtain ⟨ok,capacity,empty⟩ := initOk fits accepted
  exact ⟨ok,capacity,by simp [begin,empty,written,given],trivial,trivial,by
    intro before item after whole
    simp at whole⟩

theorem stepPreserves {size} {trace : List (Event α)} {s s' : System α} {event : Event α}
    (inv : Inv size trace s) (step : Step s event s') : Inv size (trace ++ [event]) s' := by
  obtain ⟨turn,same⟩ := step
  have moved : (turnStep s turn).1 = s' ∧ (turnStep s turn).2 = event := by simp [same]
  rw [← moved.1,← moved.2]
  cases turn with
  | producer e => exact producerPreserves inv e
  | consumer call => exact consumerPreserves inv call

/-- A bounded queue, one step for each access of the ring. An answer is given where it
is true: a write is refused when the queue is full and a read fails when it is empty. -/
inductive Serves (bound : Nat) : List α → Event α → List α → Prop where
  | silent {items} : Serves bound items .silent items
  | filled {items place e} : Serves bound items (.filled place e) items
  | refused {items e} (full : items.length = bound) : Serves bound items (.refused e) items
  | wrote {items e} (room : items.length < bound) : Serves bound items (.wrote e) (items ++ [e])
  | empty {call} : Serves bound [] (.empty call) []
  | peeked {item items} : Serves bound (item :: items) (.peeked item) (item :: items)
  | gave {item items} : Serves bound (item :: items) (.gave item) items

theorem servesEmpty {bound : Nat} {items items' : List α} {call : Call} (h : Serves bound items (.empty call) items') :
    items = [] := by
  cases h
  rfl

theorem servesRefused {bound : Nat} {items items' : List α} {e : α} (h : Serves bound items (.refused e) items') :
    items.length = bound := by
  cases h with
  | refused full => exact full

section Served
variable {size : Nat} {trace : List (Event α)} {s s' : System α} {event : Event α}

theorem producerServes (inv : Inv size trace s) (e : α) :
    Serves (size - 1) (live s.queue) (producerStep e s).2 (live (producerStep e s).1.queue) := by
  have capacity := inv.capacity
  obtain ⟨q,producer,consumer⟩ := s
  have ok := inv.ok
  have hp := inv.producer
  dsimp only at ok capacity
  subst capacity
  cases producer with
  | idle => exact .silent
  | positioned e currentWrite =>
    have same : currentWrite = q.writePos := hp
    simp only [producerStep]
    split
    · exact .silent
    · rename_i full
      rw [same,nextRecordAdvance ok.fits ok.writeLt,not_not] at full
      exact .refused (windowLength.trans ((distanceFull ok.readLt ok.writeLt).mpr full))
  | admitted e currentWrite next =>
    obtain ⟨same,_,_⟩ := hp
    dsimp only at same
    subst same
    simp only [producerStep,liveFill ok e]
    exact .filled
  | filled e next =>
    obtain ⟨hn,room,hr⟩ := hp
    dsimp only at hn room hr
    subst hn
    have push := livePush ok room hr
    have ok' : Ok {q with writePos := advance q.capacity q.writePos} :=
      ⟨ok.two,ok.fits,ok.readLt,advanceLt ok.writeLt⟩
    have short : (live {q with writePos := advance q.capacity q.writePos}).length < q.capacity := liveLength ok'
    rw [push,List.length_append,List.length_singleton] at short
    simp only [producerStep,push]
    exact .wrote (by omega)

theorem consumerServes (inv : Inv size trace s) (call : Call) :
    Serves (size - 1) (live s.queue) (consumerStep call s).2 (live (consumerStep call s).1.queue) := by
  obtain ⟨q,producer,consumer⟩ := s
  have ok := inv.ok
  have hc := inv.consumer
  dsimp only at ok
  cases consumer with
  | idle => exact .silent
  | positioned call currentRead =>
    have same : currentRead = q.readPos := hc
    simp only [consumerStep]
    split
    · rename_i none
      have empty : live q = [] := by
        refine List.eq_nil_of_length_eq_zero (windowLength.trans ((distanceZero ok.readLt).mpr ?_))
        exact same.symm.trans none
      rw [empty]
      exact .empty
    · exact .silent
  | available call currentRead =>
    obtain ⟨same,apart⟩ := hc
    dsimp only at same apart
    subst same
    cases call with
    | read => exact .silent
    | peek =>
      simp only [consumerStep,livePop ok apart rfl]
      exact .peeked
  | taken item next =>
    obtain ⟨hn,apart,hr⟩ := hc
    dsimp only at hn apart hr
    subst hn
    simp only [consumerStep,livePop ok apart hr]
    exact .gave

theorem stepServes (inv : Inv size trace s) (step : Step s event s') :
    Serves (size - 1) (live s.queue) event (live s'.queue) := by
  obtain ⟨turn,same⟩ := step
  have moved : (turnStep s turn).1 = s' ∧ (turnStep s turn).2 = event := by simp [same]
  rw [← moved.1,← moved.2]
  cases turn with
  | producer e => exact producerServes inv e
  | consumer call => exact consumerServes inv call

theorem runServes (inv : Inv size [] s) (none : live s.queue = []) (run : Run Step s trace s') :
    Inv size trace s' ∧ Run (Serves (size - 1)) [] trace (live s'.queue) := by
  refine Base.Trace.runInvariant (fun trace t => Inv size trace t ∧ Run (Serves (size - 1)) [] trace (live t.queue))
    ⟨inv,none ▸ .nil⟩ ?_ run
  rintro trace t event t' ⟨inv,served⟩ step
  exact ⟨stepPreserves inv step,.snoc served (stepServes inv step)⟩

end Served

/-- The producer's turns with their events, call by call: a call keeps the argument of its
first turn and is answered in its second or its fourth. -/
inductive Writing : List (α × Event α) → Option (α × Nat) → Prop where
  | start : Writing [] none
  | begins {own e} (done : Writing own none) : Writing (own ++ [(e,.silent)]) (some (e,1))
  | refused {own e e'} (asked : Writing own (some (e,1))) : Writing (own ++ [(e',.refused e)]) none
  | admitted {own e e'} (asked : Writing own (some (e,1))) : Writing (own ++ [(e',.silent)]) (some (e,2))
  | filled {own e e' place} (room : Writing own (some (e,2))) :
      Writing (own ++ [(e',.filled place e)]) (some (e,3))
  | wrote {own e e'} (there : Writing own (some (e,3))) : Writing (own ++ [(e',.wrote e)]) none

inductive Reading : List (Call × Event α) → Option (Call × Nat) → Prop where
  | start : Reading [] none
  | begins {own call} (done : Reading own none) : Reading (own ++ [(call,.silent)]) (some (call,1))
  | empty {own call call'} (asked : Reading own (some (call,1))) : Reading (own ++ [(call',.empty call)]) none
  | available {own call call'} (asked : Reading own (some (call,1))) :
      Reading (own ++ [(call',.silent)]) (some (call,2))
  | peeked {own call' item} (some' : Reading own (some (.peek,2))) : Reading (own ++ [(call',.peeked item)]) none
  | taken {own call'} (some' : Reading own (some (.read,2))) : Reading (own ++ [(call',.silent)]) (some (.read,3))
  | gave {own call' item} (there : Reading own (some (.read,3))) : Reading (own ++ [(call',.gave item)]) none

def writeCall : Producer α → Option (α × Nat)
  | .idle => none
  | .positioned e _ => some (e,1)
  | .admitted e _ _ => some (e,2)
  | .filled e _ => some (e,3)

def readCall : Consumer α → Option (Call × Nat)
  | .idle => none
  | .positioned call _ => some (call,1)
  | .available call _ => some (call,2)
  | .taken _ _ => some (.read,3)

def producerTurn : Turn α × Event α → Option (α × Event α)
  | (.producer e,event) => some (e,event)
  | _ => none

def consumerTurn : Turn α × Event α → Option (Call × Event α)
  | (.consumer call,event) => some (call,event)
  | _ => none

structure Calls (turns : List (Turn α × Event α)) (s : System α) : Prop where
  writes : Writing (turns.filterMap producerTurn) (writeCall s.producer)
  reads : Reading (turns.filterMap consumerTurn) (readCall s.consumer)

section Answered
variable {turns : List (Turn α × Event α)} {s : System α}

theorem callsTurn (calls : Calls turns s) (turn : Turn α) :
    Calls (turns ++ [(turn,(turnStep s turn).2)]) (turnStep s turn).1 := by
  obtain ⟨writes,reads⟩ := calls
  obtain ⟨q,producer,consumer⟩ := s
  cases turn with
  | producer e =>
    refine ⟨?_,?_⟩
    · rw [List.filterMap_append]
      cases producer with
      | idle => exact .begins writes
      | positioned e currentWrite =>
        simp only [turnStep,producerStep]
        split
        · exact .admitted writes
        · exact .refused writes
      | admitted => exact .filled writes
      | filled => exact .wrote writes
    · have same : (producerStep e ⟨q,producer,consumer⟩).1.consumer = consumer := by
        cases producer with
        | positioned =>
          simp only [producerStep]
          split <;> rfl
        | _ => rfl
      rw [List.filterMap_append]
      change Reading (_ ++ []) (readCall (producerStep e ⟨q,producer,consumer⟩).1.consumer)
      rw [List.append_nil,same]
      exact reads
  | consumer call =>
    refine ⟨?_,?_⟩
    · have same : (consumerStep call ⟨q,producer,consumer⟩).1.producer = producer := by
        cases consumer with
        | positioned =>
          simp only [consumerStep]
          split <;> rfl
        | available call => cases call <;> rfl
        | _ => rfl
      rw [List.filterMap_append]
      change Writing (_ ++ []) (writeCall (consumerStep call ⟨q,producer,consumer⟩).1.producer)
      rw [List.append_nil,same]
      exact writes
    · rw [List.filterMap_append]
      cases consumer with
      | idle => exact .begins reads
      | positioned call currentRead =>
        simp only [turnStep,consumerStep]
        split
        · exact .empty reads
        · exact .available reads
      | available call =>
        cases call with
        | read => exact .taken reads
        | peek => exact .peeked reads
      | taken => exact .gave reads

theorem callsPlay (calls : Calls turns s) (more : List (Turn α)) :
    Calls (turns ++ more.zip (play s more).2) (play s more).1 := by
  induction more generalizing turns s with
  | nil => simpa [play] using calls
  | cons turn more ih =>
    have later := ih (callsTurn calls turn)
    rwa [List.append_assoc] at later

end Answered

/-- What every moment of every schedule shows: `unread` is what was written and not
given yet, it sits in the cells from the read position on, and the cell a producer
is about to write is none of them. What the calls answered is what a bounded queue answers. -/
structure Fifo (size : Nat) (trace : List (Event α)) (s : System α) (unread : List α) : Prop where
  stream : written trace = given trace ++ unread
  readLt : s.queue.readPos < size
  writeLt : s.queue.writePos < size
  held : unread.length ≤ size - 1
  stored : ∀ i item, unread[i]? = some item →
    s.queue.records (slot size s.queue.readPos i) = item
  spared : ∀ i e currentWrite next, i < unread.length →
    s.producer = .admitted e currentWrite next → slot size s.queue.readPos i ≠ currentWrite
  peek : ∀ before item after, trace = before ++ .peeked item :: after →
    (given after ++ unread).head? = some item
  served : Run (Serves (size - 1)) [] trace unread

theorem invFifo {size} {trace : List (Event α)} {s : System α} (inv : Inv size trace s)
    (served : Run (Serves (size - 1)) [] trace (live s.queue)) : Fifo size trace s (live s.queue) := by
  have ok := inv.ok
  have cap := inv.capacity
  refine ⟨inv.stream,cap ▸ ok.readLt,cap ▸ ok.writeLt,?_,?_,?_,inv.peek,served⟩
  · have short := liveLength ok
    omega
  · intro i item found
    have inside : i < distance s.queue.capacity s.queue.readPos s.queue.writePos := by
      obtain ⟨bound,_⟩ := List.getElem?_eq_some_iff.mp found
      rwa [live,windowLength] at bound
    rw [live,windowAt inside,cap] at found
    exact Option.some.inj found
  · intro i e currentWrite next inside standing
    have hp := inv.producer
    rw [standing] at hp
    rw [live,windowLength] at inside
    rw [hp.1,← cap]
    exact slotOutside ok.readLt inside

theorem ringLinearizable (memory : Option (Nat → α)) (size : Nat) (q : SpscQueue α)
    (fits : size < uintRange) (accepted : spscQueueInit memory size = some q)
    (turns : List (Turn α)) :
    (∃ unread, Fifo size (play (begin q) turns).2 (play (begin q) turns).1 unread) ∧
      Calls (turns.zip (play (begin q) turns).2) (play (begin q) turns).1 := by
  obtain ⟨_,_,none⟩ := initOk fits accepted
  obtain ⟨inv,served⟩ := runServes (beginInv fits accepted) none (playRun (begin q) turns)
  have begun : Calls [] (begin q) := ⟨.start,.start⟩
  exact ⟨⟨_,invFifo inv served⟩,callsPlay begun turns⟩

-- The ring of two is full with one item. Both positions come back to 0.
def wrapping : List (Turn Nat) := List.replicate 4 (.producer 7) ++ List.replicate 3 (.consumer .peek) ++
  [.consumer .read,.producer 8,.consumer .read,.producer 8,.consumer .read,.consumer .read] ++
  List.replicate 3 (.producer 9) ++ List.replicate 2 (.consumer .peek) ++
  .producer 9 :: List.replicate 4 (.consumer .read)

theorem ringLinearizableTwo : (play (begin ⟨2,fun _ => 0,0,0⟩) wrapping).2 =
      [.silent,.silent,.filled 0 7,.wrote 7,.silent,.silent,.peeked 7,.silent,.silent,.silent,.refused 8,.silent,
        .gave 7,.silent,.silent,.filled 1 9,.silent,.empty .peek,.wrote 9,.silent,.silent,.silent,.gave 9] ∧
    (∃ unread, Fifo 2 (play (begin ⟨2,fun _ => 0,0,0⟩) wrapping).2
      (play (begin ⟨2,fun _ => 0,0,0⟩) wrapping).1 unread) ∧
      Calls (wrapping.zip (play (begin ⟨2,fun _ => 0,0,0⟩) wrapping).2)
        (play (begin ⟨2,fun _ => 0,0,0⟩) wrapping).1 :=
  ⟨by decide,ringLinearizable (some fun _ => 0) 2 ⟨2,fun _ => 0,0,0⟩ (by decide) rfl wrapping⟩

end Qtl.SpscInterleaving
