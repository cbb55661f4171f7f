import Qtl.SpscInterleaving

/-! Observers of a shared ring. is_empty, is_full and size load the two positions in
two steps, so the answer may be stale when it is given. Both sides may observe, read
and write at any time; a side makes one call at a time. -/
namespace Qtl.SpscObserve
open Base.Window Spsc
open SpscInterleaving (System Producer Consumer Event Turn Call Inv written given producerStep consumerStep)
open Base.Trace (Run)

variable {α : Type}

inductive Side where | producer | consumer
  deriving DecidableEq, Repr

inductive Order where | readFirst | writeFirst
  deriving DecidableEq, Repr

-- C leaves the order of the loads open in is_empty and size.
inductive Query where
  | isEmpty (order : Order)
  | isFull
  | size (order : Order)
  deriving DecidableEq, Repr

def Query.order : Query → Order
  | .isEmpty order => order
  | .isFull => .writeFirst
  | .size order => order

inductive Answer where
  | isEmpty (b : Bool)
  | isFull (b : Bool)
  | size (n : Nat)
  deriving DecidableEq, Repr

def answer (q : SpscQueue α) (query : Query) (readPos writePos : Nat) : Answer :=
  match query with
  | .isEmpty _ => .isEmpty (readPos == writePos)
  | .isFull => .isFull (nextRecord q writePos == readPos)
  | .size _ => .size (sizeBetween q.capacity readPos writePos)

theorem answerNow (q : SpscQueue α) (query : Query) : answer q query q.readPos q.writePos =
    match query with
    | .isEmpty _ => .isEmpty (spscQueueIsEmpty q)
    | .isFull => .isFull (spscQueueIsFull q)
    | .size _ => .size (spscQueueSize q) := by
  cases query <;> rfl

structure Observed (α : Type) where
  system : System α
  looking : Side → Option (Query × Nat)

def begin (q : SpscQueue α) : Observed α := ⟨SpscInterleaving.begin q,fun _ => none⟩

inductive ObsTurn (α : Type) where
  | call (turn : Turn α)
  | look (side : Side) (query : Query)

inductive ObsEvent (α : Type) where
  | call (side : Side) (event : Event α)
  | loaded (side : Side)
  | answered (side : Side) (answer : Answer)

def sideOf : Turn α → Side
  | .producer _ => .producer
  | .consumer _ => .consumer

def phase (s : System α) : Side → Nat
  | .producer => match s.producer with
    | .idle => 0 | .positioned .. => 1 | .admitted .. => 2 | .filled .. => 3
  | .consumer => match s.consumer with
    | .idle => 0 | .positioned .. => 1 | .available .. => 2 | .taken .. => 3

def load (q : SpscQueue α) : Order → Nat
  | .readFirst => q.readPos
  | .writeFirst => q.writePos

def seen (q : SpscQueue α) (query : Query) (value : Nat) : Nat × Nat :=
  match query.order with
  | .readFirst => (value,q.writePos)
  | .writeFirst => (q.readPos,value)

def turnStep (s : Observed α) : ObsTurn α → Option (ObsEvent α × Observed α)
  | .call turn => match s.looking (sideOf turn) with
    | some _ => none
    | none =>
        let (system,event) := SpscInterleaving.turnStep s.system turn
        some (.call (sideOf turn) event,{s with system := system})
  | .look side query => match s.looking side with
    | none =>
        if phase s.system side = 0 then
          some (.loaded side,
            {s with looking := Function.update s.looking side (some (query,load s.system.queue query.order))})
        else none
    | some (query,value) =>
        let (readPos,writePos) := seen s.system.queue query value
        some (.answered side (answer s.system.queue query readPos writePos),
          {s with looking := Function.update s.looking side none})

abbrev Step : Observed α → ObsEvent α → Observed α → Prop := Base.Trace.Moves turnStep

def calls : List (ObsEvent α) → List (Event α) := List.filterMap (fun event => match event with
  | .call _ event => some event
  | _ => none)

def steps (side : Side) (trace : List (ObsEvent α)) : Nat := trace.countP (fun event => match event with
  | .call side' _ => side' = side
  | _ => false)

theorem callsAppend (trace later : List (ObsEvent α)) : calls (trace ++ later) = calls trace ++ calls later :=
  List.filterMap_append

theorem writtenAppend (trace later : List (Event α)) : written (trace ++ later) = written trace ++ written later :=
  List.filterMap_append

theorem givenAppend (trace later : List (Event α)) : given (trace ++ later) = given trace ++ given later :=
  List.filterMap_append

def items (q : SpscQueue α) : Nat := (live q).length

variable {size : Nat} {q : SpscQueue α} {s s' : Observed α} {trace later : List (ObsEvent α)}

theorem itemsDistance : items q = distance q.capacity q.readPos q.writePos := windowLength

section Balance
variable {before after : List (Event α)} {t t' : System α}

theorem itemsBalance (inv : Inv size before t) (inv' : Inv size (before ++ after) t') :
    items t'.queue + (given after).length = items t.queue + (written after).length := by
  have first := congrArg List.length inv.stream
  have last := congrArg List.length inv'.stream
  rw [writtenAppend,givenAppend] at last
  simp only [List.length_append] at first last
  unfold items
  omega

theorem producerKeeps (s : System α) (e : α) : (producerStep e s).1.queue.readPos = s.queue.readPos ∧
    (producerStep e s).1.queue.capacity = s.queue.capacity ∧ given [(producerStep e s).2] = [] := by
  unfold producerStep
  split <;> try exact ⟨rfl,rfl,rfl⟩
  dsimp only
  split <;> exact ⟨rfl,rfl,rfl⟩

theorem consumerKeeps (s : System α) (call : Call) : (consumerStep call s).1.queue.writePos = s.queue.writePos ∧
    (consumerStep call s).1.queue.capacity = s.queue.capacity ∧ written [(consumerStep call s).2] = [] := by
  unfold consumerStep
  split <;> try exact ⟨rfl,rfl,rfl⟩
  split <;> exact ⟨rfl,rfl,rfl⟩

end Balance

/-- A pair of positions as `side` may have loaded them: its own is current, and the other
one is where the other side stood at some moment since the observer began. -/
def Between (q : SpscQueue α) (side : Side) (positions : Nat × Nat) : Prop :=
  match side with
  | .consumer => positions.1 = q.readPos ∧ positions.2 < q.capacity ∧
      distance q.capacity q.readPos positions.2 ≤ items q
  | .producer => positions.2 = q.writePos ∧ positions.1 < q.capacity ∧
      items q ≤ distance q.capacity positions.1 q.writePos

structure ObsInv (size : Nat) (trace : List (ObsEvent α)) (s : Observed α) : Prop where
  base : Inv size (calls trace) s.system
  resting : ∀ side, s.looking side ≠ none → phase s.system side = 0
  looking : ∀ side query value, s.looking side = some (query,value) →
    Between s.system.queue side (seen s.system.queue query value)

theorem lookBegins (ok : Ok q) (side : Side) (query : Query) :
    Between q side (seen q query (load q query.order)) := by
  have here : seen q query (load q query.order) = (q.readPos,q.writePos) := by
    unfold seen load
    split <;> simp_all
  rw [here]
  cases side with
  | consumer => exact ⟨rfl,ok.writeLt,itemsDistance.ge⟩
  | producer => exact ⟨rfl,ok.readLt,itemsDistance.le⟩

theorem lookOther {before : List (Event α)} {t : System α} {turn : Turn α} {side : Side} {query : Query}
    {value : Nat} (inv : Inv size before t) (other : side ≠ sideOf turn)
    (h : Between t.queue side (seen t.queue query value)) :
    Between (SpscInterleaving.turnStep t turn).1.queue side
      (seen (SpscInterleaving.turnStep t turn).1.queue query value) := by
  have inv' : Inv size (before ++ [(SpscInterleaving.turnStep t turn).2]) (SpscInterleaving.turnStep t turn).1 :=
    SpscInterleaving.stepPreserves inv ⟨turn,rfl⟩
  have balance := itemsBalance inv inv'
  have ok' := inv'.ok
  cases turn with
  | producer e =>
    obtain ⟨same,capacity,none⟩ := producerKeeps t e
    cases side with
    | producer => exact absurd rfl other
    | consumer =>
      simp only [SpscInterleaving.turnStep,none,List.length_nil] at balance ok' ⊢
      cases order : query.order with
      | readFirst =>
        simp only [seen,order] at h ⊢
        exact ⟨h.1.trans same.symm,ok'.writeLt,itemsDistance.ge⟩
      | writeFirst =>
        simp only [seen,order] at h ⊢
        obtain ⟨_,bound,short⟩ := h
        exact ⟨rfl,by rw [capacity]; exact bound,by rw [capacity,same]; omega⟩
  | consumer call =>
    obtain ⟨same,capacity,none⟩ := consumerKeeps t call
    cases side with
    | consumer => exact absurd rfl other
    | producer =>
      simp only [SpscInterleaving.turnStep,none,List.length_nil] at balance ok' ⊢
      cases order : query.order with
      | writeFirst =>
        simp only [seen,order] at h ⊢
        exact ⟨h.1.trans same.symm,ok'.readLt,itemsDistance.le⟩
      | readFirst =>
        simp only [seen,order] at h ⊢
        obtain ⟨_,bound,long⟩ := h
        exact ⟨rfl,by rw [capacity]; exact bound,by rw [capacity,same]; omega⟩

def Ends : Side → Event α → Prop
  | .producer, .refused _ => True
  | .producer, .wrote _ => True
  | .consumer, .empty _ => True
  | .consumer, .peeked _ => True
  | .consumer, .gave _ => True
  | _,_ => False

theorem phaseOwn (t : System α) (turn : Turn α) :
    Ends (sideOf turn) (SpscInterleaving.turnStep t turn).2 ∨
    phase (SpscInterleaving.turnStep t turn).1 (sideOf turn) = phase t (sideOf turn) + 1 := by
  obtain ⟨queue,producer,consumer⟩ := t
  cases turn with
  | producer e =>
    cases producer with
    | idle => exact .inr rfl
    | positioned e current =>
      simp only [SpscInterleaving.turnStep,producerStep,sideOf]
      split
      · exact .inr rfl
      · exact .inl trivial
    | admitted => exact .inr rfl
    | filled => exact .inl trivial
  | consumer call =>
    cases consumer with
    | idle => exact .inr rfl
    | positioned call current =>
      simp only [SpscInterleaving.turnStep,consumerStep,sideOf]
      split
      · exact .inl trivial
      · exact .inr rfl
    | available call current =>
      cases call with
      | read => exact .inr rfl
      | peek => exact .inl trivial
    | taken => exact .inl trivial

theorem phaseOther (t : System α) {turn : Turn α} {side : Side} (other : side ≠ sideOf turn) :
    phase (SpscInterleaving.turnStep t turn).1 side = phase t side := by
  cases turn with
  | producer e =>
    cases side with
    | producer => exact absurd rfl other
    | consumer =>
      simp only [SpscInterleaving.turnStep]
      unfold producerStep
      split <;> try rfl
      dsimp only
      split <;> rfl
  | consumer call =>
    cases side with
    | consumer => exact absurd rfl other
    | producer =>
      simp only [SpscInterleaving.turnStep]
      unfold consumerStep
      split <;> try rfl
      split <;> rfl

theorem observedStep (inv : ObsInv size trace s) {event : ObsEvent α} (step : Step s event s') :
    ObsInv size (trace ++ [event]) s' := by
  obtain ⟨turn,done⟩ := step
  cases turn with
  | call turn =>
    simp only [turnStep] at done
    split at done <;> try contradiction
    rename_i free
    cases done
    have busy {side : Side} (h : s.looking side ≠ none) : side ≠ sideOf turn := by
      rintro rfl
      exact h free
    refine ⟨?_,fun side h => ?_,fun side query value h => ?_⟩
    · rw [callsAppend]
      exact SpscInterleaving.stepPreserves inv.base ⟨turn,rfl⟩
    · exact (phaseOther s.system (busy h)).trans (inv.resting side h)
    · have h' : s.looking side = some (query,value) := h
      exact lookOther inv.base (busy (by simp [h'])) (inv.looking side query value h')
  | look side query =>
    have same (event : ObsEvent α) (silent : calls [event] = []) : calls (trace ++ [event]) = calls trace := by
      rw [callsAppend,silent,List.append_nil]
    simp only [turnStep] at done
    split at done
    · split at done <;> try contradiction
      rename_i rest
      cases done
      refine ⟨by rw [same _ rfl]; exact inv.base,fun side' h => ?_,fun side' query' value h => ?_⟩
      · by_cases own : side' = side
        · rw [own]; exact rest
        · exact inv.resting side' (by simpa [Function.update_of_ne own] using h)
      · by_cases own : side' = side
        · subst own
          simp only [Function.update_self,Option.some.injEq,Prod.mk.injEq] at h
          obtain ⟨rfl,rfl⟩ := h
          exact lookBegins inv.base.ok side' query
        · simp only [Function.update_of_ne own] at h
          exact inv.looking side' query' value h
    · cases done
      refine ⟨by rw [same _ rfl]; exact inv.base,fun side' h => ?_,fun side' query' value h => ?_⟩
      · by_cases own : side' = side
        · subst own
          exact inv.resting side' (by simp_all)
        · exact inv.resting side' (by simpa [Function.update_of_ne own] using h)
      · by_cases own : side' = side
        · subst own
          simp at h
        · simp only [Function.update_of_ne own] at h
          exact inv.looking side' query' value h

theorem observedFrom (inv : ObsInv size trace s) (run : Run Step s later s') : ObsInv size (trace ++ later) s' := by
  refine Base.Trace.runInvariant (fun later t => ObsInv size (trace ++ later) t) (by simpa using inv) ?_ run
  intro later t event t' inv step
  rw [← List.append_assoc]
  exact observedStep inv step

theorem observedInv {memory : Option (Nat → α)} (fits : size < uintRange)
    (accepted : spscQueueInit memory size = some q) (run : Run Step (begin q) trace s) : ObsInv size trace s := by
  have start : ObsInv size [] (begin q) :=
    ⟨SpscInterleaving.beginInv fits accepted,fun _ h => absurd rfl h,fun _ _ _ h => by cases h⟩
  exact observedFrom start run

def promised (size : Nat) : Side → Answer → Option Nat
  | .consumer, .isEmpty false => some 1
  | .consumer, .size n => some n
  | .producer, .isFull false => some (size - 2)
  | .producer, .size n => some n
  | _,_ => none

def Bounds (q : SpscQueue α) : Side → Nat → Prop
  | .consumer, n => n ≤ items q
  | .producer, n => items q ≤ n

theorem answerBounds (ok : Ok q) (small : q.capacity ≤ 2^31) {side : Side} {query : Query}
    {readPos writePos n : Nat} (between : Between q side (readPos,writePos))
    (promise : promised q.capacity side (answer q query readPos writePos) = some n) : Bounds q side n := by
  cases side with
  | consumer =>
    obtain ⟨rfl,bound,least⟩ := between
    dsimp only at bound least
    cases query with
    | isEmpty order =>
      have some : distance q.capacity q.readPos writePos = 0 ↔ q.readPos = writePos := distanceZero ok.readLt
      cases same : q.readPos == writePos with
      | true => simp [answer,promised,same] at promise
      | false =>
        simp only [answer,promised,same] at promise
        cases promise
        have apart : q.readPos ≠ writePos := by simpa using same
        change 1 ≤ items q
        omega
    | isFull => cases promise
    | size order =>
      simp only [answer,promised,sizeBetweenExact small ok.readLt bound] at promise
      cases promise
      exact least
  | producer =>
    obtain ⟨rfl,bound,most⟩ := between
    dsimp only at bound most
    cases query with
    | isEmpty order => cases promise
    | isFull =>
      have full := distanceFull bound ok.writeLt
      have inside := distanceLt bound ok.writeLt
      rw [← nextRecordAdvance ok.fits ok.writeLt] at full
      cases same : nextRecord q q.writePos == readPos with
      | true => simp [answer,promised,same] at promise
      | false =>
        simp only [answer,promised,same] at promise
        cases promise
        have apart : nextRecord q q.writePos ≠ readPos := by simpa using same
        change items q ≤ q.capacity - 2
        omega
    | size order =>
      simp only [answer,promised,sizeBetweenExact small bound ok.writeLt] at promise
      cases promise
      exact most

theorem answerSound (inv : ObsInv size trace s) (small : size ≤ 2^31) {side : Side} {given : Answer} {n : Nat}
    (step : Step s (.answered side given) s') (promise : promised size side given = some n) :
    s'.system = s.system ∧ phase s.system side = 0 ∧ Bounds s.system.queue side n := by
  obtain ⟨turn,done⟩ := step
  cases turn with
  | call turn =>
    simp only [turnStep] at done
    split at done <;> cases done
  | look side query =>
    simp only [turnStep] at done
    split at done
    · split at done <;> cases done
    · rename_i query value found
      cases done
      have cap := inv.base.capacity
      refine ⟨rfl,inv.resting side (by simp [found]),?_⟩
      exact answerBounds inv.base.ok (cap ▸ small) (inv.looking side query value found) (cap ▸ promise)

structure AtLeast (n : Nat) (later : List (ObsEvent α)) (s : Observed α) : Prop where
  held : given (calls later) = [] → n ≤ items s.system.queue
  some : 0 < n → given (calls later) = [] → ∀ call, .empty call ∉ calls later
  returns : 0 < n → 4 ≤ steps .consumer later → ∃ item, .gave item ∈ calls later ∨ .peeked item ∈ calls later

structure AtMost (n : Nat) (later : List (ObsEvent α)) (s : Observed α) : Prop where
  held : written (calls later) = [] → items s.system.queue ≤ n
  room : n < s.system.queue.capacity - 1 → written (calls later) = [] → ∀ e, .refused e ∉ calls later
  returns : n < s.system.queue.capacity - 1 → 4 ≤ steps .producer later → ∃ e, .wrote e ∈ calls later

theorem callMoment (run : Run Step s later s') {side : Side} {event : Event α} (mem : .call side event ∈ later) :
    ∃ first rest t t', later = first ++ .call side event :: rest ∧ Run Step s first t ∧
      Step t (.call side event) t' := by
  obtain ⟨first,rest,rfl⟩ := List.append_of_mem mem
  obtain ⟨t',before,_⟩ := Base.Trace.runSplit (first ++ [.call side event]) rest (by simpa using run)
  obtain ⟨t,before,step⟩ := Base.Trace.runSnocInv before
  exact ⟨first,rest,t,t',rfl,before,step⟩

theorem callStep {side : Side} {event : Event α} (step : Step s (.call side event) s') :
    ∃ turn, side = sideOf turn ∧ (SpscInterleaving.turnStep s.system turn).1 = s'.system ∧
      (SpscInterleaving.turnStep s.system turn).2 = event := by
  obtain ⟨turn,done⟩ := step
  cases turn with
  | call turn =>
    simp only [turnStep] at done
    split at done <;> cases done
    exact ⟨turn,rfl,rfl,rfl⟩
  | look side query =>
    simp only [turnStep] at done
    split at done
    · split at done <;> cases done
    · cases done

theorem callServes (inv : ObsInv size trace s) {side : Side} {event : Event α} (step : Step s (.call side event) s') :
    SpscInterleaving.Serves (size - 1) (live s.system.queue) event (live s'.system.queue) := by
  obtain ⟨turn,_,moved,told⟩ := callStep step
  exact SpscInterleaving.stepServes inv.base ⟨turn,Prod.ext moved told⟩

theorem emptyMoment (inv : ObsInv size trace s) {side : Side} {call : Call}
    (step : Step s (.call side (.empty call)) s') : items s.system.queue = 0 := by
  rw [items,SpscInterleaving.servesEmpty (callServes inv step)]
  rfl

theorem refusedMoment (inv : ObsInv size trace s) {side : Side} {e : α}
    (step : Step s (.call side (.refused e)) s') : items s.system.queue = s.system.queue.capacity - 1 := by
  rw [items,inv.base.capacity]
  exact SpscInterleaving.servesRefused (callServes inv step)

theorem lookStep {event : ObsEvent α} (step : Step s event s')
    (silent : ∀ side event', event ≠ .call side event') : s'.system = s.system := by
  obtain ⟨turn,done⟩ := step
  cases turn with
  | call turn =>
    simp only [turnStep] at done
    split at done <;> cases done
    exact absurd rfl (silent _ _)
  | look side query =>
    simp only [turnStep] at done
    split at done
    · split at done <;> cases done
      rfl
    · cases done
      rfl

theorem phaseBound (t : System α) (side : Side) : phase t side ≤ 3 := by
  cases side <;> simp only [phase] <;> split <;> omega

theorem callMem {side : Side} {event : Event α} (mem : .call side event ∈ later) : event ∈ calls later :=
  List.mem_filterMap.mpr ⟨_,mem,rfl⟩

theorem callOf {event : Event α} (mem : event ∈ calls later) : ∃ side, .call side event ∈ later := by
  obtain ⟨event',mem,same⟩ := List.mem_filterMap.mp mem
  cases event' <;> cases same
  exact ⟨_,mem⟩

theorem endsWithin (run : Run Step s later s') {side : Side} (rest : phase s.system side = 0)
    (many : 4 ≤ steps side later) : ∃ event, .call side event ∈ later ∧ Ends side event := by
  have counted : (∃ event, .call side event ∈ later ∧ Ends side event) ∨
      phase s'.system side = steps side later := by
    refine Base.Trace.runInvariant (fun later t => (∃ event, .call side event ∈ later ∧ Ends side event) ∨
      phase t.system side = steps side later) (.inr rest) ?_ run
    rintro later t event t' (⟨event',mem,ends⟩ | count) step
    · exact .inl ⟨event',List.mem_append_left _ mem,ends⟩
    cases event with
    | call side' event =>
      obtain ⟨turn,rfl,moved,told⟩ := callStep step
      by_cases own : sideOf turn = side
      · subst own
        rcases phaseOwn t.system turn with ends | more
        · rw [told] at ends
          exact .inl ⟨event,by simp,ends⟩
        · rw [moved,count] at more
          exact .inr (by simpa [steps] using more)
      · have still := phaseOther t.system (Ne.symm own)
        rw [moved,count] at still
        exact .inr (by simpa [steps,own] using still)
    | loaded side' => exact .inr (by rw [lookStep step nofun,count]; simp [steps])
    | answered side' a => exact .inr (by rw [lookStep step nofun,count]; simp [steps])
  rcases counted with found | count
  · exact found
  · have bound := phaseBound s'.system side
    omega

theorem balance (inv : ObsInv size trace s) (run : Run Step s later s') : ObsInv size (trace ++ later) s' ∧
    items s'.system.queue + (given (calls later)).length =
      items s.system.queue + (written (calls later)).length := by
  have inv' := observedFrom inv run
  have base' := inv'.base
  rw [callsAppend] at base'
  exact ⟨inv',itemsBalance inv.base base'⟩

theorem atLeast (inv : ObsInv size trace s) {n : Nat} (least : n ≤ items s.system.queue)
    (rest : phase s.system .consumer = 0) (run : Run Step s later s') : AtLeast n later s' := by
  have stays {later : List (ObsEvent α)} {t : Observed α} (run : Run Step s later t)
      (none : given (calls later) = []) : n ≤ items t.system.queue := by
    have now := (balance inv run).2
    rw [none,List.length_nil] at now
    omega
  have nonempty (pos : 0 < n) (none : given (calls later) = []) (side : Side) (call : Call) :
      .call side (.empty call) ∉ later := by
    intro mem
    obtain ⟨first,tail,t,t',rfl,before,step⟩ := callMoment run mem
    rw [callsAppend,givenAppend] at none
    have some := stays before (List.append_eq_nil_iff.mp none).1
    have empty := emptyMoment (balance inv before).1 step
    omega
  refine ⟨stays run,fun pos none call mem => ?_,fun pos many => ?_⟩
  · obtain ⟨side,mem⟩ := callOf mem
    exact nonempty pos none side call mem
  · obtain ⟨event,mem,ends⟩ := endsWithin run rest many
    have mem' := callMem mem
    cases event with
    | gave item => exact ⟨item,.inl mem'⟩
    | peeked item => exact ⟨item,.inr mem'⟩
    | empty call =>
      cases none : given (calls later) with
      | nil => exact absurd mem (nonempty pos none _ _)
      | cons item rest =>
        have first : item ∈ given (calls later) := by simp [none]
        obtain ⟨event,mem,same⟩ := List.mem_filterMap.mp first
        cases event <;> cases same
        exact ⟨item,.inl mem⟩
    | _ => exact ends.elim

theorem atMost (inv : ObsInv size trace s) {n : Nat} (most : items s.system.queue ≤ n)
    (rest : phase s.system .producer = 0) (run : Run Step s later s') : AtMost n later s' := by
  have stays {later : List (ObsEvent α)} {t : Observed α} (run : Run Step s later t)
      (none : written (calls later) = []) : items t.system.queue ≤ n := by
    have now := (balance inv run).2
    rw [none,List.length_nil] at now
    omega
  have capacity {later : List (ObsEvent α)} {t : Observed α} (run' : Run Step s later t) :
      t.system.queue.capacity = s'.system.queue.capacity :=
    (balance inv run').1.base.capacity.trans (balance inv run).1.base.capacity.symm
  have room (pos : n < s'.system.queue.capacity - 1) (none : written (calls later) = []) (side : Side) (e : α) :
      .call side (.refused e) ∉ later := by
    intro mem
    obtain ⟨first,tail,t,t',rfl,before,step⟩ := callMoment run mem
    rw [callsAppend,writtenAppend] at none
    have some := stays before (List.append_eq_nil_iff.mp none).1
    have full := refusedMoment (balance inv before).1 step
    rw [capacity before] at full
    omega
  refine ⟨stays run,fun pos none e mem => ?_,fun pos many => ?_⟩
  · obtain ⟨side,mem⟩ := callOf mem
    exact room pos none side e mem
  · obtain ⟨event,mem,ends⟩ := endsWithin run rest many
    have mem' := callMem mem
    cases event with
    | wrote e => exact ⟨e,mem'⟩
    | refused e =>
      cases none : written (calls later) with
      | nil => exact absurd mem (room pos none _ _)
      | cons e rest =>
        have first : e ∈ written (calls later) := by simp [none]
        obtain ⟨event,mem,same⟩ := List.mem_filterMap.mp first
        cases event <;> cases same
        exact ⟨e,mem⟩
    | _ => exact ends.elim

/-- What the other side may do after an answer never breaks what the answer promised,
whichever position the observer loaded first. -/
theorem observersRely {memory : Option (Nat → α)} {answered : Answer} {side : Side} {n : Nat}
    (small : size ≤ 2^31) (accepted : spscQueueInit memory size = some q)
    (run : Run Step (begin q) (trace ++ [.answered side answered]) s)
    (promise : promised size side answered = some n) (after : Run Step s later s') :
    match side with
    | .consumer => AtLeast n later s'
    | .producer => AtMost n later s' := by
  obtain ⟨t,before,step⟩ := Base.Trace.runSnocInv run
  have fits : size < uintRange := by simp only [uintRange]; omega
  have inv := observedInv fits accepted before
  have inv' := observedInv fits accepted run
  obtain ⟨same,rest,bounds⟩ := answerSound inv small step promise
  rw [← same] at rest bounds
  cases side with
  | consumer => exact atLeast inv' bounds rest after
  | producer => exact atMost inv' bounds rest after

theorem observersRelyTwo : ∃ t : Observed Nat, AtLeast 1 [.call .producer (.filled 1 8),
    .call .consumer .silent,.call .consumer .silent,.call .consumer .silent,.call .consumer (.gave 7)] t := by
  have accepted : spscQueueInit (some fun _ => 0) 3 = some ⟨3,fun _ => 0,0,0⟩ := rfl
  have run : Run Step (begin ⟨3,fun _ => 0,0,0⟩) ([.call .producer .silent,.call .producer .silent,
      .call .producer (.filled 0 7),.call .producer (.wrote 7),.call .producer .silent,.loaded .consumer,
      .call .producer .silent] ++ [.answered .consumer (.isEmpty false)]) _ :=
    .snoc (.snoc (.snoc (.snoc (.snoc (.snoc (.snoc (.snoc .nil ⟨.call (.producer 7),rfl⟩)
      ⟨.call (.producer 7),rfl⟩) ⟨.call (.producer 7),rfl⟩) ⟨.call (.producer 7),rfl⟩)
      ⟨.call (.producer 8),rfl⟩) ⟨.look .consumer (.isEmpty .writeFirst),rfl⟩)
      ⟨.call (.producer 8),rfl⟩) ⟨.look .consumer (.isEmpty .writeFirst),rfl⟩
  exact ⟨_,observersRely (by decide) accepted run rfl
    (.snoc (.snoc (.snoc (.snoc (.snoc .nil ⟨.call (.producer 8),rfl⟩) ⟨.call (.consumer .read),rfl⟩)
      ⟨.call (.consumer .read),rfl⟩) ⟨.call (.consumer .read),rfl⟩) ⟨.call (.consumer .read),rfl⟩)⟩

end Qtl.SpscObserve
