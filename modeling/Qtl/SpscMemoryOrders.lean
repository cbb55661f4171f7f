import Qtl.SpscMemoryRun

/-! What the memory orders of the ring are for. Loads that always return the last store give
the interleavings of single accesses, whatever the orders; without any one of the four
orders some run has a data race. -/
namespace Qtl.SpscMemoryOrders
open Base.HappensBefore Base.ReleaseAcquire Base.Window Spsc SpscMemory
open SpscInterleaving (Producer Consumer Call Event)
open SpscObserve (Side Query ObsEvent Observed ObsTurn)
open Base.Trace (Run)

variable {α : Type} {orders : Orders} {size : Nat} {q : SpscQueue α} {t t' : Observed α} {s s' : System α}

def last (m : RingMemory α) (l : Position) : Option Nat := (m.messages l).getLast?.map Message.value

structure Matches (t : Observed α) (s : System α) : Prop where
  capacity : s.capacity = t.system.queue.capacity
  cells : s.memory.cells = t.system.queue.records
  write : last s.memory .writePos = some t.system.queue.writePos
  read : last s.memory .readPos = some t.system.queue.readPos
  producer : s.producer = t.system.producer
  consumer : s.consumer = t.system.consumer
  looking : s.looking = t.looking
  coherent : Coherent owner s.memory

section Steps
variable {queue : SpscQueue α} {m m' : RingMemory α} {p p' : Producer α} {c c' : Consumer α}
variable {looking looking' : Side → Option (Query × Nat)}

theorem loadMatches (h : Matches ⟨⟨queue,p,c⟩,looking⟩ ⟨queue.capacity,m,p,c,looking⟩)
    (messages : m'.messages = m.messages) (cells : m'.cells = m.cells) (coherent : Coherent owner m') :
    Matches ⟨⟨queue,p',c'⟩,looking'⟩ ⟨queue.capacity,m',p',c',looking'⟩ := by
  refine ⟨rfl,cells.trans h.cells,?_,?_,rfl,rfl,rfl,coherent⟩
  · rw [last,messages]
    exact h.write
  · rw [last,messages]
    exact h.read

theorem producerMatches (h : Matches ⟨⟨queue,p,c⟩,looking⟩ ⟨queue.capacity,m,p,c,looking⟩) (e : α) :
    ∃ index moment s', producerStep orders e index ⟨queue.capacity,m,p,c,looking⟩ = some (moment,s') ∧
      moment.event = .call .producer (SpscInterleaving.producerStep e ⟨queue,p,c⟩).2 ∧
      Matches ⟨(SpscInterleaving.producerStep e ⟨queue,p,c⟩).1,looking⟩ s' ∧
      ∀ e currentWrite next, p = .admitted e currentWrite next → moment.action = ⟨.producer,.write currentWrite⟩ := by
  cases p with
  | idle =>
    obtain ⟨index,m',loads,messages,cells⟩ := loadLast h.coherent .producer .relaxed h.write
    exact ⟨index,_,_,Option.bind_eq_some_iff.mpr ⟨_,loads,rfl⟩,rfl,
      loadMatches h messages cells (loadCoherent h.coherent loads),by simp⟩
  | positioned e currentWrite =>
    obtain ⟨index,m',loads,messages,cells⟩ := loadLast h.coherent .producer orders.writeLoads h.read
    have matched {p : Producer α} : Matches ⟨⟨queue,p,c⟩,looking⟩ ⟨queue.capacity,m',p,c,looking⟩ :=
      loadMatches h messages cells (loadCoherent h.coherent loads)
    by_cases room : nextRecord queue currentWrite ≠ queue.readPos
    · refine ⟨index,_,_,Option.bind_eq_some_iff.mpr ⟨_,loads,if_pos room⟩,?_,?_,by simp⟩
      · simp only [SpscInterleaving.producerStep,if_pos room]
      · simp only [SpscInterleaving.producerStep,if_pos room]
        exact matched
    · refine ⟨index,_,_,Option.bind_eq_some_iff.mpr ⟨_,loads,if_neg room⟩,?_,?_,by simp⟩
      · simp only [SpscInterleaving.producerStep,if_neg room]
      · simp only [SpscInterleaving.producerStep,if_neg room]
        exact matched
  | admitted e currentWrite next =>
    refine ⟨0,_,_,rfl,rfl,⟨rfl,?_,h.write,h.read,rfl,rfl,rfl,writeCoherent h.coherent ..⟩,fun _ _ _ at_ => ?_⟩
    · change Function.update m.cells currentWrite e = Function.update queue.records currentWrite e
      rw [h.cells]
    · cases at_
      rfl
  | filled e next =>
    have apart : Position.readPos ≠ .writePos := by simp
    have coherent : Coherent owner (store m (owner .writePos) .writePos orders.writeStores next) :=
      storeCoherent h.coherent ..
    refine ⟨0,_,_,rfl,rfl,⟨rfl,h.cells,lastStored ..,?_,rfl,rfl,rfl,coherent⟩,by simp⟩
    rw [last,messagesStored _ _ _ _ apart]
    exact h.read

theorem consumerMatches (h : Matches ⟨⟨queue,p,c⟩,looking⟩ ⟨queue.capacity,m,p,c,looking⟩) (call : Call) :
    ∃ index moment s', consumerStep orders call index ⟨queue.capacity,m,p,c,looking⟩ = some (moment,s') ∧
      moment.event = .call .consumer (SpscInterleaving.consumerStep call ⟨queue,p,c⟩).2 ∧
      Matches ⟨(SpscInterleaving.consumerStep call ⟨queue,p,c⟩).1,looking⟩ s' ∧
      ∀ call currentRead, c = .available call currentRead → moment.action = ⟨.consumer,.read currentRead⟩ := by
  cases c with
  | idle =>
    obtain ⟨index,m',loads,messages,cells⟩ := loadLast h.coherent .consumer .relaxed h.read
    exact ⟨index,_,_,Option.bind_eq_some_iff.mpr ⟨_,loads,rfl⟩,rfl,
      loadMatches h messages cells (loadCoherent h.coherent loads),by simp⟩
  | positioned call currentRead =>
    obtain ⟨index,m',loads,messages,cells⟩ := loadLast h.coherent .consumer orders.readLoads h.write
    have matched {c : Consumer α} : Matches ⟨⟨queue,p,c⟩,looking⟩ ⟨queue.capacity,m',p,c,looking⟩ :=
      loadMatches h messages cells (loadCoherent h.coherent loads)
    by_cases same : currentRead = queue.writePos
    · refine ⟨index,_,_,Option.bind_eq_some_iff.mpr ⟨_,loads,if_pos same⟩,?_,?_,by simp⟩
      · simp only [SpscInterleaving.consumerStep,if_pos same]
      · simp only [SpscInterleaving.consumerStep,if_pos same]
        exact matched
    · refine ⟨index,_,_,Option.bind_eq_some_iff.mpr ⟨_,loads,if_neg same⟩,?_,?_,by simp⟩
      · simp only [SpscInterleaving.consumerStep,if_neg same]
      · simp only [SpscInterleaving.consumerStep,if_neg same]
        exact matched
  | available call currentRead =>
    have item : m.cells currentRead = queue.records currentRead := congrFun h.cells currentRead
    cases call with
    | read =>
      refine ⟨0,_,_,rfl,rfl,⟨rfl,h.cells,h.write,h.read,rfl,?_,rfl,readCoherent h.coherent ..⟩,fun _ _ at_ => ?_⟩
      · exact congrArg (Consumer.taken · (nextRecord queue currentRead)) item
      · cases at_
        rfl
    | peek =>
      refine ⟨0,_,_,rfl,?_,⟨rfl,h.cells,h.write,h.read,rfl,rfl,rfl,readCoherent h.coherent ..⟩,fun _ _ at_ => ?_⟩
      · exact congrArg (fun item => ObsEvent.call Side.consumer (Event.peeked item)) item
      · cases at_
        rfl
  | taken item next =>
    have apart : Position.writePos ≠ .readPos := by simp
    have coherent : Coherent owner (store m (owner .readPos) .readPos orders.readStores next) :=
      storeCoherent h.coherent ..
    refine ⟨0,_,_,rfl,rfl,⟨rfl,h.cells,?_,lastStored ..,rfl,rfl,rfl,coherent⟩,by simp⟩
    rw [last,messagesStored _ _ _ _ apart]
    exact h.write

theorem restingPhase (system : SpscInterleaving.System α) (m : RingMemory α) (side : Side) :
    resting ⟨system.queue.capacity,m,system.producer,system.consumer,looking⟩ side =
      (SpscObserve.phase system side == 0) := by
  obtain ⟨queue,p,c⟩ := system
  cases side with
  | producer => cases p <;> rfl
  | consumer => cases c <;> rfl

theorem lookMatches (h : Matches ⟨⟨queue,p,c⟩,looking⟩ ⟨queue.capacity,m,p,c,looking⟩) (side : Side) (query : Query)
    {event : ObsEvent α} {t' : Observed α}
    (done : SpscObserve.turnStep ⟨⟨queue,p,c⟩,looking⟩ (.look side query) = some (event,t')) :
    ∃ index moment s', lookStep side query index ⟨queue.capacity,m,p,c,looking⟩ = some (moment,s') ∧
      moment.event = event ∧ Matches t' s' := by
  have value (order : SpscObserve.Order) : last m (firstLoad order) = some (SpscObserve.load queue order) := by
    cases order
    · exact h.read
    · exact h.write
  simp only [SpscObserve.turnStep] at done
  split at done
  · rename_i free
    split at done <;> cases done
    rename_i rests
    have idle : resting ⟨queue.capacity,m,p,c,looking⟩ side = true := by
      rw [restingPhase ⟨queue,p,c⟩ m side,rests]
      rfl
    obtain ⟨index,m',loads,messages,cells⟩ := loadLast h.coherent side .acquire (value query.order)
    refine ⟨index,⟨⟨side,.load (firstLoad query.order) .acquire index⟩,.loaded side⟩,_,?_,rfl,
      loadMatches h messages cells (loadCoherent h.coherent loads)⟩
    simp only [lookStep,free,idle,if_true]
    exact Option.bind_eq_some_iff.mpr ⟨_,loads,rfl⟩
  · rename_i query value busy
    cases done
    have told (readPos writePos : Nat) : SpscObserve.answer (header queue.capacity) query readPos writePos =
        SpscObserve.answer queue query readPos writePos := by cases query <;> rfl
    cases order : query.order with
    | readFirst =>
      obtain ⟨index,m',loads,messages,cells⟩ := loadLast h.coherent side .acquire h.write
      refine ⟨index,⟨⟨side,.load .writePos .acquire index⟩,
        .answered side (SpscObserve.answer (header queue.capacity) query value queue.writePos)⟩,_,?_,?_,
        loadMatches h messages cells (loadCoherent h.coherent loads)⟩
      · simp only [lookStep,busy,order,secondLoad]
        exact Option.bind_eq_some_iff.mpr ⟨_,loads,rfl⟩
      · simp only [SpscObserve.seen,order,told]
    | writeFirst =>
      obtain ⟨index,m',loads,messages,cells⟩ := loadLast h.coherent side .acquire h.read
      refine ⟨index,⟨⟨side,.load .readPos .acquire index⟩,
        .answered side (SpscObserve.answer (header queue.capacity) query queue.readPos value)⟩,_,?_,?_,
        loadMatches h messages cells (loadCoherent h.coherent loads)⟩
      · simp only [lookStep,busy,order,secondLoad]
        exact Option.bind_eq_some_iff.mpr ⟨_,loads,rfl⟩
      · simp only [SpscObserve.seen,order,told]

end Steps

theorem stepMatches {event : ObsEvent α} (h : Matches t s) (step : SpscObserve.Step t event t') :
    ∃ moment s', Step orders s moment s' ∧ moment.event = event ∧ Matches t' s' := by
  obtain ⟨turn,done⟩ := step
  obtain ⟨capacity,m,p',c',looking'⟩ := s
  obtain ⟨⟨queue,p,c⟩,looking⟩ := t
  obtain rfl : capacity = queue.capacity := h.capacity
  obtain rfl : p' = p := h.producer
  obtain rfl : c' = c := h.consumer
  obtain rfl : looking' = looking := h.looking
  cases turn with
  | call turn =>
    simp only [SpscObserve.turnStep] at done
    split at done
    · cases done
    · rename_i free
      cases done
      cases turn with
      | producer e =>
        obtain ⟨index,moment,s',ran,told,matched,_⟩ := @producerMatches _ orders _ _ _ _ _ h e
        refine ⟨moment,s',⟨.producer e index,?_⟩,told,matched⟩
        have free : looking' .producer = none := free
        simp only [turnStep,free,Option.isSome_none,Bool.false_eq_true,if_false]
        exact ran
      | consumer call =>
        obtain ⟨index,moment,s',ran,told,matched,_⟩ := @consumerMatches _ orders _ _ _ _ _ h call
        refine ⟨moment,s',⟨.consumer call index,?_⟩,told,matched⟩
        have free : looking' .consumer = none := free
        simp only [turnStep,free,Option.isSome_none,Bool.false_eq_true,if_false]
        exact ran
  | look side query =>
    obtain ⟨index,moment,s',ran,told,matched⟩ := lookMatches h side query done
    exact ⟨moment,s',⟨.look side query index,ran⟩,told,matched⟩

section Races

inductive CallAction (orders : Orders) : Action Side Position Nat → Prop where
  | ownWrite (i : Nat) : CallAction orders ⟨.producer,.load .writePos .relaxed i⟩
  | loadRead (i : Nat) : CallAction orders ⟨.producer,.load .readPos orders.writeLoads i⟩
  | fill (c : Nat) : CallAction orders ⟨.producer,.write c⟩
  | publish (i : Nat) : CallAction orders ⟨.producer,.store .writePos orders.writeStores i⟩
  | ownRead (i : Nat) : CallAction orders ⟨.consumer,.load .readPos .relaxed i⟩
  | loadWrite (i : Nat) : CallAction orders ⟨.consumer,.load .writePos orders.readLoads i⟩
  | take (c : Nat) : CallAction orders ⟨.consumer,.read c⟩
  | free (i : Nat) : CallAction orders ⟨.consumer,.store .readPos orders.readStores i⟩

theorem producerAction {e : α} {index : Nat} {moment : Moment α}
    (done : producerStep orders e index s = some (moment,s')) : CallAction orders moment.action := by
  unfold producerStep at done
  split at done
  · obtain ⟨_,_,same⟩ := Option.bind_eq_some_iff.mp done
    cases same
    exact .ownWrite index
  · obtain ⟨_,_,same⟩ := Option.bind_eq_some_iff.mp done
    dsimp only at same
    split at same <;> cases same <;> exact .loadRead index
  · cases done
    exact .fill _
  · cases done
    exact .publish _

theorem consumerAction {call : Call} {index : Nat} {moment : Moment α}
    (done : consumerStep orders call index s = some (moment,s')) : CallAction orders moment.action := by
  unfold consumerStep at done
  split at done
  · obtain ⟨_,_,same⟩ := Option.bind_eq_some_iff.mp done
    cases same
    exact .ownRead index
  · obtain ⟨_,_,same⟩ := Option.bind_eq_some_iff.mp done
    dsimp only at same
    split at same <;> cases same <;> exact .loadWrite index
  · cases done
    exact .take _
  · cases done
    exact .take _
  · cases done
    exact .free _

theorem producerTurn (orders : Orders) (h : Matches t s) (free : t.looking .producer = none) (e : α) :
    ∃ moment s', Step orders s moment s' ∧ CallAction orders moment.action ∧
      Matches ⟨(SpscInterleaving.producerStep e t.system).1,t.looking⟩ s' ∧
      ∀ e currentWrite next, t.system.producer = .admitted e currentWrite next →
        moment.action = ⟨.producer,.write currentWrite⟩ := by
  obtain ⟨capacity,m,p',c',looking'⟩ := s
  obtain ⟨⟨queue,p,c⟩,looking⟩ := t
  obtain rfl : capacity = queue.capacity := h.capacity
  obtain rfl : p' = p := h.producer
  obtain rfl : c' = c := h.consumer
  obtain rfl : looking' = looking := h.looking
  have free : looking' .producer = none := free
  obtain ⟨index,moment,s',ran,_,matched,plain⟩ := @producerMatches _ orders _ _ _ _ _ h e
  refine ⟨moment,s',⟨.producer e index,?_⟩,producerAction ran,matched,plain⟩
  simp only [turnStep,free,Option.isSome_none,Bool.false_eq_true,if_false]
  exact ran

theorem consumerTurn (orders : Orders) (h : Matches t s) (free : t.looking .consumer = none) (call : Call) :
    ∃ moment s', Step orders s moment s' ∧ CallAction orders moment.action ∧
      Matches ⟨(SpscInterleaving.consumerStep call t.system).1,t.looking⟩ s' ∧
      ∀ call currentRead, t.system.consumer = .available call currentRead →
        moment.action = ⟨.consumer,.read currentRead⟩ := by
  obtain ⟨capacity,m,p',c',looking'⟩ := s
  obtain ⟨⟨queue,p,c⟩,looking⟩ := t
  obtain rfl : capacity = queue.capacity := h.capacity
  obtain rfl : p' = p := h.producer
  obtain rfl : c' = c := h.consumer
  obtain rfl : looking' = looking := h.looking
  have free : looking' .consumer = none := free
  obtain ⟨index,moment,s',ran,_,matched,plain⟩ := @consumerMatches _ orders _ _ _ _ _ h call
  refine ⟨moment,s',⟨.consumer call index,?_⟩,consumerAction ran,matched,plain⟩
  simp only [turnStep,free,Option.isSome_none,Bool.false_eq_true,if_false]
  exact ran

def apart (queue : SpscQueue α) (p : Producer α) (c : Consumer α) : Observed α := ⟨⟨queue,p,c⟩,fun _ => none⟩

theorem writeRuns (orders : Orders) {queue : SpscQueue α} {c : Consumer α} (h : Matches (apart queue .idle c) s)
    (room : nextRecord queue queue.writePos ≠ queue.readPos) (e : α) :
    ∃ m₁ m₂ m₃ m₄ s', Run (Step orders) s [m₁,m₂,m₃,m₄] s' ∧
      (∀ moment ∈ [m₁,m₂,m₃,m₄], CallAction orders moment.action) ∧ m₃.action = ⟨.producer,.write queue.writePos⟩ ∧
      Matches (apart {queue with
        records := Function.update queue.records queue.writePos e
        writePos := nextRecord queue queue.writePos} .idle c) s' := by
  obtain ⟨m₁,s₁,step₁,call₁,h₁,_⟩ := producerTurn orders h rfl e
  obtain ⟨m₂,s₂,step₂,call₂,h₂,_⟩ := producerTurn orders h₁ rfl e
  have positioned : (SpscInterleaving.producerStep e (SpscInterleaving.producerStep e ⟨queue,.idle,c⟩).1).1 =
      ⟨queue,.admitted e queue.writePos (nextRecord queue queue.writePos),c⟩ := congrArg Prod.fst (if_pos room)
  have h₂ : Matches (apart queue (.admitted e queue.writePos (nextRecord queue queue.writePos)) c) s₂ := by
    have matched := h₂
    simp only [apart,positioned] at matched
    exact matched
  obtain ⟨m₃,s₃,step₃,call₃,h₃,plain⟩ := producerTurn orders h₂ rfl e
  obtain ⟨m₄,s₄,step₄,call₄,h₄,_⟩ := producerTurn orders h₃ rfl e
  refine ⟨m₁,m₂,m₃,m₄,s₄,.snoc (.snoc (.snoc (.snoc .nil step₁) step₂) step₃) step₄,?_,plain _ _ _ rfl,h₄⟩
  simp only [List.forall_mem_cons]
  exact ⟨call₁,call₂,call₃,call₄,by simp⟩

theorem readRuns (orders : Orders) {queue : SpscQueue α} {p : Producer α} (h : Matches (apart queue p .idle) s)
    (some : queue.readPos ≠ queue.writePos) :
    ∃ m₁ m₂ m₃ m₄ s', Run (Step orders) s [m₁,m₂,m₃,m₄] s' ∧
      (∀ moment ∈ [m₁,m₂,m₃,m₄], CallAction orders moment.action) ∧ m₃.action = ⟨.consumer,.read queue.readPos⟩ ∧
      Matches (apart {queue with readPos := nextRecord queue queue.readPos} p .idle) s' := by
  obtain ⟨m₁,s₁,step₁,call₁,h₁,_⟩ := consumerTurn orders h rfl .read
  obtain ⟨m₂,s₂,step₂,call₂,h₂,_⟩ := consumerTurn orders h₁ rfl .read
  have available : (SpscInterleaving.consumerStep .read (SpscInterleaving.consumerStep .read ⟨queue,p,.idle⟩).1).1 =
      ⟨queue,p,.available .read queue.readPos⟩ := congrArg Prod.fst (if_neg some)
  have h₂ : Matches (apart queue p (.available .read queue.readPos)) s₂ := by
    have matched := h₂
    simp only [apart,available] at matched
    exact matched
  obtain ⟨m₃,s₃,step₃,call₃,h₃,plain⟩ := consumerTurn orders h₂ rfl .read
  obtain ⟨m₄,s₄,step₄,call₄,h₄,_⟩ := consumerTurn orders h₃ rfl .read
  refine ⟨m₁,m₂,m₃,m₄,s₄,.snoc (.snoc (.snoc (.snoc .nil step₁) step₂) step₃) step₄,?_,plain _ _ rfl,h₄⟩
  simp only [List.forall_mem_cons]
  exact ⟨call₁,call₂,call₃,call₄,by simp⟩

structure Rounds (orders : Orders) (size n : Nat) (q : SpscQueue α) (trace : List (Moment α)) (s : System α) : Prop where
  run : Run (Step orders) (begin q) trace s
  length : trace.length = 8 * n
  calls : ∀ moment ∈ trace, CallAction orders moment.action
  wrote : ∀ k < n, (actions trace)[8 * k + 2]? = some ⟨.producer,.write (k % size)⟩
  read : ∀ k < n, (actions trace)[8 * k + 6]? = some ⟨.consumer,.read (k % size)⟩
  matched : ∃ records, Matches (apart ⟨size,records,n % size,n % size⟩ .idle .idle) s

theorem actionsAppend (trace later : List (Moment α)) : actions (trace ++ later) = actions trace ++ actions later :=
  List.map_append

theorem writeRound {trace : List (Moment α)} {n : Nat} (two : 2 ≤ size) (fits : size < uintRange)
    (rounds : Rounds orders size n q trace s) (e : α) : ∃ later s' records, Run (Step orders) (begin q) (trace ++ later) s' ∧
      later.length = 4 ∧ (∀ moment ∈ trace ++ later, CallAction orders moment.action) ∧
      (actions (trace ++ later))[8 * n + 2]? = some ⟨.producer,.write (n % size)⟩ ∧
      Matches (apart ⟨size,records,n % size,(n + 1) % size⟩ .idle .idle) s' := by
  obtain ⟨records,matched⟩ := rounds.matched
  have next : nextRecord (⟨size,records,n % size,n % size⟩ : SpscQueue α) (n % size) = (n + 1) % size :=
    SpscMemoryRun.nextMod fits (by omega) n
  have room : nextRecord (⟨size,records,n % size,n % size⟩ : SpscQueue α) (n % size) ≠ n % size := by
    rw [next]
    exact (modApart (by omega) (by omega)).symm
  obtain ⟨m₁,m₂,m₃,m₄,s',ran,calls,plain,matched'⟩ := writeRuns orders matched room e
  rw [next] at matched'
  refine ⟨[m₁,m₂,m₃,m₄],s',Function.update records (n % size) e,Base.Trace.runAppend rounds.run ran,rfl,?_,?_,matched'⟩
  · intro moment mem
    exact (List.mem_append.mp mem).elim (rounds.calls moment) (calls moment)
  · rw [actionsAppend,List.getElem?_append_right (by rw [actions,List.length_map,rounds.length]; omega),actions,
      actions,List.length_map,rounds.length,Nat.add_sub_cancel_left]
    exact congrArg some plain

theorem atBefore {trace later : List (Moment α)} {i : Nat} {a : Action Side Position Nat}
    (found : (actions trace)[i]? = some a) : (actions (trace ++ later))[i]? = some a := by
  rw [actionsAppend]
  exact atLater _ found

theorem nextRound {trace : List (Moment α)} {n : Nat} (two : 2 ≤ size) (fits : size < uintRange)
    (rounds : Rounds orders size n q trace s) (e : α) : ∃ trace s, Rounds orders size (n + 1) q trace s := by
  obtain ⟨later,s₁,records,run₁,length₁,calls₁,wrote,matched₁⟩ := writeRound two fits rounds e
  have next : nextRecord (⟨size,records,n % size,(n + 1) % size⟩ : SpscQueue α) (n % size) = (n + 1) % size :=
    SpscMemoryRun.nextMod fits (by omega) n
  obtain ⟨m₁,m₂,m₃,m₄,s₂,ran,calls,plain,matched₂⟩ := readRuns orders matched₁ (modApart (by omega) (by omega))
  rw [next] at matched₂
  have length : (trace ++ later).length = 8 * n + 4 := by rw [List.length_append,rounds.length,length₁]
  have read : (actions (trace ++ later ++ [m₁,m₂,m₃,m₄]))[8 * n + 6]? = some ⟨.consumer,.read (n % size)⟩ := by
    rw [actionsAppend,List.getElem?_append_right (by rw [actions,List.length_map,length]; omega),actions,actions,
      List.length_map,length,show 8 * n + 6 - (8 * n + 4) = 2 by omega]
    exact congrArg some plain
  refine ⟨trace ++ later ++ [m₁,m₂,m₃,m₄],s₂,Base.Trace.runAppend run₁ ran,?_,?_,fun k below => ?_,fun k below => ?_,
    records,matched₂⟩
  · rw [List.length_append,length,show [m₁,m₂,m₃,m₄].length = 4 from rfl]
    omega
  · intro moment mem
    exact (List.mem_append.mp mem).elim (calls₁ moment) (calls moment)
  · rcases Nat.lt_succ_iff_lt_or_eq.mp below with below | rfl
    · exact atBefore (atBefore (rounds.wrote k below))
    · exact atBefore wrote
  · rcases Nat.lt_succ_iff_lt_or_eq.mp below with below | rfl
    · exact atBefore (atBefore (rounds.read k below))
    · exact read

theorem silentProducer {trace : List (Moment α)} (calls : ∀ moment ∈ trace, CallAction orders moment.action)
    (weak : ¬ (orders.writeStores = .release ∧ orders.readLoads = .acquire)) (i j : Nat)
    (a b : Action Side Position Nat) (first : (actions trace)[i]? = some a) (later : (actions trace)[j]? = some b)
    (mine : a.thread = .producer) (sync : Synchronizes a b) : b.thread = .producer := by
  obtain ⟨l,k,releases,acquires⟩ := sync
  obtain ⟨moment,inside,rfl⟩ := List.mem_map.mp (List.mem_of_getElem? first)
  obtain ⟨moment',inside',rfl⟩ := List.mem_map.mp (List.mem_of_getElem? later)
  have sends := calls moment inside
  have takes := calls moment' inside'
  generalize moment.action = a at *
  generalize moment'.action = b at *
  cases sends with
  | publish i =>
    obtain ⟨rfl,sent,_⟩ := Access.store.inj releases
    cases takes with
    | loadWrite i => exact absurd ⟨sent,(Access.load.inj acquires).2.1⟩ weak
    | ownRead i => cases acquires
    | take c => cases acquires
    | free i => cases acquires
    | _ => rfl
  | free i => cases mine
  | _ => cases releases

theorem silentConsumer {trace : List (Moment α)} (calls : ∀ moment ∈ trace, CallAction orders moment.action)
    (weak : ¬ (orders.readStores = .release ∧ orders.writeLoads = .acquire)) (i j : Nat)
    (a b : Action Side Position Nat) (first : (actions trace)[i]? = some a) (later : (actions trace)[j]? = some b)
    (mine : a.thread = .consumer) (sync : Synchronizes a b) : b.thread = .consumer := by
  obtain ⟨l,k,releases,acquires⟩ := sync
  obtain ⟨moment,inside,rfl⟩ := List.mem_map.mp (List.mem_of_getElem? first)
  obtain ⟨moment',inside',rfl⟩ := List.mem_map.mp (List.mem_of_getElem? later)
  have sends := calls moment inside
  have takes := calls moment' inside'
  generalize moment.action = a at *
  generalize moment'.action = b at *
  cases sends with
  | free i =>
    obtain ⟨rfl,sent,_⟩ := Access.store.inj releases
    cases takes with
    | loadRead i => exact absurd ⟨sent,(Access.load.inj acquires).2.1⟩ weak
    | ownWrite i => cases acquires
    | fill c => cases acquires
    | publish i => cases acquires
    | _ => rfl
  | publish i => cases mine
  | _ => cases releases

theorem beginMatches {memory : Option (Nat → α)} (accepted : spscQueueInit memory size = some q) :
    Matches (SpscObserve.begin q) (begin q) :=
  ⟨rfl,rfl,rfl,rfl,rfl,rfl,rfl,freshCoherent owner (SpscMemoryRun.beginFresh accepted).1⟩

theorem roundsRun {memory : Option (Nat → α)} (fits : size < uintRange) (accepted : spscQueueInit memory size = some q)
    (n : Nat) : ∃ trace s, Rounds orders size n q trace s := by
  obtain ⟨ok,capacity,_⟩ := initOk fits accepted
  have two : 2 ≤ size := capacity ▸ ok.two
  induction n with
  | zero =>
    refine ⟨[],begin q,.nil,rfl,nofun,nofun,nofun,q.records,?_⟩
    have start := beginMatches accepted
    unfold spscQueueInit at accepted
    rw [if_pos two] at accepted
    obtain ⟨records,_,rfl⟩ := Option.map_eq_some_iff.mp accepted
    rw [Nat.zero_mod]
    exact start
  | succ n ih =>
    obtain ⟨trace,s,rounds⟩ := ih
    exact nextRound two fits rounds (q.records 0)

/-- Each of the four orders of the source is needed: a ring of any size is free of data races
in every run exactly when both position stores release and both loads of the other side's
position acquire. -/
theorem ordersNeeded {memory : Option (Nat → α)} (fits : size < uintRange)
    (accepted : spscQueueInit memory size = some q) (orders : Orders) :
    (∀ trace s, Run (Step orders) (begin q) trace s → RaceFree (actions trace)) ↔ orders = sourceOrders := by
  obtain ⟨ok,capacity,_⟩ := initOk fits accepted
  have two : 2 ≤ size := capacity ▸ ok.two
  constructor
  · intro free
    have forward : orders.writeStores = .release ∧ orders.readLoads = .acquire := by
      by_contra weak
      obtain ⟨trace,s,rounds⟩ : ∃ trace s, Rounds orders size 1 q trace s := roundsRun fits accepted 1
      have wrote := rounds.wrote 0 (by omega)
      have read := rounds.read 0 (by omega)
      have ordered := free trace s rounds.run (8 * 0 + 2) (8 * 0 + 6) _ _ (by omega) wrote read
        ⟨nofun,_,.inl ⟨rfl,.inl rfl⟩⟩
      obtain ⟨b,found,mine⟩ := beforeInside (silentProducer rounds.calls weak) ordered wrote rfl
      cases Option.some.inj (found.symm.trans read)
      cases mine
    have backward : orders.readStores = .release ∧ orders.writeLoads = .acquire := by
      by_contra weak
      obtain ⟨trace,s,rounds⟩ : ∃ trace s, Rounds orders size size q trace s := roundsRun fits accepted size
      obtain ⟨later,s',_,run,_,calls,wrote,_⟩ := writeRound two fits rounds (q.records 0)
      have read : (actions (trace ++ later))[8 * 0 + 6]? = some ⟨.consumer,.read (0 % size)⟩ :=
        atBefore (rounds.read 0 (by omega))
      rw [Nat.mod_self,← Nat.zero_mod size] at wrote
      have ordered := free _ s' run (8 * 0 + 6) (8 * size + 2) _ _ (by omega) read wrote ⟨nofun,_,.inr ⟨rfl,rfl⟩⟩
      obtain ⟨b,found,mine⟩ := beforeInside (silentConsumer calls weak) ordered read rfl
      cases Option.some.inj (found.symm.trans wrote)
      cases mine
    obtain ⟨writeLoads,writeStores,readLoads,readStores⟩ := orders
    obtain ⟨rfl,rfl⟩ := forward
    obtain ⟨rfl,rfl⟩ := backward
    rfl
  · rintro rfl trace s run
    exact Base.VectorClock.coveredRaceFree (SpscMemoryRun.beginFresh accepted).1
      (SpscMemoryRun.runServed fits accepted run).memory

theorem ordersNeededRelaxed : ∃ (trace : List (Moment Nat)) (s : System Nat),
    Run (Step ⟨.relaxed,.release,.acquire,.release⟩) (begin ⟨2,fun _ => 0,0,0⟩) trace s ∧ ¬ RaceFree (actions trace) := by
  have accepted : spscQueueInit (some fun _ => 0) 2 = some ⟨2,fun _ => 0,0,0⟩ := rfl
  have needed := ordersNeeded (by decide) accepted ⟨.relaxed,.release,.acquire,.release⟩
  by_contra none
  push Not at none
  cases needed.mp none

end Races

theorem interleavingReplays {memory : Option (Nat → α)} {events : List (ObsEvent α)}
    (accepted : spscQueueInit memory size = some q) (run : Run SpscObserve.Step (SpscObserve.begin q) events t) :
    ∃ trace s, Run (Step orders) (begin q) trace s ∧ trace.map Moment.event = events ∧ Matches t s := by
  refine Base.Trace.runInvariant (fun events t => ∃ trace s, Run (Step orders) (begin q) trace s ∧
    trace.map Moment.event = events ∧ Matches t s) ⟨[],_,.nil,rfl,beginMatches accepted⟩ ?_ run
  rintro events t event t' ⟨trace,s,ran,rfl,matched⟩ step
  obtain ⟨moment,s',last,told,matched'⟩ := stepMatches matched step
  exact ⟨trace ++ [moment],s',.snoc ran last,by rw [List.map_append,← told]; rfl,matched'⟩

theorem interleavingReplaysOne : ∃ (trace : List (Moment Nat)) (s : System Nat),
    Run (Step sourceOrders) (begin ⟨2,fun _ => 0,0,0⟩) trace s ∧ s.memory.cells 0 = 7 ∧
    trace.map Moment.event = [.call .producer .silent,.call .consumer .silent,.call .producer .silent,
      .call .producer (.filled 0 7),.call .consumer (.empty .peek)] := by
  have accepted : spscQueueInit (some fun _ => 0) 2 = some ⟨2,fun _ => 0,0,0⟩ := rfl
  have run : Run SpscObserve.Step (SpscObserve.begin ⟨2,fun _ => 0,0,0⟩) _ _ :=
    .snoc (.snoc (.snoc (.snoc (.snoc .nil ⟨.call (.producer 7),rfl⟩) ⟨.call (.consumer .peek),rfl⟩)
      ⟨.call (.producer 7),rfl⟩) ⟨.call (.producer 7),rfl⟩) ⟨.call (.consumer .peek),rfl⟩
  obtain ⟨trace,s,ran,told,matched⟩ := interleavingReplays accepted run
  exact ⟨trace,s,ran,congrFun matched.cells 0,told⟩

end Qtl.SpscMemoryOrders
