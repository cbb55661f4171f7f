import Qtl.Base.VectorClock
import Qtl.SpscObserve

/-! The ring of spsc_queue.c in C11 memory, with the orders its loads and stores are
written with. The two positions are shared locations, the records are plain cells; a load
may return an old position, and a side sees of the records only what it knows of. -/
namespace Qtl.SpscMemory
open Base.HappensBefore Base.ReleaseAcquire Base.VectorClock Base.Window Spsc
open SpscInterleaving (Producer Consumer Call Event written given)
open SpscObserve (Side Order Query Answer ObsEvent calls answer)
open Base.Trace (Run)

variable {α : Type}

inductive Position where | readPos | writePos
  deriving DecidableEq, Repr

def owner : Position → Side
  | .readPos => .consumer
  | .writePos => .producer

abbrev RingMemory (α : Type) := Memory Side Position Nat Nat α

-- The orders that decide what one side learns of the other.
structure Orders where
  writeLoads : MemoryOrder
  writeStores : MemoryOrder
  readLoads : MemoryOrder
  readStores : MemoryOrder
  deriving DecidableEq, Repr

def sourceOrders : Orders := ⟨.acquire,.release,.acquire,.release⟩

structure System (α : Type) where
  capacity : Nat
  memory : RingMemory α
  producer : Producer α
  consumer : Consumer α
  looking : Side → Option (Query × Nat)

def begin (q : SpscQueue α) : System α where
  capacity := q.capacity
  memory := {
    messages := fun
      | .readPos => [⟨q.readPos,blank⟩]
      | .writePos => [⟨q.writePos,blank⟩]
    views := fun _ => blank
    cells := q.records
    wrote := fun _ _ => 0
    read := fun _ _ => 0
    time := 0}
  producer := .idle
  consumer := .idle
  looking := fun _ => none

def header (capacity : Nat) : SpscQueue Unit := ⟨capacity,fun _ => (),0,0⟩

structure Moment (α : Type) where
  action : Action Side Position Nat
  event : ObsEvent α

-- `index` is the store a load returns; the argument is used when a call starts.
def producerStep (orders : Orders) (e : α) (index : Nat) (s : System α) : Option (Moment α × System α) :=
  match s.producer with
  | .idle => do
      let (currentWrite,memory) ← load s.memory .producer .writePos .relaxed index
      some (⟨⟨.producer,.load .writePos .relaxed index⟩,.call .producer .silent⟩,
        {s with memory := memory, producer := .positioned e currentWrite})
  | .positioned e currentWrite => do
      let next := nextRecord (header s.capacity) currentWrite
      let (readPos,memory) ← load s.memory .producer .readPos orders.writeLoads index
      let action := ⟨.producer,.load .readPos orders.writeLoads index⟩
      if next ≠ readPos then
        some (⟨action,.call .producer .silent⟩,
          {s with memory := memory, producer := .admitted e currentWrite next})
      else some (⟨action,.call .producer (.refused e)⟩,{s with memory := memory, producer := .idle})
  | .admitted e currentWrite next =>
      some (⟨⟨.producer,.write currentWrite⟩,.call .producer (.filled currentWrite e)⟩,
        {s with memory := writeCell s.memory .producer currentWrite e, producer := .filled e next})
  | .filled e next =>
      some (⟨⟨.producer,.store .writePos orders.writeStores (s.memory.messages .writePos).length⟩,
          .call .producer (.wrote e)⟩,
        {s with memory := store s.memory .producer .writePos orders.writeStores next, producer := .idle})

def consumerStep (orders : Orders) (call : Call) (index : Nat) (s : System α) : Option (Moment α × System α) :=
  match s.consumer with
  | .idle => do
      let (currentRead,memory) ← load s.memory .consumer .readPos .relaxed index
      some (⟨⟨.consumer,.load .readPos .relaxed index⟩,.call .consumer .silent⟩,
        {s with memory := memory, consumer := .positioned call currentRead})
  | .positioned call currentRead => do
      let (writePos,memory) ← load s.memory .consumer .writePos orders.readLoads index
      let action := ⟨.consumer,.load .writePos orders.readLoads index⟩
      if currentRead = writePos then
        some (⟨action,.call .consumer (.empty call)⟩,{s with memory := memory, consumer := .idle})
      else
        some (⟨action,.call .consumer .silent⟩,
          {s with memory := memory, consumer := .available call currentRead})
  | .available .read currentRead =>
      let next := nextRecord (header s.capacity) currentRead
      let (item,memory) := readCell s.memory .consumer currentRead
      some (⟨⟨.consumer,.read currentRead⟩,.call .consumer .silent⟩,
        {s with memory := memory, consumer := .taken item next})
  | .available .peek currentRead =>
      let (item,memory) := readCell s.memory .consumer currentRead
      some (⟨⟨.consumer,.read currentRead⟩,.call .consumer (.peeked item)⟩,
        {s with memory := memory, consumer := .idle})
  | .taken item next =>
      some (⟨⟨.consumer,.store .readPos orders.readStores (s.memory.messages .readPos).length⟩,
          .call .consumer (.gave item)⟩,
        {s with memory := store s.memory .consumer .readPos orders.readStores next, consumer := .idle})

def resting (s : System α) : Side → Bool
  | .producer => match s.producer with
    | .idle => true
    | _ => false
  | .consumer => match s.consumer with
    | .idle => true
    | _ => false

def firstLoad : Order → Position
  | .readFirst => .readPos
  | .writeFirst => .writePos

def secondLoad : Order → Position
  | .readFirst => .writePos
  | .writeFirst => .readPos

def positions : Order → Nat → Nat → Nat × Nat
  | .readFirst,first,second => (first,second)
  | .writeFirst,first,second => (second,first)

def lookStep (side : Side) (query : Query) (index : Nat) (s : System α) : Option (Moment α × System α) :=
  match s.looking side with
  | none =>
      if resting s side then do
        let l := firstLoad query.order
        let (value,memory) ← load s.memory side l .acquire index
        some (⟨⟨side,.load l .acquire index⟩,.loaded side⟩,
          {s with memory := memory, looking := Function.update s.looking side (some (query,value))})
      else none
  | some (query,value) => do
      let l := secondLoad query.order
      let (value',memory) ← load s.memory side l .acquire index
      let (readPos,writePos) := positions query.order value value'
      some (⟨⟨side,.load l .acquire index⟩,.answered side (answer (header s.capacity) query readPos writePos)⟩,
        {s with memory := memory, looking := Function.update s.looking side none})

inductive Turn (α : Type) where
  | producer (e : α) (index : Nat)
  | consumer (call : Call) (index : Nat)
  | look (side : Side) (query : Query) (index : Nat)

def turnStep (orders : Orders) (s : System α) : Turn α → Option (Moment α × System α)
  | .producer e index => if (s.looking .producer).isSome then none else producerStep orders e index s
  | .consumer call index => if (s.looking .consumer).isSome then none else consumerStep orders call index s
  | .look side query index => lookStep side query index s

abbrev Step (orders : Orders) : System α → Moment α → System α → Prop := Base.Trace.Moves (turnStep orders)

def actions (trace : List (Moment α)) : List (Action Side Position Nat) := trace.map Moment.action

def events (trace : List (Moment α)) : List (Event α) := calls (trace.map Moment.event)

variable {size w r : Nat} {m m' : RingMemory α}

def WritesKnown (size w : Nat) (m : RingMemory α) (i : Nat) (view : View Side Position) : Prop :=
  ∀ c, (∀ k, i ≤ k → k ≤ w → k % size ≠ c) → m.wrote c .producer ≤ view.clock .producer

def ReadsKnown (size w r : Nat) (m : RingMemory α) (j : Nat) (view : View Side Position) : Prop :=
  ∀ c, (∀ k, j ≤ k → k ≤ r → k < w → k % size ≠ c) → m.read c .consumer ≤ view.clock .consumer

/-- The memory after `w` items written and `r` taken: the positions count them, and what
either side may still load tells it enough of the records. -/
structure Shared (size w r : Nat) (m : RingMemory α) : Prop where
  coherent : Coherent owner m
  writes : (m.messages .writePos).length = w + 1
  takes : (m.messages .readPos).length = r + 1
  writeValue : ∀ (i : Nat) message, (m.messages .writePos)[i]? = some message → message.value = i % size
  readValue : ∀ (i : Nat) message, (m.messages .readPos)[i]? = some message → message.value = i % size
  producerSaw : w < (m.views .producer).seen .readPos + size
  consumerSaw : r ≤ (m.views .consumer).seen .writePos
  wroteOwn : ∀ c, m.wrote c .producer ≤ (m.views .producer).clock .producer
  readOwn : ∀ c, m.read c .consumer ≤ (m.views .consumer).clock .consumer
  wroteNever : ∀ c, m.wrote c .consumer = 0
  readNever : ∀ c, m.read c .producer = 0
  wroteSent : ∀ (i : Nat) message, (m.messages .writePos)[i]? = some message → WritesKnown size w m i message.view
  readSent : ∀ (j : Nat) message, (m.messages .readPos)[j]? = some message → ReadsKnown size w r m j message.view
  consumerKnows : WritesKnown size w m ((m.views .consumer).seen .writePos) (m.views .consumer)
  producerKnows : ReadsKnown size w r m ((m.views .producer).seen .readPos) (m.views .producer)

theorem sawTakes (shared : Shared size w r m) : (m.views .producer).seen .readPos ≤ r := by
  have bound := shared.coherent.bounded .producer .readPos
  rw [shared.takes] at bound
  omega

theorem sawWrites (shared : Shared size w r m) : (m.views .consumer).seen .writePos ≤ w := by
  have bound := shared.coherent.bounded .consumer .writePos
  rw [shared.writes] at bound
  omega

theorem sharedTime (shared : Shared size w r m) (n : Nat) (coherent : Coherent owner {m with time := n}) :
    Shared size w r {m with time := n} :=
  {shared with coherent := coherent}

def counted (w r : Nat) : Position → Nat
  | .writePos => w
  | .readPos => r

theorem lastValue (shared : Shared size w r m) {l : Position} {v : Nat}
    (last : (m.messages l).getLast?.map Message.value = some v) : v = counted w r l % size := by
  obtain ⟨message,found,rfl⟩ := Option.map_eq_some_iff.mp last
  rw [List.getLast?_eq_getElem?] at found
  cases l with
  | writePos =>
    rw [shared.writes] at found
    exact shared.writeValue _ _ found
  | readPos =>
    rw [shared.takes] at found
    exact shared.readValue _ _ found

theorem sharedOwn (shared : Shared size w r m) {l : Position} {order : MemoryOrder} {i v : Nat}
    (returned : load m (owner l) l order i = some (v,m')) :
    Shared size w r m' ∧ v = counted w r l % size ∧ m'.views = m.views ∧ m'.cells = m.cells := by
  obtain ⟨_,last,rfl⟩ := ownLoad shared.coherent returned
  exact ⟨sharedTime shared _ (loadCoherent shared.coherent returned),lastValue shared last,rfl,rfl⟩

theorem sharedAcquireRead (shared : Shared size w r m) {j v : Nat}
    (returned : load m .producer .readPos .acquire j = some (v,m')) :
    Shared size w r m' ∧ v = j % size ∧ (m.views .producer).seen .readPos ≤ j ∧
      (m'.views .producer).seen .readPos = j ∧ m'.views .consumer = m.views .consumer ∧ m'.cells = m.cells := by
  obtain ⟨message,rfl,got⟩ := acquireLoad shared.coherent returned
  have still : m'.views .consumer = m.views .consumer := got.others .consumer nofun
  have saw := got.fresh
  refine ⟨⟨loadCoherent shared.coherent returned,?_,?_,?_,?_,?_,?_,?_,?_,?_,?_,?_,?_,?_,?_⟩,
    shared.readValue j message got.found,saw,got.seen,still,got.cells⟩
  · rw [got.messages]; exact shared.writes
  · rw [got.messages]; exact shared.takes
  · rw [got.messages]; exact shared.writeValue
  · rw [got.messages]; exact shared.readValue
  · have far := shared.producerSaw
    rw [got.seen]
    omega
  · rw [still]; exact shared.consumerSaw
  · rw [got.wrote]; exact fun c => (shared.wroteOwn c).trans (got.grown.2 .producer)
  · rw [got.read,still]; exact shared.readOwn
  · rw [got.wrote]; exact shared.wroteNever
  · rw [got.read]; exact shared.readNever
  · rw [got.messages]; intro i message found c; rw [got.wrote]; exact shared.wroteSent i message found c
  · rw [got.messages]; intro i message found c; rw [got.read]; exact shared.readSent i message found c
  · rw [still]; intro c; rw [got.wrote]; exact shared.consumerKnows c
  · rw [got.seen]
    intro c away
    rw [got.read]
    exact (shared.readSent j message got.found c away).trans (got.learned.2 .consumer)

theorem sharedAcquireWrite (shared : Shared size w r m) {i v : Nat}
    (returned : load m .consumer .writePos .acquire i = some (v,m')) :
    Shared size w r m' ∧ v = i % size ∧ (m.views .consumer).seen .writePos ≤ i ∧
      (m'.views .consumer).seen .writePos = i ∧ m'.views .producer = m.views .producer ∧ m'.cells = m.cells := by
  obtain ⟨message,rfl,got⟩ := acquireLoad shared.coherent returned
  have still : m'.views .producer = m.views .producer := got.others .producer nofun
  have saw := got.fresh
  refine ⟨⟨loadCoherent shared.coherent returned,?_,?_,?_,?_,?_,?_,?_,?_,?_,?_,?_,?_,?_,?_⟩,
    shared.writeValue i message got.found,saw,got.seen,still,got.cells⟩
  · rw [got.messages]; exact shared.writes
  · rw [got.messages]; exact shared.takes
  · rw [got.messages]; exact shared.writeValue
  · rw [got.messages]; exact shared.readValue
  · rw [still]; exact shared.producerSaw
  · rw [got.seen]; exact shared.consumerSaw.trans saw
  · rw [got.wrote,still]; exact shared.wroteOwn
  · rw [got.read]; exact fun c => (shared.readOwn c).trans (got.grown.2 .consumer)
  · rw [got.wrote]; exact shared.wroteNever
  · rw [got.read]; exact shared.readNever
  · rw [got.messages]; intro i message found c; rw [got.wrote]; exact shared.wroteSent i message found c
  · rw [got.messages]; intro i message found c; rw [got.read]; exact shared.readSent i message found c
  · rw [got.seen]
    intro c away
    rw [got.wrote]
    exact (shared.wroteSent i message got.found c away).trans (got.learned.2 .producer)
  · rw [still]; intro c; rw [got.read]; exact shared.producerKnows c

theorem fillCovered (shared : Shared size w r m) (room : w + 1 < (m.views .producer).seen .readPos + size) :
    Covered m ⟨.producer,.write (w % size)⟩ := by
  intro u other
  cases u with
  | producer => exact absurd rfl other
  | consumer =>
    refine ⟨by rw [shared.wroteNever]; exact Nat.zero_le _,shared.producerKnows _ (fun k known _ early => ?_)⟩
    exact modApart early (by omega)

theorem takeCovered (shared : Shared size w r m) (some : r < (m.views .consumer).seen .writePos) :
    Covered m ⟨.consumer,.read (r % size)⟩ := by
  intro u other
  cases u with
  | consumer => exact absurd rfl other
  | producer =>
    refine shared.consumerKnows _ (fun k known early => ?_)
    have far := shared.producerSaw
    have saw := sawTakes shared
    exact (modApart (by omega) (by omega)).symm

theorem sharedFill (shared : Shared size w r m) (e : α) :
    Shared size w r (writeCell m .producer (w % size) e) := by
  have seen (t : Side) (l : Position) :
      ((writeCell m .producer (w % size) e).views t).seen l = (m.views t).seen l := by
    exact congrFun (seenTick m .producer t) l
  have grown (t : Side) : (m.views t).Le ((writeCell m .producer (w % size) e).views t) :=
    leTick shared.coherent .producer t
  have wrote (c : Nat) (u : Side) (h : c ≠ w % size ∨ u ≠ .producer) :
      (writeCell m .producer (w % size) e).wrote c u = m.wrote c u := by
    simp only [writeCell,markApply]
    rw [if_neg]
    rintro ⟨rfl,rfl⟩
    simp at h
  -- item w is in the range of both claims on what was written
  have known {i : Nat} {view : View Side Position} (h : WritesKnown size w m i view) (inside : i ≤ w) :
      WritesKnown size w (writeCell m .producer (w % size) e) i view := by
    intro c away
    rw [wrote c .producer (.inl (Ne.symm (away w inside (Nat.le_refl w))))]
    exact h c away
  refine ⟨writeCoherent shared.coherent .producer _ e,shared.writes,shared.takes,shared.writeValue,shared.readValue,
    ?_,?_,fun c => ?_,fun c => (shared.readOwn c).trans ((grown .consumer).2 .consumer),fun c => ?_,shared.readNever,
    fun i message found => ?_,shared.readSent,?_,fun c away => ?_⟩
  · rw [seen]; exact shared.producerSaw
  · rw [seen]; exact shared.consumerSaw
  · by_cases same : c = w % size
    · subst same
      simp [writeCell,markApply,tick]
    · rw [wrote c .producer (.inl same)]
      exact (shared.wroteOwn c).trans ((grown .producer).2 .producer)
  · rw [wrote c .consumer (.inr (by simp))]; exact shared.wroteNever c
  · refine known (shared.wroteSent i message found) ?_
    have at_ := (List.getElem?_eq_some_iff.mp found).1
    change i < (m.messages .writePos).length at at_
    rw [shared.writes] at at_
    omega
  · rw [seen]
    have claim := known shared.consumerKnows (sawWrites shared)
    exact fun c away => (claim c away).trans ((grown .consumer).2 .producer)
  · rw [seen] at away
    exact (shared.producerKnows c away).trans ((grown .producer).2 .consumer)

theorem sharedTake (shared : Shared size w r m) (some : r < w) :
    Shared size w r (readCell m .consumer (r % size)).2 := by
  have seen (t : Side) (l : Position) :
      ((readCell m .consumer (r % size)).2.views t).seen l = (m.views t).seen l :=
    congrFun (seenTick m .consumer t) l
  have grown (t : Side) : (m.views t).Le ((readCell m .consumer (r % size)).2.views t) :=
    leTick shared.coherent .consumer t
  have read (c : Nat) (u : Side) (h : c ≠ r % size ∨ u ≠ .consumer) :
      (readCell m .consumer (r % size)).2.read c u = m.read c u := by
    simp only [readCell,markApply]
    rw [if_neg]
    rintro ⟨rfl,rfl⟩
    simp at h
  have known {j : Nat} {view : View Side Position} (h : ReadsKnown size w r m j view) (inside : j ≤ r) :
      ReadsKnown size w r (readCell m .consumer (r % size)).2 j view := by
    intro c away
    rw [read c .consumer (.inl (Ne.symm (away r inside (Nat.le_refl r) some)))]
    exact h c away
  refine ⟨readCoherent shared.coherent .consumer _,shared.writes,shared.takes,shared.writeValue,shared.readValue,
    ?_,?_,fun c => (shared.wroteOwn c).trans ((grown .producer).2 .producer),fun c => ?_,shared.wroteNever,fun c => ?_,
    shared.wroteSent,fun j message found => ?_,fun c away => ?_,?_⟩
  · rw [seen]; exact shared.producerSaw
  · rw [seen]; exact shared.consumerSaw
  · by_cases same : c = r % size
    · subst same
      simp [readCell,markApply,tick]
    · rw [read c .consumer (.inl same)]
      exact (shared.readOwn c).trans ((grown .consumer).2 .consumer)
  · rw [read c .producer (.inr (by simp))]; exact shared.readNever c
  · refine known (shared.readSent j message found) ?_
    have at_ := (List.getElem?_eq_some_iff.mp found).1
    change j < (m.messages .readPos).length at at_
    rw [shared.takes] at at_
    omega
  · rw [seen] at away
    exact (shared.consumerKnows c away).trans ((grown .consumer).2 .producer)
  · rw [seen]
    have claim := known shared.producerKnows (sawTakes shared)
    exact fun c away => (claim c away).trans ((grown .producer).2 .consumer)

theorem sharedPublish (shared : Shared size w r m) (room : w + 1 < (m.views .producer).seen .readPos + size) :
    Shared size (w + 1) r (store m .producer .writePos .release ((w + 1) % size)) := by
  have apart : Position.readPos ≠ .writePos := nofun
  have away : Side.consumer ≠ .producer := nofun
  have coherent : Coherent owner (store m (owner .writePos) .writePos .release ((w + 1) % size)) :=
    storeCoherent shared.coherent _ _
  have later {i : Nat} {view : View Side Position} (h : WritesKnown size w m i view) :
      WritesKnown size (w + 1) (store m .producer .writePos .release ((w + 1) % size)) i view :=
    fun c away => h c (fun k known early => away k known (by omega))
  have later' {j : Nat} {view : View Side Position} (h : ReadsKnown size w r m j view) :
      ReadsKnown size (w + 1) r (store m .producer .writePos .release ((w + 1) % size)) j view :=
    fun c away => h c (fun k known early inside => away k known early (by omega))
  refine ⟨coherent,?_,?_,fun i message found => ?_,
    fun i message found => ?_,?_,?_,fun c => ?_,fun c => ?_,shared.wroteNever,shared.readNever,
    fun i message found => ?_,fun j message found => ?_,?_,?_⟩
  · simp only [store,Function.update_self,List.length_append,List.length_singleton,shared.writes]
  · rw [messagesStored m _ _ _ apart]; exact shared.takes
  · rcases messageStored found with found | ⟨_,rfl,rfl⟩
    · exact shared.writeValue i message found
    · rw [shared.writes]
  · rw [messagesStored m _ _ _ apart] at found
    exact shared.readValue i message found
  · rw [seenStored m _ _ _ _ apart]
    exact room
  · rw [viewsStored m _ _ _ away]
    exact shared.consumerSaw
  · rw [clockStored]; exact shared.wroteOwn c
  · rw [clockStored]; exact shared.readOwn c
  · rcases messageStored found with found | ⟨_,rfl,rfl⟩
    · exact later (shared.wroteSent i message found)
    · exact fun c _ => shared.wroteOwn c
  · rw [messagesStored m _ _ _ apart] at found
    exact later' (shared.readSent j message found)
  · rw [viewsStored m _ _ _ away]
    exact later shared.consumerKnows
  · rw [seenStored m _ _ _ _ apart]
    intro c away
    rw [clockStored]
    exact later' shared.producerKnows c away

theorem sharedRelease (shared : Shared size w r m) (some : r < (m.views .consumer).seen .writePos) :
    Shared size w (r + 1) (store m .consumer .readPos .release ((r + 1) % size)) := by
  have apart : Position.writePos ≠ .readPos := nofun
  have away : Side.producer ≠ .consumer := nofun
  have coherent : Coherent owner (store m (owner .readPos) .readPos .release ((r + 1) % size)) :=
    storeCoherent shared.coherent _ _
  have later {j : Nat} {view : View Side Position} (h : ReadsKnown size w r m j view) :
      ReadsKnown size w (r + 1) (store m .consumer .readPos .release ((r + 1) % size)) j view :=
    fun c away => h c (fun k known early inside => away k known (by omega) inside)
  refine ⟨coherent,?_,?_,fun i message found => ?_,
    fun i message found => ?_,?_,?_,fun c => ?_,fun c => ?_,shared.wroteNever,shared.readNever,
    fun i message found => ?_,fun j message found => ?_,?_,?_⟩
  · rw [messagesStored m _ _ _ apart]; exact shared.writes
  · simp only [store,Function.update_self,List.length_append,List.length_singleton,shared.takes]
  · rw [messagesStored m _ _ _ apart] at found
    exact shared.writeValue i message found
  · rcases messageStored found with found | ⟨_,rfl,rfl⟩
    · exact shared.readValue i message found
    · rw [shared.takes]
  · rw [viewsStored m _ _ _ away]
    exact shared.producerSaw
  · rw [seenStored m _ _ _ _ apart]
    exact some
  · rw [clockStored]; exact shared.wroteOwn c
  · rw [clockStored]; exact shared.readOwn c
  · rw [messagesStored m _ _ _ apart] at found
    exact shared.wroteSent i message found
  · rcases messageStored found with found | ⟨_,rfl,rfl⟩
    · exact later (shared.readSent j message found)
    · exact fun c _ => shared.readOwn c
  · rw [seenStored m _ _ _ _ apart]
    intro c away
    rw [clockStored]
    exact shared.consumerKnows c away
  · rw [viewsStored m _ _ _ away]
    exact later shared.producerKnows

end Qtl.SpscMemory
