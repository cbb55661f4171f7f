import Qtl.SpscMemory

/-! Runs of the ring in C11 memory: every interleaving, with every choice of the stores the
loads return. No access of a record races, the items come in order, and what a side was
told it may rely on. -/
namespace Qtl.SpscMemoryRun
open Base.HappensBefore Base.ReleaseAcquire Base.VectorClock Base.Window Spsc SpscMemory
open SpscInterleaving (Producer Consumer Call Event written given)
open SpscObserve (Side Order Query Answer ObsEvent calls answer)
open Base.Trace (Run)

variable {α : Type} {size w r : Nat} {m m' : RingMemory α}
variable {items : List α} {s s' : System α} {moment : Moment α} {e : α} {index : Nat}

def ProducerOk (size w : Nat) (m : RingMemory α) : Producer α → Prop
  | .idle => True
  | .positioned _ currentWrite => currentWrite = w % size
  | .admitted _ currentWrite next => currentWrite = w % size ∧ next = (w + 1) % size ∧
      w + 1 < (m.views .producer).seen .readPos + size
  | .filled e next => next = (w + 1) % size ∧ w + 1 < (m.views .producer).seen .readPos + size ∧
      m.cells (w % size) = e

def ConsumerOk (size r : Nat) (m : RingMemory α) : Consumer α → Prop
  | .idle => True
  | .positioned _ currentRead => currentRead = r % size
  | .available _ currentRead => currentRead = r % size ∧ r < (m.views .consumer).seen .writePos
  | .taken item next => next = (r + 1) % size ∧ r < (m.views .consumer).seen .writePos ∧ m.cells (r % size) = item

def LookOk (size w r : Nat) (m : RingMemory α) : Side → Query × Nat → Prop
  | .consumer,(query,value) => match query.order with
    | .readFirst => value = r % size
    | .writeFirst => ∃ i, value = i % size ∧ r ≤ i ∧ i ≤ (m.views .consumer).seen .writePos
  | .producer,(query,value) => match query.order with
    | .readFirst => ∃ j, value = j % size ∧ w < j + size ∧ j ≤ (m.views .producer).seen .readPos
    | .writeFirst => value = w % size

structure Good (size : Nat) (items : List α) (r : Nat) (s : System α) : Prop where
  capacity : s.capacity = size
  shared : Shared size items.length r s.memory
  producer : ProducerOk size items.length s.memory s.producer
  consumer : ConsumerOk size r s.memory s.consumer
  stored : ∀ k, r ≤ k → k < items.length → items[k]? = some (s.memory.cells (k % size))
  still : ∀ side, s.looking side ≠ none → resting s side = true
  looking : ∀ side look, s.looking side = some look → LookOk size items.length r s.memory side look

structure Stepped (size : Nat) (items : List α) (r : Nat) (s : System α) (moment : Moment α) (s' : System α) : Prop where
  good : Good size (items ++ written (events [moment])) (r + (given (events [moment])).length) s'
  covered : Covered s.memory moment.action
  step : Base.VectorClock.Step s.memory moment.action s'.memory
  front : ∀ side item, moment.event = .call side (.gave item) ∨ moment.event = .call side (.peeked item) →
    items[r]? = some item
  peeked : ∀ side item, moment.event = .call side (.peeked item) → r < (s'.memory.views .consumer).seen .writePos
  empty : ∀ side call, moment.event = .call side (.empty call) → (s.memory.views .consumer).seen .writePos ≤ r
  refused : ∀ side e, moment.event = .call side (.refused e) →
    (s.memory.views .producer).seen .readPos + size ≤ items.length + 1

def Quiet : ObsEvent α → Prop
  | .call _ .silent => True
  | .call _ (.filled _ _) => True
  | .call _ _ => False
  | _ => True

theorem nextMod (fits : size < uintRange) (pos : 0 < size) (k : Nat) :
    nextRecord (header size) (k % size) = (k + 1) % size := by
  rw [← advanceMod pos k]
  exact nextRecordAdvance (q := header size) fits (Nat.mod_lt k pos)

theorem consumerSame {consumer : Consumer α} (views : m'.views .consumer = m.views .consumer)
    (cells : m'.cells = m.cells) (ok : ConsumerOk size r m consumer) : ConsumerOk size r m' consumer := by
  cases consumer <;> simp only [ConsumerOk,views,cells] at ok ⊢ <;> exact ok

theorem producerSame {producer : Producer α} (views : m'.views .producer = m.views .producer)
    (cells : m'.cells = m.cells) (ok : ProducerOk size w m producer) : ProducerOk size w m' producer := by
  cases producer <;> simp only [ProducerOk,views,cells] at ok ⊢ <;> exact ok

theorem producerGood {items' : List α} {p : Producer α} (good : Good size items r s)
    (free : s.looking .producer = none) (shared : Shared size items'.length r m')
    (views : m'.views .consumer = s.memory.views .consumer) (producer : ProducerOk size items'.length m' p)
    (consumer : ConsumerOk size r m' s.consumer)
    (stored : ∀ k, r ≤ k → k < items'.length → items'[k]? = some (m'.cells (k % size))) :
    Good size items' r {s with memory := m', producer := p} := by
  refine ⟨good.capacity,shared,producer,consumer,stored,fun side busy => ?_,fun side look held => ?_⟩ <;> cases side
  · exact absurd free busy
  · exact good.still .consumer busy
  · exact absurd (free.symm.trans held) nofun
  · have old := good.looking .consumer look held
    simp only [LookOk,views] at old ⊢
    exact old

theorem consumerGood {r' : Nat} {c : Consumer α} (good : Good size items r s)
    (free : s.looking .consumer = none) (shared : Shared size items.length r' m')
    (views : m'.views .producer = s.memory.views .producer) (producer : ProducerOk size items.length m' s.producer)
    (consumer : ConsumerOk size r' m' c)
    (stored : ∀ k, r' ≤ k → k < items.length → items[k]? = some (m'.cells (k % size))) :
    Good size items r' {s with memory := m', consumer := c} := by
  refine ⟨good.capacity,shared,producer,consumer,stored,fun side busy => ?_,fun side look held => ?_⟩ <;> cases side
  · exact good.still .producer busy
  · exact absurd free busy
  · have old := good.looking .producer look held
    simp only [LookOk,views] at old ⊢
    exact old
  · exact absurd (free.symm.trans held) nofun

theorem quietStepped {a : Action Side Position Nat} {event : ObsEvent α} (good : Good size items r s')
    (covered : Covered s.memory a) (step : Base.VectorClock.Step s.memory a s'.memory) (quiet : Quiet event) :
    Stepped size items r s ⟨a,event⟩ s' := by
  have none : written (calls [event]) = [] ∧ given (calls [event]) = [] := by
    rcases event with ⟨_,_ | _ | _ | _ | _ | _ | _⟩ | _ | _ <;> first | exact ⟨rfl,rfl⟩ | exact quiet.elim
  refine ⟨?_,covered,step,fun side item shows => ?_,fun side item shows => ?_,fun side call shows => ?_,
    fun side e shows => ?_⟩
  · change Good size (items ++ written (calls [event])) (r + (given (calls [event])).length) s'
    rw [none.1,none.2,List.append_nil]
    exact good
  · rcases shows with shows | shows <;> dsimp only at shows <;> rw [shows] at quiet <;> exact quiet.elim
  all_goals
    dsimp only at shows
    rw [shows] at quiet
    exact quiet.elim

theorem fillAway (shared : Shared size w r m) {k : Nat} (from_ : r ≤ k) (below : k < w) : k % size ≠ w % size := by
  have far := shared.producerSaw
  have saw := sawTakes shared
  exact modApart below (by omega)

theorem producerStepped (fits : size < uintRange) (pos : 0 < size) (good : Good size items r s)
    (free : s.looking .producer = none) (done : producerStep sourceOrders e index s = some (moment,s')) :
    Stepped size items r s moment s' := by
  have shared := good.shared
  have hp := good.producer
  have hc := good.consumer
  cases at_ : s.producer with
  | idle =>
    rw [producerStep,at_] at done
    obtain ⟨⟨v,m'⟩,loads,same⟩ := Option.bind_eq_some_iff.mp done
    cases same
    obtain ⟨shared',rfl,views,cells⟩ := sharedOwn (l := .writePos) shared loads
    refine quietStepped (producerGood good free shared' (by rw [views]) rfl
      (consumerSame (by rw [views]) cells hc) ?_) trivial (.load loads) trivial
    rw [cells]
    exact good.stored
  | positioned e currentWrite =>
    rw [producerStep,at_] at done
    rw [at_] at hp
    obtain ⟨⟨v,m'⟩,loads,same⟩ := Option.bind_eq_some_iff.mp done
    obtain ⟨shared',rfl,fresh,seen,views,cells⟩ := sharedAcquireRead shared loads
    have stored := good.stored
    rw [← cells] at stored
    have hc' := consumerSame views cells hc
    obtain rfl : currentWrite = items.length % size := hp
    have next : nextRecord (header s.capacity) (items.length % size) = (items.length + 1) % size := by
      rw [good.capacity,nextMod fits pos]
    simp only [next] at same
    split at same <;> cases same
    · rename_i room
      refine quietStepped (producerGood (p := .admitted e _ _) good free shared' views ⟨rfl,rfl,?_⟩ hc' stored) trivial
        (.load loads) trivial
      -- the position loaded is less than a lap behind, so only the same slot would be full
      have far := shared'.producerSaw
      rw [seen] at far ⊢
      by_contra full
      have lap : items.length + 1 = index + size := by omega
      rw [lap,Nat.add_mod_right] at room
      exact room rfl
    · rename_i full
      refine ⟨?_,trivial,.load loads,fun _ _ shows => shows.elim nofun nofun,
        nofun,nofun,fun _ _ _ => ?_⟩
      · rw [show written (events [_]) = ([] : List α) from rfl,List.append_nil]
        exact producerGood (p := .idle) good free shared' views trivial hc' stored
      · have far := shared'.producerSaw
        have saw := sawTakes shared'
        have some := shared'.consumerSaw
        have known := sawWrites shared'
        rw [seen] at far saw
        by_contra room
        exact modApart (a := index) (by omega) (by omega) (not_not.mp full).symm
  | admitted e currentWrite next =>
    rw [producerStep,at_] at done
    rw [at_] at hp
    obtain ⟨rfl,rfl,room⟩ := hp
    cases done
    have shared' := sharedFill shared e
    have kept {k : Nat} (from_ : r ≤ k) (below : k < items.length) :
        (writeCell s.memory .producer (items.length % size) e).cells (k % size) = s.memory.cells (k % size) :=
      Function.update_of_ne (fillAway shared from_ below) _ _
    have away : Side.consumer ≠ .producer := nofun
    have seen : (writeCell s.memory .producer (items.length % size) e).views .consumer = s.memory.views .consumer :=
      viewsTick s.memory away
    refine quietStepped (producerGood (p := .filled e _) good free shared' seen ⟨rfl,?_,Function.update_self ..⟩ ?_
      (fun k from_ below => by rw [kept from_ below]; exact good.stored k from_ below)) (fillCovered shared room) .write
      trivial
    · rw [show ((writeCell s.memory .producer (items.length % size) e).views .producer).seen .readPos =
        (s.memory.views .producer).seen .readPos from congrFun (seenTick s.memory .producer .producer) .readPos]
      exact room
    · cases taken : s.consumer with
      | taken item next =>
        rw [taken] at hc
        obtain ⟨same,some,held⟩ := hc
        have saw := sawWrites shared
        exact ⟨same,by rw [seen]; exact some,by rw [kept (Nat.le_refl r) (by omega)]; exact held⟩
      | idle => trivial
      | positioned call currentRead =>
        rw [taken] at hc
        exact hc
      | available call currentRead =>
        rw [taken] at hc
        exact ⟨hc.1,by rw [seen]; exact hc.2⟩
  | filled e next =>
    rw [producerStep,at_] at done
    rw [at_] at hp
    obtain ⟨rfl,room,filled⟩ := hp
    cases done
    have shared' := sharedPublish shared room
    have away : Side.consumer ≠ .producer := nofun
    have seen : (store s.memory .producer .writePos .release ((items.length + 1) % size)).views .consumer =
        s.memory.views .consumer := viewsStored _ _ _ _ away
    refine ⟨?_,trivial,.store,fun _ _ shows => shows.elim nofun nofun,
      nofun,nofun,nofun⟩
    · refine producerGood (p := .idle) good free ?_ seen trivial (consumerSame seen rfl hc) (fun k from_ below => ?_)
      · rw [List.length_append]
        exact shared'
      · change (items ++ [e])[k]? = some (s.memory.cells (k % size))
        have length : (items ++ [e]).length = items.length + 1 := by simp
        change k < (items ++ [e]).length at below
        rcases Nat.lt_or_ge k items.length with inside | last
        · rw [List.getElem?_append_left inside]
          exact good.stored k from_ inside
        · obtain rfl : k = items.length := by omega
          rw [List.getElem?_concat_length,filled]

theorem consumerStepped (fits : size < uintRange) (pos : 0 < size) {call : Call} (good : Good size items r s)
    (free : s.looking .consumer = none) (done : consumerStep sourceOrders call index s = some (moment,s')) :
    Stepped size items r s moment s' := by
  have shared := good.shared
  have hp := good.producer
  have hc := good.consumer
  have front {item : α} (some : r < items.length) (held : s.memory.cells (r % size) = item) : items[r]? = .some item := by
    rw [← held]
    exact good.stored r (Nat.le_refl r) some
  cases at_ : s.consumer with
  | idle =>
    rw [consumerStep,at_] at done
    obtain ⟨⟨v,m'⟩,loads,same⟩ := Option.bind_eq_some_iff.mp done
    cases same
    obtain ⟨shared',rfl,views,cells⟩ := sharedOwn (l := .readPos) shared loads
    refine quietStepped (consumerGood good free shared' (by rw [views]) (producerSame (by rw [views]) cells hp) rfl ?_)
      trivial (.load loads) trivial
    rw [cells]
    exact good.stored
  | positioned call currentRead =>
    rw [consumerStep,at_] at done
    rw [at_] at hc
    obtain ⟨⟨v,m'⟩,loads,same⟩ := Option.bind_eq_some_iff.mp done
    obtain ⟨shared',rfl,fresh,seen,views,cells⟩ := sharedAcquireWrite shared loads
    have stored := good.stored
    rw [← cells] at stored
    have hp' := producerSame views cells hp
    obtain rfl : currentRead = r % size := hc
    dsimp only at same
    split at same <;> cases same
    · rename_i same
      refine ⟨?_,trivial,.load loads,fun _ _ shows => shows.elim nofun nofun,
        nofun,fun _ _ _ => ?_,nofun⟩
      · rw [show written (events [_]) = ([] : List α) from rfl,List.append_nil]
        exact consumerGood (c := .idle) good free shared' views hp' trivial stored
      · have far := shared'.producerSaw
        have saw := sawTakes shared'
        have some := shared'.consumerSaw
        have known := sawWrites shared'
        rw [seen] at some known
        by_contra ahead
        exact modApart (a := r) (by omega) (by omega) same
    · rename_i apart
      refine quietStepped (consumerGood (c := .available call _) good free shared' views hp' ⟨rfl,?_⟩ stored) trivial
        (.load loads) trivial
      have some := shared'.consumerSaw
      rw [seen] at some ⊢
      by_contra none
      exact apart (by rw [show r = index by omega])
  | available call currentRead =>
    rw [consumerStep,at_] at done
    rw [at_] at hc
    obtain ⟨rfl,some⟩ := hc
    have inside : r < items.length := Nat.lt_of_lt_of_le some (sawWrites shared)
    have shared' := sharedTake shared inside
    have away : Side.producer ≠ .consumer := nofun
    have views : (readCell s.memory .consumer (r % size)).2.views .producer = s.memory.views .producer :=
      viewsTick s.memory away
    have seen : ((readCell s.memory .consumer (r % size)).2.views .consumer).seen .writePos =
        (s.memory.views .consumer).seen .writePos := congrFun (seenTick s.memory .consumer .consumer) .writePos
    have next : nextRecord (header s.capacity) (r % size) = (r + 1) % size := by
      rw [good.capacity,nextMod fits pos]
    cases call with
    | read =>
      simp only [next] at done
      cases done
      exact quietStepped (consumerGood (c := .taken _ _) good free shared' views (producerSame views rfl hp)
        ⟨rfl,by rw [seen]; exact some,rfl⟩ good.stored) (takeCovered shared some) .read trivial
    | peek =>
      cases done
      refine ⟨?_,takeCovered shared some,.read,fun side item shows => ?_,fun _ _ _ => Nat.lt_of_lt_of_eq some seen.symm,
        nofun,nofun⟩
      · rw [show written (events [_]) = ([] : List α) from rfl,List.append_nil]
        exact consumerGood (c := .idle) good free shared' views (producerSame views rfl hp) trivial good.stored
      · rcases shows with shows | shows <;> cases shows
        exact front inside rfl
  | taken item next =>
    rw [consumerStep,at_] at done
    rw [at_] at hc
    obtain ⟨rfl,some,held⟩ := hc
    have inside : r < items.length := Nat.lt_of_lt_of_le some (sawWrites shared)
    cases done
    have shared' := sharedRelease shared some
    have away : Side.producer ≠ .consumer := nofun
    have views : (store s.memory .consumer .readPos .release ((r + 1) % size)).views .producer =
        s.memory.views .producer := viewsStored _ _ _ _ away
    refine ⟨?_,trivial,.store,fun side item' shows => ?_,nofun,
      nofun,nofun⟩
    · rw [show written (events [_]) = ([] : List α) from rfl,List.append_nil]
      exact consumerGood (c := .idle) good free shared' views (producerSame views rfl hp) trivial
        (fun k from_ below => good.stored k (by omega) below)
    · rcases shows with shows | shows <;> cases shows
      exact front inside held

structure Glanced (size : Nat) (items : List α) (r : Nat) (side : Side) (l : Position) (m : RingMemory α)
    (index v : Nat) (m' : RingMemory α) : Prop where
  shared : Shared size items.length r m'
  cells : m'.cells = m.cells
  others : ∀ u, u ≠ side → m'.views u = m.views u
  read : side = .consumer → l = .readPos → v = r % size ∧ m'.views = m.views
  ahead : side = .consumer → l = .writePos → v = index % size ∧
    (m.views .consumer).seen .writePos ≤ index ∧ (m'.views .consumer).seen .writePos = index
  write : side = .producer → l = .writePos → v = items.length % size ∧ m'.views = m.views
  behind : side = .producer → l = .readPos → v = index % size ∧
    (m.views .producer).seen .readPos ≤ index ∧ (m'.views .producer).seen .readPos = index

theorem glance {side : Side} {l : Position} {v : Nat} (shared : Shared size items.length r m)
    (loads : load m side l .acquire index = some (v,m')) : Glanced size items r side l m index v m' := by
  cases side with
  | producer =>
    cases l with
    | writePos =>
      obtain ⟨shared',value,views,cells⟩ := sharedOwn (l := .writePos) shared loads
      exact ⟨shared',cells,fun u _ => by rw [views],nofun,nofun,fun _ _ => ⟨value,views⟩,nofun⟩
    | readPos =>
      obtain ⟨shared',value,fresh,seen,views,cells⟩ := sharedAcquireRead shared loads
      refine ⟨shared',cells,fun u other => ?_,nofun,nofun,nofun,fun _ _ => ⟨value,fresh,seen⟩⟩
      cases u with
      | producer => exact absurd rfl other
      | consumer => exact views
  | consumer =>
    cases l with
    | readPos =>
      obtain ⟨shared',value,views,cells⟩ := sharedOwn (l := .readPos) shared loads
      exact ⟨shared',cells,fun u _ => by rw [views],fun _ _ => ⟨value,views⟩,nofun,nofun,nofun⟩
    | writePos =>
      obtain ⟨shared',value,fresh,seen,views,cells⟩ := sharedAcquireWrite shared loads
      refine ⟨shared',cells,fun u other => ?_,nofun,fun _ _ => ⟨value,fresh,seen⟩,nofun,nofun⟩
      cases u with
      | consumer => exact absurd rfl other
      | producer => exact views

theorem restingGood {side : Side} {look : Option (Query × Nat)} (good : Good size items r s)
    (rests : resting s side = true) (shared : Shared size items.length r m') (cells : m'.cells = s.memory.cells)
    (others : ∀ u, u ≠ side → m'.views u = s.memory.views u)
    (looks : ∀ found, look = some found → LookOk size items.length r m' side found) :
    Good size items r {s with memory := m', looking := Function.update s.looking side look} := by
  have producer : ProducerOk size items.length m' s.producer := by
    cases side with
    | producer =>
      cases at_ : s.producer with
      | idle => trivial
      | _ =>
        simp only [resting,at_] at rests
        cases rests
    | consumer => exact producerSame (others .producer nofun) cells good.producer
  have consumer : ConsumerOk size r m' s.consumer := by
    cases side with
    | consumer =>
      cases at_ : s.consumer with
      | idle => trivial
      | _ =>
        simp only [resting,at_] at rests
        cases rests
    | producer => exact consumerSame (others .consumer nofun) cells good.consumer
  refine ⟨good.capacity,shared,producer,consumer,?_,fun side' busy => ?_,fun side' found held => ?_⟩
  · rw [cells]
    exact good.stored
  · by_cases mine : side' = side
    · rw [mine]
      exact rests
    · simp only [Function.update_of_ne mine] at busy
      exact good.still side' busy
  · by_cases mine : side' = side
    · subst mine
      simp only [Function.update_self] at held
      exact looks found held
    · simp only [Function.update_of_ne mine] at held
      have old := good.looking side' found held
      have views := others side' mine
      cases side' <;> simp only [LookOk,views] at old ⊢ <;> exact old

theorem firstLooked {side : Side} {query : Query} {v : Nat}
    (got : Glanced size items r side (firstLoad query.order) m index v m') :
    LookOk size items.length r m' side (query,v) := by
  cases order : query.order with
  | readFirst =>
    rw [order] at got
    cases side with
    | consumer =>
      simp only [LookOk,order]
      exact (got.read rfl rfl).1
    | producer =>
      obtain ⟨value,_,seen⟩ := got.behind rfl rfl
      have far := got.shared.producerSaw
      rw [seen] at far
      simp only [LookOk,order]
      exact ⟨index,value,far,Nat.le_of_eq seen.symm⟩
  | writeFirst =>
    rw [order] at got
    cases side with
    | consumer =>
      obtain ⟨value,_,seen⟩ := got.ahead rfl rfl
      have some := got.shared.consumerSaw
      rw [seen] at some
      simp only [LookOk,order]
      exact ⟨index,value,some,Nat.le_of_eq seen.symm⟩
    | producer =>
      simp only [LookOk,order]
      exact (got.write rfl rfl).1

theorem lookStepped {side : Side} {query : Query} (good : Good size items r s)
    (done : lookStep side query index s = some (moment,s')) : Stepped size items r s moment s' := by
  have shared := good.shared
  unfold lookStep at done
  split at done
  · split at done
    · rename_i rests
      obtain ⟨⟨v,m'⟩,loads,same⟩ := Option.bind_eq_some_iff.mp done
      cases same
      have got := glance shared loads
      refine quietStepped (restingGood good rests got.shared got.cells got.others (fun found held => ?_)) trivial
        (.load loads) trivial
      cases held
      exact firstLooked got
    · cases done
  · rename_i query value busy
    obtain ⟨⟨v,m'⟩,loads,same⟩ := Option.bind_eq_some_iff.mp done
    cases same
    have got := glance shared loads
    refine quietStepped (restingGood good (good.still side (by simp [busy])) got.shared got.cells got.others ?_) trivial
      (.load loads) trivial
    exact fun _ found => by cases found

theorem turnStepped (fits : size < uintRange) (pos : 0 < size) (good : Good size items r s)
    (step : Step sourceOrders s moment s') : Stepped size items r s moment s' := by
  obtain ⟨turn,done⟩ := step
  cases turn with
  | producer e index =>
    simp only [turnStep] at done
    split at done
    · cases done
    · rename_i free
      exact producerStepped fits pos good (by simpa using free) done
  | consumer call index =>
    simp only [turnStep] at done
    split at done
    · cases done
    · rename_i free
      exact consumerStepped fits pos good (by simpa using free) done
  | look side query index => exact lookStepped good done

variable {trace later : List (Moment α)} {q : SpscQueue α}

theorem eventsAppend (trace later : List (Moment α)) : events (trace ++ later) = events trace ++ events later := by
  rw [events,List.map_append,SpscObserve.callsAppend]
  rfl

theorem prefixSnoc {taken : List α} {item : α} (whole : taken <+: items) (next : items[taken.length]? = some item) :
    taken ++ [item] <+: items := by
  obtain ⟨rest,rfl⟩ := whole
  rw [List.getElem?_append_right (Nat.le_refl _),Nat.sub_self] at next
  cases rest with
  | nil => cases next
  | cons head rest =>
    cases next
    exact ⟨rest,by simp⟩

structure Served (size : Nat) (q : SpscQueue α) (trace : List (Moment α)) (s : System α) : Prop where
  good : Good size (written (events trace)) (given (events trace)).length s
  order : given (events trace) <+: written (events trace)
  peeks : ∀ before moment side item after, trace = before ++ moment :: after →
    moment.event = .call side (.peeked item) → (written (events trace))[(given (events before)).length]? = some item
  memory : Run (fun m a m' => Covered m a ∧ Base.VectorClock.Step m a m') (begin q).memory (actions trace) s.memory

theorem givenOne (moment : Moment α) : given (events [moment]) = [] ∨
    ∃ side item, moment.event = .call side (.gave item) ∧ given (events [moment]) = [item] := by
  obtain ⟨a,event⟩ := moment
  rcases event with ⟨side,event⟩ | _ | _
  · cases event with
    | gave item => exact .inr ⟨side,item,rfl,rfl⟩
    | _ => exact .inl rfl
  · exact .inl rfl
  · exact .inl rfl

theorem beginFresh {memory : Option (Nat → α)} (accepted : spscQueueInit memory size = some q) :
    Fresh (begin q).memory ∧ Good size [] 0 (begin q) ∧ 0 < size := by
  unfold spscQueueInit at accepted
  split at accepted
  · rename_i two
    obtain ⟨records,_,rfl⟩ := Option.map_eq_some_iff.mp accepted
    have fresh : Fresh (begin ⟨size,records,0,0⟩).memory :=
      ⟨rfl,fun _ => rfl,fun l => by cases l <;> exact ⟨0,rfl⟩,fun _ _ => rfl,fun _ _ => rfl⟩
    have first (l : Position) (i : Nat) message (found : ((begin ⟨size,records,0,0⟩).memory.messages l)[i]? = some message) :
        message.value = i % size := by
      cases l <;> rcases i with _ | i <;> cases found <;> exact (Nat.zero_mod size).symm
    refine ⟨fresh,⟨rfl,⟨freshCoherent owner fresh,rfl,rfl,first .writePos,first .readPos,?_,Nat.le_refl _,
      fun _ => Nat.le_refl _,fun _ => Nat.le_refl _,fun _ => rfl,fun _ => rfl,fun _ _ _ _ _ => Nat.zero_le _,
      fun _ _ _ _ _ => Nat.zero_le _,fun _ _ => Nat.zero_le _,fun _ _ => Nat.zero_le _⟩,trivial,trivial,nofun,
      fun _ busy => absurd rfl busy,nofun⟩,by omega⟩
    change 0 < 0 + size
    omega
  · cases accepted

theorem servedStep (fits : size < uintRange) (pos : 0 < size) (served : Served size q trace s)
    (step : Step sourceOrders s moment s') : Served size q (trace ++ [moment]) s' := by
  have stepped := turnStepped fits pos served.good step
  have grows : written (events (trace ++ [moment])) = written (events trace) ++ written (events [moment]) := by
    rw [eventsAppend,SpscObserve.writtenAppend]
  have takes : given (events (trace ++ [moment])) = given (events trace) ++ given (events [moment]) := by
    rw [eventsAppend,SpscObserve.givenAppend]
  refine ⟨?_,?_,?_,?_⟩
  · rw [grows,takes,List.length_append]
    exact stepped.good
  · have longer : given (events trace) <+: written (events trace) ++ written (events [moment]) :=
      served.order.trans (List.prefix_append ..)
    rw [grows,takes]
    rcases givenOne moment with none | ⟨side,item,shows,one⟩
    · rw [none,List.append_nil]
      exact longer
    · rw [one]
      refine prefixSnoc longer ?_
      have inside := stepped.front side item (.inl shows)
      rw [List.getElem?_append_left (List.getElem?_eq_some_iff.mp inside).1]
      exact inside
  · intro before moment' side item after whole shows
    have found : (written (events trace))[(given (events before)).length]? = some item := by
      rcases List.eq_nil_or_concat after with rfl | ⟨after,last,rfl⟩
      · obtain ⟨rfl,same⟩ := List.append_inj' whole rfl
        cases List.singleton_inj.mp same
        exact stepped.front side item (.inr shows)
      · rw [List.concat_eq_append,← List.cons_append,← List.append_assoc] at whole
        obtain ⟨rfl,_⟩ := List.append_inj' whole rfl
        exact served.peeks before moment' side item after rfl shows
    rw [grows,List.getElem?_append_left (List.getElem?_eq_some_iff.mp found).1]
    exact found
  · rw [actions,List.map_append]
    exact .snoc served.memory ⟨stepped.covered,stepped.step⟩

theorem runServed {memory : Option (Nat → α)} (fits : size < uintRange)
    (accepted : spscQueueInit memory size = some q) (run : Run (Step sourceOrders) (begin q) trace s) :
    Served size q trace s := by
  obtain ⟨_,first,pos⟩ := beginFresh accepted
  refine Base.Trace.runInvariant (Served size q) ⟨first,List.nil_prefix,?_,.nil⟩
    (fun _ _ _ _ => servedStep fits pos) run
  intro before moment side item after whole
  cases before <;> cases whole

/-- In every run of the ring with the orders of the source, whatever stores the loads return:
every two conflicting accesses of a slot are ordered by happens-before, the items come in
the order they were written, fewer than `size` of them are held, and a peeked item is the
next one given. -/
theorem ringRaceFree {memory : Option (Nat → α)} (fits : size < uintRange)
    (accepted : spscQueueInit memory size = some q) (run : Run (Step sourceOrders) (begin q) trace s) :
    RaceFree (actions trace) ∧ ∃ unread, written (events trace) = given (events trace) ++ unread ∧
      unread.length < size ∧
      ∀ before moment side item after, trace = before ++ moment :: after →
        moment.event = .call side (.peeked item) → (given (events after) ++ unread).head? = some item := by
  have served := runServed fits accepted run
  obtain ⟨unread,whole⟩ := served.order
  refine ⟨coveredRaceFree (beginFresh accepted).1 served.memory,unread,whole.symm,?_,?_⟩
  · have far := served.good.shared.producerSaw
    have saw := sawTakes served.good.shared
    have count := congrArg List.length whole
    rw [List.length_append] at count
    omega
  · intro before moment side item after split shows
    have found := served.peeks before moment side item after split shows
    have none : given (events [moment]) = [] := by
      rcases givenOne moment with none | ⟨_,_,gave,_⟩
      · exact none
      · rw [shows] at gave
        cases gave
    rw [← whole,split,eventsAppend,SpscObserve.givenAppend,← List.singleton_append,eventsAppend,
      SpscObserve.givenAppend,none,List.nil_append,List.append_assoc,
      List.getElem?_append_right (Nat.le_refl _),Nat.sub_self] at found
    rw [List.head?_eq_getElem?]
    exact found

-- A stale load makes the read answer empty and the write answer full; the items still come in order.
theorem ringRaceFreeStale : ∃ (trace : List (Moment Nat)) (s : System Nat),
    Run (Step sourceOrders) (begin ⟨2,fun _ => 0,0,0⟩) trace s ∧
    events trace = [.silent,.silent,.filled 0 7,.wrote 7,.silent,.empty .read,.silent,.silent,.silent,.gave 7,
      .silent,.refused 8,.silent,.silent,.filled 1 8,.wrote 8] ∧ RaceFree (actions trace) := by
  have seen : (Base.Trace.play (turnStep sourceOrders) (begin ⟨2,fun _ => 0,0,0⟩)
      [.producer 7 0,.producer 7 0,.producer 7 0,.producer 7 0,.consumer .read 0,.consumer .read 0,
        .consumer .read 0,.consumer .read 1,.consumer .read 0,.consumer .read 0,.producer 8 1,.producer 8 0,
        .producer 8 1,.producer 8 1,.producer 8 0,.producer 8 0]).map (fun r => events r.1) =
      some [.silent,.silent,.filled 0 7,.wrote 7,.silent,.empty .read,.silent,.silent,.silent,.gave 7,
        .silent,.refused 8,.silent,.silent,.filled 1 8,.wrote 8] := by rfl
  have accepted : spscQueueInit (some fun _ => 0) 2 = some ⟨2,fun _ => 0,0,0⟩ := rfl
  obtain ⟨trace,s,run,same⟩ := Base.Trace.playSeen _ _ seen
  exact ⟨trace,s,run,same,(ringRaceFree (by decide) accepted run).1⟩

section Promises

def Known (n : Nat) (items : List α) (r : Nat) (m : RingMemory α) : Side → Prop
  | .consumer => r + n ≤ (m.views .consumer).seen .writePos
  | .producer => items.length ≤ (m.views .producer).seen .readPos + n

variable {n i j : Nat} {query : Query}

theorem consumerPromise (small : size ≤ 2^31) (pos : 0 < size) (ahead : r ≤ i) (near : i < r + size)
    (promise : SpscObserve.promised size .consumer (answer (header size) query (r % size) (i % size)) = some n) :
    r + n ≤ i := by
  cases query with
  | isEmpty order =>
    cases same : r % size == i % size with
    | true => simp [answer,SpscObserve.promised,same] at promise
    | false =>
      simp only [answer,SpscObserve.promised,same] at promise
      cases promise
      have apart : r ≠ i := by
        rintro rfl
        simp at same
      omega
  | isFull => cases promise
  | size order =>
    have exact_ := sizeBetweenExact small (Nat.mod_lt r pos) (Nat.mod_lt i pos)
    rw [distanceMod ahead near] at exact_
    simp only [answer,SpscObserve.promised,header,exact_] at promise
    cases promise
    omega

theorem producerPromise (small : size ≤ 2^31) (pos : 0 < size) (behind : j ≤ w) (near : w < j + size)
    (promise : SpscObserve.promised size .producer (answer (header size) query (j % size) (w % size)) = some n) :
    w ≤ j + n := by
  cases query with
  | isEmpty order => cases promise
  | isFull =>
    have fits : size < uintRange := by simp only [uintRange]; omega
    cases same : nextRecord (header size) (w % size) == j % size with
    | true => simp [answer,SpscObserve.promised,same] at promise
    | false =>
      simp only [answer,SpscObserve.promised,same] at promise
      cases promise
      rw [nextMod fits pos] at same
      by_contra full
      have lap : w + 1 = j + size := by omega
      rw [lap,Nat.add_mod_right] at same
      simp at same
  | size order =>
    have exact_ := sizeBetweenExact small (Nat.mod_lt j pos) (Nat.mod_lt w pos)
    rw [distanceMod behind near] at exact_
    simp only [answer,SpscObserve.promised,header,exact_] at promise
    cases promise
    omega

theorem lookKnown {side side' : Side} {a : Answer} (small : size ≤ 2^31) (pos : 0 < size) (good : Good size items r s)
    (done : lookStep side' query index s = some (moment,s')) (told : moment.event = .answered side a)
    (promise : SpscObserve.promised size side a = some n) : Known n items r s'.memory side := by
  have shared := good.shared
  unfold lookStep at done
  split at done
  · split at done
    · obtain ⟨⟨v,m'⟩,loads,same⟩ := Option.bind_eq_some_iff.mp done
      cases same
      cases told
    · cases done
  · rename_i query value busy
    obtain ⟨⟨v,m'⟩,loads,same⟩ := Option.bind_eq_some_iff.mp done
    cases same
    cases told
    have got := glance shared loads
    have looked := good.looking side (query,value) busy
    rw [good.capacity] at promise
    have near := got.shared.producerSaw
    have saw := sawTakes got.shared
    have written := sawWrites got.shared
    cases side with
    | consumer =>
      cases order : query.order with
      | readFirst =>
        simp only [LookOk,order] at looked
        rw [order] at got promise
        obtain ⟨rfl,_,seen⟩ := got.ahead rfl rfl
        subst looked
        have some := got.shared.consumerSaw
        change r + n ≤ (m'.views .consumer).seen .writePos
        rw [seen] at some written ⊢
        exact consumerPromise small pos some (by omega) promise
      | writeFirst =>
        simp only [LookOk,order] at looked
        rw [order] at got promise
        obtain ⟨i,rfl,ahead,known⟩ := looked
        obtain ⟨rfl,views⟩ := got.read rfl rfl
        change r + n ≤ (m'.views .consumer).seen .writePos
        rw [views] at written ⊢
        exact (consumerPromise small pos ahead (by omega) promise).trans known
    | producer =>
      cases order : query.order with
      | readFirst =>
        simp only [LookOk,order] at looked
        rw [order] at got promise
        obtain ⟨j,rfl,near,known⟩ := looked
        obtain ⟨rfl,views⟩ := got.write rfl rfl
        change items.length ≤ (m'.views .producer).seen .readPos + n
        have behind := got.shared.consumerSaw
        rw [views] at saw ⊢
        have most := producerPromise small pos (by omega) near promise
        omega
      | writeFirst =>
        simp only [LookOk,order] at looked
        rw [order] at got promise
        obtain ⟨rfl,_,seen⟩ := got.behind rfl rfl
        subst looked
        have behind := got.shared.consumerSaw
        change items.length ≤ (m'.views .producer).seen .readPos + n
        rw [seen] at saw near ⊢
        exact producerPromise small pos (by omega) near promise

def Promises (size n : Nat) (moment : Moment α) (side : Side) : Prop :=
  (∃ a, moment.event = .answered side a ∧ SpscObserve.promised size side a = some n) ∨
    (side = .consumer ∧ n = 1 ∧ ∃ item, moment.event = .call .consumer (.peeked item))

def Relies (size n : Nat) (trace later : List (Moment α)) : Side → Prop
  | .consumer => given (events later) = [] →
      (given (events (trace ++ later))).length + n ≤ (written (events (trace ++ later))).length ∧
        (0 < n → ∀ call, .empty call ∉ events later)
  | .producer => written (events later) = [] →
      (written (events (trace ++ later))).length ≤ (given (events (trace ++ later))).length + n ∧
        (n + 1 < size → ∀ e, .refused e ∉ events later)

theorem producerEvent {orders : Orders} {e : α} (done : producerStep orders e index s = some (moment,s')) :
    ∃ event, moment.event = .call .producer event := by
  unfold producerStep at done
  split at done
  · obtain ⟨_,_,same⟩ := Option.bind_eq_some_iff.mp done
    cases same
    exact ⟨_,rfl⟩
  · obtain ⟨_,_,same⟩ := Option.bind_eq_some_iff.mp done
    dsimp only at same
    split at same <;> cases same <;> exact ⟨_,rfl⟩
  · cases done
    exact ⟨_,rfl⟩
  · cases done
    exact ⟨_,rfl⟩

theorem consumerEvent {orders : Orders} {call : Call} (done : consumerStep orders call index s = some (moment,s')) :
    ∃ event, moment.event = .call .consumer event := by
  unfold consumerStep at done
  split at done
  · obtain ⟨_,_,same⟩ := Option.bind_eq_some_iff.mp done
    cases same
    exact ⟨_,rfl⟩
  · obtain ⟨_,_,same⟩ := Option.bind_eq_some_iff.mp done
    dsimp only at same
    split at same <;> cases same <;> exact ⟨_,rfl⟩
  · cases done
    exact ⟨_,rfl⟩
  · cases done
    exact ⟨_,rfl⟩
  · cases done
    exact ⟨_,rfl⟩

theorem answerKnown {side : Side} {a : Answer} (small : size ≤ 2^31) (pos : 0 < size) (good : Good size items r s)
    (step : Step sourceOrders s moment s') (told : moment.event = .answered side a)
    (promise : SpscObserve.promised size side a = some n) : Known n items r s'.memory side := by
  obtain ⟨turn,done⟩ := step
  cases turn with
  | producer e index =>
    simp only [turnStep] at done
    split at done
    · cases done
    · obtain ⟨event,call⟩ := producerEvent done
      cases told.symm.trans call
  | consumer call index =>
    simp only [turnStep] at done
    split at done
    · cases done
    · obtain ⟨event,call⟩ := consumerEvent done
      cases told.symm.trans call
  | look side' query index => exact lookKnown small pos good done told promise

theorem promiseKnown (small : size ≤ 2^31) (pos : 0 < size) {side : Side} (good : Good size items r s)
    (step : Step sourceOrders s moment s') (promises : Promises size n moment side) :
    Known n (items ++ written (events [moment])) (r + (given (events [moment])).length) s'.memory side := by
  have fits : size < uintRange := by simp only [uintRange]; omega
  have quiet : written (events [moment]) = [] ∧ given (events [moment]) = [] := by
    obtain ⟨action,event⟩ := moment
    rcases promises with ⟨a,rfl,_⟩ | ⟨_,_,item,rfl⟩ <;> exact ⟨rfl,rfl⟩
  rw [quiet.1,quiet.2,List.append_nil]
  rcases promises with ⟨a,told,promise⟩ | ⟨rfl,rfl,item,told⟩
  · exact answerKnown small pos good step told promise
  · exact (turnStepped fits pos good step).peeked .consumer item told

theorem knownStep (fits : size < uintRange) (pos : 0 < size) {side : Side} (good : Good size items r s)
    (step : Step sourceOrders s moment s') (known : Known n items r s.memory side) :
    (side = .consumer → given (events [moment]) = [] →
      Known n (items ++ written (events [moment])) r s'.memory .consumer ∧
        (0 < n → ∀ side call, moment.event ≠ .call side (.empty call))) ∧
    (side = .producer → written (events [moment]) = [] →
      Known n items (r + (given (events [moment])).length) s'.memory .producer ∧
        (n + 1 < size → ∀ side e, moment.event ≠ .call side (.refused e))) := by
  have stepped := turnStepped fits pos good step
  have grown := stepGrown good.shared.coherent stepped.step
  constructor
  · rintro rfl _
    refine ⟨Nat.le_trans known ((grown .consumer).1 .writePos),fun some side call shows => ?_⟩
    have stale := stepped.empty side call shows
    have known : r + n ≤ (s.memory.views .consumer).seen .writePos := known
    omega
  · rintro rfl _
    have more := (grown .producer).1 .readPos
    have known : items.length ≤ (s.memory.views .producer).seen .readPos + n := known
    refine ⟨?_,fun room side e shows => ?_⟩
    · change items.length ≤ (s'.memory.views .producer).seen .readPos + n
      omega
    · have full := stepped.refused side e shows
      omega

theorem momentOf {trace : List (Moment α)} {event : Event α} (mem : event ∈ events trace) :
    ∃ moment ∈ trace, ∃ side, moment.event = .call side event := by
  obtain ⟨side,inside⟩ := SpscObserve.callOf mem
  obtain ⟨moment,at_,same⟩ := List.mem_map.mp inside
  exact ⟨moment,at_,side,same⟩

theorem knownRun (fits : size < uintRange) (pos : 0 < size) {side : Side} {t : System α} (served : Served size q trace s)
    (known : Known n (written (events trace)) (given (events trace)).length s.memory side)
    (run : Run (Step sourceOrders) s later t) : Served size q (trace ++ later) t ∧
      (side = .consumer → given (events later) = [] →
        Known n (written (events (trace ++ later))) (given (events (trace ++ later))).length t.memory .consumer ∧
          (0 < n → ∀ moment ∈ later, ∀ side call, moment.event ≠ .call side (.empty call))) ∧
      (side = .producer → written (events later) = [] →
        Known n (written (events (trace ++ later))) (given (events (trace ++ later))).length t.memory .producer ∧
          (n + 1 < size → ∀ moment ∈ later, ∀ side e, moment.event ≠ .call side (.refused e))) := by
  induction run with
  | nil =>
    rw [List.append_nil]
    exact ⟨served,fun consumer _ => ⟨consumer ▸ known,fun _ _ mem => by cases mem⟩,
      fun producer _ => ⟨producer ▸ known,fun _ _ mem => by cases mem⟩⟩
  | snoc before last ih =>
    rename_i later t moment t'
    obtain ⟨served,consumer,producer⟩ := ih
    have next := servedStep fits pos served last
    have split : events (trace ++ (later ++ [moment])) = events (trace ++ later) ++ events [moment] := by
      rw [← List.append_assoc,eventsAppend]
    rw [split,SpscObserve.writtenAppend,SpscObserve.givenAppend,eventsAppend,SpscObserve.writtenAppend,
      SpscObserve.givenAppend]
    refine ⟨by rw [← List.append_assoc]; exact next,fun mine none => ?_,fun mine none => ?_⟩
    · obtain ⟨none,now⟩ := List.append_eq_nil_iff.mp none
      obtain ⟨known,quiet⟩ := consumer mine none
      obtain ⟨known',quiet'⟩ := (knownStep fits pos served.good last known).1 rfl now
      rw [now,List.append_nil]
      refine ⟨known',fun some moment' mem => ?_⟩
      rcases List.mem_append.mp mem with mem | mem
      · exact quiet some moment' mem
      · cases List.mem_singleton.mp mem
        exact quiet' some
    · obtain ⟨none,now⟩ := List.append_eq_nil_iff.mp none
      obtain ⟨known,quiet⟩ := producer mine none
      obtain ⟨known',quiet'⟩ := (knownStep fits pos served.good last known).2 rfl now
      rw [now,List.append_nil,List.length_append]
      refine ⟨known',fun room moment' mem => ?_⟩
      rcases List.mem_append.mp mem with mem | mem
      · exact quiet room moment' mem
      · cases List.mem_singleton.mp mem
        exact quiet' room

/-- What a side is told by is_empty, is_full, size or a peek stays a safe estimate, and its
next read or write succeeds, although the loads of either side may be stale. -/
theorem ringRelies {memory : Option (Nat → α)} (small : size ≤ 2^31) (accepted : spscQueueInit memory size = some q)
    (run : Run (Step sourceOrders) (begin q) (trace ++ [moment]) s) {side : Side} (promises : Promises size n moment side)
    {t : System α} (after : Run (Step sourceOrders) s later t) : Relies size n (trace ++ [moment]) later side := by
  have fits : size < uintRange := by simp only [uintRange]; omega
  obtain ⟨_,_,pos⟩ := beginFresh accepted
  obtain ⟨t₀,before,step⟩ := Base.Trace.runSnocInv run
  have served := runServed fits accepted before
  have known := promiseKnown small pos served.good step promises
  rw [← SpscObserve.writtenAppend,← List.length_append,← SpscObserve.givenAppend,← eventsAppend] at known
  obtain ⟨last,consumer,producer⟩ := knownRun fits pos (runServed fits accepted run) known after
  cases side with
  | consumer =>
    intro none
    obtain ⟨known,quiet⟩ := consumer rfl none
    refine ⟨Nat.le_trans known (sawWrites last.good.shared),fun some call mem => ?_⟩
    obtain ⟨moment',inside,side,shows⟩ := momentOf mem
    exact quiet some moment' inside side call shows
  | producer =>
    intro none
    obtain ⟨known,quiet⟩ := producer rfl none
    refine ⟨Nat.le_trans known (Nat.add_le_add_right (sawTakes last.good.shared) n),fun room e mem => ?_⟩
    obtain ⟨moment',inside,side,shows⟩ := momentOf mem
    exact quiet room moment' inside side e shows

-- is_empty acquires the first store of write_pos; the read that follows may not return an older one.
theorem ringReliesOne : ∃ (trace later : List (Moment Nat)) (moment : Moment Nat),
    Relies 3 1 (trace ++ [moment]) later .consumer ∧ moment.event = .answered .consumer (.isEmpty false) ∧
    events later = [.silent,.silent,.silent,.silent,.silent] := by
  have accepted : spscQueueInit (some fun _ => 0) 3 = some ⟨3,fun _ => 0,0,0⟩ := rfl
  have run : Run (Step sourceOrders) (begin ⟨3,fun _ => 0,0,0⟩) _ _ :=
    .snoc (.snoc (.snoc (.snoc (.snoc (.snoc .nil ⟨.producer 7 0,rfl⟩) ⟨.producer 7 0,rfl⟩) ⟨.producer 7 0,rfl⟩)
      ⟨.producer 7 0,rfl⟩) ⟨.look .consumer (.isEmpty .writeFirst) 1,rfl⟩) ⟨.look .consumer (.isEmpty .writeFirst) 0,rfl⟩
  exact ⟨_,_,_,ringRelies (by decide) accepted run (.inl ⟨.isEmpty false,rfl,rfl⟩)
    (.snoc (.snoc (.snoc (.snoc (.snoc .nil ⟨.producer 8 1,rfl⟩) ⟨.consumer .read 0,rfl⟩) ⟨.producer 8 0,rfl⟩)
      ⟨.consumer .read 1,rfl⟩) ⟨.consumer .read 0,rfl⟩),rfl,rfl⟩

end Promises

end Qtl.SpscMemoryRun
