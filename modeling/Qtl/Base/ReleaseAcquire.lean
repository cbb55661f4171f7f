import Mathlib.Logic.Function.Basic
import Qtl.Base.HappensBefore

/-! Memory with release and acquire. Each shared location is written by one thread, so
its modification order is the order of that thread's stores; a load may return any store
that is not older than one its thread has seen. Clocks count positions of the trace. -/
namespace Qtl.Base.ReleaseAcquire
open HappensBefore

-- `seen`: the oldest store a load may still return. `clock`: what is known of each thread.
structure View (T L : Type) where
  seen : L → Nat
  clock : T → Nat

structure Message (T L V : Type) where
  value : V
  view : View T L

structure Memory (T L C V α : Type) where
  messages : L → List (Message T L V)
  views : T → View T L
  cells : C → α
  wrote : C → T → Nat
  read : C → T → Nat
  time : Nat

section Views
variable {T L : Type} {v w u : View T L} {l : L} {i : Nat}

def blank : View T L := ⟨fun _ => 0,fun _ => 0⟩

def View.Le (v w : View T L) : Prop := (∀ l, v.seen l ≤ w.seen l) ∧ ∀ t, v.clock t ≤ w.clock t

def View.join (v w : View T L) : View T L :=
  ⟨fun l => max (v.seen l) (w.seen l),fun t => max (v.clock t) (w.clock t)⟩

theorem leRefl (v : View T L) : v.Le v := ⟨fun _ => Nat.le_refl _,fun _ => Nat.le_refl _⟩

theorem leTrans (h : v.Le w) (h' : w.Le u) : v.Le u :=
  ⟨fun l => Nat.le_trans (h.1 l) (h'.1 l),fun t => Nat.le_trans (h.2 t) (h'.2 t)⟩

theorem leJoin (v w : View T L) : v.Le (v.join w) := ⟨fun _ => Nat.le_max_left ..,fun _ => Nat.le_max_left ..⟩

theorem joinInside (h : w.Le v) : v.join w = v := by
  obtain ⟨seen,clock⟩ := v
  simp only [View.join,View.mk.injEq]
  exact ⟨funext fun l => Nat.max_eq_left (h.1 l),funext fun t => Nat.max_eq_left (h.2 t)⟩

variable [DecidableEq L]

def View.see (v : View T L) (l : L) (i : Nat) : View T L :=
  {v with seen := Function.update v.seen l (max (v.seen l) i)}

theorem seenSee (v : View T L) (l k : L) (i : Nat) :
    (v.see l i).seen k = if k = l then max (v.seen k) i else v.seen k := by
  simp only [View.see,Function.update_apply]
  split
  · rename_i same
    rw [same]
  · rfl

theorem leSee (v : View T L) (l : L) (i : Nat) : v.Le (v.see l i) := by
  refine ⟨fun k => ?_,fun _ => Nat.le_refl _⟩
  rw [seenSee]
  split
  · exact Nat.le_max_left ..
  · exact Nat.le_refl _

theorem seeInside (h : i ≤ v.seen l) : v.see l i = v := by
  obtain ⟨seen,clock⟩ := v
  simp only [View.see,Nat.max_eq_left h,Function.update_eq_self]

end Views

variable {T L C V α : Type} {m m' : Memory T L C V α} {t : T} {l : L} {c : C} {order : MemoryOrder} {i : Nat}
variable {message : Message T L V} {v : V} {owner : L → T}

structure Fresh (m : Memory T L C V α) : Prop where
  time : m.time = 0
  views : ∀ t, m.views t = blank
  messages : ∀ l, ∃ v, m.messages l = [⟨v,blank⟩]
  wrote : ∀ c t, m.wrote c t = 0
  read : ∀ c t, m.read c t = 0

/-- Each location is stored to by its owner only, who has seen all its stores. -/
structure Coherent (owner : L → T) (m : Memory T L C V α) : Prop where
  latest : ∀ l, (m.messages l).length ≤ (m.views (owner l)).seen l + 1
  bounded : ∀ t l, (m.views t).seen l < (m.messages l).length
  inside : ∀ l (i : Nat) message, (m.messages l)[i]? = some message → message.view.Le (m.views (owner l))
  place : ∀ l (i : Nat) message, (m.messages l)[i]? = some message → message.view.seen l ≤ i
  timed : ∀ t u, (m.views t).clock u ≤ m.time

theorem freshFirst (fresh : Fresh m) (found : (m.messages l)[i]? = some message) : message.view = blank := by
  obtain ⟨v,only⟩ := fresh.messages l
  rw [only] at found
  cases List.mem_singleton.mp (List.mem_of_getElem? found)
  rfl

theorem freshCoherent (owner : L → T) (fresh : Fresh m) : Coherent owner m := by
  have length (l : L) : (m.messages l).length = 1 := by
    obtain ⟨v,only⟩ := fresh.messages l
    rw [only]
    rfl
  refine ⟨fun l => ?_,fun t l => ?_,fun l i message found => ?_,fun l i message found => ?_,fun t u => ?_⟩
  · rw [length]
    exact Nat.le_add_left ..
  · rw [length,fresh.views]
    exact Nat.zero_lt_one
  · rw [freshFirst fresh found,fresh.views]
    exact leRefl _
  · rw [freshFirst fresh found]
    exact Nat.zero_le i
  · rw [fresh.views]
    exact Nat.zero_le _

theorem seenInside (coherent : Coherent owner m) (found : (m.messages l)[i]? = some message) (k : L) :
    message.view.seen k < (m.messages k).length :=
  Nat.lt_of_le_of_lt ((coherent.inside l i message found).1 k) (coherent.bounded (owner l) k)

theorem sentInside (coherent : Coherent owner m) (found : (m.messages l)[i]? = some message) (u : T) :
    message.view.clock u ≤ m.time :=
  Nat.le_trans ((coherent.inside l i message found).2 u) (coherent.timed (owner l) u)

theorem coherentViews (coherent : Coherent owner m) (messages : m'.messages = m.messages)
    (grown : ∀ t, (m.views t).Le (m'.views t)) (bounded : ∀ t l, (m'.views t).seen l < (m.messages l).length)
    (timed : ∀ t u, (m'.views t).clock u ≤ m'.time) : Coherent owner m' := by
  refine ⟨fun l => ?_,?_,?_,?_,timed⟩ <;> rw [messages]
  · exact Nat.le_trans (coherent.latest l) (Nat.succ_le_succ ((grown (owner l)).1 l))
  · exact bounded
  · exact fun l i message found => leTrans (coherent.inside l i message found) (grown (owner l))
  · exact coherent.place

section Locations
variable [DecidableEq L]

def loaded (v : View T L) (l : L) (order : MemoryOrder) (i : Nat) (message : Message T L V) : View T L :=
  if order = .acquire then (v.see l i).join message.view else v.see l i

theorem clockLoaded (v : View T L) (l : L) (order : MemoryOrder) (i : Nat) (message : Message T L V) (u : T) :
    (loaded v l order i message).clock u =
      if order = .acquire then max (v.clock u) (message.view.clock u) else v.clock u := by
  unfold loaded
  split <;> rfl

theorem leLoaded (v : View T L) (l : L) (order : MemoryOrder) (i : Nat) (message : Message T L V) :
    v.Le (loaded v l order i message) := by
  unfold loaded
  split
  · exact leTrans (leSee v l i) (leJoin _ _)
  · exact leSee v l i

theorem seenLoaded (v : View T L) (l k : L) (order : MemoryOrder) (i : Nat) (message : Message T L V) :
    (loaded v l order i message).seen k ≤ max (if k = l then max (v.seen k) i else v.seen k) (message.view.seen k) := by
  unfold loaded
  rw [← seenSee]
  split
  · exact Nat.le_refl _
  · exact Nat.le_max_left ..

theorem loadedInside {v : View T L} (seen : i ≤ v.seen l) (inside : message.view.Le v) :
    loaded v l order i message = v := by
  unfold loaded
  rw [seeInside seen,joinInside inside,ite_self]

variable [DecidableEq T]

def load (m : Memory T L C V α) (t : T) (l : L) (order : MemoryOrder) (i : Nat) :
    Option (V × Memory T L C V α) :=
  if (m.views t).seen l ≤ i then
    (m.messages l)[i]?.map (fun message => (message.value,
      {m with views := Function.update m.views t (loaded (m.views t) l order i message), time := m.time + 1}))
  else none

-- Only a release store hands on what its thread knows.
def store (m : Memory T L C V α) (t : T) (l : L) (order : MemoryOrder) (value : V) : Memory T L C V α :=
  let i := (m.messages l).length
  let view := (m.views t).see l i
  {m with
    messages := Function.update m.messages l
      (m.messages l ++ [⟨value,if order = .release then view else blank.see l i⟩])
    views := Function.update m.views t view
    time := m.time + 1}

theorem loadInv (returned : load m t l order i = some (v,m')) :
    ∃ message, (m.views t).seen l ≤ i ∧ (m.messages l)[i]? = some message ∧ v = message.value ∧
      m' = {m with
        views := Function.update m.views t (loaded (m.views t) l order i message)
        time := m.time + 1} := by
  unfold load at returned
  split at returned
  · rename_i fresh
    obtain ⟨message,found,same⟩ := Option.map_eq_some_iff.mp returned
    cases same
    exact ⟨message,fresh,found,rfl,rfl⟩
  · cases returned

theorem viewsStored (m : Memory T L C V α) {t u : T} (l : L) (order : MemoryOrder) (v : V)
    (other : u ≠ t) : (store m t l order v).views u = m.views u := Function.update_of_ne other ..

theorem messagesStored (m : Memory T L C V α) (t : T) {l k : L} (order : MemoryOrder) (v : V) (other : k ≠ l) :
    (store m t l order v).messages k = m.messages k := Function.update_of_ne other ..

theorem seenStored (m : Memory T L C V α) (t u : T) {l k : L} (order : MemoryOrder) (v : V) (other : k ≠ l) :
    ((store m t l order v).views u).seen k = (m.views u).seen k := by
  by_cases mine : u = t
  · subst mine
    simp only [store,Function.update_self,seenSee,if_neg other]
  · rw [viewsStored m l order v mine]

theorem clockStored (m : Memory T L C V α) (t u : T) (l : L) (order : MemoryOrder) (v : V) (w : T) :
    ((store m t l order v).views u).clock w = (m.views u).clock w := by
  by_cases mine : u = t
  · subst mine
    simp only [store,Function.update_self,View.see]
  · rw [viewsStored m l order v mine]

theorem messageStored {k : L} (found : ((store m t l order v).messages k)[i]? = some message) :
    (m.messages k)[i]? = some message ∨ (k = l ∧ i = (m.messages l).length ∧ message =
      ⟨v,if order = .release then (m.views t).see l i else blank.see l i⟩) := by
  simp only [store,Function.update_apply] at found
  split at found
  · rename_i same
    subst same
    rcases Nat.lt_trichotomy i (m.messages k).length with inside | rfl | outside
    · rw [List.getElem?_append_left inside] at found
      exact .inl found
    · rw [List.getElem?_concat_length] at found
      exact .inr ⟨rfl,rfl,(Option.some.inj found).symm⟩
    · rw [List.getElem?_eq_none (by simp; omega)] at found
      cases found
  · exact .inl found

theorem loadCoherent (coherent : Coherent owner m) (returned : load m t l order i = some (v,m')) :
    Coherent owner m' := by
  obtain ⟨message,_,found,_,rfl⟩ := loadInv returned
  refine coherentViews coherent rfl (fun u => ?_) (fun u k => ?_) (fun u w => ?_) <;> by_cases mine : u = t
  · subst mine
    simp only [Function.update_self]
    exact leLoaded ..
  · simp only [Function.update_of_ne mine]
    exact leRefl _
  · subst mine
    simp only [Function.update_self]
    have bound := seenLoaded (m.views u) l k order i message
    have old := coherent.bounded u k
    have sent := seenInside coherent found k
    split at bound
    · rename_i same
      subst same
      have at_ := (List.getElem?_eq_some_iff.mp found).1
      omega
    · omega
  · simp only [Function.update_of_ne mine]
    exact coherent.bounded u k
  · subst mine
    simp only [Function.update_self,clockLoaded]
    have old := coherent.timed u w
    have sent := sentInside coherent found w
    split <;> omega
  · simp only [Function.update_of_ne mine]
    exact Nat.le_succ_of_le (coherent.timed u w)

structure Acquired (m : Memory T L C V α) (t : T) (l : L) (i : Nat) (message : Message T L V)
    (m' : Memory T L C V α) : Prop where
  found : (m.messages l)[i]? = some message
  fresh : (m.views t).seen l ≤ i
  seen : (m'.views t).seen l = i
  grown : (m.views t).Le (m'.views t)
  learned : message.view.Le (m'.views t)
  others : ∀ u, u ≠ t → m'.views u = m.views u
  messages : m'.messages = m.messages
  cells : m'.cells = m.cells
  wrote : m'.wrote = m.wrote
  read : m'.read = m.read

theorem acquireLoad (coherent : Coherent owner m) (returned : load m t l .acquire i = some (v,m')) :
    ∃ message, v = message.value ∧ Acquired m t l i message m' := by
  obtain ⟨message,fresh,found,rfl,rfl⟩ := loadInv returned
  refine ⟨message,rfl,found,fresh,?_,?_,?_,fun u other => Function.update_of_ne other ..,rfl,rfl,rfl,rfl⟩
  · have place := coherent.place l i message found
    simp only [Function.update_self,loaded,if_true,View.join,seenSee]
    omega
  · simp only [Function.update_self]
    exact leLoaded ..
  · simp only [Function.update_self,loaded,if_true]
    exact ⟨fun _ => Nat.le_max_right ..,fun _ => Nat.le_max_right ..⟩

/-- The owner of a location always loads its last store, and learns nothing from it. -/
theorem ownLoad (coherent : Coherent owner m) (returned : load m (owner l) l order i = some (v,m')) :
    i + 1 = (m.messages l).length ∧ (m.messages l).getLast?.map Message.value = some v ∧
      m' = {m with time := m.time + 1} := by
  obtain ⟨message,fresh,found,rfl,rfl⟩ := loadInv returned
  have at_ := (List.getElem?_eq_some_iff.mp found).1
  have last := coherent.latest l
  have whole : i + 1 = (m.messages l).length := by omega
  refine ⟨whole,?_,?_⟩
  · rw [List.getLast?_eq_getElem?,← whole,Nat.add_sub_cancel,found]
    rfl
  · rw [loadedInside (by omega) (coherent.inside l i message found),Function.update_eq_self]

theorem loadLast (coherent : Coherent owner m) (t : T) (order : MemoryOrder)
    (last : (m.messages l).getLast?.map Message.value = some v) :
    ∃ i m', load m t l order i = some (v,m') ∧ m'.messages = m.messages ∧ m'.cells = m.cells := by
  obtain ⟨message,found,rfl⟩ := Option.map_eq_some_iff.mp last
  rw [List.getLast?_eq_getElem?] at found
  have saw := coherent.bounded t l
  let m' : Memory T L C V α := {m with
    views := Function.update m.views t (loaded (m.views t) l order ((m.messages l).length - 1) message)
    time := m.time + 1}
  refine ⟨(m.messages l).length - 1,m',?_,rfl,rfl⟩
  rw [load,if_pos (by omega),found]
  rfl

theorem lastStored (m : Memory T L C V α) (t : T) (l : L) (order : MemoryOrder) (v : V) :
    ((store m t l order v).messages l).getLast?.map Message.value = some v := by
  simp only [store,Function.update_self,List.getLast?_concat,Option.map_some]

theorem storeCoherent (coherent : Coherent owner m) (order : MemoryOrder) (v : V) :
    Coherent owner (store m (owner l) l order v) := by
  have grown (t : T) : (m.views t).Le ((store m (owner l) l order v).views t) := by
    by_cases mine : t = owner l
    · subst mine
      simp only [store,Function.update_self]
      exact leSee ..
    · simp only [store,Function.update_of_ne mine]
      exact leRefl _
  have seen (k : L) : ((store m (owner l) l order v).views (owner l)).seen k =
      if k = l then max ((m.views (owner l)).seen k) (m.messages l).length else (m.views (owner l)).seen k := by
    simp only [store,Function.update_self,seenSee]
  have length (k : L) : ((store m (owner l) l order v).messages k).length =
      if k = l then (m.messages k).length + 1 else (m.messages k).length := by
    simp only [store,Function.update_apply]
    split
    · rename_i same
      rw [same,List.length_append,List.length_singleton]
    · rfl
  refine ⟨fun k => ?_,fun t k => ?_,fun k i message found => ?_,fun k i message found => ?_,fun t u => ?_⟩
  · rw [length]
    split
    · rename_i same
      rw [same,seen,if_pos rfl]
      omega
    · exact Nat.le_trans (coherent.latest k) (Nat.succ_le_succ ((grown (owner k)).1 k))
  · rw [length]
    have old := coherent.bounded t k
    by_cases mine : t = owner l
    · rw [mine] at old ⊢
      rw [seen]
      split
      · rename_i same
        subst same
        omega
      · exact old
    · rw [show (store m (owner l) l order v).views t = m.views t from Function.update_of_ne mine ..]
      split <;> omega
  · rcases messageStored found with found | ⟨rfl,rfl,rfl⟩
    · exact leTrans (coherent.inside k i message found) (grown (owner k))
    · simp only [store,Function.update_self]
      split
      · exact leRefl _
      · refine ⟨fun l => ?_,fun _ => Nat.zero_le _⟩
        rw [seenSee,seenSee]
        split
        · exact Nat.max_le.mpr ⟨Nat.zero_le _,Nat.le_max_right ..⟩
        · exact Nat.zero_le _
  · rcases messageStored found with found | ⟨rfl,rfl,rfl⟩
    · exact coherent.place k i message found
    · have old := coherent.bounded (owner k) k
      dsimp only
      split <;> rw [seenSee,if_pos rfl]
      · omega
      · exact Nat.max_le.mpr ⟨Nat.zero_le _,Nat.le_refl _⟩
  · have old := coherent.timed t u
    by_cases mine : t = owner l
    · subst mine
      simp only [store,Function.update_self]
      exact Nat.le_succ_of_le old
    · simp only [store,Function.update_of_ne mine]
      exact Nat.le_succ_of_le old

end Locations

section Cells
variable [DecidableEq T]

def tick (m : Memory T L C V α) (t : T) : Memory T L C V α :=
  {m with
    views := Function.update m.views t
      {m.views t with clock := Function.update (m.views t).clock t (m.time + 1)}
    time := m.time + 1}

theorem clockTick (m : Memory T L C V α) (t u : T) :
    ((tick m t).views t).clock u = if u = t then m.time + 1 else (m.views t).clock u := by
  simp only [tick,Function.update_self,Function.update_apply]

theorem viewsTick (m : Memory T L C V α) {t u : T} (other : u ≠ t) : (tick m t).views u = m.views u :=
  Function.update_of_ne other ..

theorem seenTick (m : Memory T L C V α) (t u : T) : ((tick m t).views u).seen = (m.views u).seen := by
  by_cases mine : u = t
  · subst mine
    simp only [tick,Function.update_self]
  · simp only [tick,Function.update_of_ne mine]

theorem leTick (coherent : Coherent owner m) (t u : T) : (m.views u).Le ((tick m t).views u) := by
  refine ⟨fun l => ?_,fun w => ?_⟩
  · exact Nat.le_of_eq (congrFun (seenTick m t u) l).symm
  · by_cases mine : u = t
    · subst mine
      rw [clockTick]
      split
      · exact Nat.le_succ_of_le (coherent.timed u w)
      · exact Nat.le_refl _
    · exact Nat.le_of_eq (congrArg (fun view => view.clock w) (viewsTick m mine)).symm

theorem tickCoherent (coherent : Coherent owner m) (messages : m'.messages = m.messages)
    (views : m'.views = (tick m t).views) (time : m'.time = m.time + 1) : Coherent owner m' := by
  refine coherentViews coherent messages (fun u => ?_) (fun u l => ?_) (fun u w => ?_) <;> rw [views]
  · exact leTick coherent t u
  · rw [seenTick]
    exact coherent.bounded u l
  · rw [time]
    by_cases mine : u = t
    · subst mine
      rw [clockTick]
      split
      · exact Nat.le_refl _
      · exact Nat.le_succ_of_le (coherent.timed u w)
    · rw [viewsTick m mine]
      exact Nat.le_succ_of_le (coherent.timed u w)

variable [DecidableEq C]

def mark (times : C → T → Nat) (c : C) (t : T) (n : Nat) : C → T → Nat :=
  Function.update times c (Function.update (times c) t n)

def readCell (m : Memory T L C V α) (t : T) (c : C) : α × Memory T L C V α :=
  (m.cells c,{tick m t with read := mark m.read c t (m.time + 1)})

def writeCell (m : Memory T L C V α) (t : T) (c : C) (a : α) : Memory T L C V α :=
  {tick m t with cells := Function.update m.cells c a, wrote := mark m.wrote c t (m.time + 1)}

theorem markApply (times : C → T → Nat) (c d : C) (t u : T) (n : Nat) :
    mark times c t n d u = if d = c ∧ u = t then n else times d u := by
  by_cases cell : d = c
  · subst cell
    simp only [mark,Function.update_self,Function.update_apply,true_and]
  · simp only [mark,Function.update_of_ne cell,cell,false_and,if_false]

theorem readCoherent (coherent : Coherent owner m) (t : T) (c : C) : Coherent owner (readCell m t c).2 :=
  tickCoherent (t := t) coherent rfl rfl rfl

theorem writeCoherent (coherent : Coherent owner m) (t : T) (c : C) (a : α) : Coherent owner (writeCell m t c a) :=
  tickCoherent (t := t) coherent rfl rfl rfl

end Cells

end Qtl.Base.ReleaseAcquire
