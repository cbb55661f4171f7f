import Qtl.BusOwnership

/-! The library conserves the references it takes over exactly as far as its calls are
clean: a step lemma for every turn, then all runs. -/
namespace Qtl.BusConserved
open Queue EventTree Spsc Pipe Bus BusStore EventRef EventHolders EventTreeRun EventTreeTaken BusOwnership
open Base.Trace (Run)

variable {asserts : Assertion → Bool} {alloc : PipeName → Nat → Option TreeNode} {utcNow : Nat → Nat}
variable {n q x : Nat} {l l₁ l' : Ledger} {e : Event} {r : Option Event} {s s' : World} {h : Nat → Nat}

structure SameBooks (l l₁ : Ledger) : Prop where
  cells : l₁.cells = l.cells
  next : l₁.next = l.next
  client : l₁.client = l.client

theorem conservedSame (conserved : Conserved n l) (cells : l'.cells = l.cells) (next : l'.next = l.next)
    (same : ∀ y, holders n l' y = holders n l y) : Conserved n l' := by
  unfold Conserved
  rw [cells,next,funext same]
  exact conserved

theorem conservedQueues (conserved : Conserved n l) (books : SameBooks l l') (saved : l'.saved = l.saved)
    (queues : l'.queues = l.queues) : Conserved n l' := by
  refine conservedSame conserved books.cells books.next (fun y => ?_)
  rw [holders,queues,saved,books.client]
  rfl

theorem handNamed (l : Ledger) (object : e.object = some x) :
    hand l (some e) = {l with client := Function.update l.client x (l.client x + 1)} := by
  simp only [hand,named,object]

def made (l : Ledger) (e : Event) : Ledger := {l with
  cells := Function.update l.cells l.next eventInit,
  events := Function.update l.events l.next {e with object := some l.next},
  next := l.next + 1}

theorem namedMade (l : Ledger) (object : e.object = none) : named l e = (made l e,l.next) := by
  simp only [named,object,made]

theorem handMade (l : Ledger) (object : e.object = none) :
    hand l (some e) = {made l e with client := Function.update l.client l.next (l.client l.next + 1)} := by
  rw [hand,namedMade l object]
  rfl

theorem conservedMade (conserved : Conserved n l) (object : e.object = none) : Conserved n (hand l (some e)) := by
  rw [handMade l object]
  refine accountedMade conserved (fun y => ?_)
  have more := oneMoreUpdate l.client l.next y
  change slots n l.queues y + heldBy l.saved y + Function.update l.client l.next (l.client l.next + 1) y = _
  simp only [holders]
  omega

theorem handCaller (l : Ledger) (r : Option Event) : (hand l r).caller = l.caller := by
  cases r with
  | none => rfl
  | some e => cases object : e.object <;> simp only [hand,named,object]

theorem conservedLost (conserved : Conserved n l) (less : OneMore x (slots n l'.queues) (slots n l.queues))
    (saved : heldBy l'.saved x = heldBy l.saved x) (client : l'.client x = l.client x)
    (cells : l'.cells x = l.cells x) (grown : l.next ≤ l'.next) : ¬ Conserved n l' := by
  refine accountedLost conserved ?_ cells grown
  have one := oneMoreHere less
  simp only [holders,saved,client]
  omega

theorem readSlots (formed : Formed n l.caller) (world : s.queues = l.queues) (front : upcoming s = some (q,e))
    (popped : s'.queues = Function.update s.queues q (eventQueuePop (s.queues q)).1) :
    (∃ x, e.object = some x ∧ OneMore x (slots n s'.queues) (slots n l.queues)) ∧
      ∀ q, contents (s'.queues q) ⊆ contents (l.queues q) := by
  have peek := upcomingAt front
  rw [world] at peek popped
  have whole := peekFront peek
  have inside : q < n := by
    by_contra above
    have none := formed.beyond q (by omega)
    rw [show contents (l.caller.bus.pipes.queues q) = _ from whole] at none
    cases none
  have told := formed.named q e (by rw [show contents (l.caller.bus.pipes.queues q) = _ from whole]; simp)
  obtain ⟨x,object⟩ := Option.isSome_iff_exists.mp told
  refine ⟨⟨x,object,?_⟩,fun i => ?_⟩
  · rw [popped]
    exact slotPopped inside object whole
  · rw [popped]
    by_cases here : i = q
    · subst here
      rw [Function.update_self,whole]
      exact List.subset_cons_self ..
    · rw [Function.update_of_ne here]
      exact List.Subset.refl _

theorem readFewer (formed : Formed n l.caller) (world : s.queues = l.queues) (read : TreeRead s s' r) (q : Nat) :
    contents (s'.queues q) ⊆ contents (l.queues q) := by
  cases read with
  | null _ _ same =>
    rw [same,world]
    exact List.Subset.refl _
  | passed front _ popped => exact (readSlots formed world front popped).2 q
  | replaced front _ popped => exact (readSlots formed world front popped).2 q

theorem unnamedOther (conserved : Conserved n l) (less : OneMore x h (slots n l.queues)) (books : SameBooks l l₁) :
    x ≠ l₁.next := by
  have one := oneMoreHere less
  have known : x < l.next := accountedKnown conserved (by simp only [holders]; omega)
  rw [books.next]
  omega

theorem madeCell (e : Event) (books : SameBooks l l₁) (other : x ≠ l₁.next) :
    (made l₁ e).cells x = l.cells x ∧ l.next ≤ (made l₁ e).next :=
  ⟨(Function.update_of_ne other ..).trans (congrFun books.cells x),books.next ▸ Nat.le_succ l₁.next⟩

theorem handRead (conserved : Conserved n l) (formed : Formed n l.caller) (world : s.queues = l.queues)
    (read : TreeRead s s' r) (books : SameBooks l l₁) (saved : l₁.saved = l.saved) (queues : l₁.queues = s'.queues) :
    Conserved n (hand l₁ r) ↔ ¬ LastClosing s := by
  cases read with
  | null _ goesOn same =>
    exact iff_of_true (conservedQueues conserved books saved (queues.trans (same.trans world))) goesOn
  | passed front goesOn popped =>
    obtain ⟨⟨x,object,less⟩,_⟩ := readSlots formed world front popped
    refine iff_of_true ?_ goesOn
    rw [handNamed l₁ object]
    refine conservedSame conserved books.cells books.next (fun y => ?_)
    have more := oneMoreUpdate l₁.client x y
    have fewer := less y
    change slots n l₁.queues y + heldBy l₁.saved y + Function.update l₁.client x (l₁.client x + 1) y = _
    rw [queues,saved,more,books.client]
    simp only [holders]
    omega
  | replaced front closing popped =>
    obtain ⟨⟨x,object,less⟩,_⟩ := readSlots formed world front popped
    have other := unnamedOther conserved less books
    refine iff_of_false ?_ (not_not.mpr closing)
    rw [handMade l₁ rfl]
    obtain ⟨cell,grown⟩ := madeCell newOnSimulationStopEvent books other
    have client := (Function.update_of_ne other (l₁.client l₁.next + 1) l₁.client).trans (congrFun books.client x)
    exact conservedLost conserved (queues ▸ less) (congrArg (heldBy · x) saved) client cell grown

theorem saveNamed (l : Ledger) (object : e.object = some x) :
    save l e = {l with caller := {l.caller with bus := {l.caller.bus with savedEvent := some e}}} := by
  obtain ⟨time,type,_⟩ := e
  cases object
  rfl

theorem saveRead (conserved : Conserved n l) (formed : Formed n l.caller) (world : s.queues = l.queues)
    (read : TreeRead s s' (some e)) (books : SameBooks l l₁) (unsaved : l.saved = none)
    (queues : l₁.queues = s'.queues) :
    Conserved n (save l₁ e) ↔ ¬ LastClosing s := by
  generalize got : some e = r at read
  cases read with
  | null => cases got
  | passed front goesOn popped =>
    cases got
    obtain ⟨⟨x,object,less⟩,_⟩ := readSlots formed world front popped
    refine iff_of_true ?_ goesOn
    rw [saveNamed l₁ object]
    refine conservedSame conserved books.cells books.next (fun y => ?_)
    have fewer := less y
    change slots n l₁.queues y + heldBy (some e) y + l₁.client y = _
    rw [queues,books.client,heldNamed object]
    simp only [holders,unsaved]
    change _ = _ + 0 + _
    omega
  | replaced front closing popped =>
    cases got
    obtain ⟨⟨x,object,less⟩,_⟩ := readSlots formed world front popped
    have other := unnamedOther conserved less books
    refine iff_of_false ?_ (not_not.mpr closing)
    rw [save,namedMade l₁ rfl]
    obtain ⟨cell,grown⟩ := madeCell newOnSimulationStopEvent books other
    refine conservedLost conserved (queues ▸ less) ?_ (congrFun books.client x) cell grown
    rw [unsaved]
    change (if some l₁.next = some x then 1 else 0) = _
    rw [if_neg (fun same => other (Option.some.inj same).symm)]
    rfl

theorem handSaved (conserved : Conserved n l) (held : l.saved = some e) (object : e.object = some x)
    (books : SameBooks l l₁) (saved : l₁.saved = none)
    (queues : l₁.queues = l.queues) : Conserved n (hand l₁ (some e)) := by
  rw [handNamed l₁ object]
  refine conservedSame conserved books.cells books.next (fun y => ?_)
  have more := oneMoreUpdate l₁.client x y
  change slots n l₁.queues y + heldBy l₁.saved y + Function.update l₁.client x (l₁.client x + 1) y = _
  rw [queues,saved,more,books.client,holders,held,heldNamed object]
  change _ + 0 + _ = _
  omega

theorem swallowRead (conserved : Conserved n l) (formed : Formed n l.caller) (world : s.queues = l.queues)
    (read : TreeRead s s' (some e)) (books : SameBooks l l₁) (saved : l₁.saved = l.saved)
    (queues : l₁.queues = s'.queues) :
    ¬ Conserved n (named l₁ e).1 := by
  generalize got : some e = r at read
  cases read with
  | null => cases got
  | passed front goesOn popped =>
    cases got
    obtain ⟨⟨x,object,less⟩,_⟩ := readSlots formed world front popped
    rw [show (named l₁ e).1 = l₁ by simp only [named,object]]
    exact conservedLost conserved (queues ▸ less) (congrArg (heldBy · x) saved) (congrFun books.client x)
      (congrFun books.cells x) (le_of_eq books.next.symm)
  | replaced front closing popped =>
    cases got
    obtain ⟨⟨x,object,less⟩,_⟩ := readSlots formed world front popped
    have other := unnamedOther conserved less books
    rw [namedMade l₁ rfl]
    obtain ⟨cell,grown⟩ := madeCell newOnSimulationStopEvent books other
    exact conservedLost conserved (queues ▸ less) (congrArg (heldBy · x) saved) (congrFun books.client x) cell grown

section Dequeue
variable {p : PipeName} {loop : EventBusMode} {w : PipeWorld} {st : Store}

theorem pipeTaken (formed : Formed n l.caller)
    (got : (storePipes asserts alloc).read p l.caller.bus.pipes = .ok (st,r)) :
    ∃ (w : PipeWorld) (tree : World), drained asserts alloc l.caller.bus.pipes p = .ok w ∧ w.queues = l.queues ∧
      TreeRead w.toWorld tree r ∧ st.queues = tree.queues ∧ ∀ q, contents (st.queues q) ⊆ contents (l.queues q) := by
  obtain ⟨w,tree,ready,world,read,queues⟩ := pipeReadTaken got
  refine ⟨w,tree,ready,world,read,queues,fun q => ?_⟩
  rw [queues]
  exact readFewer formed world read q

theorem cleanRead (here : l.caller.point = .read loop p) (ready : drained asserts alloc l.caller.bus.pipes p = .ok w) :
    Clean asserts alloc l .dequeue ↔ ¬ LastClosing w.toWorld ∧ (loop = .kSimulation → p = .data →
      ∀ q e, upcoming w.toWorld = some (q,e) → e.type ≠ .kOnSimulatorStop) := by
  refine ⟨fun clean => clean loop p w here ready,fun told loop' p' w' here' ready' => ?_⟩
  cases here.symm.trans here'
  cases ready.symm.trans ready'
  exact told

theorem cleanElse (away : ∀ loop p, l.caller.point ≠ .read loop p) : Clean asserts alloc l .dequeue :=
  fun loop p _ here => absurd here (away loop p)

theorem namedCaller (l : Ledger) (e : Event) : (named l e).1.caller = l.caller := by
  cases object : e.object <;> simp only [named,object]

theorem saveCaller (l : Ledger) (e : Event) : ∃ e', e'.object.isSome ∧
    (save l e).caller = {l.caller with bus := {l.caller.bus with savedEvent := some e'}} := by
  refine ⟨{e with object := some (named l e).2},rfl,?_⟩
  rw [← namedCaller l e]
  rfl

theorem formedAway {s s' : Caller Store} (formed : Formed n s)
    (fewer : ∀ q, contents (s'.bus.pipes.queues q) ⊆ contents (s.bus.pipes.queues q))
    (saved : ∀ e, s'.bus.savedEvent = some e → e.object.isSome) (away : unsavedAt s'.point = false) : Formed n s' := by
  refine formedFewer formed fewer saved (fun early => ?_)
  rw [away] at early
  cases early

theorem formedSave {s : Caller Store} (formed : Formed n s)
    (fewer : ∀ q, contents (l₁.queues q) ⊆ contents (s.bus.pipes.queues q)) (away : unsavedAt l₁.caller.point = false) :
    Formed n (save l₁ e).caller := by
  obtain ⟨e',object,caller⟩ := saveCaller l₁ e
  rw [caller]
  refine formedAway formed fewer (fun e'' held => ?_) away
  cases held
  exact object

theorem checkedUnsaved {b : EventBus Store} {empty : Bool}
    (early : unsavedAt (if !empty && (p != .data || b.savedEvent.isNone) then .read loop p else following loop p) = true) :
    b.savedEvent = none := by
  split at early
  · rename_i reads
    cases p with
    | data => simpa using (Bool.and_eq_true_iff.mp reads).2
    | _ => cases early
  · cases p <;> cases early

theorem passedFront (read : TreeRead s s' (some e)) (goesOn : ¬ LastClosing s) : ∃ q, upcoming s = some (q,e) := by
  generalize got : some e = r at read
  cases read with
  | null => cases got
  | passed front =>
    cases got
    exact ⟨_,front⟩
  | replaced _ closing => exact absurd closing goesOn

theorem quietExact (formed : Formed n l.caller) (conserved : Conserved n l) (books : SameBooks l l₁)
    (queues : l₁.queues = l.queues) (saved : l₁.saved = l.saved)
    (unsaved : unsavedAt l₁.caller.point = true → l.saved = none)
    (away : ∀ loop p, l.caller.point ≠ .read loop p) :
    Formed n l₁.caller ∧ (Conserved n l₁ ↔ Clean asserts alloc l .dequeue) := by
  refine ⟨formedFewer formed (fun q => ?_) (fun e held => formed.saved e (saved.symm.trans held))
      (fun early => saved.trans (unsaved early)),iff_of_true (conservedQueues conserved books saved queues) (cleanElse away)⟩
  change contents (l₁.queues q) ⊆ contents (l.queues q)
  rw [queues]
  exact List.Subset.refl _

theorem dequeueExact {label : Bus.Label} {caller : Caller Store} (formed : Formed n l.caller)
    (conserved : Conserved n l)
    (done : dequeueStep (storePipes asserts alloc) utcNow l.caller = .ok (label,caller)) :
    Formed n (settle {l with caller := caller} label).caller ∧
      (Conserved n (settle {l with caller := caller} label) ↔ Clean asserts alloc l .dequeue) := by
  have all := dequeueCases done
  obtain ⟨⟨b,point⟩,trees,cells,events,next,client⟩ := l
  obtain ⟨b',point'⟩ := caller
  have books : SameBooks ⟨⟨b,point⟩,trees,cells,events,next,client⟩ ⟨⟨b',point'⟩,trees,cells,events,next,client⟩ :=
    ⟨rfl,rfl,rfl⟩
  have same (q : Nat) : contents (b.pipes.queues q) ⊆ contents (b.pipes.queues q) := List.Subset.refl _
  cases all with
  | enter => exact quietExact formed conserved books rfl rfl nofun (fun _ _ => nofun)
  | check asked =>
    exact quietExact formed conserved books (pipeIsEmptyQueues asked) rfl checkedUnsaved (fun _ _ => nofun)
  | @swallow st e got type =>
    obtain ⟨w,tree,ready,world,read,queues,fewer⟩ := pipeTaken formed got
    refine ⟨?_,iff_of_false (swallowRead conserved formed world read books rfl queues) ?_⟩
    · change Formed n (named _ e).1.caller
      rw [namedCaller]
      exact formedAway formed fewer formed.saved rfl
    · rw [cleanRead rfl ready]
      rintro ⟨goesOn,clean⟩
      obtain ⟨q,front⟩ := passedFront read goesOn
      exact clean rfl rfl q e front type
  | @lookAhead st e k got type =>
    obtain ⟨w,tree,ready,world,read,queues,fewer⟩ := pipeTaken formed got
    refine ⟨formedSave formed fewer rfl,?_⟩
    rw [cleanRead rfl ready]
    refine (saveRead conserved formed world read books (formed.unsaved rfl) queues).trans (and_iff_left_of_imp ?_).symm
    intro goesOn _ _ q e' front'
    obtain ⟨q',front⟩ := passedFront read goesOn
    cases front.symm.trans front'
    exact type
  | @keep st e got =>
    obtain ⟨w,tree,ready,world,read,queues,fewer⟩ := pipeTaken formed got
    have unsaved : b.savedEvent = none := formed.unsaved rfl
    rw [cleanRead rfl ready]
    cases e with
    | none =>
      refine ⟨formedAway formed fewer (fun e held => by cases held) rfl,iff_of_true ?_ ⟨?_,fun simulated => by cases simulated⟩⟩
      · cases read with
        | null _ _ kept => exact conservedQueues conserved books unsaved.symm (queues.trans (kept.trans world))
      · cases read with
        | null _ goesOn _ => exact goesOn
    | some e =>
      refine ⟨formedSave formed fewer rfl,?_⟩
      exact (saveRead conserved formed world read books unsaved queues).trans
        (and_iff_left_of_imp (fun _ simulated => by cases simulated)).symm
  | @read loop p st e other got =>
    obtain ⟨w,tree,ready,world,read,queues,fewer⟩ := pipeTaken formed got
    rw [cleanRead rfl ready]
    refine ⟨?_,(handRead conserved formed world read books rfl queues).trans
      (and_iff_left_of_imp (fun _ _ data => absurd data other)).symm⟩
    change Formed n (hand _ e).caller
    rw [handCaller]
    exact formedAway formed fewer formed.saved rfl
  | @saved loop e held =>
    obtain ⟨x,object⟩ := Option.isSome_iff_exists.mp (formed.saved e held)
    refine ⟨?_,iff_of_true ?_ (cleanElse (fun _ _ => nofun))⟩
    · change Formed n (hand _ (some e)).caller
      rw [handCaller]
      exact formedAway formed same (fun e held => by cases held) rfl
    · exact handSaved conserved held object books rfl rfl
  | unsaved held => exact quietExact formed conserved books rfl rfl (fun _ => held) (fun _ _ => nofun)
  | stop k pending =>
    have unsaved : b.savedEvent = none := formed.unsaved rfl
    refine ⟨?_,iff_of_true (conservedMade (conservedQueues conserved books unsaved.symm rfl) rfl) (cleanElse (fun _ _ => nofun))⟩
    change Formed n (hand _ (some _)).caller
    rw [handCaller]
    exact formedAway formed same (fun e held => by cases held) rfl
  | noStop none => exact quietExact formed conserved books rfl rfl nofun (fun _ _ => nofun)
  | rest => exact quietExact formed conserved books rfl rfl nofun (fun _ _ => nofun)

end Dequeue

section Clear
variable {fuel next : Nat} {queue queue' : EventQueue} {cells cells' : Nat → RefCell}

theorem clearNone (empty : contents queue = []) :
    eventQueueClear (fuel + 1) queue cells = .ok ((eventQueuePop queue).1,cells) := by
  have popped : eventQueuePop queue = ((eventQueuePop queue).1,none) := by
    refine Prod.ext rfl ?_
    rw [(readExact queue.ok).1 |> (show (eventQueuePop queue).2 = (contents queue).head? from ·),empty]
    rfl
  rw [eventQueueClear,popped]

theorem clearSome {rest : List Event} (front : contents queue = e :: rest) :
    eventQueueClear (fuel + 1) queue cells = eventQueueClear fuel (eventQueuePop queue).1 (unrefEvent cells e) := by
  have popped : eventQueuePop queue = ((eventQueuePop queue).1,some e) := Prod.ext rfl (popFront front).1
  rw [eventQueueClear,popped]

theorem queueClears (cells : Nat → RefCell) (enough : (contents queue).length < fuel) : ∃ queue' cells',
    eventQueueClear fuel queue cells = .ok (queue',cells') := by
  induction fuel generalizing queue cells with
  | zero => omega
  | succ fuel ih =>
    cases whole : contents queue with
    | nil => exact ⟨_,_,clearNone whole⟩
    | cons e rest =>
      rw [clearSome whole]
      refine ih _ ?_
      rw [(popFront whole).2]
      rw [whole,List.length_cons] at enough
      omega

theorem queueClearEnds (l : Ledger) (q : Nat) : ∃ l', step asserts alloc utcNow l (.queueClear q) = .ok l' := by
  obtain ⟨queue,cells,cleared⟩ := queueClears l.cells (liveLength (l.queues q).ok)
  exact ⟨_,okBind cleared⟩

theorem clearedEmpty (done : eventQueueClear fuel queue cells = .ok (queue',cells')) : contents queue' = [] := by
  induction fuel generalizing queue cells with
  | zero => cases done
  | succ fuel ih =>
    cases whole : contents queue with
    | nil =>
      rw [clearNone whole] at done
      cases done
      rw [show contents (eventQueuePop queue).1 = (contents queue).tail from (readExact queue.ok).2,whole]
      rfl
    | cons e rest =>
      rw [clearSome whole] at done
      exact ih done

theorem clearedAccounted (done : eventQueueClear fuel queue cells = .ok (queue',cells'))
    (told : ∀ e ∈ contents queue, e.object.isSome)
    (accounted : Accounted cells next (fun y => h y + (contents queue).countP (isObject y))) :
    Accounted cells' next h := by
  induction fuel generalizing queue cells with
  | zero => cases done
  | succ fuel ih =>
    cases whole : contents queue with
    | nil =>
      rw [clearNone whole] at done
      cases done
      rw [whole] at accounted
      exact accounted
    | cons e rest =>
      rw [clearSome whole] at done
      rw [whole] at told accounted
      obtain ⟨x,object⟩ := Option.isSome_iff_exists.mp (told e List.mem_cons_self)
      have left := (popFront whole).2
      refine ih done (fun e' mem => ?_) ?_
      · rw [left] at mem
        exact told e' (List.mem_cons_of_mem _ mem)
      · rw [left,unrefEvent,object]
        refine accountedUnref accounted (fun y => ?_)
        rw [countNamed object]
        omega

theorem queueClearExact (formed : Formed n l.caller) (conserved : Conserved n l)
    (done : step asserts alloc utcNow l (.queueClear q) = .ok l') : Formed n l'.caller ∧ Conserved n l' := by
  obtain ⟨⟨queue,cells⟩,cleared,done⟩ := bindOk done
  cases done
  have empty := clearedEmpty cleared
  refine ⟨formedReads formed (fun i => ?_) rfl rfl,clearedAccounted cleared (formed.named q) ?_⟩
  · change contents (Function.update l.queues q queue i) ⊆ contents (l.queues i)
    by_cases here : i = q
    · subst here
      rw [Function.update_self,empty]
      exact List.nil_subset _
    · rw [Function.update_of_ne here]
      exact List.Subset.refl _
  · have before (y : Nat) : holders n l y = slots n (Function.update l.queues q queue) y + heldBy l.saved y +
        l.client y + (contents (l.queues q)).countP (isObject y) := by
      by_cases inside : q < n
      · have counted := slotsUpdate l.queues queue inside y
        rw [empty,List.countP_nil] at counted
        simp only [holders]
        omega
      · have none : contents (l.queues q) = [] := formed.beyond q (by omega)
        rw [slotsSame (updateContents (empty.trans none.symm)),none]
        rfl
    rw [Conserved,funext before] at conserved
    exact conserved

theorem busClearExact (formed : Formed n l.caller) (conserved : Conserved n l)
    (done : step asserts alloc utcNow l .busClear = .ok l') :
    Formed n l'.caller ∧ (Conserved n l' ↔ Clean asserts alloc l .busClear) := by
  obtain ⟨b,cleared,done⟩ := bindOk done
  cases done
  obtain ⟨queues,unsaved⟩ := busClearKeeps cleared
  refine ⟨formedFewer formed (fun q => ?_) (fun e held => ?_) (fun _ => unsaved),?_⟩
  · change contents (b.pipes.queues q) ⊆ contents (l.caller.bus.pipes.queues q)
    rw [queues]
    exact List.Subset.refl _
  · rw [show b.savedEvent = some e from held] at unsaved
    cases unsaved
  · let cleared : Ledger := {l with caller := {l.caller with bus := b}, cells := freeSaved l.cells l.saved}
    have less (y : Nat) : holders n l y = holders n cleared y + heldBy l.saved y := by
      change slots n l.caller.bus.pipes.queues y + _ + _ = slots n b.pipes.queues y + heldBy b.savedEvent y + l.client y + _
      rw [queues,unsaved]
      change _ = _ + 0 + _ + _
      omega
    cases held : l.saved.bind Event.object with
    | none =>
      refine iff_of_true ?_ (fun x here => by rw [held] at here; cases here)
      refine (conservedSame conserved ?_ rfl (fun y => ?_) : Conserved n cleared)
      · simp only [cleared,freeSaved,held]
      · rw [less y,heldBy,held,if_neg (by simp),Nat.add_zero]
    | some x =>
      have one : OneMore x (holders n cleared) (holders n l) := by
        intro y
        rw [less y,heldBy,held]
        simp only [Option.some.injEq,eq_comm]
      have freed : cleared.cells = Function.update l.cells x {l.cells x with freed := true} := by
        simp only [cleared,freeSaved,held]
      change Accounted cleared.cells l.next (holders n cleared) ↔ _
      rw [freed]
      refine (accountedFree conserved one).trans ⟨fun single x' here => ?_,fun clean => clean x held⟩
      cases held.symm.trans here
      exact single

end Clear

section Turns

theorem formedPush {new : EventQueue} (formed : Formed n l.caller) (inside : q < n) (object : e.object = some x)
    (back : ∀ e' ∈ contents new, e' ∈ contents (l.queues q) ∨ e' = e) :
    Formed n (l.putStore {l.caller.bus.pipes with queues := Function.update l.queues q new}).caller where
  beyond i above := by
    change contents (Function.update l.queues q new i) = []
    rw [Function.update_of_ne (by omega)]
    exact formed.beyond i above
  named i e' mem := by
    change e' ∈ contents (Function.update l.queues q new i) at mem
    by_cases here : i = q
    · subst here
      rw [Function.update_self] at mem
      rcases back e' mem with before | rfl
      · exact formed.named i e' before
      · rw [object]
        rfl
    · rw [Function.update_of_ne here] at mem
      exact formed.named i e' mem
  saved := formed.saved
  unsaved := formed.unsaved

theorem pushExact (formed : Formed n l.caller) (conserved : Conserved n l) (allowed : Allowed n l (.push q x))
    (done : step asserts alloc utcNow l (.push q x) = .ok l') : Formed n l'.caller ∧ Conserved n l' := by
  obtain ⟨inside,held⟩ := allowed
  let e : Event := {l.events x with object := some x}
  have whole : l' = {l.putStore {l.caller.bus.pipes with
      queues := Function.update l.queues q (eventQueuePush (l.queues q) e).queue} with
    client := if (eventQueuePush (l.queues q) e).ret then Function.update l.client x (l.client x - 1) else l.client} :=
    (Except.ok.inj done).symm
  cases ret : (eventQueuePush (l.queues q) e).ret with
  | false =>
    have back := pushFalse ret
    rw [whole,ret]
    refine ⟨formedPush formed inside (rfl : e.object = some x) (fun e' mem => .inl (back ▸ mem)),?_⟩
    refine conservedSame conserved rfl rfl (fun y => ?_)
    change slots n (Function.update l.queues q _) y + _ + _ = _
    rw [slotsSame (updateContents back)]
    rfl
  | true =>
    have back := pushTrue ret
    rw [whole,ret]
    refine ⟨formedPush formed inside (rfl : e.object = some x) (fun e' mem => ?_),?_⟩
    · rw [back] at mem
      simpa using mem
    · refine conservedSame conserved rfl rfl (fun y => ?_)
      have more := slotPushed inside (rfl : e.object = some x) back y
      have less := oneLessUpdate held y
      change slots n (Function.update l.queues q _) y + heldBy l.saved y + Function.update l.client x (l.client x - 1) y = _
      simp only [holders]
      omega

theorem stepExact {turn : BusOwnership.Turn} (formed : Formed n l.caller) (conserved : Conserved n l)
    (allowed : Allowed n l turn)
    (done : step asserts alloc utcNow l turn = .ok l') :
    Formed n l'.caller ∧ (Conserved n l' ↔ Clean asserts alloc l turn) := by
  cases turn with
  | init e =>
    cases done
    refine ⟨?_,iff_of_true (conservedMade conserved rfl) trivial⟩
    rw [handCaller]
    exact formed
  | ref x =>
    cases done
    obtain ⟨held,room⟩ := allowed
    refine ⟨formed,iff_of_true (accountedRef conserved held room (fun y => ?_)) trivial⟩
    have more := oneMoreUpdate l.client x y
    change slots n l.queues y + heldBy l.saved y + Function.update l.client x (l.client x + 1) y = _
    simp only [holders]
    omega
  | unref x =>
    cases done
    refine ⟨formed,iff_of_true (accountedUnref conserved (fun y => ?_)) trivial⟩
    have less := oneLessUpdate allowed y
    change _ = slots n l.queues y + heldBy l.saved y + Function.update l.client x (l.client x - 1) y + _
    simp only [holders]
    omega
  | push q x =>
    obtain ⟨formed',conserved'⟩ := pushExact formed conserved allowed done
    exact ⟨formed',iff_of_true conserved' trivial⟩
  | treeAdd t memory q =>
    obtain ⟨⟨w,_⟩,added,done⟩ := bindOk done
    cases done
    have queues := addQueues (liftOk added)
    exact ⟨formedQueues formed queues rfl rfl,
      iff_of_true (conservedQueues conserved ⟨rfl,rfl,rfl⟩ rfl queues) trivial⟩
  | treeIsEmpty t =>
    obtain ⟨⟨w,_⟩,asked,done⟩ := bindOk done
    cases done
    have queues := isEmptyQueues (liftOk asked)
    exact ⟨formedQueues formed queues rfl rfl,
      iff_of_true (conservedQueues conserved ⟨rfl,rfl,rfl⟩ rfl queues) trivial⟩
  | treeRead t =>
    obtain ⟨⟨w,e⟩,read,done⟩ := bindOk done
    cases done
    have taken := EventTreeTaken.treeRead (liftOk read)
    refine ⟨?_,handRead conserved formed rfl taken ⟨rfl,rfl,rfl⟩ rfl rfl⟩
    rw [handCaller]
    exact formedReads formed (readFewer formed rfl taken) rfl rfl
  | addQueue owner q pipe =>
    obtain ⟨⟨b,_⟩,added,done⟩ := bindOk done
    cases done
    obtain ⟨queues,saved⟩ := addQueueKeeps added
    exact ⟨formedQueues formed queues saved rfl,
      iff_of_true (conservedQueues conserved ⟨rfl,rfl,rfl⟩ saved queues) trivial⟩
  | pipeIsEmpty p =>
    obtain ⟨⟨st,_⟩,asked,done⟩ := bindOk done
    cases done
    have queues := pipeIsEmptyQueues asked
    exact ⟨formedQueues formed queues rfl rfl,
      iff_of_true (conservedQueues conserved ⟨rfl,rfl,rfl⟩ rfl queues) trivial⟩
  | pipeRead p =>
    obtain ⟨⟨st,e⟩,read,done⟩ := bindOk done
    cases done
    obtain ⟨w,tree,ready,world,taken,queues,fewer⟩ := pipeTaken formed read
    have kept : Conserved n (hand (l.putStore st) e) ↔ ¬ LastClosing w.toWorld :=
      handRead conserved formed world taken ⟨rfl,rfl,rfl⟩ rfl queues
    refine ⟨?_,kept.trans ⟨fun goesOn w' ready' => ?_,fun clean => clean w ready⟩⟩
    · rw [handCaller]
      exact formedReads formed fewer rfl rfl
    · cases ready.symm.trans ready'
      exact goesOn
  | dequeue =>
    obtain ⟨⟨label,caller⟩,ran,done⟩ := bindOk done
    cases done
    exact dequeueExact formed conserved ran
  | queueClear q =>
    obtain ⟨formed',conserved'⟩ := queueClearExact formed conserved done
    exact ⟨formed',iff_of_true conserved' trivial⟩
  | busClear => exact busClearExact formed conserved done

end Turns

theorem ownershipConserved {trace : List Move} (formed : Formed n l.caller) (conserved : Conserved n l)
    (run : Run (Base.Trace.Moves (move asserts alloc utcNow n)) l trace l') :
    (∀ m ∈ trace, Conserved n m.after) ↔ ∀ m ∈ trace, Clean asserts alloc m.before m.turn := by
  have all := Base.Trace.runInvariant (fun trace l => ((∀ m ∈ trace, Conserved n m.after) ↔
      ∀ m ∈ trace, Clean asserts alloc m.before m.turn) ∧
    ((∀ m ∈ trace, Conserved n m.after) → Formed n l.caller ∧ Conserved n l)) ⟨by simp,fun _ => ⟨formed,conserved⟩⟩ ?_ run
  · exact all.1
  · rintro trace l m l' ⟨same,kept⟩ ⟨turn,moved⟩
    obtain ⟨rfl,allowed,done⟩ := moveCases moved
    simp only [List.forall_mem_append,List.forall_mem_singleton]
    refine ⟨⟨fun told => ?_,fun clean => ?_⟩,fun told => ?_⟩
    · obtain ⟨formed,conserved⟩ := kept told.1
      exact ⟨same.mp told.1,(stepExact formed conserved allowed done).2.mp told.2⟩
    · have told := same.mpr clean.1
      obtain ⟨formed,conserved⟩ := kept told
      exact ⟨told,(stepExact formed conserved allowed done).2.mpr clean.2⟩
    · obtain ⟨formed,conserved⟩ := kept told.1
      exact ⟨(stepExact formed conserved allowed done).1,told.2⟩

def blankNode : TreeNode := ⟨0,0,none,none,none,none,none⟩

def emptyQueue : EventQueue :=
  ⟨none,⟨4,fun _ => newOnSimulationStopEvent,0,0⟩,⟨by simp,by simp [uintRange],by simp,by simp⟩⟩

def newLedger (mode : EventBusMode) : Ledger :=
  ⟨⟨newBus (fun _ => emptyQueue) mode 0 0,.outside⟩,fun _ => ⟨[],none,none⟩,fun _ => ⟨0,false⟩,
    fun _ => newOnSimulationStopEvent,0,fun _ => 0⟩

def seen (l : Ledger) : List (RefCell × Nat) := (List.range l.next).map (fun x => (l.cells x,holders 2 l x))

abbrev played := Base.Trace.Moves (move noAsserts (fun _ _ => some blankNode) id 2)

theorem newFormed (mode : EventBusMode) : Formed 2 (newLedger mode).caller where
  beyond _ _ := rfl
  named q e mem := by
    have none : contents emptyQueue = [] := rfl
    change e ∈ contents emptyQueue at mem
    rw [none] at mem
    cases mem
  saved e held := by cases held
  unsaved _ := rfl

theorem newConserved (mode : EventBusMode) : Conserved 2 (newLedger mode) :=
  ⟨fun x known => absurd known (Nat.not_lt_zero x),fun _ _ => rfl⟩

theorem ownershipConservedRead : ∃ trace l, Run played (newLedger .kRealtime) trace l ∧ trace.length = 5 ∧
    seen l = [(⟨0,true⟩,0)] ∧ ∀ m ∈ trace, Conserved 2 m.after := by
  have run : Run played (newLedger .kRealtime) [_,_,_,_,_] _ :=
    .snoc (.snoc (.snoc (.snoc (.snoc .nil ⟨.init ⟨5,.kTrade,none⟩,rfl⟩) ⟨.push 0 0,rfl⟩)
      ⟨.treeAdd 0 (some blankNode) 0,rfl⟩) ⟨.treeRead 0,rfl⟩) ⟨.unref 0,rfl⟩
  refine ⟨_,_,run,rfl,by decide,(ownershipConserved (newFormed _) (newConserved _) run).mpr ?_⟩
  simp only [List.forall_mem_cons,Clean,true_and]
  refine ⟨?_,List.forall_mem_nil _⟩
  rintro ⟨a,n,e,⟨root,node,_⟩,front,type⟩
  cases root
  cases node
  cases front
  cases type

/-- A stop event that the dequeue swallows and a closing event that a read replaces keep a
count without a holder, and clearing the bus frees an event that the client still holds. -/
theorem referencesMishandled :
    (∃ trace l, Run played (newLedger .kSimulation) trace l ∧ seen l = [(⟨1,false⟩,0)]) ∧
    (∃ trace l, Run played (newLedger .kSimulation) trace l ∧ seen l = [(⟨1,false⟩,0),(⟨1,false⟩,1)]) ∧
    ∃ trace l, Run played (newLedger .kRealtime) trace l ∧ seen l = [(⟨2,true⟩,1),(⟨1,false⟩,1)] := by
  refine ⟨?_,?_,?_⟩
  · exact Base.Trace.playSeen [.init ⟨5,.kOnSimulatorStop,none⟩,.push 0 0,.addQueue true 0 .kDataPipe,.dequeue,.dequeue,
      .dequeue] (fun r => seen r.2) (by decide)
  · exact Base.Trace.playSeen [.init ⟨5,.kOnQueueClosed,none⟩,.push 0 0,.treeAdd 0 (some blankNode) 0,.treeRead 0]
      (fun r => seen r.2) (by decide)
  · exact Base.Trace.playSeen [.init ⟨5,.kTrade,none⟩,.ref 0,.push 0 0,.addQueue true 0 .kDataPipe,.init ⟨5,.kAsk,none⟩,
      .push 1 1,.addQueue true 1 .kExecutionPipe,.dequeue,.dequeue,.dequeue,.dequeue,.dequeue,.busClear]
      (fun r => seen r.2) (by decide)

end Qtl.BusConserved
