import Mathlib.Algebra.BigOperators.Group.Finset.Piecewise
import Mathlib.Algebra.Order.BigOperators.Group.Finset
import Qtl.BusComplete

/-! A simulation comes to its end: once the queues of the data pipe hold their closing
events, the client is given the stop after a bounded number of accesses. -/
namespace Qtl.BusEnds
open Queue EventTree EventTreeShape EventTreeTracked EventTreeLocal EventTreeStream Pipe Bus PipeTracked BusSystem
open BusPart BusReplay BusSimulation BusComplete
open EventTreeRun (noAsserts)
open EventTreeMerge (mergeOf closing)
open BusStore (Store storePipes pipeWorld)
open BusRealtime (FreshPipe Registered registeredClaimed)
open BusServes (pushedTo takenFrom accessTakes)
open Base.StableMerge (Delivery sources)
open Base.Trace (Run)

variable {alloc : PipeName → Nat → Option TreeNode} {utcNow : Nat → Nat} {b : EventBus Store}
variable {c c' c₁ c₂ : Caller Store} {p : PipeName} {m : BusSystem.Moment} {before trace : List BusSystem.Moment}
variable {t : PipeName → Shape} {found : PipeName → Bool} {l : Bus.Label}

def streamOf (c : Caller Store) (trace : List BusSystem.Moment) (q : Nat) : List Event :=
  contents (c.bus.pipes.queues q) ++ pushedTo q trace

section Empty

variable {w : World} {shape : Shape} {stream : Nat → List Event} {labels : List EventTreeRun.Label} {store : Store}
variable {deliveries : List (Delivery Nat Event)} {merge : EventTreeMerge.Merge} {queues' : Nat → EventQueue}

/-- The merge that mirrors a pipe found empty is at its end: a parked node without events
would be a queue that is not closed yet. -/
theorem emptyLine (opened : Base.StableMerge.Open closing (mergeOf w shape stream))
    (merged : Run EventTreeMerge.MergeStep (mergeOf w shape stream) deliveries merge)
    (mirrors : EventTreeMerge.Mirrors w shape stream labels (part p c₁ found queues') (t p) merge)
    (projects : Projects p c₁ t found queues')
    (left : ∀ a ∈ held (treeOf c₁ p) (t p), ∀ q, queueOf (treeOf c₁ p) a = some q → merge.rest a = contents (queues' q))
    (asked : (storePipes noAsserts alloc).isEmpty p c₁.bus.pipes = .ok (store,true)) : merge.line = [] := by
  obtain ⟨s,asked,_⟩ := bareAsk projects.bare asked
  obtain ⟨_,_,_,asked',_,checked⟩ := isEmptySpec noAsserts (projects.sound.store.pipe p).tracked
  cases asked.symm.trans asked'
  have line := mirrors.line
  rcases checkedNone checked with ⟨root,last⟩ | ⟨a,n,last,node,empty⟩
  · rw [show (part p c₁ found queues').world.last = none from last,root] at line
    exact line
  · obtain ⟨k,line⟩ : ∃ k, merge.line = Base.StableMerge.rejoin Event.timestamp k a (merge.rest a) (t p).entries := by
      rwa [show (part p c₁ found queues').world.last = some a from last] at line
    have here : a ∈ held (treeOf c₁ p) (t p) := by
      rw [held,show (treeOf c₁ p).last = some a from last]
      simp
    have name : queueOf (treeOf c₁ p) a = some n.queue := queueOfNode node
    have drained : merge.rest a = [] := by
      rw [left a here n.queue name,← projects.agree n.queue (List.mem_map.mpr ⟨a,here,name⟩)]
      exact empty
    have inside : a ∈ sources merge := by
      rw [sources,line]
      exact Base.StableMerge.rejoinPerm.mem_iff.mpr List.mem_cons_self
    obtain ⟨body,e,closes,_⟩ := (Base.StableMerge.runOpen opened merged).1.closes a inside
    rw [drained] at closes
    simp at closes

theorem emptyHanded (clean : ∀ p, CleanNodes (alloc p)) (sound : BusSystem.Sound c t (fun _ => false))
    (bare : pending (pipeWorld c.bus.pipes p) = []) (some' : ∃ q, Has (treeOf c p) (t p) q)
    (run : Run (BusSystem.Step alloc utcNow) c trace c₁) (fixed : ∀ q, .registered q p ∉ trace)
    (complete : ∀ q, Has (treeOf c p) (t p) q → Complete (streamOf c trace q))
    (asked : (storePipes noAsserts alloc).isEmpty p c₁.bus.pipes = .ok (store,true)) :
    ∃ e ∈ handedBy p trace, isStop e = true := by
  have tracked : Tracked (treeOf c p) (t p) := (sound.store.pipe p).tracked
  have within (q : Nat) (_ : Has (treeOf c p) (t p) q) :
      contents (c.bus.pipes.queues q) ++ pushedTo q trace <+: streamOf c trace q := List.prefix_rfl
  obtain ⟨labels,deliveries,merge,t',found',queues',merged,same,own,projects,mirrors⟩ :=
    partMirrors clean sound bare run fixed within
  have opened := mergeOpen tracked complete
  have left (a : Nat) (mem : a ∈ held (treeOf c₁ p) (t' p)) (q : Nat) (name : queueOf (treeOf c₁ p) a = some q) :
      merge.rest a = contents (queues' q) := by
    have balance := mirrors.balance q
    rw [own.whole q (List.mem_map.mpr ⟨a,mem,name⟩)] at balance
    have name' : queueOf (treeOf c p) a = some q := (congrFun mirrors.names a).symm.trans name
    exact List.append_cancel_left ((mirrors.rest a (mirrors.inside a mem) q name').trans balance.symm)
  have ended := emptyLine opened merged mirrors projects left asked
  have done : ∀ a ∈ sources (mergeOf (treeOf c p) (t p) (streamOf c trace)), merge.rest a = [] := fun a inside =>
    (Base.StableMerge.runClosed opened merged a inside).resolve_left (by simp [sources,ended])
  have first : (mergeOf (treeOf c p) (t p) (streamOf c trace)).line ≠ [] := by
    intro none
    obtain ⟨q,mine⟩ := some'
    obtain ⟨a,mem,_⟩ := List.mem_map.mp mine
    have inside : a ∈ sources (mergeOf (treeOf c p) (t p) (streamOf c trace)) := mergeSources.mem_iff.mpr mem
    rw [sources,none] at inside
    cases inside
  obtain ⟨_,_,earlier,d,rfl,alone,_,others⟩ := Base.StableMerge.runComplete opened merged first done
  refine ⟨newOnSimulationStopEvent,?_,rfl⟩
  rw [← own.events,returnedStop same alone others]
  simp

end Empty

section Weight

def rank : Point → Nat
  | .outside => 11
  | .check _ .data => 10
  | .read _ .data => 9
  | .check _ .execution => 8
  | .read _ .execution => 7
  | .check _ .command => 6
  | .read _ .command => 5
  | .check _ _ => 4
  | .read _ _ => 3
  | .checkSaved _ => 2
  | .checkStop => 1
  | .rest _ => 0

def waiting (known : Finset Nat) (s : Store) : Nat := ∑ q ∈ known, (contents (s.queues q)).length

def weight (known : Finset Nat) (c : Caller Store) : Nat :=
  10 * (waiting known c.bus.pipes + c.bus.savedEvent.toList.length) + rank c.point

variable {known : Finset Nat}

theorem followingRank (loop : EventBusMode) (p : PipeName) : rank (following loop p) < rank (.check loop p) := by
  cases p <;> simp [following,rank]

theorem readRank (loop : EventBusMode) (p : PipeName) : rank (.read loop p) < rank (.check loop p) := by
  cases p <;> simp [rank]

theorem waitingTakes (known : Finset Nat)
    (same : ∀ q, contents (c.bus.pipes.queues q) = takenFrom q [m] ++ contents (c'.bus.pipes.queues q)) :
    waiting known c.bus.pipes = ∑ q ∈ known, (takenFrom q [m]).length + waiting known c'.bus.pipes := by
  rw [waiting,waiting,← Finset.sum_add_distrib]
  exact Finset.sum_congr rfl (fun q _ => (congrArg List.length (same q)).trans List.length_append)

theorem waitingLess (known : Finset Nat) {taken : Option (Nat × Event)}
    (same : ∀ q, contents (c.bus.pipes.queues q) = takenFrom q [.call l taken] ++ contents (c'.bus.pipes.queues q)) :
    waiting known c'.bus.pipes ≤ waiting known c.bus.pipes ∧
    ∀ q e, taken = some (q,e) → q ∈ known → waiting known c'.bus.pipes < waiting known c.bus.pipes := by
  have balance := waitingTakes known same
  refine ⟨by omega,?_⟩
  rintro q e rfl mem
  have one : (takenFrom q [.call l (some (q,e))]).length = 1 := by simp [takenFrom]
  have least := Finset.single_le_sum (f := fun q' => (takenFrom q' [.call l (some (q,e))]).length)
    (fun _ _ => Nat.zero_le _) mem
  omega

theorem waitingPush (q : Nat) (e : Event) :
    waiting known (BusStore.pushTo c.bus.pipes q e).1 ≤ waiting known c.bus.pipes + 1 := by
  have each (i : Nat) : (contents ((BusStore.pushTo c.bus.pipes q e).1.queues i)).length ≤
      (contents (c.bus.pipes.queues i)).length + if q = i then 1 else 0 := by
    rw [← BusServes.pushQueues c q e i,List.length_append,pushedOne]
    refine Nat.add_le_add_left ?_ _
    by_cases same : q = i
    · rw [if_pos same]
      split <;> simp
    · simp [same]
  refine (Finset.sum_le_sum (fun i _ => each i)).trans ?_
  rw [Finset.sum_add_distrib,Finset.sum_ite_eq]
  exact Nat.add_le_add_left (by split <;> simp) _

end Weight

section Weighing
variable {known : Finset Nat}

def isAccess : BusSystem.Moment → Bool
  | .call _ _ => true
  | _ => false

def isPush : BusSystem.Moment → Bool
  | .pushed _ _ _ => true
  | _ => false

theorem dequeueCheaper (simulates : Simulates c) (rest : ∀ loop, c.point ≠ .rest loop)
    (noStop : stopReturn (.call l (takes alloc c)) = false)
    (done : dequeueStep (storePipes noAsserts alloc) utcNow c = .ok (l,c'))
    (hands : BusServes.Hands (fun _ q => q ∈ known) (takes alloc c) l)
    (same : ∀ q, contents (c.bus.pipes.queues q) =
      takenFrom q [.call l (takes alloc c)] ++ contents (c'.bus.pipes.queues q)) :
    weight known c' < weight known c := by
  have took (p : PipeName) (e : Option Event) (passes : BusServes.Passes (fun _ q => q ∈ known) p (takes alloc c) e) :
      waiting known c'.bus.pipes < waiting known c.bus.pipes := by
    obtain ⟨q,front,took,mem,_⟩ := passes
    exact (waitingLess known same).2 q front took mem
  have less := (waitingLess known same).1
  have all := dequeueCases done
  obtain ⟨mode,loops⟩ := simulates
  obtain ⟨b,point⟩ := c
  obtain ⟨b',point'⟩ := c'
  unfold weight
  dsimp only at all rest mode loops took less ⊢
  generalize waiting known b.pipes = events at took less ⊢
  generalize waiting known b'.pipes = events' at took less ⊢
  cases all with
  | enter => simp only [rank]; omega
  | @check loop p q empty asked =>
    have nearer : rank (if !empty && (p != .data || b.savedEvent.isNone) then .read loop p else following loop p) <
        rank (.check loop p) := by
      split
      · exact readRank loop p
      · exact followingRank loop p
    dsimp only
    omega
  | swallow =>
    have := took .data _ hands
    simp only [rank]
    omega
  | lookAhead =>
    have := took .data _ hands
    simp only [rank,following,Option.toList_some,List.length_singleton]
    omega
  | keep => exact absurd (loops _ rfl) (by simp)
  | @read _ p =>
    have := took p _ hands
    cases p <;> simp only [rank] <;> omega
  | saved held =>
    simp only [rank,held,Option.toList_some,Option.toList_none,List.length_singleton,List.length_nil]
    omega
  | @unsaved loop' none =>
    cases loops _ rfl
    simp only [reduceIte,rank]
    omega
  | stop => cases noStop
  | noStop none => simp only [rank]; omega
  | rest => exact absurd rfl (rest _)

theorem restDearer (known : Finset Nat) {loop : EventBusMode} (here : c.point = .rest loop)
    (done : dequeueStep (storePipes noAsserts alloc) utcNow c = .ok (l,c')) :
    c'.point = .check loop .data ∧ weight known c' < weight known c + 11 := by
  have all := dequeueCases done
  rw [here] at all
  obtain ⟨b',point'⟩ := c'
  dsimp only at all
  cases all
  refine ⟨rfl,?_⟩
  simp only [weight,here,rank]
  omega

end Weighing

section Progress
variable {known : Finset Nat}

def behind : Point → Bool
  | .outside => false
  | .check _ p => p ≠ .data
  | .read _ p => p ≠ .data
  | _ => true

def Knows (known : Finset Nat) (c : Caller Store) : Prop := ∃ t found, BusSystem.Sound c t found ∧
  ∀ p q, some q ∈ claimed (pipeWorld c.bus.pipes p) (t p) → q ∈ known

structure Runs (trace : List BusSystem.Moment) (c : Caller Store) : Prop where
  simulates : Simulates c
  unsaved : c.point = .checkStop → c.bus.savedEvent = none
  flag : (∃ e ∈ handedBy .data trace, isStop e = true) → c.bus.isSimulationStop = true

structure Prompt (trace : List BusSystem.Moment) (c : Caller Store) : Prop where
  rest : ∀ loop, c.point ≠ .rest loop
  asked : behind c.point = true → c.bus.savedEvent = none → ∃ e ∈ handedBy .data trace, isStop e = true

theorem dequeueRuns (runs : Runs trace c) {taken : Option (Nat × Event)} (noStop : stopReturn (.call l taken) = false)
    (done : dequeueStep (storePipes noAsserts alloc) utcNow c = .ok (l,c')) : Runs (trace ++ [.call l taken]) c' := by
  refine ⟨(dequeueSimulates runs.simulates done).1,?_,fun stopped => ?_⟩
  · have all := dequeueCases done
    obtain ⟨b,point⟩ := c
    obtain ⟨b',point'⟩ := c'
    dsimp only at all ⊢
    cases all with
    | @check _ p =>
      split
      · simp
      · cases p <;> simp [following]
    | unsaved none => exact fun _ => none
    | lookAhead => simp [following]
    | keep => simp [following]
    | _ => simp
  · rw [handedSnoc] at stopped
    have set : c.bus.isSimulationStop = true ∨ ∃ e ∈ handedBy .data [.call l taken], isStop e = true := by
      obtain ⟨e,mem,stop⟩ := stopped
      exact (List.mem_append.mp mem).imp (fun mem => runs.flag ⟨e,mem,stop⟩) (fun mem => ⟨e,mem,stop⟩)
    have all := dequeueCases done
    obtain ⟨mode,loops⟩ := runs.simulates
    obtain ⟨b,point⟩ := c
    obtain ⟨b',point'⟩ := c'
    dsimp only at all mode loops set ⊢
    cases all with
    | swallow => rfl
    | lookAhead _ _ type => simpa [handedBy,handed,isStop,type] using set
    | keep => exact absurd (loops _ rfl) (by simp)
    | @read _ p _ _ other => simpa [handedBy,handed,other] using set
    | stop => cases noStop
    | _ => simpa [handedBy,handed] using set

theorem dequeuePrompt (runs : Runs trace c) (prompt : Prompt trace c) {taken : Option (Nat × Event)}
    (done : dequeueStep (storePipes noAsserts alloc) utcNow c = .ok (l,c'))
    (empty : ∀ store, (storePipes noAsserts alloc).isEmpty .data c.bus.pipes = .ok (store,true) →
      ∃ e ∈ handedBy .data trace, isStop e = true) : Prompt (trace ++ [.call l taken]) c' := by
  have more : (∃ e ∈ handedBy .data trace, isStop e = true) →
      ∃ e ∈ handedBy .data (trace ++ [.call l taken]), isStop e = true := by
    rintro ⟨e,mem,stop⟩
    exact ⟨e,by rw [handedSnoc]; exact List.mem_append_left _ mem,stop⟩
  have all := dequeueCases done
  obtain ⟨⟨mode,loops⟩,unsaved,flag⟩ := runs
  obtain ⟨rest,asked⟩ := prompt
  obtain ⟨b,point⟩ := c
  obtain ⟨b',point'⟩ := c'
  dsimp only at all mode loops rest asked unsaved flag empty
  cases all with
  | enter => exact ⟨by simp,by simp [behind]⟩
  | @check loop p q isEmpty asked' =>
    split
    · exact ⟨by simp,fun later saved => more (asked later saved)⟩
    · rename_i skips
      refine ⟨fun loop' => by cases p <;> simp [following],fun _ saved => more ?_⟩
      by_cases data : p = .data
      · subst data
        cases isEmpty with
        | true => exact empty q asked'
        | false =>
          rw [show b.savedEvent = none from saved] at skips
          exact absurd rfl skips
      · exact asked (by simp [behind,data]) saved
  | swallow => exact ⟨by simp,by simp [behind]⟩
  | lookAhead => exact ⟨by simp [following],by simp⟩
  | keep => exact absurd (loops _ rfl) (by simp)
  | read => exact ⟨by simp,by simp [behind]⟩
  | saved => exact ⟨by simp,by simp [behind]⟩
  | @unsaved loop' none =>
    cases loops _ rfl
    exact ⟨by simp,fun _ saved => more (asked rfl saved)⟩
  | stop => exact ⟨by simp,by simp [behind]⟩
  | noStop none => exact absurd (none.symm.trans (flag (asked rfl (unsaved rfl)))) (by simp)
  | rest => exact absurd rfl (rest _)

section Others
variable {s : Store}

theorem otherRuns (runs : Runs trace c) (silent : handedBy .data [m] = []) :
    Runs (trace ++ [m]) {c with bus := {c.bus with pipes := s}} :=
  ⟨⟨runs.simulates.mode,runs.simulates.loop⟩,runs.unsaved,by
    rw [handedSnoc,silent,List.append_nil]
    exact runs.flag⟩

theorem otherPrompt (prompt : Prompt trace c) (silent : handedBy .data [m] = []) :
    Prompt (trace ++ [m]) {c with bus := {c.bus with pipes := s}} :=
  ⟨prompt.rest,by
    rw [handedSnoc,silent,List.append_nil]
    exact prompt.asked⟩

end Others

theorem stepRuns (runs : Runs trace c) (step : BusSystem.Step alloc utcNow c m c') (noStop : stopReturn m = false)
    (still : ∀ mode, m ≠ .mode mode) : Runs (trace ++ [m]) c' := by
  obtain ⟨turn,_,done⟩ := step
  cases turn with
  | addQueue owner q pipe =>
    obtain ⟨⟨b,_⟩,added,same⟩ := bindOk done
    cases same
    obtain ⟨w,_,put⟩ := bindOk added
    cases put
    exact otherRuns runs rfl
  | push q e =>
    cases done
    exact otherRuns runs rfl
  | setMode mode =>
    cases done
    exact absurd rfl (still mode)
  | dequeue =>
    obtain ⟨⟨l,c₁⟩,ran,same⟩ := bindOk done
    cases same
    exact dequeueRuns runs noStop ran

theorem runRuns (idle : c.point = .outside) (simulation : c.bus.mode = .kSimulation)
    (run : Run (BusSystem.Step alloc utcNow) c trace c') (still : ∀ mode, .mode mode ∉ trace)
    (noStop : ∀ m ∈ trace, stopReturn m = false) : Runs trace c' := by
  induction run with
  | nil => exact ⟨⟨simulation,by simp [idle,loopOf]⟩,by simp [idle],by simp [handedBy]⟩
  | snoc earlier last ih =>
    exact stepRuns (ih (fun mode mem => still mode (List.mem_append_left _ mem))
      (fun m mem => noStop m (List.mem_append_left _ mem))) last (noStop _ (by simp))
      (fun mode same => still mode (by simp [same]))

end Progress

section Bound
variable {known : Finset Nat} {first : List BusSystem.Moment} {accesses pushes : Nat}

/-- What a run from the first caller may have cost when it is at the second: one rest is
dear, and no other follows it. -/
def Spent (known : Finset Nat) (c : Caller Store) (trace : List BusSystem.Moment) (c' : Caller Store)
    (accesses pushes : Nat) : Prop :=
  weight known c' + accesses ≤ weight known c + 10 * pushes ∨
    Prompt trace c' ∧ weight known c' + accesses ≤ weight known c + 11 + 10 * pushes

/-- One step of a simulation that goes on: an access makes it cheaper, a push dearer by ten. -/
theorem stepSpends (clean : ∀ p, CleanNodes (alloc p)) (knows : Knows known c₁) (runs : Runs trace c₁)
    (step : BusSystem.Step alloc utcNow c₁ m c₂) (noStop : stopReturn m = false) (still : ∀ mode, m ≠ .mode mode)
    (inside : ∀ q p, m = .registered q p → q ∈ known)
    (empty : ∀ store, (storePipes noAsserts alloc).isEmpty .data c₁.bus.pipes = .ok (store,true) →
      ∃ e ∈ handedBy .data trace, isStop e = true) (spent : Spent known c trace c₁ accesses pushes) :
    Knows known c₂ ∧ Spent known c (trace ++ [m]) c₂ (accesses + [m].countP isAccess) (pushes + [m].countP isPush) := by
  obtain ⟨t,found,sound,known'⟩ := knows
  obtain ⟨turn,allowed,done⟩ := step
  cases turn with
  | addQueue owner q pipe =>
    obtain ⟨s,t',added,sound',origin⟩ := addSound clean sound allowed
    obtain ⟨r,added',same⟩ := bindOk done
    cases added.symm.trans added'
    cases same
    have queues : s.queues = c₁.bus.pipes.queues := (BusOwnership.addQueueKeeps added).1
    refine ⟨⟨t',found,sound',fun p q' mem => ?_⟩,?_⟩
    · rcases origin p (some q') mem with ⟨_,same⟩ | before
      · cases same
        exact inside q pipe.name rfl
      · exact known' p q' before
    · have same : weight known {c₁ with bus := {c₁.bus with pipes := s}} = weight known c₁ := by
        simp [weight,waiting,queues]
      rw [Spent,same]
      exact spent.imp id (fun ⟨prompt,spent⟩ => ⟨otherPrompt prompt rfl,spent⟩)
  | push q e =>
    cases done
    have more : waiting known (BusStore.pushTo c₁.bus.pipes q e).1 ≤ waiting known c₁.bus.pipes + 1 := waitingPush q e
    have dearer : weight known {c₁ with bus := {c₁.bus with pipes := (BusStore.pushTo c₁.bus.pipes q e).1}} ≤
        weight known c₁ + 10 := by
      simp only [weight]
      omega
    refine ⟨⟨t,found,pushSound sound q e,known'⟩,?_⟩
    change Spent known c _ {c₁ with bus := {c₁.bus with pipes := (BusStore.pushTo c₁.bus.pipes q e).1}}
      (accesses + 0) (pushes + 1)
    refine spent.imp (fun spent => ?_) (fun ⟨prompt,spent⟩ => ⟨otherPrompt prompt rfl,?_⟩)
    · omega
    · omega
  | setMode mode =>
    cases done
    exact absurd rfl (still mode)
  | dequeue =>
    obtain ⟨l,c₃,t',found',ran,sound',within,looks⟩ := dequeueSound clean utcNow sound
    obtain ⟨r,ran',same⟩ := bindOk done
    cases ran.symm.trans ran'
    cases same
    obtain ⟨hands,queues⟩ := accessTakes looks ran
    refine ⟨⟨t',found',sound',fun p q mem => known' p q (within p _ mem)⟩,?_⟩
    change Spent known c _ c₂ (accesses + 1) (pushes + 0)
    by_cases resting : ∃ loop, c₁.point = .rest loop
    · obtain ⟨loop,here⟩ := resting
      obtain ⟨again,dearer⟩ := restDearer known here ran
      have cheap : weight known c₁ + accesses ≤ weight known c + 10 * pushes :=
        spent.resolve_right (fun ⟨prompt,_⟩ => prompt.rest loop here)
      refine .inr ⟨⟨by simp [again],by simp [again,behind]⟩,?_⟩
      omega
    · have cheaper := dequeueCheaper runs.simulates (fun loop here => resting ⟨loop,here⟩) noStop ran
        (BusServes.handsMono (fun p q mem => known' p q mem) hands) queues
      refine spent.imp (fun spent => ?_) (fun ⟨prompt,spent⟩ => ⟨dequeuePrompt runs prompt ran empty,?_⟩)
      · omega
      · omega

theorem runSpends (clean : ∀ p, CleanNodes (alloc p)) (sound : BusSystem.Sound c t (fun _ => false))
    (bare : pending (pipeWorld c.bus.pipes .data) = []) (some' : ∃ q, Has (treeOf c .data) (t .data) q)
    (run : Run (BusSystem.Step alloc utcNow) c first c₁) (knows : Knows known c₁) (runs : Runs first c₁)
    (later : Run (BusSystem.Step alloc utcNow) c₁ trace c₂) (inside : ∀ q p, .registered q p ∈ trace → q ∈ known)
    (fixed : ∀ q, .registered q .data ∉ first ++ trace) (still : ∀ mode, .mode mode ∉ trace)
    (complete : ∀ q, Has (treeOf c .data) (t .data) q → Complete (streamOf c first q) ∧ pushedTo q trace = [])
    (noStop : ∀ m ∈ trace, stopReturn m = false) :
    Knows known c₂ ∧ Runs (first ++ trace) c₂ ∧
      Spent known c₁ (first ++ trace) c₂ (trace.countP isAccess) (trace.countP isPush) := by
  induction later with
  | nil =>
    rw [List.append_nil]
    exact ⟨knows,runs,.inl (by simp)⟩
  | @snoc trace c₂ m c₃ earlier last ih =>
    rw [← List.append_assoc] at fixed ⊢
    have quiet (q : Nat) (mine : Has (treeOf c .data) (t .data) q) :
        Complete (streamOf c first q) ∧ pushedTo q trace = [] := by
      obtain ⟨closed,silent⟩ := complete q mine
      rw [pushedSnoc] at silent
      exact ⟨closed,(List.append_eq_nil_iff.mp silent).1⟩
    have fixed' (q : Nat) : .registered q .data ∉ first ++ trace := fun mem => fixed q (List.mem_append_left _ mem)
    obtain ⟨knows',runs',spent⟩ := ih (fun q p mem => inside q p (List.mem_append_left _ mem)) fixed'
      (fun mode mem => still mode (List.mem_append_left _ mem)) quiet
      (fun m mem => noStop m (List.mem_append_left _ mem))
    have whole (q : Nat) (mine : Has (treeOf c .data) (t .data) q) : Complete (streamOf c (first ++ trace) q) := by
      obtain ⟨closed,silent⟩ := quiet q mine
      rw [streamOf,show pushedTo q (first ++ trace) = pushedTo q first ++ pushedTo q trace from List.flatMap_append,
        silent,List.append_nil]
      exact closed
    obtain ⟨knows'',spent'⟩ := stepSpends clean knows' runs' last (noStop m (by simp))
      (fun mode same => still mode (by simp [same])) (fun q p same => inside q p (by simp [same]))
      (fun store => emptyHanded clean sound bare some' (Base.Trace.runAppend run earlier) fixed' whole) spent
    rw [List.countP_append,List.countP_append]
    exact ⟨knows'',stepRuns runs' last (noStop m (by simp)) (fun mode same => still mode (by simp [same])),spent'⟩

theorem rankMost (point : Point) : rank point ≤ 11 := by
  cases point with
  | check loop p => cases p <;> simp [rank]
  | read loop p => cases p <;> simp [rank]
  | _ => simp [rank]

end Bound

section Example

def emptyPass : List BusSystem.Moment := [.call (.found (.pipe .data) true) none,
  .call (.found (.pipe .execution) true) none,.call (.found (.pipe .command) true) none,
  .call (.found (.pipe .service) true) none,.call (.found .saved true) none,.call (.found .stop true) none]

def opening : List BusSystem.Moment :=
  dataPass ++ .call (.entered .kSimulation) none :: emptyPass ++ [.pushed 0 closed true]

def resting : Caller Store :=
  ((Base.Trace.play fed withData (List.replicate 14 none ++ [some (0,closed)])).map Prod.snd).getD withData

def lasting : List BusSystem.Moment := [.call (.rested .uvSleep) none,
  .call (.found (.pipe .data) false) none,.call (.swallowed newOnSimulationStopEvent) (some (0,closed)),
  .call (.found (.pipe .data) true) none,.call (.found (.pipe .execution) true) none,
  .call (.found (.pipe .command) true) none,.call (.found (.pipe .service) true) none,
  .call (.found .saved true) none,
  .call (.returned .stop (some {newOnSimulationStopEvent with timestamp := 1})) none,
  .call (.entered .kSimulation) none] ++
  (List.replicate 4 (emptyPass ++ [.call (.rested .uvSleep) none])).flatten

theorem openingRun : Run (BusSystem.Step BusRealtime.malloc BusRealtime.clock) withData opening resting := by
  obtain ⟨r,outcome,same⟩ := Option.map_eq_some_iff.mp
    (show (Base.Trace.play fed withData (List.replicate 14 none ++ [some (0,closed)])).map Prod.fst = some opening from rfl)
  have here : resting = r.2 := by
    rw [resting,outcome]
    rfl
  rw [here,← same]
  exact fedRun (Base.Trace.playRun outcome)

theorem lastingRun : ∃ c, Run (BusSystem.Step BusRealtime.malloc BusRealtime.clock) resting lasting c := by
  obtain ⟨trace,c,run,same⟩ := Base.Trace.playSeen (List.replicate 38 none) Prod.fst
    (show (Base.Trace.play fed resting (List.replicate 38 none)).map _ = some lasting from rfl)
  cases same
  exact ⟨c,fedRun run⟩

theorem restingQueue {q : Nat} (mine : Registered (pipeWorld resting.bus.pipes p) q) : q = 0 := by
  rcases mine with mem | ⟨a,_,name⟩
  · cases p <;> cases mem
  · cases p with
    | data =>
      cases a with
      | zero => cases name; rfl
      | succ a => cases name
    | _ => cases name

end Example

end Qtl.BusEnds
