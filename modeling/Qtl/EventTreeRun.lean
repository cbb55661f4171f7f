import Qtl.Base.Trace
import Qtl.EventTreeTracked

/-! Runs of an event tree: its owner adds queues, asks event_tree_is_empty and reads,
producers push at any time between these calls. A read is made only while the last
event_tree_is_empty returned false and nothing has been read since. -/
namespace Qtl.EventTreeRun
open Queue EventTree EventTreeShape EventTreeTracked
open Base (ChainTree)
open Base.ChainTree
open Base.Trace (Run)

structure Cfg where
  world : World
  guarded : Bool

inductive Action where
  | init
  | add (queue : Nat) (memory : TreeNode)
  | push (queue : Nat) (e : Event)
  | isEmpty
  | read

inductive Label where
  | init
  | add (queue : Nat) (added : Bool)
  | push (queue : Nat) (e : Event) (pushed : Bool)
  | isEmpty (empty : Bool)
  | read (queue : Nat) (popped returned : Event)
  deriving DecidableEq, Repr

inductive Stop where
  | unguarded
  | fault (f : Fault)
  | nullEvent
  deriving DecidableEq, Repr

def upcoming (s : World) : Option (Nat × Event) := do
  let (s,current) ← (takeCurrent s).toOption
  let n ← s.nodes[(← current)]?
  let e ← eventQueuePeek (s.queues n.queue)
  some (n.queue,e)

def perform (asserts : Assertion → Bool) (c : Cfg) : Action → Except Stop (Label × Cfg)
  | .init => .ok (.init,⟨eventTreeInit c.world,false⟩)
  | .add q m => match eventTreeAdd asserts c.world (some m) q with
    | .error f => .error (.fault f)
    | .ok (w,added) => .ok (.add q added,⟨w,c.guarded⟩)
  | .push q e =>
      let pushed := eventQueuePush (c.world.queues q) e
      .ok (.push q e pushed.ret,⟨c.world.setQueue q pushed.queue,c.guarded⟩)
  | .isEmpty => match eventTreeIsEmpty asserts c.world with
    | .error f => .error (.fault f)
    | .ok (w,empty) => .ok (.isEmpty empty,⟨w,!empty⟩)
  | .read =>
      if c.guarded then
        match eventTreeRead asserts c.world with
        | .error f => .error (.fault f)
        | .ok (_,none) => .error .nullEvent
        | .ok (w,some returned) => match upcoming c.world with
          | none => .error .nullEvent
          | some (q,popped) => .ok (.read q popped returned,⟨w,false⟩)
      else .error .unguarded

/-- Memory for a node that goes to an empty root has its links set already. -/
def SoundMemory (s : World) : Action → Prop
  | .add q m => contents (s.queues q) ≠ [] → s.root = none → Initialised m
  | _ => True

def Step (allowed : World → Action → Prop) (asserts : Assertion → Bool) (c : Cfg) (l : Label) (c' : Cfg) :
    Prop :=
  ∃ action, allowed c.world action ∧ perform asserts c action = .ok (l,c')

def play (asserts : Assertion → Bool) (c : Cfg) : List Action → Except Stop (List Label × Cfg)
  | [] => .ok ([],c)
  | action :: rest => do
      let (l,c) ← perform asserts c action
      let (trace,c) ← play asserts c rest
      .ok (l :: trace,c)

theorem playRun {allowed : World → Action → Prop} {asserts : Assertion → Bool} {c : Cfg} {actions : List Action}
    {r : List Label × Cfg} (free : ∀ action ∈ actions, ∀ s, allowed s action)
    (played : play asserts c actions = .ok r) : Run (Step allowed asserts) c r.1 r.2 := by
  induction actions generalizing c r with
  | nil =>
    cases played
    exact .nil
  | cons action rest ih =>
    obtain ⟨⟨l,c₁⟩,ran,played⟩ := Queue.bindOk played
    obtain ⟨⟨trace,c₂⟩,later,played⟩ := Queue.bindOk played
    cases played
    have tail := ih (fun a mem => free a (List.mem_cons_of_mem _ mem)) later
    exact Base.Trace.runCons ⟨action,free action List.mem_cons_self c.world,ran⟩ tail

theorem playSeen {α : Type} (allowed : World → Action → Prop) (asserts : Assertion → Bool) (c : Cfg)
    (actions : List Action) (see : List Label × Cfg → α) (seen : α)
    (free : ∀ action ∈ actions, ∀ s, allowed s action)
    (played : (play asserts c actions).toOption.map see = some seen) :
    ∃ trace c', Run (Step allowed asserts) c trace c' ∧ see (trace,c') = seen := by
  obtain ⟨r,outcome,same⟩ := Option.map_eq_some_iff.mp played
  exact ⟨r.1,r.2,playRun free (okOption outcome),same⟩

def noAsserts : Assertion → Bool := fun _ => false
def allAsserts : Assertion → Bool := fun _ => true

def added : List Label → List Nat := List.filterMap (fun l => match l with
  | .add q _ => some q
  | _ => none)

theorem addedSnoc (trace : List Label) (l : Label) : added (trace ++ [l]) = added trace ++ added [l] :=
  List.filterMap_append

structure Sound (c : Cfg) (t : Shape) : Prop where
  tracked : Tracked c.world t
  guard : c.guarded = true → c.world.last = none ∧ t ≠ leaf

def Owners : Label → List (Option Nat) → List (Option Nat) → Prop
  | .init, _, after => after = []
  | .add q true, before, after => after.Perm (some q :: before)
  | .read q popped _, before, after =>
      if popped.type = .kOnQueueClosed then before.Perm (some q :: after) else after.Perm before
  | _, before, after => after.Perm before

variable {asserts : Assertion → Bool} {c c' : Cfg} {t t' : Shape} {l : Label}

theorem soundInit (asserts : Assertion → Bool) (c : Cfg) : ∃ l c', perform asserts c .init = .ok (l,c') ∧
    Sound c' leaf ∧ Owners l (names c.world t) (names c'.world leaf) :=
  ⟨_,_,rfl,⟨emptyTracked rfl rfl,nofun⟩,rfl⟩

theorem soundAdd (asserts : Assertion → Bool) (sound : Sound c t) {q : Nat} {m : TreeNode}
    (allowed : SoundMemory c.world (.add q m)) (unknown : some q ∉ names c.world t) :
    ∃ ok c' t', perform asserts c (.add q m) = .ok (.add q ok,c') ∧ Sound c' t' ∧
      (ok = decide (contents (c.world.queues q) ≠ [])) ∧
      Owners (.add q ok) (names c.world t) (names c'.world t') := by
  obtain ⟨w,ok,t',done,tracked,outcome⟩ := addSpec asserts sound.tracked allowed unknown
  have ran : perform asserts c (.add q m) = .ok (.add q ok,⟨w,c.guarded⟩) := by simp [perform,done]
  cases outcome with
  | refused empty => exact ⟨_,_,_,ran,sound,by simp [empty],.rfl⟩
  | filed front queues last entry stamp owner =>
    refine ⟨_,_,_,ran,⟨tracked,fun guarded => ?_⟩,by simp [front],
      filedOwners sound.tracked.allocated entry last owner⟩
    exact ⟨last.trans (sound.guard guarded).1,filedLinked entry⟩

theorem soundPush (asserts : Assertion → Bool) (sound : Sound c t) (q : Nat) (e : Event) :
    ∃ ok c', perform asserts c (.push q e) = .ok (.push q e ok,c') ∧ Sound c' t ∧
      c'.guarded = c.guarded ∧ c'.world.last = c.world.last ∧ c'.world.nodes = c.world.nodes ∧
      names c'.world t = names c.world t ∧
      ∀ i, contents (c'.world.queues i) =
        if i = q ∧ ok = true then contents (c.world.queues i) ++ [e] else contents (c.world.queues i) := by
  let pushed := eventQueuePush (c.world.queues q) e
  have grown (i : Nat) : contents ((c.world.setQueue q pushed.queue).queues i) =
      if i = q ∧ pushed.ret = true then contents (c.world.queues i) ++ [e]
      else contents (c.world.queues i) := by
    by_cases same : i = q
    · subst same
      rw [show (c.world.setQueue i pushed.queue).queues i = pushed.queue from Function.update_self ..]
      cases ret : pushed.ret with
      | true => simpa using pushTrue ret
      | false => simpa using pushFalse ret
    · rw [if_neg (fun h => same h.1)]
      exact congrArg contents (Function.update_of_ne same ..)
  refine ⟨pushed.ret,⟨c.world.setQueue q pushed.queue,c.guarded⟩,rfl,⟨?_,sound.guard⟩,rfl,rfl,rfl,rfl,grown⟩
  refine trackedQueues sound.tracked (fun a mem n hn => ?_)
  have full := sound.tracked.ready a mem n hn
  intro empty
  have now := empty.symm.trans (grown n.queue)
  split at now
  · exact absurd now.symm (by simp)
  · exact full now.symm

theorem soundIsEmpty (asserts : Assertion → Bool) (sound : Sound c t) :
    ∃ empty w t', perform asserts c .isEmpty = .ok (.isEmpty empty,⟨w,!empty⟩) ∧
      Sound ⟨w,!empty⟩ t' ∧ Checked c.world t w empty t' ∧ (names w t').Perm (names c.world t) := by
  obtain ⟨w,empty,t',done,tracked,outcome⟩ := isEmptySpec asserts sound.tracked
  have ran : perform asserts c .isEmpty = .ok (.isEmpty empty,⟨w,!empty⟩) := by simp [perform,done]
  refine ⟨empty,w,t',ran,⟨tracked,?_⟩,outcome,?_⟩
  · cases outcome with
    | bare => exact nofun
    | drained => exact nofun
    | ready linked last => exact fun _ => ⟨last,linked⟩
    | refiled last node front keeps =>
      refine fun _ => ⟨rfl,fun leafed => ?_⟩
      have perm := insertItems sound.tracked.ordered
      rw [ChainTree.items] at perm
      exact absurd (leafed ▸ (perm _ _).length_eq) (by simp)
  · cases outcome with
    | bare => exact .rfl
    | drained => exact .rfl
    | ready => exact .rfl
    | @refiled a n e rest s' last node front keeps =>
      have perm := insertItems sound.tracked.ordered e.timestamp a
      have names' : queueOf {s' with last := none} = queueOf c.world := funext keeps.queue
      rw [names,names,names',held,held,last,Option.toList_none,List.append_nil,Option.toList_some]
      exact (perm.trans (List.perm_append_singleton a t.items).symm).map _

theorem upcomingFront {s s₁ : World} {a : Nat} {n : TreeNode} {e : Event} {rest : List Event}
    (taken : takeCurrent s = .ok (s₁,some a)) (out : TakenOut s a n s₁ t')
    (front : contents (s.queues n.queue) = e :: rest) : upcoming s = some (n.queue,e) := by
  obtain ⟨m,hm,name⟩ := out.node
  have peek : eventQueuePeek (s.queues n.queue) = some e := by
    rw [eventQueuePeek,Spsc.peekExact (s.queues n.queue).ok]
    exact congrArg List.head? front
  simp [upcoming,taken,Except.toOption,hm,name,out.queues,peek]

theorem soundRead (off : asserts .readLast = false) (sound : Sound c t) (guarded : c.guarded = true) :
    ∃ a n e rest w t' returned, perform asserts c .read = .ok (.read n.queue e returned,⟨w,false⟩) ∧
      Sound ⟨w,false⟩ t' ∧ ReadFrom c.world t a n e rest w t' returned ∧
      Owners (.read n.queue e returned) (names c.world t) (names w t') := by
  obtain ⟨unparked,linked⟩ := sound.guard guarded
  obtain ⟨s₁,a,n,e,rest,w,t',returned,taken,⟨_,out⟩,done,tracked,from'⟩ :=
    readSpec asserts sound.tracked linked unparked
  have ran : eventTreeRead asserts c.world = .ok (w,some returned) := by
    have passed : check asserts .readLast c.world.last.isSome = .ok () := by simp [check,off]
    rw [eventTreeRead,Queue.okBind passed,Queue.okBind taken]
    exact done
  obtain ⟨k,t₁,first,disposed⟩ := from'.first
  have ordered := takeFirstOrdered sound.tracked.ordered first
  have before : names c.world t = some n.queue :: t₁.items.map (queueOf c.world) := by
    rw [names,held,unparked,takeFirstItems first,← queueOfNode from'.node]
    simp
  refine ⟨a,n,e,rest,w,t',returned,?_,⟨tracked,fun h => absurd h Bool.false_ne_true⟩,from',?_⟩
  · simp [perform,guarded,ran,upcomingFront taken out from'.front]
  · rw [Owners,before,names,held,from'.names]
    generalize w.last = last at disposed
    cases disposed with
    | closed type => rw [if_pos type]; simp
    | drained type empty =>
      rw [if_neg type,← queueOfNode from'.node,← List.map_cons]
      exact (List.perm_append_singleton a _).map _
    | refiled type more =>
      rw [if_neg type,← queueOfNode from'.node,← List.map_cons,Option.toList_none,List.append_nil]
      exact (insertItems ordered _ a).map _

theorem soundStep (asserts : Assertion → Bool) (sound : Sound c t) {action : Action}
    (off : action = .read → asserts .readLast = false) (allowed : SoundMemory c.world action)
    (unknown : ∀ q m, action = .add q m → some q ∉ names c.world t) :
    (action = .read ∧ c.guarded = false ∧ perform asserts c action = .error .unguarded) ∨
    ∃ l c' t', perform asserts c action = .ok (l,c') ∧ Sound c' t' ∧
      Owners l (names c.world t) (names c'.world t') := by
  cases action with
  | init =>
    obtain ⟨l,c',ran,sound',owners⟩ := soundInit (t := t) asserts c
    exact .inr ⟨l,c',leaf,ran,sound',owners⟩
  | add q m =>
    obtain ⟨ok,c',t',ran,sound',_,owners⟩ := soundAdd asserts sound allowed (unknown q m rfl)
    exact .inr ⟨_,c',t',ran,sound',owners⟩
  | push q e =>
    obtain ⟨ok,c',ran,sound',_,_,_,same,_⟩ := soundPush asserts sound q e
    refine .inr ⟨_,c',t,ran,sound',?_⟩
    rw [same]
    exact .rfl
  | isEmpty =>
    obtain ⟨empty,w,t',ran,sound',_,perm⟩ := soundIsEmpty asserts sound
    exact .inr ⟨_,_,t',ran,sound',perm⟩
  | read =>
    cases guarded : c.guarded with
    | false => exact .inl ⟨rfl,rfl,by simp [perform,guarded]⟩
    | true =>
      obtain ⟨a,n,e,rest,w,t',returned,ran,sound',_,owners⟩ := soundRead (off rfl) sound guarded
      exact .inr ⟨_,_,t',ran,sound',owners⟩

def ClosedRead (q : Nat) (trace : List Label) : Prop :=
  ∃ popped returned, Label.read q popped returned ∈ trace ∧ popped.type = .kOnQueueClosed

structure RunInv (start : List (Option Nat)) (trace : List Label) (c : Cfg) (t : Shape) : Prop where
  sound : Sound c t
  origin : ∀ q ∈ names c.world t, q ∈ start ++ (added trace).map some
  kept : Label.init ∉ trace → ∀ q, some q ∈ start ∨ Label.add q true ∈ trace →
    ¬ ClosedRead q trace → some q ∈ names c.world t

theorem unknownQueue {start : List (Option Nat)} {trace : List Label} (inv : RunInv start trace c t)
    {q : Nat} (once : (start ++ (added trace ++ [q]).map some).Nodup) : some q ∉ names c.world t := by
  intro mem
  rw [List.map_append,← List.append_assoc] at once
  exact (List.nodup_append.mp once).2.2 _ (inv.origin _ mem) _ (by simp) rfl

theorem performAdd {asserts : Assertion → Bool} {action : Action} {q : Nat} {m : TreeNode}
    (h : perform asserts c action = .ok (l,c')) (same : action = .add q m) : added [l] = [q] := by
  subst same
  simp only [perform] at h
  split at h <;> cases h
  rfl

section Ownership
variable {before after : List (Option Nat)}

theorem ownersOrigin (owners : Owners l before after) {q : Option Nat} (mem : q ∈ after) :
    q ∈ before ∨ q ∈ (added [l]).map some := by
  cases l with
  | init =>
    rw [show after = [] from owners] at mem
    cases mem
  | add p ok =>
    cases ok with
    | false => exact .inl ((owners : List.Perm _ _).mem_iff.mp mem)
    | true =>
      rcases List.mem_cons.mp ((owners : List.Perm _ _).mem_iff.mp mem) with rfl | mem
      · exact .inr List.mem_cons_self
      · exact .inl mem
  | push => exact .inl ((owners : List.Perm _ _).mem_iff.mp mem)
  | isEmpty => exact .inl ((owners : List.Perm _ _).mem_iff.mp mem)
  | read p popped returned =>
    simp only [Owners] at owners
    split at owners
    · exact .inl (owners.mem_iff.mpr (List.mem_cons_of_mem _ mem))
    · exact .inl (owners.mem_iff.mp mem)

theorem ownersKept (owners : Owners l before after) (running : l ≠ .init) {q : Nat} (mem : some q ∈ before) :
    some q ∈ after ∨ ClosedRead q [l] := by
  cases l with
  | init => exact absurd rfl running
  | add p ok =>
    cases ok with
    | false => exact .inl ((owners : List.Perm _ _).mem_iff.mpr mem)
    | true => exact .inl ((owners : List.Perm _ _).mem_iff.mpr (List.mem_cons_of_mem _ mem))
  | push => exact .inl ((owners : List.Perm _ _).mem_iff.mpr mem)
  | isEmpty => exact .inl ((owners : List.Perm _ _).mem_iff.mpr mem)
  | read p popped returned =>
    simp only [Owners] at owners
    split at owners
    · rename_i type
      rcases List.mem_cons.mp (owners.mem_iff.mp mem) with same | mem
      · cases same
        exact .inr ⟨popped,returned,List.mem_cons_self,type⟩
      · exact .inl mem
    · exact .inl (owners.mem_iff.mpr mem)

end Ownership

theorem runInvStep {start : List (Option Nat)} {trace : List Label} (inv : RunInv start trace c t)
    (step : Step SoundMemory noAsserts c l c')
    (once : (start ++ (added (trace ++ [l])).map some).Nodup) :
    ∃ t', RunInv start (trace ++ [l]) c' t' := by
  obtain ⟨action,allowed,ran⟩ := step
  have unknown (q : Nat) (m : TreeNode) (same : action = .add q m) : some q ∉ names c.world t := by
    rw [addedSnoc,performAdd ran same] at once
    exact unknownQueue inv once
  rcases soundStep noAsserts inv.sound (fun _ => rfl) allowed unknown with
    ⟨_,_,stopped⟩ | ⟨l',c'',t',ran',sound,owners⟩
  · rw [stopped] at ran
    cases ran
  · obtain ⟨rfl,rfl⟩ := Prod.mk.inj (Except.ok.inj (ran'.symm.trans ran))
    refine ⟨t',sound,fun q mem => ?_,fun running q known open' => ?_⟩
    · rw [addedSnoc,List.map_append,← List.append_assoc]
      rcases ownersOrigin owners mem with mem | mem
      · exact List.mem_append_left _ (inv.origin q mem)
      · exact List.mem_append_right _ mem
    · rw [List.mem_append,not_or] at running
      rw [List.mem_append,← or_assoc] at known
      rcases known with known | known
      · have open'' : ¬ ClosedRead q trace :=
          fun ⟨popped,returned,mem,type⟩ => open' ⟨popped,returned,List.mem_append_left _ mem,type⟩
        have mem := inv.kept running.1 q known open''
        rcases ownersKept owners (Ne.symm (List.ne_of_not_mem_cons running.2)) mem with kept | closed
        · exact kept
        · obtain ⟨popped,returned,mem,type⟩ := closed
          exact absurd ⟨popped,returned,List.mem_append_right _ mem,type⟩ open'
      · cases List.mem_singleton.mp known
        exact (owners : List.Perm _ _).mem_iff.mpr List.mem_cons_self

theorem runInv {first : Cfg} {t₀ : Shape} {trace : List Label} (sound : Sound first t₀)
    (run : Run (Step SoundMemory noAsserts) first trace c)
    (once : (names first.world t₀ ++ (added trace).map some).Nodup) :
    ∃ t, RunInv (names first.world t₀) trace c t := by
  induction run with
  | nil =>
    exact ⟨t₀,sound,fun _ mem => List.mem_append_left _ mem,
      fun _ _ known _ => known.elim id (fun mem => absurd mem List.not_mem_nil)⟩
  | snoc before last ih =>
    refine (ih ?_).elim (fun t inv => runInvStep inv last once)
    rw [addedSnoc,List.map_append,← List.append_assoc] at once
    exact (List.nodup_append.mp once).1

end Qtl.EventTreeRun
