import Qtl.EventTreeRun

/-! What event_tree_is_empty promises event_tree_read, and what event_tree_read asks
for: the promise covers everything except the assertion on `last`, whose condition is
the opposite of what the guard leaves behind. -/
namespace Qtl.EventTreeGuard
open Queue EventTree EventTreeShape EventTreeRebalance EventTreeTracked EventTreeRun
open Base (ChainTree)
open Base.ChainTree
open Base.Trace (Run)

variable {asserts : Assertion → Bool} {c c' first : Cfg} {t t₀ : Shape} {l : Label} {trace : List Label}

theorem checkDrop {a : Assertion} {condition : Bool} : check noAsserts a condition = .ok () := rfl

theorem peekTimeDrop {q : EventQueue} {time : Nat} (h : eventQueuePeekTime asserts q = .ok time) :
    eventQueuePeekTime noAsserts q = .ok time := by
  obtain ⟨_,_,h⟩ := bindOk h
  exact h

theorem rebalanceDrop {s s' : World} {item : Option Nat} (h : eventTreeRebalance asserts s item = .ok s') :
    eventTreeRebalance noAsserts s item = .ok s' := by
  obtain ⟨_,_,h⟩ := bindOk h
  obtain ⟨_,h₁,h⟩ := bindOk h
  obtain ⟨_,h₂,h⟩ := bindOk h
  obtain ⟨_,h₃,h⟩ := bindOk h
  exact (okBind checkDrop).trans <| (okBind h₁).trans <| (okBind h₂).trans <|
    (okBind (peekTimeDrop h₃)).trans h

theorem isEmptyDrop {s : World} {r} (h : eventTreeIsEmpty asserts s = .ok r) :
    eventTreeIsEmpty noAsserts s = .ok r := by
  unfold eventTreeIsEmpty at h ⊢
  split <;> rename_i bare
  · rwa [if_pos bare] at h
  · rw [if_neg bare] at h
    split <;> rename_i unparked
    · rwa [if_pos unparked] at h
    · rw [if_neg unparked] at h
      obtain ⟨n,h₁,h⟩ := bindOk h
      refine (okBind h₁).trans ?_
      split <;> rename_i empty
      · rwa [if_pos empty] at h
      · rw [if_neg empty] at h
        obtain ⟨_,h₂,h⟩ := bindOk h
        exact (okBind (rebalanceDrop h₂)).trans h

theorem deliverDrop {s : World} {current : Option Nat} {r} (h : deliver asserts s current = .ok r) :
    deliver noAsserts s current = .ok r := by
  obtain ⟨n,h₁,h⟩ := bindOk h
  refine (okBind h₁).trans ?_
  split at h
  · exact h
  · rename_i closed
    dsimp only at h ⊢
    split <;> rename_i closed
    · rwa [if_pos closed] at h
    · rw [if_neg closed] at h
      split <;> rename_i empty
      · rwa [if_pos empty] at h
      · rw [if_neg empty] at h
        obtain ⟨_,h₂,h⟩ := bindOk h
        exact (okBind (rebalanceDrop h₂)).trans h

theorem readDrop {s : World} {r} (h : eventTreeRead asserts s = .ok r) :
    eventTreeRead noAsserts s = .ok r := by
  obtain ⟨_,_,h⟩ := bindOk h
  obtain ⟨_,h₁,h⟩ := bindOk h
  exact (okBind checkDrop).trans ((okBind h₁).trans (deliverDrop h))

theorem addDrop {s : World} {memory : Option TreeNode} {q : Nat} {r}
    (h : eventTreeAdd asserts s memory q = .ok r) : eventTreeAdd noAsserts s memory q = .ok r := by
  unfold eventTreeAdd at h ⊢
  split <;> rename_i empty
  · rwa [if_pos empty] at h
  · rw [if_neg empty] at h
    split at h
    · exact h
    · split <;> rename_i root
      · rwa [if_pos root] at h
      · rw [if_neg root] at h
        obtain ⟨_,h₂,h⟩ := bindOk h
        exact (okBind (rebalanceDrop h₂)).trans h

theorem performDrop {action : Action} {r} (h : perform asserts c action = .ok r) :
    perform noAsserts c action = .ok r := by
  cases action with
  | init => exact h
  | push => exact h
  | add q m =>
    simp only [perform] at h ⊢
    split at h <;> try contradiction
    rename_i done
    rwa [addDrop done]
  | isEmpty =>
    simp only [perform] at h ⊢
    split at h <;> try contradiction
    rename_i done
    rwa [isEmptyDrop done]
  | read =>
    simp only [perform] at h ⊢
    split at h <;> try contradiction
    rename_i guarded
    rw [if_pos guarded]
    split at h <;> try contradiction
    rename_i done
    rwa [readDrop done]

theorem guardedReadAborts (sound : Sound c t) (guarded : c.guarded = true) :
    perform allAsserts c .read = .error (.fault (.assertion .readLast)) := by
  have stopped : eventTreeRead allAsserts c.world = .error (.assertion .readLast) := by
    rw [eventTreeRead,(sound.guard guarded).1]
    rfl
  simp [perform,guarded,stopped]

def reads (trace : List Label) : Prop := ∃ q popped returned, Label.read q popped returned ∈ trace

theorem labelRead {action : Action} {q : Nat} {popped returned : Event}
    (h : perform asserts c action = .ok (.read q popped returned,c')) :
    action = .read ∧ c.guarded = true := by
  cases action with
  | init => cases h
  | push => cases h
  | add => simp only [perform] at h; split at h <;> cases h
  | isEmpty => simp only [perform] at h; split at h <;> cases h
  | read =>
    simp only [perform] at h
    split at h <;> try contradiction
    exact ⟨rfl,‹_›⟩

theorem stepWith {start : List (Option Nat)} (inv : RunInv start trace c t)
    (step : Step SoundMemory noAsserts c l c')
    (once : (start ++ (added (trace ++ [l])).map some).Nodup)
    (off : reads [l] → asserts .readLast = false) : Step SoundMemory asserts c l c' := by
  obtain ⟨action,allowed,ran⟩ := step
  refine ⟨action,allowed,?_⟩
  have unknown (q : Nat) (m : TreeNode) (same : action = .add q m) : some q ∉ names c.world t := by
    rw [addedSnoc,performAdd ran same] at once
    exact unknownQueue inv once
  have off' (same : action = .read) : asserts .readLast = false := by
    subst same
    refine off ?_
    simp only [perform] at ran
    split at ran <;> try contradiction
    split at ran <;> try contradiction
    split at ran <;> try contradiction
    cases ran
    exact ⟨_,_,_,List.mem_singleton_self _⟩
  rcases soundStep _ inv.sound off' allowed unknown with ⟨same,unguarded,_⟩ | ⟨l',c'',t',ran',_,_⟩
  · subst same
    simp [perform,unguarded] at ran
  · rw [ran']
    rw [performDrop ran'] at ran
    exact ran

theorem runWith (sound : Sound first t₀) (run : Run (Step SoundMemory noAsserts) first trace c)
    (once : (names first.world t₀ ++ (added trace).map some).Nodup)
    (off : reads trace → asserts .readLast = false) : Run (Step SoundMemory asserts) first trace c := by
  induction run with
  | nil => exact .nil
  | snoc before last ih =>
    have shorter := once
    rw [addedSnoc,List.map_append,← List.append_assoc] at shorter
    have once' := (List.nodup_append.mp shorter).1
    obtain ⟨t,inv⟩ := runInv sound before once'
    refine .snoc (ih once' (fun ⟨q,popped,returned,mem⟩ => ?_)) (stepWith inv last once ?_)
    · exact off ⟨q,popped,returned,List.mem_append_left _ mem⟩
    · rintro ⟨q,popped,returned,mem⟩
      exact off ⟨q,popped,returned,List.mem_append_right _ mem⟩

def ErrorBranch (asserts : Assertion → Bool) (c : Cfg) (action : Action) : Prop :=
  ∃ stop, perform asserts c action = .error stop ∧ stop ≠ .unguarded

def allButReadLast : Assertion → Bool := fun a => a != .readLast

/-- Every run of the discipline goes through with all assertions compiled in exactly
when it reads nothing; without the one on `last`, every run goes through and its next
call, whatever it is, meets no error branch. -/
theorem guardedReadAsserts (sound : Sound first t₀)
    (run : Run (Step SoundMemory noAsserts) first trace c)
    (once : (names first.world t₀ ++ (added trace).map some).Nodup) :
    (Run (Step SoundMemory allAsserts) first trace c ↔ ¬ reads trace) ∧
    Run (Step SoundMemory allButReadLast) first trace c ∧
    ∀ action, SoundMemory c.world action →
      (∀ q m, action = .add q m → (names first.world t₀ ++ (added trace ++ [q]).map some).Nodup) →
      ¬ ErrorBranch allButReadLast c action := by
  refine ⟨⟨?_,?_⟩,runWith sound run once (fun _ => rfl),?_⟩
  · rintro debug ⟨q,popped,returned,mem⟩
    obtain ⟨earlier,later,rfl⟩ := List.append_of_mem mem
    obtain ⟨c₂,left,_⟩ := Base.Trace.runSplit (earlier ++ [.read q popped returned])
      later (by simpa using debug)
    obtain ⟨c₁,before,action,allowed,ran⟩ := Base.Trace.runSnocInv left
    have free : Run (Step SoundMemory noAsserts) first earlier c₁ :=
      Base.Trace.runMono (fun _ _ _ ⟨a,ok,h⟩ => ⟨a,ok,performDrop h⟩) before
    rw [show added (earlier ++ .read q popped returned :: later) = added earlier ++ added later by
      simp [added],List.map_append,← List.append_assoc] at once
    obtain ⟨t,inv⟩ := runInv sound free (List.nodup_append.mp once).1
    obtain ⟨rfl,guarded⟩ := labelRead ran
    rw [guardedReadAborts inv.sound guarded] at ran
    cases ran
  · exact fun silent => runWith sound run once (fun h => absurd h silent)
  · rintro action allowed fresh ⟨stop,stopped,different⟩
    obtain ⟨t,inv⟩ := runInv sound run once
    rcases soundStep allButReadLast inv.sound (fun _ => rfl) allowed
      (fun q m same => unknownQueue inv (fresh q m same)) with ⟨_,_,h⟩ | ⟨_,_,_,h,_,_⟩
    · rw [h] at stopped
      cases stopped
      exact different rfl
    · rw [h] at stopped
      cases stopped

section OneQueue

def oneQueue : Cfg := ⟨⟨[],fun _ => lone ⟨5,.kAsk,none⟩,none,none⟩,false⟩

def cleanMemory : TreeNode := ⟨0,5,none,none,none,none,none⟩

theorem oneQueueSound : Sound oneQueue leaf := ⟨emptyTracked rfl rfl,nofun⟩

def unread : List Label := [.add 0 true,.isEmpty false,.push 0 ⟨6,.kBid,none⟩ false]

def twiceRead : List Label := [.add 0 true,.isEmpty false,.read 0 ⟨5,.kAsk,none⟩ ⟨5,.kAsk,none⟩,
  .push 0 ⟨6,.kBid,none⟩ true,.isEmpty false,.read 0 ⟨6,.kBid,none⟩ ⟨6,.kBid,none⟩]

theorem guardedReadAssertsTwo : ∃ c c',
    Run (Step SoundMemory allAsserts) oneQueue unread c ∧
    Run (Step SoundMemory allButReadLast) oneQueue twiceRead c' ∧
    ¬ Run (Step SoundMemory allAsserts) oneQueue twiceRead c' ∧
    ∀ action, SoundMemory c'.world action →
      (∀ q m, action = .add q m → ([0] ++ [q]).Nodup) → ¬ ErrorBranch allButReadLast c' action := by
  have start : Run (Step SoundMemory noAsserts) oneQueue [.add 0 true,.isEmpty false] _ :=
    .snoc (.snoc .nil ⟨.add 0 cleanMemory,fun _ _ => ⟨rfl,rfl,rfl⟩,rfl⟩) ⟨.isEmpty,trivial,rfl⟩
  have silent : Run (Step SoundMemory noAsserts) oneQueue unread _ :=
    .snoc start ⟨.push 0 ⟨6,.kBid,none⟩,trivial,rfl⟩
  have reading : Run (Step SoundMemory noAsserts) oneQueue twiceRead _ :=
    .snoc (.snoc (.snoc (.snoc start ⟨.read,trivial,rfl⟩) ⟨.push 0 ⟨6,.kBid,none⟩,trivial,rfl⟩)
      ⟨.isEmpty,trivial,rfl⟩) ⟨.read,trivial,rfl⟩
  obtain ⟨debug,_,_⟩ := guardedReadAsserts oneQueueSound silent (by decide)
  obtain ⟨debug',release,safe⟩ := guardedReadAsserts oneQueueSound reading (by decide)
  refine ⟨_,_,debug.mpr ?_,release,fun whole => debug'.mp whole ?_,fun action allowed fresh =>
    safe action allowed (fun q m same => ?_)⟩
  · rintro ⟨q,popped,returned,mem⟩
    simp [unread] at mem
  · exact ⟨0,⟨5,.kAsk,none⟩,⟨5,.kAsk,none⟩,by simp [twiceRead]⟩
  · have apart := fresh q m same
    simpa [names,held,oneQueue,added,twiceRead] using apart

theorem guardedReadAbortsOne : ∃ c,
    Run (Step SoundMemory allAsserts) oneQueue [.add 0 true,.isEmpty false] c ∧ c.guarded = true ∧
    perform allAsserts c .read = .error (.fault (.assertion .readLast)) :=
  ⟨_,.snoc (.snoc .nil ⟨.add 0 cleanMemory,fun _ _ => ⟨rfl,rfl,rfl⟩,rfl⟩) ⟨.isEmpty,trivial,rfl⟩,rfl,rfl⟩

end OneQueue

end Qtl.EventTreeGuard
