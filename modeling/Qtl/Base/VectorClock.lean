import Qtl.Base.ReleaseAcquire
import Qtl.Base.Trace

/-! The clocks of a release-acquire memory against happens-before: what a clock says of
a thread's actions holds of the trace, so an access that knows the conflicting ones by
its clock is ordered after them. -/
namespace Qtl.Base.VectorClock
open HappensBefore ReleaseAcquire
open Relation (ReflTransGen)
open Trace (Run)

variable {T L C V α : Type} {m m' : Memory T L C V α} {actions : List (Action T L C)} {a : Action T L C} {t : T}

-- The thread knows of the other threads' accesses that its own conflicts with.
def Covered (m : Memory T L C V α) (a : Action T L C) : Prop := match a.access with
  | .read c => ∀ u, u ≠ a.thread → m.wrote c u ≤ (m.views a.thread).clock u
  | .write c => ∀ u, u ≠ a.thread → m.wrote c u ≤ (m.views a.thread).clock u ∧
      m.read c u ≤ (m.views a.thread).clock u
  | _ => True

structure Sound (actions : List (Action T L C)) (m : Memory T L C V α) : Prop where
  time : m.time = actions.length
  wrote : ∀ (i : Nat) (a : Action T L C) c, actions[i]? = some a → a.access = .write c → i < m.wrote c a.thread
  read : ∀ (i : Nat) (a : Action T L C) c, actions[i]? = some a → a.access = .read c → i < m.read c a.thread
  knows : ∀ t (i : Nat) (a : Action T L C), actions[i]? = some a → i < (m.views t).clock a.thread → Reaches actions i t
  carries : ∀ l (k : Nat) (message : Message T L V) (i : Nat) (a : Action T L C), (m.messages l)[k]? = some message →
    actions[i]? = some a → i < message.view.clock a.thread →
    ∃ (j : Nat) (b : Action T L C), actions[j]? = some b ∧ b.access = .store l .release k ∧
      ReflTransGen (Edge actions) i j
  bounded : ∀ t u, (m.views t).clock u ≤ m.time
  sent : ∀ l (k : Nat) (message : Message T L V), (m.messages l)[k]? = some message →
    ∀ u, message.view.clock u ≤ m.time

theorem freshSound (fresh : Fresh m) : Sound [] m where
  time := fresh.time
  wrote _ _ _ found := by cases found
  read _ _ _ found := by cases found
  knows _ _ _ found := by cases found
  carries _ _ _ _ _ _ found := by cases found
  bounded t u := by rw [fresh.views]; exact Nat.zero_le _
  sent l k message found u := by rw [freshFirst fresh found]; exact Nat.zero_le _

structure Effect (m : Memory T L C V α) (a : Action T L C) (m' : Memory T L C V α) : Prop where
  time : m'.time = m.time + 1
  others : ∀ t, t ≠ a.thread → m'.views t = m.views t
  learns : ∀ u i, i < (m'.views a.thread).clock u → i < (m.views a.thread).clock u ∨
    (u = a.thread ∧ i ≤ m.time) ∨
    ∃ l k message, a.access = .load l .acquire k ∧ (m.messages l)[k]? = some message ∧ i < message.view.clock u
  sends : ∀ l (k : Nat) (message : Message T L V), (m'.messages l)[k]? = some message →
    (m.messages l)[k]? = some message ∨
      ∀ i u, i < message.view.clock u → a.access = .store l .release k ∧ i < (m.views a.thread).clock u
  wrote : ∀ c t, m'.wrote c t = m.time + 1 ∨ (m'.wrote c t = m.wrote c t ∧ a ≠ ⟨t,.write c⟩)
  read : ∀ c t, m'.read c t = m.time + 1 ∨ (m'.read c t = m.read c t ∧ a ≠ ⟨t,.read c⟩)

section Snoc
variable (sound : Sound actions m) (effect : Effect m a m')
include sound effect

theorem accessedSnoc {times times' : C → T → Nat} {access : C → Access L C}
    (old : ∀ (i : Nat) (b : Action T L C) c, actions[i]? = some b → b.access = access c → i < times c b.thread)
    (set : ∀ c t, times' c t = m.time + 1 ∨ (times' c t = times c t ∧ a ≠ ⟨t,access c⟩))
    {i : Nat} {b : Action T L C} {c : C} (found : (actions ++ [a])[i]? = some b) (accessed : b.access = access c) :
    i < times' c b.thread := by
  rcases set c b.thread with now | ⟨kept,other⟩
  · rw [now,sound.time]
    rcases atSnoc found with found | ⟨rfl,_⟩
    · exact Nat.lt_succ_of_lt (atInside found)
    · exact Nat.lt_succ_self _
  · rw [kept]
    rcases atSnoc found with found | ⟨_,rfl⟩
    · exact old i b c found accessed
    · exact absurd (by rw [← accessed]) other

theorem boundedSnoc (t u : T) : (m'.views t).clock u ≤ m'.time := by
  rw [effect.time]
  by_cases mine : t = a.thread
  · subst mine
    by_contra later
    rcases effect.learns u (m.time + 1) (by omega) with known | ⟨_,early⟩ | ⟨l,k,message,_,found,known⟩
    · exact absurd (sound.bounded a.thread u) (by omega)
    · omega
    · exact absurd (sound.sent l k message found u) (by omega)
  · rw [effect.others t mine]
    exact Nat.le_succ_of_le (sound.bounded t u)

theorem knowsSnoc {i : Nat} {b : Action T L C} (found : (actions ++ [a])[i]? = some b)
    (known : i < (m'.views t).clock b.thread) : Reaches (actions ++ [a]) i t := by
  by_cases own : b.thread = t
  · exact own ▸ reachesSelf found
  rcases atSnoc found with found | ⟨rfl,rfl⟩
  · by_cases mine : t = a.thread
    · subst mine
      rcases effect.learns b.thread i known with known | ⟨same,_⟩ | ⟨l,k,message,acquires,sent,known⟩
      · exact reachesLater _ (sound.knows a.thread i b found known)
      · exact absurd same own
      · -- the release store of the message comes before the load
        obtain ⟨j,b',at_,releases,path⟩ := sound.carries l k message i b sent found known
        refine ⟨actions.length,a,List.getElem?_concat_length,rfl,?_⟩
        refine (ReflTransGen.mono (fun _ _ => edgeLater [a]) _ _ path).tail ?_
        exact ⟨atInside at_,b',a,atLater _ at_,List.getElem?_concat_length,.inr ⟨l,k,releases,acquires⟩⟩
    · rw [effect.others t mine] at known
      exact reachesLater _ (sound.knows t i b found known)
  · rw [effect.others t (Ne.symm own)] at known
    exact absurd (sound.bounded t b.thread) (by rw [sound.time]; omega)

theorem carriesSnoc {l : L} {k i : Nat} {message : Message T L V} {b : Action T L C}
    (sent : (m'.messages l)[k]? = some message) (found : (actions ++ [a])[i]? = some b)
    (known : i < message.view.clock b.thread) : ∃ (j : Nat) (b : Action T L C),
      (actions ++ [a])[j]? = some b ∧ b.access = .store l .release k ∧ ReflTransGen (Edge (actions ++ [a])) i j := by
  rcases effect.sends l k message sent with old | fresh
  · rcases atSnoc found with found | ⟨rfl,rfl⟩
    · obtain ⟨j,b',at_,releases,path⟩ := sound.carries l k message i b old found known
      exact ⟨j,b',atLater _ at_,releases,ReflTransGen.mono (fun _ _ => edgeLater [a]) _ _ path⟩
    · exact absurd (sound.sent l k message old b.thread) (by rw [sound.time]; omega)
  · obtain ⟨releases,known⟩ := fresh i b.thread known
    refine ⟨actions.length,a,List.getElem?_concat_length,releases,?_⟩
    rcases atSnoc found with found | ⟨rfl,_⟩
    · exact (reachesBefore (sound.knows a.thread i b found known)).to_reflTransGen
    · exact .refl

theorem effectSound : Sound (actions ++ [a]) m' := by
  refine ⟨?_,fun i b c => accessedSnoc sound effect sound.wrote effect.wrote,
    fun i b c => accessedSnoc sound effect sound.read effect.read,fun t i b => knowsSnoc sound effect,
    fun l k message i b => carriesSnoc sound effect,boundedSnoc sound effect,fun l k message sent u => ?_⟩
  · rw [effect.time,sound.time,List.length_append,List.length_singleton]
  · rw [effect.time]
    rcases effect.sends l k message sent with old | fresh
    · exact Nat.le_succ_of_le (sound.sent l k message old u)
    · by_contra later
      have known := (fresh (m.time + 1) u (by omega)).2
      have bound := sound.bounded a.thread u
      omega

end Snoc

theorem coveredReaches (sound : Sound actions m) (covered : Covered m a) {i : Nat} {b : Action T L C}
    (found : actions[i]? = some b) (conflict : Conflict b a) : Reaches actions i a.thread := by
  obtain ⟨apart,c,⟨wrote,access⟩ | ⟨read,access⟩⟩ := conflict
  · have early := sound.wrote i b c found wrote
    refine sound.knows a.thread i b found (Nat.lt_of_lt_of_le early ?_)
    rcases access with access | access
    · rw [Covered,access] at covered
      exact covered b.thread apart
    · rw [Covered,access] at covered
      exact (covered b.thread apart).1
  · have early := sound.read i b c found read
    refine sound.knows a.thread i b found (Nat.lt_of_lt_of_le early ?_)
    rw [Covered,access] at covered
    exact (covered b.thread apart).2

variable [DecidableEq T]

theorem tickLearns {m : Memory T L C V α} {u : T} {i : Nat} (known : i < ((tick m t).views t).clock u) :
    i < (m.views t).clock u ∨ (u = t ∧ i ≤ m.time) := by
  rw [clockTick] at known
  split at known
  · rename_i mine
    exact .inr ⟨mine,by omega⟩
  · exact .inl known

variable [DecidableEq C]

theorem accessEffect {access : C → Access L C} {times : C → T → Nat} {c : C} {n : Nat} (one : Function.Injective access)
    (d : C) (u : T) : mark times c t n d u = n ∨
      (mark times c t n d u = times d u ∧ (⟨t,access c⟩ : Action T L C) ≠ ⟨u,access d⟩) := by
  rw [markApply]
  split
  · exact .inl rfl
  · rename_i other
    refine .inr ⟨rfl,fun same => other ?_⟩
    obtain ⟨thread,cell⟩ := HappensBefore.Action.mk.inj same
    exact ⟨(one cell).symm,thread.symm⟩

variable [DecidableEq L]

inductive Step : Memory T L C V α → Action T L C → Memory T L C V α → Prop where
  | load {m m' : Memory T L C V α} {t l order i v} (returned : load m t l order i = some (v,m')) :
      Step m ⟨t,.load l order i⟩ m'
  | store {m : Memory T L C V α} {t l order v} :
      Step m ⟨t,.store l order (m.messages l).length⟩ (store m t l order v)
  | read {m : Memory T L C V α} {t c} : Step m ⟨t,.read c⟩ (readCell m t c).2
  | write {m : Memory T L C V α} {t c a} : Step m ⟨t,.write c⟩ (writeCell m t c a)

theorem stepEffect (step : Step m a m') : Effect m a m' := by
  cases step with
  | load returned =>
    rename_i t l order k v
    obtain ⟨message,_,found,rfl,rfl⟩ := loadInv returned
    refine ⟨rfl,fun _ other => Function.update_of_ne other ..,fun u i known => ?_,fun _ _ _ => .inl,
      fun _ _ => .inr ⟨rfl,by simp⟩,fun _ _ => .inr ⟨rfl,by simp⟩⟩
    simp only [Function.update_self,clockLoaded] at known
    split at known
    · rename_i acquires
      subst acquires
      have either : i < (m.views t).clock u ∨ i < message.view.clock u := by omega
      exact either.imp id (fun known => .inr ⟨l,k,message,rfl,found,known⟩)
    · exact .inl known
  | store =>
    rename_i t l order v
    refine ⟨rfl,fun _ other => Function.update_of_ne other ..,fun u i known => ?_,fun k i message found => ?_,
      fun _ _ => .inr ⟨rfl,by simp⟩,fun _ _ => .inr ⟨rfl,by simp⟩⟩
    · simp only [store,Function.update_self] at known
      exact .inl known
    · refine (messageStored found).imp id ?_
      rintro ⟨rfl,rfl,rfl⟩ i u known
      by_cases releases : order = .release
      · subst releases
        exact ⟨rfl,known⟩
      · simp only [if_neg releases] at known
        exact absurd known (Nat.not_lt_zero i)
  | read =>
    refine ⟨rfl,fun _ other => Function.update_of_ne other ..,fun u i known => (tickLearns known).imp id .inl,
      fun _ _ _ => .inl,fun _ _ => .inr ⟨rfl,by simp⟩,accessEffect (fun _ _ => Access.read.inj)⟩
  | write =>
    refine ⟨rfl,fun _ other => Function.update_of_ne other ..,fun u i known => (tickLearns known).imp id .inl,
      fun _ _ _ => .inl,accessEffect (fun _ _ => Access.write.inj),fun _ _ => .inr ⟨rfl,by simp⟩⟩

theorem stepGrown {owner : L → T} (coherent : Coherent owner m) (step : Step m a m') (t : T) :
    (m.views t).Le (m'.views t) := by
  cases step with
  | load returned =>
    obtain ⟨message,_,_,_,rfl⟩ := loadInv returned
    simp only [Function.update_apply]
    split
    · rename_i mine
      subst mine
      exact leLoaded ..
    · exact leRefl _
  | store =>
    simp only [store,Function.update_apply]
    split
    · rename_i mine
      subst mine
      exact leSee ..
    · exact leRefl _
  | read => exact leTick coherent _ t
  | write => exact leTick coherent _ t

theorem coveredRaceFree (fresh : Fresh m) (run : Run (fun m a m' => Covered m a ∧ Step m a m') m actions m') :
    RaceFree actions := by
  refine (Trace.runInvariant (fun actions m => RaceFree actions ∧ Sound actions m)
    ⟨raceFreeNil,freshSound fresh⟩ (fun actions m a m' ⟨free,sound⟩ ⟨covered,step⟩ => ?_) run).1
  exact ⟨raceFreeSnoc free (fun i b found conflict => coveredReaches sound covered found conflict),
    effectSound sound (stepEffect step)⟩

end Qtl.Base.VectorClock
