import Mathlib.Data.Set.Defs
import Qtl.Base.Trace

/-! Simulation between two machines when a state of the first leaves open which of a set
of states the second is in. The choice is made as late as the second machine needs it. -/
namespace Qtl.Base.Simulation
open Trace (Run)

variable {σ τ ε δ ω : Type} {step : σ → ε → σ → Prop} {other : τ → δ → τ → Prop}

def Reached (other : τ → δ → τ → Prop) (show' : δ → List ω) (start : τ) (seen : List ω) (states : Set τ) : Prop :=
  ∀ t ∈ states, ∃ trace, Run other start trace t ∧ trace.flatMap show' = seen

/-- What one step of the first machine asks of the second: every state of the new set is
reached from one of the old by moves that show what the step shows. -/
def Follows (other : τ → δ → τ → Prop) (show' : δ → List ω) (seen : List ω) (states states' : Set τ) : Prop :=
  ∀ t' ∈ states', ∃ t ∈ states, ∃ trace, Run other t trace t' ∧ trace.flatMap show' = seen

variable {see : ε → List ω} {show' : δ → List ω} {start : τ} {seen seen' : List ω} {states states' : Set τ}

theorem followsRefl (within : states' ⊆ states) : Follows other show' [] states states' :=
  fun t mem => ⟨t,within mem,[],.nil,rfl⟩

theorem reachedFollows (reached : Reached other show' start seen states)
    (follows : Follows other show' seen' states states') : Reached other show' start (seen ++ seen') states' := by
  intro t' mem'
  obtain ⟨t,mem,later,onward,same'⟩ := follows t' mem'
  obtain ⟨trace,run,same⟩ := reached t mem
  exact ⟨trace ++ later,Base.Trace.runAppend run onward,by rw [List.flatMap_append,same,same']⟩

/-- The run rule. `Stands s states` is the relation between a state and the set it leaves
open. -/
theorem runSimulates {Stands : σ → Set τ → Prop} {s s' : σ} {trace : List ε}
    (stands : Stands s states) (begins : ∀ t ∈ states, t = start)
    (follow : ∀ s m s' states, Stands s states → step s m s' →
      ∃ states', Stands s' states' ∧ Follows other show' (see m) states states')
    (run : Run step s trace s') :
    ∃ states', Stands s' states' ∧ Reached other show' start (trace.flatMap see) states' := by
  induction run with
  | nil => exact ⟨states,stands,fun t mem => ⟨[],begins t mem ▸ .nil,rfl⟩⟩
  | snoc before last ih =>
    obtain ⟨middle,stands',reached'⟩ := ih
    obtain ⟨states',stands'',follows⟩ := follow _ _ _ _ stands' last
    refine ⟨states',stands'',?_⟩
    rw [List.flatMap_append,List.flatMap_singleton]
    exact reachedFollows reached' follows

end Qtl.Base.Simulation
