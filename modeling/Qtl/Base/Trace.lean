import Mathlib.Data.List.Induction

/-! Finite runs of a labelled step relation. The trace keeps every label in
order; nothing is collapsed, so a property of a trace is a property of all the
moments of the run. -/
namespace Qtl.Base.Trace

variable {σ ε : Type}

inductive Run (step : σ → ε → σ → Prop) (start : σ) : List ε → σ → Prop where
  | nil : Run step start [] start
  | snoc {trace s label s'} (before : Run step start trace s) (last : step s label s') :
      Run step start (trace ++ [label]) s'

variable {step other : σ → ε → σ → Prop} {start s s' : σ} {trace : List ε} {label : ε}

theorem runSingle (h : step s label s') : Run step s [label] s' := .snoc .nil h

theorem runAppend {middle : σ} {first rest : List ε}
    (h : Run step start first middle) (h' : Run step middle rest s) :
    Run step start (first ++ rest) s := by
  induction h' with
  | nil => simpa using h
  | snoc before last ih => rw [← List.append_assoc]; exact .snoc ih last

theorem runCons {rest : List ε} (h : step start label s) (h' : Run step s rest s') :
    Run step start (label :: rest) s' := runAppend (runSingle h) h'

theorem runInvariant (invariant : List ε → σ → Prop) (initial : invariant [] start)
    (preserved : ∀ trace s label s', invariant trace s → step s label s' →
      invariant (trace ++ [label]) s')
    (h : Run step start trace s) : invariant trace s := by
  induction h with
  | nil => exact initial
  | snoc before last ih => exact preserved _ _ _ _ ih last

theorem runLabels (invariant : List ε → σ → Prop) (good : ε → Prop) (initial : invariant [] start)
    (preserved : ∀ trace s label s', invariant trace s → step s label s' →
      invariant (trace ++ [label]) s' ∧ good label)
    (h : Run step start trace s) : invariant trace s ∧ ∀ label ∈ trace, good label := by
  induction h with
  | nil => exact ⟨initial,by simp⟩
  | snoc before last ih =>
    obtain ⟨kept,here⟩ := preserved _ _ _ _ ih.1 last
    refine ⟨kept,fun label mem => ?_⟩
    rcases List.mem_append.mp mem with mem | mem
    · exact ih.2 label mem
    · cases List.mem_singleton.mp mem
      exact here

theorem runMono (weaker : ∀ s label s', step s label s' → other s label s')
    (h : Run step start trace s) : Run other start trace s := by
  induction h with
  | nil => exact .nil
  | snoc before last ih => exact .snoc ih (weaker _ _ _ last)

theorem runNilInv (h : Run step start [] s) : s = start := by
  generalize whole : [] = full at h
  cases h with
  | nil => rfl
  | snoc => simp at whole

theorem runSnocInv (h : Run step start (trace ++ [label]) s') :
    ∃ s, Run step start trace s ∧ step s label s' := by
  generalize whole : trace ++ [label] = full at h
  cases h with
  | nil => simp at whole
  | snoc before last =>
    obtain ⟨rfl,one⟩ := List.append_inj' whole rfl
    cases List.singleton_inj.mp one
    exact ⟨_,before,last⟩

theorem runSplit (first rest : List ε) (h : Run step start (first ++ rest) s) :
    ∃ middle, Run step start first middle ∧ Run step middle rest s := by
  induction rest using List.reverseRecOn generalizing s with
  | nil => exact ⟨s,by simpa using h,.nil⟩
  | append_singleton rest label ih =>
    rw [← List.append_assoc] at h
    obtain ⟨before,left,last⟩ := runSnocInv h
    obtain ⟨middle,lower,upper⟩ := ih left
    exact ⟨middle,lower,.snoc upper last⟩

section Play
variable {τ β : Type} {turn : σ → τ → Option (ε × σ)}

def Moves (turn : σ → τ → Option (ε × σ)) (s : σ) (label : ε) (s' : σ) : Prop :=
  ∃ t, turn s t = some (label,s')

def play (turn : σ → τ → Option (ε × σ)) (s : σ) : List τ → Option (List ε × σ)
  | [] => some ([],s)
  | t :: rest => do
      let (label,s) ← turn s t
      let (trace,s) ← play turn s rest
      some (label :: trace,s)

theorem playRun {turns : List τ} {r : List ε × σ} (played : play turn s turns = some r) :
    Run (Moves turn) s r.1 r.2 := by
  induction turns generalizing s r with
  | nil =>
    cases played
    exact .nil
  | cons t rest ih =>
    obtain ⟨⟨label,s₁⟩,first,played⟩ := Option.bind_eq_some_iff.mp played
    obtain ⟨⟨trace,s₂⟩,later,played⟩ := Option.bind_eq_some_iff.mp played
    cases played
    exact runCons ⟨t,first⟩ (ih later)

theorem playSeen (turns : List τ) (see : List ε × σ → β) {seen : β}
    (played : (play turn s turns).map see = some seen) :
    ∃ trace s', Run (Moves turn) s trace s' ∧ see (trace,s') = seen := by
  obtain ⟨r,outcome,same⟩ := Option.map_eq_some_iff.mp played
  exact ⟨r.1,r.2,playRun outcome,same⟩

end Play

section Deterministic

def Deterministic (step : σ → ε → σ → Prop) : Prop :=
  ∀ s l l' s₁ s₂, step s l s₁ → step s l' s₂ → l = l' ∧ s₁ = s₂

variable {trace' : List ε}

theorem runSameLength (one : Deterministic step) (h : Run step start trace s)
    (h' : Run step start trace' s') (size : trace.length = trace'.length) : trace = trace' ∧ s = s' := by
  induction h generalizing trace' s' with
  | nil =>
    cases h' with
    | nil => exact ⟨rfl,rfl⟩
    | snoc => simp at size
  | snoc before last ih =>
    cases h' with
    | nil => simp at size
    | snoc before' last' =>
      obtain ⟨rfl,rfl⟩ := ih before' (by simpa using size)
      obtain ⟨rfl,rfl⟩ := one _ _ _ _ _ last last'
      exact ⟨rfl,rfl⟩

theorem runShorter (one : Deterministic step) (h : Run step start trace s)
    (h' : Run step start trace' s') (size : trace.length ≤ trace'.length) : trace <+: trace' := by
  rw [← List.take_append_drop trace.length trace'] at h' ⊢
  obtain ⟨middle,first,_⟩ := runSplit _ _ h'
  obtain ⟨same,_⟩ := runSameLength one h first (List.length_take_of_le size).symm
  rw [← same]
  exact List.prefix_append ..

theorem runDeterministic (one : Deterministic step) (h : Run step start trace s)
    (h' : Run step start trace' s') : trace <+: trace' ∨ trace' <+: trace :=
  (Nat.le_total trace.length trace'.length).imp (runShorter one h h') (runShorter one h' h)

end Deterministic

end Qtl.Base.Trace
