import Qtl.Base.FixedWidth
import Qtl.Base.Trace

/-! Reference counts of qtl_event.h: a 16-bit atomic counter that any thread may
change. Each atomic access is one step; event_unref decides about the free after
its own access, when other threads may have moved the counter on. -/
namespace Qtl.EventRef
open Base.Trace (Run)
open Base.FixedWidth (wrapSucc wrapPred)

def ushortRange : Nat := 2^16

structure RefCell where
  ref : Nat
  freed : Bool
  deriving DecidableEq, Repr

def eventInit : RefCell := ⟨1,false⟩

def eventRef (e : RefCell) : RefCell × Nat := ({e with ref := (e.ref + 1) % ushortRange},e.ref)

def fetchSub (e : RefCell) : RefCell × Nat :=
  ({e with ref := (e.ref + ushortRange - 1) % ushortRange},e.ref)

def release (e : RefCell) (count : Nat) : RefCell := if count = 1 then {e with freed := true} else e

def eventUnref (e : RefCell) : RefCell × Nat :=
  let (e,count) := fetchSub e
  (release e count,count)

def eventIsSingleRef (e : RefCell) : Bool := e.ref == 1

/- `outstanding` counts the references obtained and not yet released. `calls` holds, for a
thread inside event_unref, the count it fetched and how many were outstanding then. -/
structure Shared where
  cell : RefCell
  calls : Nat → Option (Nat × Nat)
  outstanding : Nat

inductive Action where
  | ref
  | unref (thread : Nat)
  | finish (thread : Nat)
  | single

inductive Label where
  | ref
  | unref (thread : Nat)
  | returned (thread count : Nat) (freed : Bool) (outstanding : Nat)
  | single (answer : Bool) (outstanding : Nat)
  deriving DecidableEq, Repr

def begin : Shared := ⟨eventInit,fun _ => none,1⟩

def perform (s : Shared) : Action → Option (Label × Shared)
  | .ref => some (.ref,{s with cell := (eventRef s.cell).1, outstanding := s.outstanding + 1})
  | .unref thread => match s.calls thread with
    | some _ => none
    | none =>
        -- a reference that is released was obtained before
        if 0 < s.outstanding then
          some (.unref thread,⟨(fetchSub s.cell).1,
            Function.update s.calls thread (some ((fetchSub s.cell).2,s.outstanding)),s.outstanding - 1⟩)
        else none
  | .finish thread => match s.calls thread with
    | none => none
    | some (count,outstanding) =>
        some (.returned thread count (decide (count = 1)) outstanding,
          {s with cell := release s.cell count, calls := Function.update s.calls thread none})
  | .single => some (.single (eventIsSingleRef s.cell) s.outstanding,s)

abbrev Step := Base.Trace.Moves perform

def Answers : Label → Prop
  | .returned _ _ freed outstanding => freed = true ↔ outstanding = 1
  | .single answer outstanding => answer = true ↔ outstanding = 1
  | _ => True

def Unwrapped : Label → Prop
  | .returned _ _ _ outstanding => outstanding = 1 ∨ outstanding % ushortRange ≠ 1
  | .single _ outstanding => outstanding = 1 ∨ outstanding % ushortRange ≠ 1
  | _ => True

structure Inv (s : Shared) : Prop where
  counter : s.cell.ref = s.outstanding % ushortRange
  fetched : ∀ thread count outstanding, s.calls thread = some (count,outstanding) →
    count = outstanding % ushortRange

theorem beginInv : Inv begin := ⟨rfl,nofun⟩

variable {s s' : Shared} {l : Label} {trace : List Label}

theorem callsUpdate {calls : Nat → Option (Nat × Nat)} {thread other : Nat} {v : Option (Nat × Nat)}
    {call : Nat × Nat} (found : Function.update calls thread v other = some call) :
    v = some call ∨ calls other = some call := by
  by_cases same : other = thread
  · subst same
    rw [Function.update_self] at found
    exact .inl found
  · rw [Function.update_of_ne same] at found
    exact .inr found

theorem answersIff {b : Bool} {n : Nat} (same : b = true ↔ n % ushortRange = 1) :
    (b = true ↔ n = 1) ↔ (n = 1 ∨ n % ushortRange ≠ 1) := by
  have one : n = 1 → n % ushortRange = 1 := by rintro rfl; rfl
  rw [same]
  tauto

theorem stepExact (inv : Inv s) (step : Step s l s') : Inv s' ∧ (Answers l ↔ Unwrapped l) := by
  obtain ⟨action,done⟩ := step
  cases action with
  | ref =>
    cases done
    refine ⟨⟨?_,inv.fetched⟩,.rfl⟩
    change (s.cell.ref + 1) % ushortRange = (s.outstanding + 1) % ushortRange
    rw [inv.counter,wrapSucc]
  | unref thread =>
    simp only [perform] at done
    split at done <;> try contradiction
    split at done <;> try contradiction
    rename_i held
    cases done
    refine ⟨⟨?_,?_⟩,.rfl⟩
    · change (s.cell.ref + ushortRange - 1) % ushortRange = (s.outstanding - 1) % ushortRange
      rw [inv.counter,wrapPred held]
    · intro other count outstanding found
      rcases callsUpdate found with now | before
      · cases now
        exact inv.counter
      · exact inv.fetched other count outstanding before
  | finish thread =>
    simp only [perform] at done
    split at done <;> try contradiction
    rename_i count outstanding pending
    cases done
    have fetched := inv.fetched thread count outstanding pending
    refine ⟨⟨?_,?_⟩,answersIff (by rw [decide_eq_true_iff,fetched])⟩
    · rw [← inv.counter]
      change (release s.cell count).ref = s.cell.ref
      unfold release
      split <;> rfl
    · intro other count outstanding found
      rcases callsUpdate found with now | before
      · cases now
      · exact inv.fetched other count outstanding before
  | single =>
    cases done
    exact ⟨inv,answersIff (by rw [eventIsSingleRef,beq_iff_eq,inv.counter])⟩

/-- Every interleaving of any number of threads gives the right answers exactly as far as
no answer was taken with a wrapped count of one. -/
theorem lastReleaseFrees (run : Run Step begin trace s) :
    (∀ l ∈ trace, Answers l) ↔ ∀ l ∈ trace, Unwrapped l := by
  have all := Base.Trace.runLabels (fun _ => Inv) (fun l => Answers l ↔ Unwrapped l) beginInv
    (fun _ _ _ _ => stepExact) run
  exact forall₂_congr all.2

theorem lastReleaseFreesShared : ∃ s,
    Run Step begin [.ref,.unref 1,.single true 1,.unref 0,.returned 1 2 false 2,.returned 0 1 true 1] s ∧
    ∀ l ∈ [Label.ref,.unref 1,.single true 1,.unref 0,.returned 1 2 false 2,.returned 0 1 true 1],
      Answers l := by
  have run : Run Step begin [.ref,.unref 1,.single true 1,.unref 0,.returned 1 2 false 2,.returned 0 1 true 1] _ :=
    .snoc (.snoc (.snoc (.snoc (.snoc (.snoc .nil ⟨.ref,rfl⟩) ⟨.unref 1,rfl⟩) ⟨.single,rfl⟩)
      ⟨.unref 0,rfl⟩) ⟨.finish 1,rfl⟩) ⟨.finish 0,rfl⟩
  refine ⟨_,run,(lastReleaseFrees run).mpr ?_⟩
  simp [Unwrapped]
  decide

theorem refsRun (n : Nat) : Run Step begin (List.replicate n .ref)
    ⟨⟨(1 + n) % ushortRange,false⟩,fun _ => none,1 + n⟩ := by
  induction n with
  | zero => exact .nil
  | succ n ih =>
    rw [List.replicate_succ']
    refine .snoc ih ⟨.ref,?_⟩
    simp only [perform,eventRef,wrapSucc]
    rfl

/-- After 65536 further references the counter reads 1 again: the first release frees the
event while 65536 references are left. -/
theorem wrappedReleaseFrees : ∃ s, Run Step begin
      (List.replicate 65536 .ref ++ [.unref 0] ++ [.returned 0 1 true 65537]) s ∧
    s.cell.freed = true ∧ s.outstanding = 65536 ∧ ¬ Answers (.returned 0 1 true 65537) :=
  ⟨_,.snoc (.snoc (refsRun 65536) ⟨.unref 0,rfl⟩) ⟨.finish 0,rfl⟩,rfl,rfl,by simp [Answers]⟩

end Qtl.EventRef
