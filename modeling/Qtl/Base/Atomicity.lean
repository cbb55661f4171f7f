import Qtl.Base.Trace

/-! Programs that meet a shared state in single accesses, between which other parties may
change it. A call is atomic when its accesses could have been made all at one moment. -/
namespace Qtl.Base.Atomicity
open Trace (Run)

inductive Program (φ : Type) {A : Type} (B : A → Type) (R : Type) where
  | done (r : R)
  | fail (f : φ)
  | ask (a : A) (next : B a → Program φ B R)

namespace Program
variable {φ A R S σ ε : Type} {B : A → Type}

def bind : Program φ B R → (R → Program φ B S) → Program φ B S
  | .done r,f => f r
  | .fail e,_ => .fail e
  | .ask a next,f => .ask a (fun b => (next b).bind f)

instance : Monad (Program φ B) where
  pure := .done
  bind := .bind

def lift : Except φ R → Program φ B R
  | .ok r => .done r
  | .error e => .fail e

def access (a : A) : Program φ B (B a) := .ask a .done

def alone (act : (a : A) → σ → B a × σ) : Program φ B R → σ → Except φ R × σ
  | .done r,s => (.ok r,s)
  | .fail e,s => (.error e,s)
  | .ask a next,s => (next (act a s).1).alone act (act a s).2

def Only (allowed : A → Prop) : Program φ B R → Prop
  | .done _ => True
  | .fail _ => True
  | .ask a next => allowed a ∧ ∀ b, (next b).Only allowed

end Program

open Program

variable {φ A R S σ ε : Type} {B : A → Type}

/-- An execution with steps of others between the accesses. -/
inductive Mixed (act : (a : A) → σ → B a × σ) (env : σ → ε → σ → Prop) :
    Program φ B R → σ → List ε → Except φ R → σ → Prop where
  | done {x s} : Mixed act env (.done x) s [] (.ok x) s
  | fail {f s} : Mixed act env (.fail f) s [] (.error f) s
  | ask {a next s es r s'} (rest : Mixed act env (next (act a s).1) (act a s).2 es r s') :
      Mixed act env (.ask a next) s es r s'
  | other {p s e s₁ es r s'} (step : env s e s₁) (rest : Mixed act env p s₁ es r s') : Mixed act env p s (e :: es) r s'

/-- The others' steps fall before or after the call, which has the state for itself. -/
def Atomic (act : (a : A) → σ → B a × σ) (env : σ → ε → σ → Prop) (p : Program φ B R) (s : σ) (es : List ε)
    (r : Except φ R) (s' : σ) : Prop :=
  ∃ first rest before after, es = first ++ rest ∧ Run env s first before ∧ p.alone act before = (r,after) ∧
    Run env after rest s'

def Whole (act : (a : A) → σ → B a × σ) (env : σ → ε → σ → Prop) (p : Program φ B R) (s : σ) : Prop :=
  ∀ es r s', Mixed act env p s es r s' → Atomic act env p s es r s'

/-- Whatever the others do first to a `Q` state, the access could be made before it. -/
def Earlier (act : (a : A) → σ → B a × σ) (env : σ → ε → σ → Prop) (Q : σ → Prop) (a : A) : Prop :=
  ∀ s e s₁, Q s → env s e s₁ → (act a s₁).1 = (act a s).1 ∧ env (act a s).2 e (act a s₁).2

variable {act : (a : A) → σ → B a × σ} {env : σ → ε → σ → Prop}
variable {p : Program φ B R} {f : R → Program φ B S} {a : A} {next : B a → Program φ B R}
variable {s s' s₁ : σ} {es es' : List ε} {r : Except φ R} {x : R} {allowed : A → Prop} {Q : σ → Prop}

theorem aloneBind (p : Program φ B R) (f : R → Program φ B S) (s : σ) : (p >>= f).alone act s =
    match p.alone act s with
    | (.ok r,s') => (f r).alone act s'
    | (.error e,s') => (.error e,s') := by
  induction p generalizing s with
  | done r => rfl
  | fail e => rfl
  | ask a next ih => exact ih _ _

theorem aloneFirst (p : Program φ B R) (f : R → Program φ B S) (s : σ) : ((p >>= f).alone act s).1 =
    (p.alone act s).1 >>= fun a => ((f a).alone act (p.alone act s).2).1 := by
  rw [aloneBind]
  obtain ⟨r,s'⟩ := p.alone act s
  cases r <;> rfl

theorem aloneLift (x : Except φ R) (f : R → Program φ B S) (s : σ) :
    ((lift x >>= f).alone act s).1 = x >>= fun a => ((f a).alone act s).1 := by
  cases x <;> rfl

theorem liftAlone (x : Except φ R) (s : σ) : (lift x : Program φ B R).alone act s = (x,s) := by
  cases x <;> rfl

theorem liftOk (x : R) (f : R → Program φ B S) : (lift (.ok x) >>= f) = f x := rfl

theorem onlyMono {allowed' : A → Prop} (only : p.Only allowed) (more : ∀ a, allowed a → allowed' a) :
    p.Only allowed' := by
  induction p with
  | done r => trivial
  | fail e => trivial
  | ask a next ih => exact ⟨more a only.1,fun b => ih b (only.2 b)⟩

theorem onlyBind (first : p.Only allowed) (later : ∀ x, (f x).Only allowed) : (p >>= f).Only allowed := by
  induction p with
  | done r => exact later r
  | fail e => trivial
  | ask a next ih => exact ⟨first.1,fun b => ih b (first.2 b)⟩

theorem onlyLift (x : Except φ R) : (lift x : Program φ B R).Only allowed := by
  cases x <;> trivial

theorem aloneKeeps (only : p.Only allowed) (kept : ∀ a s, allowed a → (act a s).2 = s) : (p.alone act s).2 = s := by
  induction p with
  | done r => rfl
  | fail e => rfl
  | ask a next ih =>
    rw [alone,kept a s only.1]
    exact ih _ (only.2 _)

theorem onlyLiftBind {e : Except φ R} (later : ∀ x, e = .ok x → (f x).Only allowed) : (lift e >>= f).Only allowed := by
  cases e with
  | ok x => exact later x rfl
  | error f => trivial

theorem aloneAlike {Alike : σ → σ → Prop}
    (keeps : ∀ a s s₁, allowed a → Alike s s₁ → (act a s).1 = (act a s₁).1 ∧ Alike (act a s).2 (act a s₁).2)
    (only : p.Only allowed) (alike : Alike s s₁) :
    (p.alone act s).1 = (p.alone act s₁).1 ∧ Alike (p.alone act s).2 (p.alone act s₁).2 := by
  induction p generalizing s s₁ with
  | done x => exact ⟨rfl,alike⟩
  | fail f => exact ⟨rfl,alike⟩
  | ask a next ih =>
    obtain ⟨same,alike⟩ := keeps a s s₁ only.1 alike
    rw [alone,alone,← same]
    exact ih _ (only.2 _) alike

theorem mixedOther (run : Run env s es s₁) (mixed : Mixed act env p s₁ es' r s') :
    Mixed act env p s (es ++ es') r s' := by
  induction run generalizing es' with
  | nil => exact mixed
  | snoc before last ih =>
    rw [List.append_assoc]
    exact ih (.other last mixed)

theorem mixedDone (mixed : Mixed act env (.done x) s es r s') : r = .ok x ∧ Run env s es s' := by
  generalize same : Program.done x = p at mixed
  induction mixed with
  | done => cases same; exact ⟨rfl,.nil⟩
  | fail => cases same
  | ask => cases same
  | other step rest ih => exact ⟨(ih same).1,Base.Trace.runCons step (ih same).2⟩

theorem mixedFail {f : φ} (mixed : Mixed act env (.fail f : Program φ B R) s es r s') :
    r = .error f ∧ Run env s es s' := by
  generalize same : Program.fail f = p at mixed
  induction mixed with
  | done => cases same
  | fail => cases same; exact ⟨rfl,.nil⟩
  | ask => cases same
  | other step rest ih => exact ⟨(ih same).1,Base.Trace.runCons step (ih same).2⟩

theorem mixedAsk (mixed : Mixed act env (.ask a next) s es r s') : ∃ first rest s₁, es = first ++ rest ∧
    Run env s first s₁ ∧ Mixed act env (next (act a s₁).1) (act a s₁).2 rest r s' := by
  generalize same : Program.ask a next = p at mixed
  induction mixed with
  | done => cases same
  | fail => cases same
  | ask rest => cases same; exact ⟨[],_,_,rfl,.nil,rest⟩
  | other step rest ih =>
    obtain ⟨first,later,s₁,rfl,run,onward⟩ := ih same
    exact ⟨_,later,s₁,rfl,Base.Trace.runCons step run,onward⟩

theorem mixedHead (mixed : Mixed act env (.ask a next) s es r s') :
    Mixed act env (next (act a s).1) (act a s).2 es r s' ∨
      ∃ e later s₁, es = e :: later ∧ env s e s₁ ∧ Mixed act env (.ask a next) s₁ later r s' := by
  generalize same : Program.ask a next = p at mixed
  cases mixed with
  | done => cases same
  | fail => cases same
  | ask rest => cases same; exact .inl rest
  | other step rest => subst same; exact .inr ⟨_,_,_,rfl,step,rest⟩

theorem mixedKeeps {P : σ → Prop} (own : ∀ a s, P s → P (act a s).2) (others : ∀ s e s₁, P s → env s e s₁ → P s₁)
    (here : P s) (mixed : Mixed act env p s es r s') : P s' := by
  induction mixed with
  | done => exact here
  | fail => exact here
  | ask rest ih => exact ih (own _ _ here)
  | other step rest ih => exact ih (others _ _ _ here step)

theorem mixedMap {g : R → S} {r : Except φ S} (mixed : Mixed act env (p >>= fun x => pure (g x)) s es r s') :
    ∃ r₀, Mixed act env p s es r₀ s' ∧ r = r₀.map g := by
  induction p generalizing s es with
  | done x =>
    obtain ⟨rfl,run⟩ := mixedDone mixed
    exact ⟨.ok x,by simpa using mixedOther run .done,rfl⟩
  | fail f =>
    obtain ⟨rfl,run⟩ := mixedFail mixed
    exact ⟨.error f,by simpa using mixedOther run .fail,rfl⟩
  | ask a next ih =>
    obtain ⟨first,rest,s₁,rfl,run,onward⟩ := mixedAsk mixed
    obtain ⟨r₀,onward,same⟩ := ih _ onward
    exact ⟨r₀,mixedOther run (.ask onward),same⟩

theorem atomicOther (run : Run env s es s₁) (atomic : Atomic act env p s₁ es' r s') :
    Atomic act env p s (es ++ es') r s' := by
  obtain ⟨first,rest,before,after,rfl,run',alone,onward⟩ := atomic
  exact ⟨es ++ first,rest,before,after,(List.append_assoc ..).symm,Base.Trace.runAppend run run',alone,onward⟩

theorem atomicNow (alone : p.alone act s = (r,s₁)) (run : Run env s₁ es s') : Atomic act env p s es r s' :=
  ⟨[],es,s,s₁,rfl,.nil,alone,run⟩

theorem wholeDone : Whole act env (.done x : Program φ B R) s := by
  intro es r s' mixed
  obtain ⟨rfl,run⟩ := mixedDone mixed
  exact atomicNow rfl run

theorem wholeFail {f : φ} : Whole act env (.fail f : Program φ B R) s := by
  intro es r s' mixed
  obtain ⟨rfl,run⟩ := mixedFail mixed
  exact atomicNow rfl run

theorem wholeBind {x : Except φ R} (later : ∀ a, x = .ok a → Whole act env (f a) s) :
    Whole act env (lift x >>= f) s := by
  cases x with
  | ok a => exact later a rfl
  | error f => exact wholeFail

theorem wholeMap (g : R → S) (whole : Whole act env p s) : Whole act env (p >>= fun x => pure (g x)) s := by
  intro es r s' mixed
  obtain ⟨r₀,inner,rfl⟩ := mixedMap mixed
  obtain ⟨first,rest,before,after,rfl,run,alone,onward⟩ := whole _ _ _ inner
  refine ⟨first,rest,before,after,rfl,run,?_,onward⟩
  rw [aloneBind,alone]
  cases r₀ <;> rfl

theorem earlierRun (stable : ∀ s e s₁, Q s → env s e s₁ → Q s₁) (earlier : Earlier act env Q a) (here : Q s)
    (run : Run env s es s₁) : Q s₁ ∧ (act a s₁).1 = (act a s).1 ∧ Run env (act a s).2 es (act a s₁).2 := by
  induction run with
  | nil => exact ⟨here,rfl,.nil⟩
  | snoc before last ih =>
    obtain ⟨there,same,run⟩ := ih
    obtain ⟨same',step⟩ := earlier _ _ _ there last
    exact ⟨stable _ _ _ there last,same'.trans same,.snoc run step⟩

/-- A program whose accesses may all be made earlier is atomic where it stands. -/
theorem mixedEarly (stable : ∀ s e s₁, Q s → env s e s₁ → Q s₁) (kept : ∀ a s, allowed a → Q s → Q (act a s).2)
    (earlier : ∀ a, allowed a → Earlier act env Q a) (only : p.Only allowed) (here : Q s)
    (mixed : Mixed act env p s es r s') : ∃ after, p.alone act s = (r,after) ∧ Run env after es s' := by
  induction p generalizing s es with
  | done x =>
    obtain ⟨rfl,run⟩ := mixedDone mixed
    exact ⟨s,rfl,run⟩
  | fail f =>
    obtain ⟨rfl,run⟩ := mixedFail mixed
    exact ⟨s,rfl,run⟩
  | ask a next ih =>
    obtain ⟨first,rest,s₁,rfl,run,onward⟩ := mixedAsk mixed
    obtain ⟨_,same,run'⟩ := earlierRun stable (earlier a only.1) here run
    rw [same] at onward
    exact ih (act a s).1 (only.2 _) (kept a s only.1 here) (mixedOther run' onward)

end Qtl.Base.Atomicity
