import Mathlib.Data.List.Basic
import Mathlib.Logic.Relation

/-! Happens-before in a trace of memory actions: the order of each thread, and a
release store before the acquire load that returns it. Actions are positions of the
trace; nothing here depends on how a memory computes what a load may return. -/
namespace Qtl.Base.HappensBefore
open Relation (TransGen ReflTransGen)

inductive MemoryOrder where | relaxed | acquire | release
  deriving DecidableEq, Repr

-- Loads and stores name a store by its place in the modification order of its location.
inductive Access (L C : Type) where
  | load (l : L) (order : MemoryOrder) (index : Nat)
  | store (l : L) (order : MemoryOrder) (index : Nat)
  | read (c : C)
  | write (c : C)
  deriving DecidableEq, Repr

structure Action (T L C : Type) where
  thread : T
  access : Access L C
  deriving DecidableEq, Repr

variable {T L C : Type} {actions later : List (Action T L C)} {a b : Action T L C} {i j n : Nat} {t : T}

def Synchronizes (a b : Action T L C) : Prop :=
  ∃ l k, a.access = .store l .release k ∧ b.access = .load l .acquire k

def Edge (actions : List (Action T L C)) (i j : Nat) : Prop :=
  i < j ∧ ∃ a b, actions[i]? = some a ∧ actions[j]? = some b ∧ (a.thread = b.thread ∨ Synchronizes a b)

def Before (actions : List (Action T L C)) : Nat → Nat → Prop := TransGen (Edge actions)

def Conflict (a b : Action T L C) : Prop :=
  a.thread ≠ b.thread ∧ ∃ c, (a.access = .write c ∧ (b.access = .read c ∨ b.access = .write c)) ∨
    (a.access = .read c ∧ b.access = .write c)

def RaceFree (actions : List (Action T L C)) : Prop :=
  ∀ i j a b, i < j → actions[i]? = some a → actions[j]? = some b → Conflict a b → Before actions i j

def Reaches (actions : List (Action T L C)) (i : Nat) (t : T) : Prop :=
  ∃ j b, actions[j]? = some b ∧ b.thread = t ∧ ReflTransGen (Edge actions) i j

theorem atInside (found : actions[i]? = some a) : i < actions.length := (List.getElem?_eq_some_iff.mp found).1

theorem atLater (later : List (Action T L C)) (found : actions[i]? = some a) : (actions ++ later)[i]? = some a := by
  rw [List.getElem?_append_left (atInside found)]
  exact found

theorem atSnoc (found : (actions ++ [a])[i]? = some b) :
    actions[i]? = some b ∨ (i = actions.length ∧ b = a) := by
  rcases Nat.lt_trichotomy i actions.length with inside | rfl | outside
  · rw [List.getElem?_append_left inside] at found
    exact .inl found
  · rw [List.getElem?_concat_length] at found
    exact .inr ⟨rfl,(Option.some.inj found).symm⟩
  · rw [List.getElem?_eq_none (by simp; omega)] at found
    cases found

theorem edgeLater (later : List (Action T L C)) (edge : Edge actions i j) : Edge (actions ++ later) i j := by
  obtain ⟨early,a,b,first,last,ordered⟩ := edge
  exact ⟨early,a,b,atLater later first,atLater later last,ordered⟩

theorem beforeLater (later : List (Action T L C)) (h : Before actions i j) : Before (actions ++ later) i j :=
  TransGen.mono (fun _ _ => edgeLater later) _ _ h

theorem reachesLater (later : List (Action T L C)) (h : Reaches actions i t) : Reaches (actions ++ later) i t := by
  obtain ⟨j,b,found,mine,path⟩ := h
  exact ⟨j,b,atLater later found,mine,ReflTransGen.mono (fun _ _ => edgeLater later) _ _ path⟩

theorem reachesSelf (found : actions[i]? = some a) : Reaches actions i a.thread := ⟨i,a,found,rfl,.refl⟩

theorem reachesBefore (h : Reaches actions i a.thread) : Before (actions ++ [a]) i actions.length := by
  obtain ⟨j,b,found,mine,path⟩ := h
  refine TransGen.tail' (ReflTransGen.mono (fun _ _ => edgeLater [a]) _ _ path) ?_
  exact ⟨atInside found,b,a,atLater _ found,List.getElem?_concat_length,.inl mine⟩

theorem raceFreeNil : RaceFree ([] : List (Action T L C)) := by
  intro i j a b _ first
  cases first

theorem raceFreeSnoc (free : RaceFree actions)
    (ordered : ∀ i b, actions[i]? = some b → Conflict b a → Reaches actions i a.thread) :
    RaceFree (actions ++ [a]) := by
  intro i j b b' early first last conflict
  rcases atSnoc last with last | ⟨rfl,rfl⟩
  · rcases atSnoc first with first | ⟨rfl,_⟩
    · exact beforeLater _ (free i j b b' early first last conflict)
    · exact absurd (atInside last) (by omega)
  · rcases atSnoc first with first | ⟨rfl,_⟩
    · exact reachesBefore (ordered i b first conflict)
    · omega

theorem beforeInside (alone : ∀ (i j : Nat) (a b : Action T L C), actions[i]? = some a → actions[j]? = some b → a.thread = t →
    Synchronizes a b → b.thread = t) (h : Before actions i j) (first : actions[i]? = some a) (mine : a.thread = t) :
    ∃ b, actions[j]? = some b ∧ b.thread = t := by
  have next {i j : Nat} {a : Action T L C} (edge : Edge actions i j) (first : actions[i]? = some a) (mine : a.thread = t) :
      ∃ b, actions[j]? = some b ∧ b.thread = t := by
    obtain ⟨_,a',b,found,last,ordered⟩ := edge
    cases Option.some.inj (found.symm.trans first)
    exact ⟨b,last,ordered.elim (fun same => same.symm.trans mine) (alone i j a b first last mine)⟩
  induction h with
  | single edge => exact next edge first mine
  | tail _ edge ih =>
    obtain ⟨b,found,mine⟩ := ih
    exact next edge found mine

end Qtl.Base.HappensBefore
