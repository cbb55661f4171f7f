import Mathlib.Algebra.Ring.Int.Defs
import Mathlib.Algebra.Ring.Nat
import Mathlib.Data.Nat.ModEq

/-! Fixed-width integer arithmetic that remembers whether a result was ever reduced.
A computation that is pure has the values of the unbounded one. -/
namespace Qtl.Base.FixedWidth

structure Machine (α : Type) where
  val : α
  exact : Bool

namespace Machine
variable {α β : Type}

instance : Monad Machine where
  pure a := ⟨a,true⟩
  bind x f := ⟨(f x.val).val,x.exact && (f x.val).exact⟩

instance : LawfulMonad Machine := LawfulMonad.mk' Machine
  (fun ⟨_,_⟩ => by simp [Functor.map])
  (fun _ _ => by simp [pure,bind])
  (fun _ _ _ => by simp [bind,Bool.and_assoc])

@[simp] theorem pureVal (a : α) : (pure a : Machine α).val = a := rfl
@[simp] theorem pureExact (a : α) : (pure a : Machine α).exact = true := rfl

end Machine

def unsigned (bits : Nat) (x : Int) : Machine Nat :=
  ⟨(x % 2 ^ bits).toNat,decide (0 ≤ x ∧ x < 2 ^ bits)⟩

def signed (bits : Nat) (x : Int) : Machine Int :=
  ⟨x.bmod (2 ^ bits),decide (-2 ^ bits ≤ 2 * x ∧ 2 * x < 2 ^ bits)⟩

theorem unsignedPure {bits : Nat} {x : Int} (k : Nat) (same : x = k) (high : k < 2 ^ bits) :
    unsigned bits x = pure k := by
  have high' : (k : Int) < 2 ^ bits := by exact_mod_cast high
  subst same
  simp [unsigned,pure,high',Int.emod_eq_of_lt (Int.natCast_nonneg k) high']

theorem signedPure {bits : Nat} {x : Int} (low : -2 ^ bits ≤ 2 * x) (high : 2 * x < 2 ^ bits) :
    signed bits x = pure x := by
  have same : x.bmod (2 ^ bits) = x := by
    refine Int.bmod_eq_of_le ?_ ?_ <;> push_cast <;> omega
  simp [signed,pure,low,high,same]

section Wrapping
variable {range n : Nat}

theorem wrapSucc : (n % range + 1) % range = (n + 1) % range := Nat.mod_add_mod ..

theorem wrapPred (pos : 0 < n) : (n % range + range - 1) % range = (n - 1) % range := by
  obtain ⟨k,rfl⟩ := Nat.exists_eq_add_one.mpr pos
  rcases Nat.eq_zero_or_pos range with rfl | some
  · simp
  · have cancel : (k + 1) % range + range - 1 + 1 = (k + 1) % range + range := by omega
    have same : ((k + 1) % range + range - 1 + 1) % range = (k + 1) % range := by
      rw [cancel,Nat.add_mod_right,Nat.mod_mod]
    exact Nat.ModEq.add_right_cancel' 1 same

end Wrapping

end Qtl.Base.FixedWidth
