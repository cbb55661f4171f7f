import Mathlib.Order.Basic
import Mathlib.Order.Nat

/-! Computations with fuel: one that ends without an error does the same with more. -/
namespace Qtl.Base.Fuel

section Below
variable {ε α β : Type} {x y : Except ε α} {f g : α → Except ε β} {p : Prop}

def Below (x y : Except ε α) : Prop := ∀ r, x = .ok r → y = .ok r

theorem belowSame (x : Except ε α) : Below x x := fun _ same => same

theorem belowError (e : ε) (y : Except ε α) : Below (.error e) y := by
  intro r same
  cases same

theorem belowBind (first : Below x y) (next : ∀ a, Below (f a) (g a)) : Below (x >>= f) (y >>= g) := by
  intro r same
  cases x with
  | error e => cases same
  | ok a =>
    rw [first a rfl]
    exact next a r same

theorem belowThen (next : ∀ a, Below (f a) (g a)) : Below (x >>= f) (x >>= g) := belowBind (belowSame x) next

theorem belowIte [Decidable p] {x' y' : Except ε α} (yes : Below x y) (no : Below x' y') :
    Below (if p then x else x') (if p then y else y') := by
  split
  · exact yes
  · exact no

end Below

section Settles
variable {ε α : Type} {f : Nat → Except ε α} {bound : Nat}

def Grows (f : Nat → Except ε α) : Prop := ∀ n, Below (f n) (f (n + 1))

/-- With more fuel than this there is a result, and it is always the same. -/
def Settles (f : Nat → Except ε α) (bound : Nat) : Prop := ∃ r, ∀ fuel, bound < fuel → f fuel = .ok r

theorem growsMore {n m : Nat} (grows : Grows f) (more : n ≤ m) : Below (f n) (f m) := by
  induction m, more using Nat.le_induction with
  | base => exact belowSame _
  | succ m more ih => exact fun r same => grows m r (ih r same)

theorem settlesGrows {r : α} (grows : Grows f) (done : f (bound + 1) = .ok r) : Settles f bound :=
  ⟨r,fun _ more => growsMore grows more r done⟩

end Settles

end Qtl.Base.Fuel
