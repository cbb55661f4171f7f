import Mathlib.Data.List.Basic
import Mathlib.Data.List.Range
import Mathlib.Data.Nat.Init
import Mathlib.Logic.Function.Basic

/-! Circular storage. A tail and a head index below the capacity delimit the
live cells; one cell stays unused, so equal indices mean empty. Cells outside
the window are unrestricted. -/
namespace Qtl.Base.Window

variable {α : Type} {capacity head tail i j : Nat} {cells : Nat → α}

def advance (capacity index : Nat) : Nat := if index + 1 = capacity then 0 else index + 1

def slot (capacity head i : Nat) : Nat :=
  if head + i < capacity then head + i else head + i - capacity

def distance (capacity head tail : Nat) : Nat :=
  if head ≤ tail then tail - head else tail + capacity - head

def window (capacity : Nat) (cells : Nat → α) (head tail : Nat) : List α :=
  (List.range (distance capacity head tail)).map (fun i => cells (slot capacity head i))

theorem advanceLt (h : head < capacity) : advance capacity head < capacity := by
  unfold advance; split_ifs <;> omega

theorem advanceInjective (same : advance capacity head = advance capacity tail) : head = tail := by
  unfold advance at same
  split_ifs at same <;> omega

theorem slotZero (hh : head < capacity) : slot capacity head 0 = head := by simp [slot,hh]

theorem slotAdvance (hi : i + 1 < capacity) :
    slot capacity (advance capacity head) i = slot capacity head (i + 1) := by
  unfold slot advance; split_ifs <;> omega

theorem slotDistance (hh : head < capacity) (ht : tail < capacity) :
    slot capacity head (distance capacity head tail) = tail := by
  unfold slot distance; split_ifs <;> omega

theorem distanceLt (hh : head < capacity) (ht : tail < capacity) :
    distance capacity head tail < capacity := by
  unfold distance; split_ifs <;> omega

theorem distanceZero (hh : head < capacity) :
    distance capacity head tail = 0 ↔ head = tail := by
  unfold distance; split_ifs <;> omega

theorem distanceFull (hh : head < capacity) (ht : tail < capacity) :
    distance capacity head tail = capacity - 1 ↔ advance capacity tail = head := by
  unfold distance advance; split_ifs <;> omega

theorem distancePush (hh : head < capacity)
    (room : advance capacity tail ≠ head) :
    distance capacity head (advance capacity tail) = distance capacity head tail + 1 := by
  unfold distance advance at *; split_ifs at * <;> omega

theorem distancePop (hh : head < capacity) (ht : tail < capacity) (some : head ≠ tail) :
    distance capacity head tail = distance capacity (advance capacity head) tail + 1 := by
  unfold distance advance; split_ifs <;> omega

theorem windowLength : (window capacity cells head tail).length = distance capacity head tail := by
  simp [window]

theorem windowAt (inside : i < distance capacity head tail) :
    (window capacity cells head tail)[i]? = some (cells (slot capacity head i)) := by
  simp [window,inside]

theorem windowEmpty (hh : head < capacity) :
    window capacity cells head tail = [] ↔ head = tail := by
  rw [← List.length_eq_zero_iff,windowLength,distanceZero hh]

theorem windowFull (hh : head < capacity) (ht : tail < capacity) :
    (window capacity cells head tail).length = capacity - 1 ↔ advance capacity tail = head := by
  rw [windowLength,distanceFull hh ht]

theorem windowPush (cells : Nat → α) (hh : head < capacity) (ht : tail < capacity)
    (room : advance capacity tail ≠ head) :
    window capacity cells head (advance capacity tail) =
      window capacity cells head tail ++ [cells tail] := by
  simp only [window,distancePush hh room,List.range_succ,List.map_append,List.map_cons,
    List.map_nil,slotDistance hh ht]

theorem windowPop (hh : head < capacity) (ht : tail < capacity) (some : head ≠ tail) :
    window capacity cells head tail =
      cells head :: window capacity cells (advance capacity head) tail := by
  have bound := distanceLt hh ht
  rw [window,window]
  rw [distancePop hh ht some] at bound ⊢
  simp only [List.range_succ_eq_map,List.map_cons,List.map_map,slotZero hh]
  congr 1
  apply List.map_congr_left
  intro i mem
  have inside : i < distance capacity (advance capacity head) tail := List.mem_range.mp mem
  simp only [Function.comp_apply,Nat.succ_eq_add_one]
  rw [slotAdvance (by omega)]

theorem slotOutside (hh : head < capacity)
    (inside : i < distance capacity head tail) : slot capacity head i ≠ tail := by
  unfold slot distance at *; split_ifs at * <;> omega

theorem windowUpdateTail (hh : head < capacity) (value : α) :
    window capacity (Function.update cells tail value) head tail =
      window capacity cells head tail := by
  apply List.map_congr_left
  intro i mem
  exact Function.update_of_ne (slotOutside hh (List.mem_range.mp mem)) _ _

section Counted
variable {size a b : Nat}

theorem advanceMod (pos : 0 < size) (k : Nat) : advance size (k % size) = (k + 1) % size := by
  have inside := Nat.mod_lt k pos
  rw [← Nat.mod_add_mod,advance]
  split
  · rename_i wraps
    rw [wraps,Nat.mod_self]
  · exact (Nat.mod_eq_of_lt (by omega)).symm

theorem modApart (early : a < b) (near : b < a + size) : a % size ≠ b % size := by
  intro same
  have none := Nat.sub_mod_eq_zero_of_mod_eq same.symm
  rw [Nat.mod_eq_of_lt (by omega)] at none
  omega

theorem distanceMod (early : a ≤ b) (near : b < a + size) : distance size (a % size) (b % size) = b - a := by
  induction b, early using Nat.le_induction with
  | base =>
    rw [Nat.sub_self]
    exact (distanceZero (Nat.mod_lt a (by omega))).mpr rfl
  | succ b early ih =>
    have room : advance size (b % size) ≠ a % size := by
      rw [advanceMod (by omega)]
      exact (modApart (by omega) near).symm
    rw [← advanceMod (by omega),distancePush (Nat.mod_lt a (by omega)) room,ih (by omega)]
    omega

end Counted

end Qtl.Base.Window
