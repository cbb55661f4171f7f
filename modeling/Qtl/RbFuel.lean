import Qtl.Base.Fuel
import Qtl.RbRemove

/-! How many rounds the loops of adt_tree.h take: on a red-black tree of n nodes none
takes more than two for every binary digit of n + 1. -/
namespace Qtl.RbTree
open Base.ColoredTree
open Base.Fuel

section Loops
variable (live : Nat → Bool) (cmp : Nat → Int)

theorem leftmostGrows (s : Rb) (elm : Option Nat) : Grows (leftmost live · s elm) := by
  intro n
  induction n generalizing elm with
  | zero => exact belowError _ _
  | succ n ih =>
    exact belowThen (fun e => belowIte (belowSame _) (ih _))

theorem climbGrows (s : Rb) (left : Option Nat) : Grows (climb live · s left) := by
  intro n
  induction n generalizing left with
  | zero => exact belowError _ _
  | succ n ih =>
    exact belowThen (fun e => belowIte (belowSame _) (ih _))

theorem minmaxGrows (s : Rb) (parent tmp : Option Nat) : Grows (minmax live · s parent tmp) := by
  intro n
  induction n generalizing parent tmp with
  | zero => exact belowError _ _
  | succ n ih =>
    exact belowIte (belowSame _) (belowThen (fun e => ih _ _))

theorem ascendGrows (s : Rb) (elm : Option Nat) : Grows (ascend live · s elm) := by
  intro n
  induction n generalizing elm with
  | zero => exact belowError _ _
  | succ n ih =>
    exact belowThen (fun e => belowIte (belowSame _)
      (belowThen (fun p => belowIte (ih _) (belowSame _))))

theorem searchGrows (s : Rb) (parent tmp : Option Nat) (comp : Int) : Grows (search live cmp · s parent comp tmp) := by
  intro n
  induction n generalizing parent tmp comp with
  | zero => exact belowError _ _
  | succ n ih =>
    refine belowIte (belowSame _) (belowThen (fun c => belowIte ?_ (belowIte ?_ (belowSame _))))
    · exact belowThen (fun e => ih _ _ _)
    · exact belowThen (fun e => ih _ _ _)

theorem insertColorGrows (s : Rb) (elm : Option Nat) : Grows (insertColor live · s elm) := by
  intro n
  induction n generalizing s elm with
  | zero => exact belowError _ _
  | succ n ih =>
    refine belowThen (fun e => belowThen (fun red => belowIte ?_ (belowSame _)))
    exact belowThen (fun p => belowThen (fun g => belowThen (fun r => ih _ _)))

theorem removeColorGrows (s : Rb) (parent elm : Option Nat) : Grows (removeColor live · s parent elm) := by
  intro n
  induction n generalizing s parent elm with
  | zero => exact belowError _ _
  | succ n ih =>
    refine belowThen (fun black => belowIte ?_ (belowSame _))
    refine belowThen (fun p => belowThen (fun r => belowThen (fun t => belowThen (fun both => ?_))))
    exact belowIte (belowThen (fun s => belowThen (fun p => ih _ _ _))) (belowSame _)

end Loops

section Macros
variable (live : Nat → Bool) (cmp : Nat → Int) (s : Rb) (elm : Option Nat)

theorem rbMinGrows : Grows (rbMin live · s) := minmaxGrows live s none s.root

theorem rbFindGrows : Grows (rbFind live cmp · s) :=
  fun n => belowBind (searchGrows live cmp s none s.root 0 n) (fun _ => belowSame _)

theorem rbNextGrows : Grows (rbNext live · s elm) := by
  have rest (n : Nat) (e : RbEntry) (fromLeft : Bool) : Below (if fromLeft then .ok e.parent else ascend live n s elm)
      (if fromLeft then .ok e.parent else ascend live (n + 1) s elm) :=
    belowIte (belowSame _) (ascendGrows live s elm n)
  refine fun n => belowThen (fun e => belowIte (leftmostGrows live s _ n) (belowIte ?_ ?_))
  · exact belowThen (rest n e)
  · exact belowThen (fun p => belowThen (rest n e))

theorem rbInsertGrows : Grows (rbInsert live cmp · s elm) := by
  refine fun n => belowBind (searchGrows live cmp s none s.root 0 n) (fun found => ?_)
  cases found with
  | equal p => exact belowSame _
  | absent parent comp =>
    exact belowThen (fun s => belowBind (insertColorGrows live s elm n) (fun _ => belowSame _))

theorem rbRemoveGrows : Grows (rbRemove live · s elm) := by
  refine fun n => belowThen (fun e => belowIte ?_ ?_)
  · exact belowThen (fun s => belowIte (removeColorGrows live s _ _ n) (belowSame _))
  · refine belowBind (leftmostGrows live s _ n) (fun elm => belowThen (fun m => belowThen (fun s => ?_)))
    refine belowThen (fun e => belowThen (fun s => belowIte ?_ ?_))
    · exact belowBind (climbGrows live s _ n) (fun _ => belowIte (removeColorGrows live s _ _ n) (belowSame _))
    · exact belowIte (removeColorGrows live s _ _ n) (belowSame _)

end Macros

section Holds
variable {live : Nat → Bool} {cmp : Nat → Int} {s : Rb} {nodes : List Nat} {a : Nat}

def rounds (n : Nat) : Nat := 2 * (n + 1).log2

theorem roundsRoom (nodes : List Nat) : Room nodes (rounds nodes.length + 1) := roomLog (Nat.lt_succ_self _)

theorem rbMinSettles (holds : Holds live s nodes) : Settles (rbMin live · s) (rounds nodes.length) :=
  settlesGrows (rbMinGrows live s) (rbMinHolds holds (roundsRoom nodes))

theorem rbFindSettles (holds : Holds live s nodes) (sided : Sided cmp nodes) :
    Settles (rbFind live cmp · s) (rounds nodes.length) := by
  rcases rbFindHolds holds sided (roundsRoom nodes) with ⟨a,_,_,found⟩ | ⟨_,found⟩
  · exact settlesGrows (rbFindGrows live cmp s) found
  · exact settlesGrows (rbFindGrows live cmp s) found

theorem rbNextSettles (holds : Holds live s nodes) (mem : a ∈ nodes) :
    Settles (rbNext live · s (some a)) (rounds nodes.length) := by
  obtain ⟨front,back,rfl⟩ := List.append_of_mem mem
  exact settlesGrows (rbNextGrows live s (some a)) (rbNextHolds holds (roundsRoom _))

theorem rbInsertSettles (holds : Holds live s nodes) (sided : Sided cmp nodes) (alive : live a = true)
    (fresh : a ∉ nodes) : Settles (rbInsert live cmp · s (some a)) (rounds nodes.length) := by
  rcases rbInsertHolds holds sided alive fresh (roundsRoom nodes) with ⟨_,_,_,ran⟩ | ⟨_,_,_,ran,_⟩
  · exact settlesGrows (rbInsertGrows live cmp s (some a)) ran
  · exact settlesGrows (rbInsertGrows live cmp s (some a)) ran

theorem rbRemoveSettles (holds : Holds live s nodes) (mem : a ∈ nodes) :
    Settles (rbRemove live · s (some a)) (rounds nodes.length) := by
  obtain ⟨front,back,rfl⟩ := List.append_of_mem mem
  obtain ⟨_,ran,_⟩ := rbRemoveHolds holds (roundsRoom _)
  exact settlesGrows (rbRemoveGrows live s (some a)) ran

end Holds

end Qtl.RbTree
