import Qtl.EventRef

/-! The reference counts of many events against the number of holders each of them has.
Events are numbered in the order of their event_init. -/
namespace Qtl.EventHolders
open EventRef

structure CellOk (c : RefCell) (holders : Nat) : Prop where
  few : holders < ushortRange
  ref : c.freed = false → c.ref = holders
  freed : c.freed = true ↔ holders = 0

structure Accounted (cells : Nat → RefCell) (next : Nat) (holders : Nat → Nat) : Prop where
  cells : ∀ x, x < next → CellOk (cells x) (holders x)
  fresh : ∀ x, next ≤ x → holders x = 0

def OneMore (x : Nat) (h h' : Nat → Nat) : Prop := ∀ y, h' y = h y + if y = x then 1 else 0

variable {c : RefCell} {cells cells' : Nat → RefCell} {next next' x k : Nat} {h h' : Nat → Nat}

theorem oneMoreHere (more : OneMore x h h') : h' x = h x + 1 := by rw [more x,if_pos rfl]

theorem oneMoreOther (more : OneMore x h h') {y : Nat} (other : y ≠ x) : h' y = h y := by
  rw [more y,if_neg other,Nat.add_zero]

theorem oneMoreUpdate (h : Nat → Nat) (x : Nat) : OneMore x h (Function.update h x (h x + 1)) := by
  intro y
  by_cases same : y = x
  · subst same
    rw [Function.update_self,if_pos rfl]
  · rw [Function.update_of_ne same,if_neg same,Nat.add_zero]

theorem oneLessUpdate (held : 0 < h x) : OneMore x (Function.update h x (h x - 1)) h := by
  intro y
  by_cases same : y = x
  · subst same
    rw [Function.update_self,if_pos rfl]
    omega
  · rw [Function.update_of_ne same,if_neg same,Nat.add_zero]

theorem initOk : CellOk eventInit 1 := ⟨by decide,fun _ => rfl,by simp [eventInit]⟩

theorem cellUnfreed (ok : CellOk c k) (held : 0 < k) : c.freed = false ∧ c.ref = k := by
  have used : c.freed = false := by
    rw [← Bool.not_eq_true,ok.freed]
    omega
  exact ⟨used,ok.ref used⟩

theorem refOk (ok : CellOk c k) (held : 0 < k) (room : k + 1 < ushortRange) : CellOk (eventRef c).1 (k + 1) := by
  obtain ⟨used,count⟩ := cellUnfreed ok held
  refine ⟨room,fun _ => ?_,by simp [eventRef,used]⟩
  change (c.ref + 1) % ushortRange = k + 1
  rw [count,Nat.mod_eq_of_lt room]

theorem unrefOk (ok : CellOk c (k + 1)) : CellOk (eventUnref c).1 k := by
  obtain ⟨used,count⟩ := cellUnfreed ok k.succ_pos
  have few := ok.few
  have left : (k + 1 + ushortRange - 1) % ushortRange = k := by
    rw [show k + 1 + ushortRange - 1 = k + ushortRange by omega,Nat.add_mod_right,Nat.mod_eq_of_lt (by omega)]
  simp only [eventUnref,fetchSub,count,left,release]
  split
  · rename_i last
    cases Nat.succ.inj last
    exact ⟨by decide,nofun,by simp⟩
  · rename_i more
    have some : k ≠ 0 := fun none => more (by rw [none])
    exact ⟨by omega,fun _ => rfl,by simp [used,some]⟩

theorem cellLost (ok : CellOk c (k + 1)) : ¬ CellOk c k := by
  intro ok'
  obtain ⟨used,count⟩ := cellUnfreed ok k.succ_pos
  have count' := ok'.ref used
  omega

theorem accountedKnown (ok : Accounted cells next h) (held : 0 < h x) : x < next := by
  by_contra beyond
  have none := ok.fresh x (by omega)
  omega

theorem accountedUpdate (ok : Accounted cells next h) (known : x < next) (here : CellOk c (h' x))
    (others : ∀ y, y ≠ x → h' y = h y) : Accounted (Function.update cells x c) next h' := by
  refine ⟨fun y below => ?_,fun y beyond => ?_⟩
  · by_cases same : y = x
    · subst same
      rw [Function.update_self]
      exact here
    · rw [Function.update_of_ne same,others y same]
      exact ok.cells y below
  · rw [others y (by omega)]
    exact ok.fresh y beyond

theorem accountedMade (ok : Accounted cells next h) (more : OneMore next h h') :
    Accounted (Function.update cells next eventInit) (next + 1) h' := by
  refine ⟨fun y below => ?_,fun y beyond => ?_⟩
  · by_cases same : y = next
    · subst same
      rw [Function.update_self,oneMoreHere more,ok.fresh y le_rfl]
      exact initOk
    · rw [Function.update_of_ne same,oneMoreOther more same]
      exact ok.cells y (by omega)
  · rw [oneMoreOther more (by omega)]
    exact ok.fresh y (by omega)

theorem accountedRef (ok : Accounted cells next h) (held : 0 < h x) (room : h x + 1 < ushortRange)
    (more : OneMore x h h') : Accounted (Function.update cells x (eventRef (cells x)).1) next h' := by
  have known := accountedKnown ok held
  refine accountedUpdate ok known ?_ (fun y other => oneMoreOther more other)
  rw [oneMoreHere more]
  exact refOk (ok.cells x known) held room

theorem accountedUnref (ok : Accounted cells next h) (less : OneMore x h' h) :
    Accounted (Function.update cells x (eventUnref (cells x)).1) next h' := by
  have one := oneMoreHere less
  have known := accountedKnown ok (x := x) (by omega)
  refine accountedUpdate ok known (unrefOk ?_) (fun y other => (oneMoreOther less other).symm)
  rw [← one]
  exact ok.cells x known

-- free without event_unref.
theorem accountedFree (ok : Accounted cells next h) (less : OneMore x h' h) :
    Accounted (Function.update cells x {cells x with freed := true}) next h' ↔ (cells x).ref = 1 := by
  have one := oneMoreHere less
  have known := accountedKnown ok (x := x) (by omega)
  have here := ok.cells x known
  have count := (cellUnfreed here (by omega)).2
  refine ⟨fun ok' => ?_,fun single => ?_⟩
  · have gone := (ok'.cells x known).freed
    rw [Function.update_self] at gone
    have none := gone.mp rfl
    omega
  · have none : h' x = 0 := by omega
    refine accountedUpdate ok known ⟨?_,nofun,?_⟩ (fun y other => (oneMoreOther less other).symm)
    · rw [none]
      decide
    · simp [none]

theorem accountedLost (ok : Accounted cells next h) (one : h x = h' x + 1) (same : cells' x = cells x)
    (grown : next ≤ next') : ¬ Accounted cells' next' h' := by
  intro ok'
  have known := accountedKnown ok (x := x) (by omega)
  have here := ok.cells x known
  rw [one,← same] at here
  exact cellLost here (ok'.cells x (by omega))

end Qtl.EventHolders
