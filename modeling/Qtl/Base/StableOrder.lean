import Mathlib.Data.List.Sort

/-! Lists kept in key order, equal keys in order of arrival. Entering an element
places it after every element whose key is not larger. -/
namespace Qtl.Base.StableOrder

variable {κ ι : Type} [LinearOrder κ]

def Sorted (line : List (κ × ι)) : Prop := line.Pairwise (fun a b => a.1 ≤ b.1)

def enter (e : κ × ι) (line : List (κ × ι)) : List (κ × ι) :=
  line.orderedInsert (fun a b => a.1 < b.1) e

theorem enterPerm (e : κ × ι) (line : List (κ × ι)) : (enter e line).Perm (e :: line) :=
  List.perm_orderedInsert _ e line

theorem memEnter {e a : κ × ι} {line} : a ∈ enter e line ↔ a = e ∨ a ∈ line := by
  rw [(enterPerm e line).mem_iff,List.mem_cons]

theorem enterNil (e : κ × ι) : enter e [] = [e] := rfl

theorem enterBefore {e : κ × ι} {line} (after : ∀ a ∈ line, e.1 < a.1) : enter e line = e :: line := by
  cases line with
  | nil => rfl
  | cons a rest => exact if_pos (after a List.mem_cons_self)

theorem enterAppend {e : κ × ι} {front line} (before : ∀ a ∈ front, a.1 ≤ e.1) :
    enter e (front ++ line) = front ++ enter e line := by
  induction front with
  | nil => rfl
  | cons a rest ih =>
    have stay : ¬ e.1 < a.1 := not_lt.mpr (before a List.mem_cons_self)
    simp only [enter,List.cons_append,List.orderedInsert,if_neg stay]
    rw [← enter,← enter,ih (fun b mem => before b (List.mem_cons_of_mem _ mem))]

theorem enterKeeps {e : κ × ι} {front line} (after : ∀ a ∈ line, e.1 < a.1) :
    enter e (front ++ line) = enter e front ++ line := by
  induction front with
  | nil => simpa [enterNil] using enterBefore after
  | cons a rest ih =>
    simp only [enter,List.cons_append,List.orderedInsert]
    split
    · rfl
    · rw [← enter,← enter,ih]; rfl

theorem enterMap {ο : Type} (name : ι → ο) (e : κ × ι) (line : List (κ × ι)) :
    (enter e line).map (fun a => (a.1,name a.2)) =
      enter (e.1,name e.2) (line.map (fun a => (a.1,name a.2))) := by
  induction line with
  | nil => rfl
  | cons a rest ih =>
    simp only [enter,List.map_cons,List.orderedInsert]
    split
    · rfl
    · rw [List.map_cons,← enter,ih,enter]

theorem enterSorted {e : κ × ι} {line} (sorted : Sorted line) : Sorted (enter e line) := by
  induction line with
  | nil => exact List.pairwise_singleton ..
  | cons a rest ih =>
    obtain ⟨first,later⟩ := List.pairwise_cons.mp sorted
    simp only [enter,List.orderedInsert]
    split
    · rename_i less
      refine List.pairwise_cons.mpr ⟨?_,sorted⟩
      intro b mem
      rcases List.mem_cons.mp mem with rfl | mem
      · exact less.le
      · exact less.le.trans (first b mem)
    · rename_i less
      rw [← enter]
      refine List.pairwise_cons.mpr ⟨?_,ih later⟩
      intro b mem
      rcases memEnter.mp mem with rfl | mem
      · exact not_lt.mp less
      · exact first b mem

/-- `line'` is `line` with `e` entered after every element whose key is not larger. -/
def Entered (e : κ × ι) (line line' : List (κ × ι)) : Prop :=
  ∃ before after, line = before ++ after ∧ line' = before ++ e :: after ∧
    (∀ a ∈ before, a.1 ≤ e.1) ∧ ∀ a ∈ after, e.1 < a.1

theorem enterEntered (e : κ × ι) {line} (sorted : Sorted line) : Entered e line (enter e line) := by
  induction line with
  | nil => exact ⟨[],[],rfl,rfl,by simp,by simp⟩
  | cons a rest ih =>
    obtain ⟨first,later⟩ := List.pairwise_cons.mp sorted
    by_cases less : e.1 < a.1
    · have above : ∀ b ∈ a :: rest, e.1 < b.1 := by
        intro b mem
        rcases List.mem_cons.mp mem with rfl | mem
        · exact less
        · exact less.trans_le (first b mem)
      exact ⟨[],a :: rest,rfl,enterBefore above,by simp,above⟩
    · obtain ⟨before,after,split,entered,below,above⟩ := ih later
      have step : enter e (a :: rest) = a :: enter e rest := if_neg less
      refine ⟨a :: before,after,by rw [split]; rfl,by rw [step,entered]; rfl,?_,above⟩
      intro b mem
      rcases List.mem_cons.mp mem with rfl | mem
      · exact not_lt.mp less
      · exact below b mem

theorem enterFilter (e : κ × ι) {line} (sorted : Sorted line) (k : κ) :
    (enter e line).filter (·.1 = k) = (line ++ [e]).filter (·.1 = k) := by
  induction line with
  | nil => rfl
  | cons a rest ih =>
    obtain ⟨first,later⟩ := List.pairwise_cons.mp sorted
    simp only [enter,List.orderedInsert]
    split
    · rename_i less
      by_cases same : e.1 = k
      · -- everything from `a` on has a larger key, so the filter sees only `e`
        have none : (a :: rest).filter (·.1 = k) = [] := by
          refine List.filter_eq_nil_iff.mpr ?_
          intro b mem
          have above : e.1 < b.1 := by
            rcases List.mem_cons.mp mem with rfl | mem
            · exact less
            · exact less.trans_le (first b mem)
          simpa using fun h => (same ▸ above).ne' h
        rw [List.filter_cons_of_pos (by simpa using same),List.filter_append,none]
        simp [same]
      · rw [List.filter_cons_of_neg (by simpa using same),List.filter_append]
        simp [same]
    · rw [← enter]
      have tail := ih later
      by_cases same : a.1 = k <;> simp only [List.cons_append,List.filter_cons,same,tail]

/-- `line'` is `line` stably sorted: the same elements in key order, equal keys in
the order of `line`. -/
structure StablySorted (line line' : List (κ × ι)) : Prop where
  perm : line'.Perm line
  sorted : Sorted line'
  stable : ∀ k, line'.filter (·.1 = k) = line.filter (·.1 = k)

theorem stablySortedNil : StablySorted ([] : List (κ × ι)) [] := ⟨.nil,.nil,fun _ => rfl⟩

theorem stablySortedEnter {line line' : List (κ × ι)} (h : StablySorted line line') (e : κ × ι) :
    StablySorted (line ++ [e]) (enter e line') where
  perm := (enterPerm e line').trans
    ((h.perm.cons e).trans (List.perm_append_singleton e line).symm)
  sorted := enterSorted h.sorted
  stable := by
    intro k
    rw [enterFilter e h.sorted,List.filter_append,List.filter_append,h.stable]

end Qtl.Base.StableOrder
