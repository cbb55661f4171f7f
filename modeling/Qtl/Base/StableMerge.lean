import Qtl.Base.StableOrder
import Qtl.Base.Trace
import Mathlib.Logic.Function.Basic

/-! Merging sources of timed items in time order. The sources wait in a stably ordered
line; the first delivers its next item and rejoins the line at the time of the item
after that. A final item closes its source. A source that is out of items without
having been closed stays in front, so nothing is delivered past it. -/
namespace Qtl.Base.StableMerge
open StableOrder Trace

variable {κ ι ε : Type} [LinearOrder κ]

structure State (κ ι ε : Type) where
  line : List (κ × ι)
  rest : ι → List ε

-- `alone` marks an item after which no source is left in line.
structure Delivery (ι ε : Type) where
  source : ι
  item : ε
  alone : Bool

def rejoin (time : ε → κ) (key : κ) (i : ι) (items : List ε) (line : List (κ × ι)) : List (κ × ι) :=
  match items with
  | [] => (key,i) :: line
  | e :: _ => enter (time e,i) line

theorem rejoinPerm {time : ε → κ} {key : κ} {i : ι} {items : List ε} {line : List (κ × ι)} :
    ((rejoin time key i items line).map Prod.snd).Perm (i :: line.map Prod.snd) := by
  cases items with
  | nil => exact .rfl
  | cons e more => exact (enterPerm (time e,i) line).map Prod.snd

theorem rejoinSome {time : ε → κ} {key : κ} {i : ι} {items : List ε} {line : List (κ × ι)} :
    rejoin time key i items line ≠ [] := by
  intro empty
  have size := (empty ▸ rejoinPerm : List.Perm ([].map Prod.snd) (i :: line.map Prod.snd)).length_eq
  simp at size

def lineAfter (time : ε → κ) (final : ε → Bool) (key : κ) (i : ι) (e : ε) (more : List ε)
    (line : List (κ × ι)) : List (κ × ι) :=
  if final e then line else rejoin time key i more line

section Deliver
variable [DecidableEq ι]

def deliver (time : ε → κ) (final : ε → Bool) (s : State κ ι ε) : Option (Delivery ι ε × State κ ι ε) :=
  match s.line with
  | [] => none
  | (key,i) :: line => match s.rest i with
    | [] => none
    | e :: more =>
        let line := lineAfter time final key i e more line
        some (⟨i,e,line.isEmpty⟩,⟨line,Function.update s.rest i more⟩)

def Step (time : ε → κ) (final : ε → Bool) (s : State κ ι ε) (d : Delivery ι ε) (s' : State κ ι ε) : Prop :=
  deliver time final s = some (d,s')

def sources (s : State κ ι ε) : List ι := s.line.map Prod.snd

def itemsOf (i : ι) (trace : List (Delivery ι ε)) : List ε :=
  (trace.filter (·.source = i)).map Delivery.item

variable {time : ε → κ} {final : ε → Bool} {s s' : State κ ι ε} {d : Delivery ι ε}
  {trace : List (Delivery ι ε)} {i : ι} {key : κ} {more : List ε} {line : List (κ × ι)}

theorem stepCases (step : Step time final s d s') : ∃ key more line,
    s.line = (key,d.source) :: line ∧ s.rest d.source = d.item :: more ∧
    s'.line = lineAfter time final key d.source d.item more line ∧
    s'.rest = Function.update s.rest d.source more ∧ d.alone = s'.line.isEmpty := by
  unfold Step deliver at step
  split at step
  · cases step
  · rename_i key i line front
    split at step
    · cases step
    · rename_i e more items
      cases step
      exact ⟨key,more,line,front,items,rfl,rfl,rfl⟩

theorem stepFront {e : ε} (front : s.line = (key,i) :: line) (items : s.rest i = e :: more) :
    Step time final s ⟨i,e,(lineAfter time final key i e more line).isEmpty⟩
      ⟨lineAfter time final key i e more line,Function.update s.rest i more⟩ := by
  simp only [Step,deliver,front,items]

theorem stepDeterministic : Deterministic (Step (ι := ι) time final) := by
  intro s d d' s₁ s₂ h h'
  cases h.symm.trans h'
  exact ⟨rfl,rfl⟩

theorem aloneFinal (step : Step time final s d s') (alone : d.alone = true) : final d.item = true := by
  obtain ⟨key,more,line,_,_,after,_,flag⟩ := stepCases step
  rw [flag,List.isEmpty_iff,after,lineAfter] at alone
  split at alone
  · assumption
  · exact absurd alone rejoinSome

theorem runConserves (run : Run (Step time final) s trace s') (i : ι) :
    itemsOf i trace ++ s'.rest i = s.rest i := by
  induction run with
  | nil => rfl
  | @snoc _ _ d _ before last ih =>
    obtain ⟨key,more,line,_,items,_,rest,_⟩ := stepCases last
    rw [← ih,itemsOf,List.filter_append,List.map_append,rest,← itemsOf,List.append_assoc]
    congr 1
    by_cases same : i = d.source
    · rw [same,Function.update_self,items]
      simp
    · rw [Function.update_of_ne same]
      simp [Ne.symm same]

theorem sourcesStep (step : Step time final s d s') : (sources s).Perm
    (if final d.item then d.source :: sources s' else sources s') := by
  obtain ⟨key,more,line,front,_,after,_,_⟩ := stepCases step
  rw [sources,sources,front,after,lineAfter]
  split
  · exact .rfl
  · exact rejoinPerm.symm

theorem runSources (run : Run (Step time final) s trace s') :
    sources s' ⊆ sources s ∧ ∀ d ∈ trace, d.source ∈ sources s := by
  induction run with
  | nil => exact ⟨fun _ mem => mem,by simp⟩
  | @snoc _ s₁ d _ before last ih =>
    obtain ⟨inside,past⟩ := ih
    obtain ⟨key,more,line,front,_⟩ := stepCases last
    refine ⟨fun i mem => inside ((sourcesStep last).mem_iff.mpr ?_),fun x mem => ?_⟩
    · split
      · exact List.mem_cons_of_mem _ mem
      · exact mem
    · rcases List.mem_append.mp mem with mem | mem
      · exact past x mem
      · cases List.mem_singleton.mp mem
        exact inside (by rw [sources,front]; exact List.mem_cons_self)

theorem runAloneFinal (run : Run (Step time final) s trace s') :
    ∀ d ∈ trace, d.alone = true → final d.item = true := by
  induction run with
  | nil => simp
  | snoc before last ih =>
    intro d mem alone
    rcases List.mem_append.mp mem with mem | mem
    · exact ih d mem alone
    · cases List.mem_singleton.mp mem
      exact aloneFinal last alone

section Timely

structure Timely (time : ε → κ) (s : State κ ι ε) : Prop where
  sorted : Sorted s.line
  next : ∀ p ∈ s.line, ∀ e ∈ (s.rest p.2).head?, time e = p.1
  once : (sources s).Nodup
  monotone : ∀ i ∈ sources s, (s.rest i).Pairwise (fun a b => time a ≤ time b)

theorem sourcesOnce (timely : Timely time s) (step : Step time final s d s') : (sources s').Nodup := by
  have once := (sourcesStep step).nodup_iff.mp timely.once
  split at once
  · exact (List.nodup_cons.mp once).2
  · exact once

theorem timelyStep (timely : Timely time s) (step : Step time final s d s') :
    Timely time s' ∧ ∀ p ∈ s'.line, time d.item ≤ p.1 := by
  obtain ⟨key,more,line,front,items,after,rest,_⟩ := stepCases step
  have once := timely.once
  have now : time d.item = key :=
    timely.next (key,d.source) (by rw [front]; exact List.mem_cons_self) d.item (by simp [items])
  rw [sources,front,List.map_cons,List.nodup_cons] at once
  have sorted := timely.sorted
  rw [front] at sorted
  obtain ⟨first,later⟩ := List.pairwise_cons.mp sorted
  have other (p : κ × ι) (mem : p ∈ line) : p.2 ≠ d.source :=
    fun same => once.1 (List.mem_map.mpr ⟨p,mem,same⟩)
  have inLine (p : κ × ι) (mem : p ∈ line) : p ∈ s.line := by rw [front]; exact List.mem_cons_of_mem _ mem
  have stays (p : κ × ι) (mem : p ∈ line) : ∀ e ∈ (s'.rest p.2).head?, time e = p.1 := by
    rw [rest,Function.update_of_ne (other p mem)]
    exact timely.next p (inLine p mem)
  have tail : (d.item :: more).Pairwise (fun a b => time a ≤ time b) := by
    rw [← items]
    exact timely.monotone _ (by rw [sources,front]; exact List.mem_cons_self)
  have shrink (i : ι) (mem : i ∈ sources s') : i ∈ sources s := by
    refine (sourcesStep step).mem_iff.mpr ?_
    split
    · exact List.mem_cons_of_mem _ mem
    · exact mem
  have monotone : ∀ i ∈ sources s', (s'.rest i).Pairwise (fun a b => time a ≤ time b) := by
    intro i mem
    rw [rest]
    by_cases same : i = d.source
    · subst same
      rw [Function.update_self]
      exact (List.pairwise_cons.mp tail).2
    · rw [Function.update_of_ne same]
      exact timely.monotone i (shrink i mem)
  have once' := sourcesOnce timely step
  rw [lineAfter] at after
  split at after
  · refine ⟨⟨after ▸ later,fun p mem => stays p (after ▸ mem),once',monotone⟩,fun p mem => ?_⟩
    rw [now]
    exact first p (after ▸ mem)
  · cases more with
    | nil =>
      change s'.line = (key,d.source) :: line at after
      refine ⟨⟨after ▸ sorted,fun p mem => ?_,once',monotone⟩,fun p mem => ?_⟩
      · rcases List.mem_cons.mp (after ▸ mem) with rfl | mem
        · rw [rest,Function.update_self]
          simp
        · exact stays p mem
      · rw [now]
        rcases List.mem_cons.mp (after ▸ mem) with rfl | mem
        · exact le_refl _
        · exact first p mem
    | cons e more =>
      change s'.line = enter (time e,d.source) line at after
      refine ⟨⟨after ▸ enterSorted later,fun p mem => ?_,once',monotone⟩,fun p mem => ?_⟩
      · rcases memEnter.mp (after ▸ mem) with rfl | mem
        · rw [rest,Function.update_self]
          simp
        · exact stays p mem
      · rcases memEnter.mp (after ▸ mem) with rfl | mem
        · exact (List.pairwise_cons.mp tail).1 e List.mem_cons_self
        · rw [now]
          exact first p mem

theorem runTimely (timely : Timely time s) (run : Run (Step time final) s trace s') :
    trace.Pairwise (fun a b => time a.item ≤ time b.item) ∧ Timely time s' ∧
    ∀ d ∈ trace, ∀ p ∈ s'.line, time d.item ≤ p.1 := by
  induction run with
  | nil => exact ⟨.nil,timely,by simp⟩
  | @snoc _ s₁ d _ before last ih =>
    obtain ⟨ordered,timely',ahead⟩ := ih
    obtain ⟨timely'',behind⟩ := timelyStep timely' last
    obtain ⟨key,more,line,front,items,_⟩ := stepCases last
    have first : (key,d.source) ∈ s₁.line := by rw [front]; exact List.mem_cons_self
    have now : time d.item = key := timely'.next _ first d.item (by simp [items])
    have past (x : Delivery ι ε) (mem : x ∈ _) : time x.item ≤ time d.item := (ahead x mem _ first).trans_eq now.symm
    refine ⟨List.pairwise_append.mpr ⟨ordered,List.pairwise_singleton ..,fun a ha b hb => ?_⟩,timely'',?_⟩
    · cases List.mem_singleton.mp hb
      exact past a ha
    · intro d mem p hp
      rcases List.mem_append.mp mem with mem | mem
      · exact (past d mem).trans (behind p hp)
      · cases List.mem_singleton.mp mem
        exact behind p hp

end Timely

section Closing

theorem aloneLast (run : Run (Step time final) s trace s') {before after : List (Delivery ι ε)}
    (whole : trace = before ++ d :: after) (alone : d.alone = true) : after = [] ∧ s'.line = [] := by
  subst whole
  rw [List.append_cons] at run
  obtain ⟨middle,upto,later⟩ := runSplit _ _ run
  obtain ⟨s₀,_,last⟩ := runSnocInv upto
  obtain ⟨_,_,_,_,_,_,_,flag⟩ := stepCases last
  have empty : middle.line = [] := by rwa [alone,eq_comm,List.isEmpty_iff] at flag
  cases after with
  | nil => exact ⟨rfl,runNilInv later ▸ empty⟩
  | cons d' after =>
    obtain ⟨s₁,first,_⟩ := runSplit [d'] after later
    obtain ⟨s₂,nothing,step⟩ := runSnocInv (show Run _ _ ([] ++ [d']) _ from first)
    obtain ⟨_,_,_,front,_⟩ := stepCases step
    rw [runNilInv nothing,empty] at front
    cases front

def Closes (final : ε → Bool) (items : List ε) : Prop :=
  ∃ body last, items = body ++ [last] ∧ final last = true ∧ ∀ e ∈ body, final e = false

theorem closesCons {e : ε} (h : Closes final (e :: more)) :
    if final e then more = [] else Closes final more := by
  obtain ⟨body,last,whole,ends,open'⟩ := h
  cases body with
  | nil =>
    cases whole
    rw [if_pos ends]
  | cons b body =>
    cases whole
    rw [if_neg (by simp [open' e List.mem_cons_self])]
    exact ⟨body,last,rfl,ends,fun x mem => open' x (List.mem_cons_of_mem _ mem)⟩

structure Open (final : ε → Bool) (s : State κ ι ε) : Prop where
  once : (sources s).Nodup
  closes : ∀ i ∈ sources s, Closes final (s.rest i)

theorem openStep (opened : Open final s) (step : Step time final s d s') : Open final s' := by
  obtain ⟨key,more,line,front,items,_,rest,_⟩ := stepCases step
  have perm := sourcesStep step
  have once := perm.nodup_iff.mp opened.once
  have own := opened.closes d.source (by rw [sources,front]; exact List.mem_cons_self)
  rw [items] at own
  have next := closesCons own
  split at next
  · rename_i ends
    rw [if_pos ends] at perm once
    obtain ⟨gone,once⟩ := List.nodup_cons.mp once
    refine ⟨once,fun i mem => ?_⟩
    rw [rest,Function.update_of_ne (fun same : i = d.source => gone (same ▸ mem))]
    exact opened.closes i (perm.mem_iff.mpr (List.mem_cons_of_mem _ mem))
  · rename_i ends
    rw [if_neg ends] at perm once
    refine ⟨once,fun i mem => ?_⟩
    rw [rest]
    by_cases same : i = d.source
    · rw [same,Function.update_self]
      exact next
    · rw [Function.update_of_ne same]
      exact opened.closes i (perm.mem_iff.mpr mem)

theorem runOpen (opened : Open final s) (run : Run (Step time final) s trace s') :
    Open final s' ∧ trace.countP (fun d => final d.item) + s'.line.length = s.line.length := by
  induction run with
  | nil => exact ⟨opened,by simp⟩
  | snoc before last ih =>
    obtain ⟨opened',count⟩ := ih
    have size := (sourcesStep last).length_eq
    refine ⟨openStep opened' last,?_⟩
    rw [List.countP_append,← count,List.countP_singleton]
    simp only [sources,List.length_map] at size
    split at size
    · rename_i ends
      rw [if_pos ends,size]
      simp only [List.length_cons,List.length_map]
      omega
    · rename_i ends
      simp only [List.length_map] at size
      rw [if_neg ends,size]
      rfl

theorem runComplete (opened : Open final s) (run : Run (Step time final) s trace s')
    (some : s.line ≠ []) (done : ∀ i ∈ sources s, s'.rest i = []) :
    s'.line = [] ∧ trace.countP (fun d => final d.item) = s.line.length ∧
    ∃ before d, trace = before ++ [d] ∧ d.alone = true ∧ final d.item = true ∧
      ∀ x ∈ before, x.alone = false := by
  obtain ⟨opened',count⟩ := runOpen opened run
  obtain ⟨inside,_⟩ := runSources run
  have empty : s'.line = [] := by
    cases line : s'.line with
    | nil => rfl
    | cons p line' =>
      have mem : p.2 ∈ sources s' := by rw [sources,line]; exact List.mem_cons_self
      obtain ⟨body,last,whole,_⟩ := opened'.closes p.2 mem
      rw [done p.2 (inside mem)] at whole
      simp at whole
  rw [empty] at count
  refine ⟨empty,by simpa using count,?_⟩
  cases trace using List.reverseRecOn with
  | nil =>
    rw [runNilInv run] at empty
    exact absurd empty some
  | append_singleton before d =>
    obtain ⟨s₁,earlier,last⟩ := runSnocInv run
    obtain ⟨_,_,_,_,_,_,_,flag⟩ := stepCases last
    rw [empty] at flag
    refine ⟨before,d,rfl,flag,aloneFinal last flag,fun x mem => ?_⟩
    cases alone : x.alone with
    | false => rfl
    | true =>
      obtain ⟨front,back,rfl⟩ := List.append_of_mem mem
      have whole : front ++ x :: back ++ [d] = front ++ x :: (back ++ [d]) := by simp
      exact absurd (aloneLast run whole alone).1 (by simp)

theorem runClosed (opened : Open final s) (run : Run (Step time final) s trace s') :
    ∀ i ∈ sources s, i ∈ sources s' ∨ s'.rest i = [] := by
  induction run with
  | nil => exact fun i mem => .inl mem
  | @snoc _ s₁ d s₂ before last ih =>
    obtain ⟨opened',_⟩ := runOpen opened before
    obtain ⟨key,more,line,front,items,_,rest,_⟩ := stepCases last
    intro i mem
    rcases ih i mem with inside | done
    · have left := (sourcesStep last).mem_iff.mp inside
      split at left
      · rename_i ends
        rcases List.mem_cons.mp left with rfl | left
        · have own := closesCons (items ▸ opened'.closes _ inside)
          rw [if_pos ends] at own
          exact .inr (by rw [rest,Function.update_self,own])
        · exact .inl left
      · exact .inl left
    · refine .inr ?_
      rw [rest,Function.update_of_ne,done]
      rintro rfl
      rw [done] at items
      cases items

theorem aloneDone (opened : Open final s) (run : Run (Step time final) s trace s')
    (alone : ∃ d ∈ trace, d.alone = true) :
    (∀ i ∈ sources s, s'.rest i = []) ∧ ∃ before d, trace = before ++ [d] ∧ d.alone = true ∧
      ∀ x ∈ before, x.alone = false := by
  obtain ⟨d,mem,alone⟩ := alone
  obtain ⟨front,back,whole⟩ := List.append_of_mem mem
  obtain ⟨rfl,empty⟩ := aloneLast run whole alone
  have done : ∀ i ∈ sources s, s'.rest i = [] := fun i inside =>
    (runClosed opened run i inside).resolve_left (by simp [sources,empty])
  have first : s.line ≠ [] := by
    intro none
    have inside := (runSources run).2 d mem
    rw [sources,none] at inside
    cases inside
  obtain ⟨_,_,before,d',same,last,_,others⟩ := runComplete opened run first done
  exact ⟨done,before,d',same,last,others⟩

theorem itemsPerm {keys : List ι} (once : keys.Nodup) (inside : ∀ d ∈ trace, d.source ∈ keys) :
    (trace.map Delivery.item).Perm (keys.flatMap (itemsOf · trace)) := by
  induction keys generalizing trace with
  | nil => simp [List.eq_nil_iff_forall_not_mem.mpr (fun d mem => List.not_mem_nil (inside d mem))]
  | cons k keys ih =>
    obtain ⟨apart,once⟩ := List.nodup_cons.mp once
    have rest : ((trace.filter (fun d => !decide (d.source = k))).map Delivery.item).Perm
        (keys.flatMap (itemsOf · (trace.filter (fun d => !decide (d.source = k))))) := ih once (fun d mem => by
      obtain ⟨mem,other⟩ := List.mem_filter.mp mem
      exact (List.mem_cons.mp (inside d mem)).resolve_left (by simpa using other))
    have same : keys.flatMap (itemsOf · (trace.filter (fun d => !decide (d.source = k)))) =
        keys.flatMap (itemsOf · trace) := by
      refine List.flatMap_congr (fun i mem => ?_)
      rw [itemsOf,itemsOf,List.filter_filter]
      congr 1
      refine List.filter_congr (fun d _ => ?_)
      have other : i ≠ k := fun same => apart (same ▸ mem)
      by_cases own : d.source = i
      · simp [own,other]
      · simp [own]
    rw [List.flatMap_cons,← same]
    have parts := (List.filter_append_perm (fun d : Delivery ι ε => decide (d.source = k)) trace).symm.map Delivery.item
    rw [List.map_append] at parts
    exact parts.trans (rest.append_left _)

end Closing
end Deliver

end Qtl.Base.StableMerge
