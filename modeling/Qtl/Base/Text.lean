import Mathlib.Algebra.Ring.Nat
import Mathlib.Data.List.Range

/-! Byte strings in memory, the writes that lay them out, and decimal digits. -/
namespace Qtl.Base.Text

section Placed

def Placed (memory : Nat → UInt8) (i : Nat) (xs : List UInt8) : Prop :=
  ∀ k (inside : k < xs.length), memory (i + k) = xs[k]

variable {memory : Nat → UInt8} {i : Nat} {xs ys : List UInt8}

@[simp] theorem placedNil : Placed memory i [] := nofun

@[simp] theorem placedCons {b : UInt8} : Placed memory i (b :: xs) ↔ memory i = b ∧ Placed memory (i + 1) xs := by
  have shift (k : Nat) : i + 1 + k = i + (k + 1) := by omega
  refine ⟨fun h => ⟨h 0 (Nat.succ_pos _),fun k inside => ?_⟩,fun ⟨first,later⟩ k inside => ?_⟩
  · rw [shift]
    exact h (k + 1) (Nat.succ_lt_succ inside)
  · cases k with
    | zero => exact first
    | succ k =>
      rw [← shift]
      exact later k (Nat.lt_of_succ_lt_succ inside)

theorem placedAppend : Placed memory i (xs ++ ys) ↔ Placed memory i xs ∧ Placed memory (i + xs.length) ys := by
  induction xs generalizing i with
  | nil => simp
  | cons b rest ih =>
    have next : i + 1 + rest.length = i + (b :: rest).length := by rw [List.length_cons]; omega
    rw [List.cons_append,placedCons,placedCons,ih,next,and_assoc]

theorem rangeMap {n : Nat} : (List.range n).map memory = xs ↔ xs.length = n ∧ Placed memory 0 xs := by
  constructor
  · rintro rfl
    exact ⟨by simp,fun k inside => by simp⟩
  · rintro ⟨rfl,placed⟩
    refine List.ext_getElem (by simp) (fun k _ inside => ?_)
    have same := placed k inside
    rw [Nat.zero_add] at same
    simpa using same

def Terminated (memory : Nat → UInt8) (n : Nat) : Prop := memory n = 0 ∧ ∀ k < n, memory k ≠ 0

theorem terminatedUnique {n m : Nat} (h : Terminated memory n) (h' : Terminated memory m) : n = m := by
  rcases Nat.lt_trichotomy n m with less | same | less
  · exact absurd h.1 (h'.2 n less)
  · exact same
  · exact absurd h'.1 (h.2 m less)

theorem placedTerminated (placed : Placed memory 0 (xs ++ [0])) (bytes : 0 ∉ xs) :
    Terminated memory xs.length := by
  obtain ⟨front,last⟩ := placedAppend.mp placed
  refine ⟨?_,fun k inside => ?_⟩
  · have here := (placedCons.mp last).1
    rwa [Nat.zero_add] at here
  · have here := front k inside
    rw [Nat.zero_add] at here
    rw [here]
    exact fun zero => bytes (zero ▸ List.getElem_mem inside)

end Placed

section Writes

abbrev Write := Nat × UInt8

def write (memory : Nat → UInt8) (w : Write) : Nat → UInt8 := fun i => if i = w.1 then w.2 else memory i

def applyWrites (memory : Nat → UInt8) (ws : List Write) : Nat → UInt8 := ws.foldl write memory

def laid : Nat → List UInt8 → List Write
  | _, [] => []
  | i, b :: rest => (i,b) :: laid (i + 1) rest

variable {memory : Nat → UInt8} {ws : List Write} {i : Nat} {b : UInt8} {xs ys : List UInt8}

theorem applyWritesOutside (apart : i ∉ ws.map Prod.fst) : applyWrites memory ws i = memory i := by
  induction ws generalizing memory with
  | nil => rfl
  | cons w rest ih =>
    rw [List.map_cons,List.mem_cons,not_or] at apart
    exact (ih apart.2).trans (if_neg apart.1)

theorem applyWritesMem (apart : (ws.map Prod.fst).Nodup) (mem : (i,b) ∈ ws) : applyWrites memory ws i = b := by
  induction ws generalizing memory with
  | nil => cases mem
  | cons w rest ih =>
    rw [List.map_cons,List.nodup_cons] at apart
    rcases List.mem_cons.mp mem with rfl | mem
    · exact (applyWritesOutside apart.1).trans (if_pos rfl)
    · exact ih apart.2 mem

theorem laidAppend : laid i (xs ++ ys) = laid i xs ++ laid (i + xs.length) ys := by
  induction xs generalizing i with
  | nil => rfl
  | cons b rest ih =>
    have next : i + 1 + rest.length = i + (b :: rest).length := by rw [List.length_cons]; omega
    rw [List.cons_append,laid,ih,next]
    rfl

theorem laidPositions : (laid i xs).map Prod.fst = List.range' i xs.length := by
  induction xs generalizing i with
  | nil => rfl
  | cons b rest ih => rw [laid,List.map_cons,ih,List.length_cons,List.range'_succ]

theorem laidMem {k : Nat} (inside : k < xs.length) : (i + k,xs[k]) ∈ laid i xs := by
  induction xs generalizing i k with
  | nil => cases inside
  | cons b rest ih =>
    cases k with
    | zero => exact List.mem_cons_self
    | succ k =>
      have room : k < rest.length := Nat.lt_of_succ_lt_succ inside
      have later : (i + 1 + k,rest[k]) ∈ laid (i + 1) rest := ih room
      rw [show i + 1 + k = i + (k + 1) by omega] at later
      exact List.mem_cons_of_mem _ later

theorem permPlaced (perm : ws.Perm (laid i xs)) : Placed (applyWrites memory ws) i xs := by
  have apart : (ws.map Prod.fst).Nodup := by
    rw [(perm.map Prod.fst).nodup_iff,laidPositions]
    exact List.nodup_range'
  exact fun k inside => applyWritesMem apart (perm.mem_iff.mpr (laidMem inside))

end Writes

section Decimal

def digitByte (d : Nat) : UInt8 := 48 + UInt8.ofNat d

def digitOf (b : UInt8) : Nat := (b - 48).toNat

theorem digitOfByte {d : Nat} (small : d ≤ 9) : digitOf (digitByte d) = d := by
  have same : digitByte d - 48 = UInt8.ofNat d := by
    rw [digitByte,UInt8.add_comm,UInt8.add_sub_cancel]
  rw [digitOf,same]
  exact UInt8.toNat_ofNat_of_lt (Nat.lt_of_le_of_lt small (by decide))

theorem digitByteNonzero {d : Nat} (small : d ≤ 9) : digitByte d ≠ 0 := by
  intro zero
  have same := digitOfByte small
  rw [zero] at same
  subst same
  exact absurd small (by decide)

theorem byteOfDigit (b : UInt8) : digitByte (digitOf b) = b := by
  rw [digitByte,digitOf,UInt8.ofNat_toNat,UInt8.add_comm,UInt8.sub_add_cancel]

theorem digitIff {b : UInt8} {d : Nat} (small : d ≤ 9) : b = digitByte d ↔ digitOf b = d :=
  ⟨fun h => h ▸ digitOfByte small,fun h => h ▸ (byteOfDigit b).symm⟩

def digits : (width n : Nat) → List Nat
  | 0, _ => []
  | width + 1, n => digits width (n / 10) ++ [n % 10]

def digitText (width n : Nat) : List UInt8 := (digits width n).map digitByte

def ofDigits (ds : List Nat) : Nat := ds.foldl (fun n d => n * 10 + d) 0

theorem ofDigitsSnoc (ds : List Nat) (d : Nat) : ofDigits (ds ++ [d]) = ofDigits ds * 10 + d := by
  simp [ofDigits]

@[simp] theorem digitsLength (width n : Nat) : (digits width n).length = width := by
  induction width generalizing n with
  | zero => rfl
  | succ width ih => simp [digits,ih]

@[simp] theorem digitTextLength (width n : Nat) : (digitText width n).length = width := by simp [digitText]

theorem digitsSmall {width n d : Nat} (mem : d ∈ digits width n) : d ≤ 9 := by
  induction width generalizing n with
  | zero => cases mem
  | succ width ih =>
    rcases List.mem_append.mp mem with mem | mem
    · exact ih mem
    · cases List.mem_singleton.mp mem
      omega

theorem ofDigitsDigits {width n : Nat} (bound : n < 10 ^ width) : ofDigits (digits width n) = n := by
  induction width generalizing n with
  | zero =>
    cases Nat.lt_one_iff.mp bound
    rfl
  | succ width ih =>
    rw [digits,ofDigitsSnoc,ih (by rw [Nat.pow_succ] at bound; omega)]
    omega

theorem ofDigitsBound {ds : List Nat} (small : ∀ d ∈ ds, d ≤ 9) : ofDigits ds < 10 ^ ds.length := by
  induction ds using List.reverseRecOn with
  | nil => exact Nat.one_pos
  | append_singleton ds d ih =>
    have front := ih (fun x mem => small x (List.mem_append_left _ mem))
    have last := small d (by simp)
    rw [ofDigitsSnoc,List.length_append,List.length_singleton,Nat.pow_succ]
    omega

end Decimal

end Qtl.Base.Text
