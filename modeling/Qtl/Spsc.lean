import Mathlib.Algebra.Ring.Int.Defs
import Mathlib.Algebra.Ring.Nat
import Qtl.Base.Window

/-! The ring of spsc_queue.c as each call computes it when nothing interleaves.
Positions are unsigned 32-bit values. The live items are the cells from the read
position up to the write position; the remaining cells keep whatever malloc or an
earlier write left there. -/
namespace Qtl.Spsc
open Base.Window

def uintRange : Nat := 2^32

structure SpscQueue (α : Type) where
  capacity : Nat
  records : Nat → α
  readPos : Nat
  writePos : Nat

variable {α : Type}

-- `none` is the return of -1; the assertion on the size rejects the same way.
def spscQueueInit (memory : Option (Nat → α)) (size : Nat) : Option (SpscQueue α) :=
  if 2 ≤ size then memory.map (fun records => ⟨size,records,0,0⟩) else none

def nextRecord (q : SpscQueue α) (current : Nat) : Nat :=
  let next := (current + 1) % uintRange
  if next = q.capacity then 0 else next

def spscQueueWrite (q : SpscQueue α) (e : α) : SpscQueue α × Bool :=
  let currentWrite := q.writePos
  let next := nextRecord q currentWrite
  if next ≠ q.readPos then
    ({q with records := Function.update q.records currentWrite e, writePos := next},true)
  else (q,false)

def spscQueueRead (q : SpscQueue α) : SpscQueue α × Option α :=
  let currentRead := q.readPos
  if currentRead = q.writePos then (q,none)
  else ({q with readPos := nextRecord q currentRead},some (q.records currentRead))

def spscQueuePeek (q : SpscQueue α) : Option α :=
  let currentRead := q.readPos
  if currentRead = q.writePos then none else some (q.records currentRead)

def spscQueueIsEmpty (q : SpscQueue α) : Bool := q.readPos == q.writePos

def spscQueueIsFull (q : SpscQueue α) : Bool := nextRecord q q.writePos == q.readPos

/- spsc_queue_size on the two positions it loaded. The difference is an unsigned one,
stored in an int; adding the capacity converts to unsigned and back. -/
def sizeBetween (capacity readPos writePos : Nat) : Nat :=
  let toInt (x : Int) : Int := (x % uintRange).bmod uintRange
  let ret := toInt (writePos - readPos)
  let ret := if ret < 0 then toInt (ret + capacity) else ret
  (ret % uintRange).toNat

def spscQueueSize (q : SpscQueue α) : Nat := sizeBetween q.capacity q.readPos q.writePos

structure Ok (q : SpscQueue α) : Prop where
  two : 2 ≤ q.capacity
  fits : q.capacity < uintRange
  readLt : q.readPos < q.capacity
  writeLt : q.writePos < q.capacity

def live (q : SpscQueue α) : List α := window q.capacity q.records q.readPos q.writePos

theorem initOk {memory : Option (Nat → α)} {size q} (fits : size < uintRange)
    (h : spscQueueInit memory size = some q) : Ok q ∧ q.capacity = size ∧ live q = [] := by
  unfold spscQueueInit at h
  split at h <;> try contradiction
  rename_i two
  obtain ⟨records,_,rfl⟩ := Option.map_eq_some_iff.mp h
  have pos : 0 < size := by omega
  exact ⟨⟨two,fits,pos,pos⟩,rfl,(windowEmpty pos).mpr rfl⟩

theorem nextRecordAdvance {q : SpscQueue α} {current} (fits : q.capacity < uintRange)
    (h : current < q.capacity) : nextRecord q current = advance q.capacity current := by
  have small : (current + 1) % uintRange = current + 1 := Nat.mod_eq_of_lt (by omega)
  simp only [nextRecord,small,advance]

theorem sizeBetweenExact {capacity readPos writePos : Nat} (small : capacity ≤ 2^31)
    (hr : readPos < capacity) (hw : writePos < capacity) :
    sizeBetween capacity readPos writePos = distance capacity readPos writePos := by
  have narrow {x : Int} (low : -2^31 ≤ x) (high : x < 2^31) :
      (x % (uintRange : Int)).bmod uintRange = x := by
    rw [Int.emod_bmod]
    exact Int.bmod_eq_of_le (by simp [uintRange]; omega) (by simp [uintRange]; omega)
  have first : ((writePos - readPos : Int) % (uintRange : Int)).bmod uintRange = writePos - readPos :=
    narrow (by omega) (by omega)
  unfold sizeBetween distance
  simp only [first]
  split_ifs with negative forward forward
  · omega
  · rw [narrow (by omega) (by omega),Int.emod_eq_of_lt (by omega) (by simp [uintRange]; omega)]
    omega
  · rw [Int.emod_eq_of_lt (by omega) (by simp [uintRange]; omega)]
    omega
  · omega

theorem liveLength {q : SpscQueue α} (ok : Ok q) : (live q).length < q.capacity := by
  rw [live,windowLength]; exact distanceLt ok.readLt ok.writeLt

theorem isEmptyExact {q : SpscQueue α} (ok : Ok q) : spscQueueIsEmpty q = true ↔ live q = [] := by
  rw [live,windowEmpty ok.readLt,spscQueueIsEmpty,beq_iff_eq]

theorem peekExact {q : SpscQueue α} (ok : Ok q) : spscQueuePeek q = (live q).head? := by
  simp only [spscQueuePeek]
  split
  · rename_i same
    rw [(windowEmpty ok.readLt).mpr same |> (show live q = [] from ·)]; rfl
  · rename_i some
    rw [live,windowPop ok.readLt ok.writeLt some]; rfl

theorem writeOk {q : SpscQueue α} (ok : Ok q) (e : α) : Ok (spscQueueWrite q e).1 := by
  simp only [spscQueueWrite]
  split
  · refine ⟨ok.two,ok.fits,ok.readLt,?_⟩
    change nextRecord q q.writePos < q.capacity
    rw [nextRecordAdvance ok.fits ok.writeLt]
    exact advanceLt ok.writeLt
  · exact ok

theorem writeAppends {q : SpscQueue α} (ok : Ok q) {e : α}
    (h : (spscQueueWrite q e).2 = true) : live (spscQueueWrite q e).1 = live q ++ [e] := by
  simp only [spscQueueWrite,nextRecordAdvance ok.fits ok.writeLt] at h ⊢
  split at h <;> try contradiction
  rename_i room
  simp only [if_pos room,live]
  rw [windowPush _ ok.readLt ok.writeLt room,windowUpdateTail ok.readLt,Function.update_self]

theorem writeRefused {q : SpscQueue α} (ok : Ok q) {e : α} :
    (spscQueueWrite q e).2 = false ↔ (live q).length = q.capacity - 1 := by
  rw [live,windowFull ok.readLt ok.writeLt]
  simp only [spscQueueWrite,nextRecordAdvance ok.fits ok.writeLt]
  split <;> simp_all

theorem writeRefusedSame {q : SpscQueue α} {e : α}
    (h : (spscQueueWrite q e).2 = false) : (spscQueueWrite q e).1 = q := by
  simp only [spscQueueWrite] at h ⊢
  split at h <;> simp_all

theorem readOk {q : SpscQueue α} (ok : Ok q) : Ok (spscQueueRead q).1 := by
  simp only [spscQueueRead]
  split
  · exact ok
  · refine ⟨ok.two,ok.fits,?_,ok.writeLt⟩
    change nextRecord q q.readPos < q.capacity
    rw [nextRecordAdvance ok.fits ok.readLt]
    exact advanceLt ok.readLt

theorem readExact {q : SpscQueue α} (ok : Ok q) :
    (spscQueueRead q).2 = (live q).head? ∧ live (spscQueueRead q).1 = (live q).tail := by
  simp only [spscQueueRead,nextRecordAdvance ok.fits ok.readLt]
  split
  · rename_i same
    have none : live q = [] := (windowEmpty ok.readLt).mpr same
    simp [none]
  · rename_i some
    have pop : live q = _ := windowPop ok.readLt ok.writeLt some
    rw [pop]
    exact ⟨rfl,rfl⟩

end Qtl.Spsc
