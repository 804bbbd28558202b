import Lpnu.Common.CArray
import Lpnu.Common.Run
import Lpnu.IOKit.Basic
/-!
# IODataQueue — the model

The data queue of `lpnu_iokit.c`: a buffer of `capacity` bytes with a
size, a head and a tail, all of 32 bits. `Enqueue` copies a payload in at
the head and moves the head on, modulo the capacity. Whether `calloc`
finds memory is an argument of the call, and so is whether each pointer
passed is null.
-/

namespace Lpnu

namespace IOKit

open IOReturn Run

/-- `struct LPNUIODataQueue`. The buffer is given from its first byte on;
`capacity` of the bytes belong to it. -/
structure LPNUIODataQueue where
  data : Memory
  size : UInt32
  head : UInt32
  tail : UInt32
  capacity : UInt32

namespace DataQueue

/-- What a call gives back: its return value, the number it stores
through `size`, what the caller's buffer holds afterwards, and its
accesses to the queue's buffer. -/
structure Out where
  ret : IOReturn
  size : Option UInt32 := none
  data : Option Memory := none
  accesses : List Access := []

end DataQueue

open DataQueue

/-- A queue as it is created, over a zeroed buffer. -/
def createdQueue (capacity : UInt32) : LPNUIODataQueue where
  data := fun _ => 0
  size := 0
  head := 0
  tail := 0
  capacity := capacity

/-- `LPNUIODataQueueCreate`: what it stores through its out-parameter and
what it returns. The two `calloc`s are for the queue and for its
buffer. -/
def lpnuIODataQueueCreate (queue : Bool) (capacity : UInt32) (callocQueue callocData : Bool) :
    Option LPNUIODataQueue × IOReturn :=
  if queue then
    if callocQueue then
      if callocData then (some (createdQueue capacity), kIOReturnSuccess)
      else (none, kIOReturnNoMemory)
    else (none, kIOReturnNoMemory)
  else (none, kIOReturnBadArgument)

/-- `LPNUIODataQueueEnqueue`. The copy is made before the head is moved,
so a queue of no capacity faults only after it. -/
def lpnuIODataQueueEnqueue (q : LPNUIODataQueue) (queue : Bool) (data : Option Memory)
    (size : UInt32) : LPNUIODataQueue × Except Fault Out :=
  match queue, data with
  | true, some data =>
    -- the payload is measured against the whole queue, not the room left in it
    if size > q.capacity then (q, .ok { ret := kIOReturnNoResource })
    else
      let copied := q.data.memcpy q.head.toNat data size.toNat
      if q.capacity = 0 then ({ q with data := copied.1 }, .error .divisionByZero)
      else
        ({ q with
            data := copied.1
            head := (q.head + size) % q.capacity
            size := q.size + size },
          .ok { ret := kIOReturnSuccess, accesses := copied.2 })
  | _, _ => (q, .ok { ret := kIOReturnBadArgument })

/-- `LPNUIODataQueueDequeue`. It takes nothing from the queue and writes
nothing to the caller's buffer. -/
def lpnuIODataQueueDequeue (q : LPNUIODataQueue) (queue : Bool) (data : Option Memory)
    (size : Bool) : LPNUIODataQueue × Except Fault Out :=
  match queue, data, size with
  | true, some data, true =>
    if q.size = 0 then (q, .ok { ret := kIOReturnNoData, data := some data })
    -- `*size = 0` and success, whatever the queue holds
    else (q, .ok { ret := kIOReturnSuccess, size := some 0, data := some data })
  | _, data, _ => (q, .ok { ret := kIOReturnBadArgument, data := data })

/-- `LPNUIODataQueueGetSize`. -/
def lpnuIODataQueueGetSize : Option LPNUIODataQueue → UInt32
  | some q => q.size
  | none => 0

/-- `LPNUIODataQueueGetCapacity`. -/
def lpnuIODataQueueGetCapacity : Option LPNUIODataQueue → UInt32
  | some q => q.capacity
  | none => 0

/-- `LPNUIODataQueueIsEmpty`. -/
def lpnuIODataQueueIsEmpty : Option LPNUIODataQueue → Bool
  | some q => q.size == 0
  | none => true

/-- `LPNUIODataQueueIsFull`. -/
def lpnuIODataQueueIsFull : Option LPNUIODataQueue → Bool
  | some q => q.size ≥ q.capacity
  | none => true

namespace DataQueue

/-! ## The component -/

/-- The calls on a queue. -/
inductive Call
  | enqueue (queue : Bool) (data : Option Memory) (size : UInt32)
  | dequeue (queue : Bool) (data : Option Memory) (size : Bool)

/-- One call. -/
def step (q : LPNUIODataQueue) : Call → LPNUIODataQueue × Except Fault Out
  | .enqueue queue data size => lpnuIODataQueueEnqueue q queue data size
  | .dequeue queue data size => lpnuIODataQueueDequeue q queue data size

/-- The payload of an `Enqueue` that succeeds. -/
def sent : Call → Except Fault Out → List UInt8
  | .enqueue _ (some data) size, .ok out =>
    if out.ret = kIOReturnSuccess then data.bytes size.toNat else []
  | _, _ => []

/-- The first `*size` bytes of the buffer, after a `Dequeue` that
succeeds. -/
def received : Call → Except Fault Out → List UInt8
  | .dequeue _ _ _, .ok ⟨kIOReturnSuccess, some size, some data, _⟩ => data.bytes size.toNat
  | _, _ => []

variable {q : LPNUIODataQueue} {capacity : UInt32} {data : Memory} {size : UInt32}
variable {run : List Call}

theorem eq_createdQueue_of_create {queue callocQueue callocData : Bool}
    (h : lpnuIODataQueueCreate queue capacity callocQueue callocData =
      (some q, kIOReturnSuccess)) : q = createdQueue capacity := by
  unfold lpnuIODataQueueCreate at h
  split_ifs at h
  · exact (Option.some.inj (Prod.mk.inj h).1).symm
  · exact absurd (Prod.mk.inj h).1 (by simp)
  · exact absurd (Prod.mk.inj h).1 (by simp)
  · exact absurd (Prod.mk.inj h).1 (by simp)

theorem ne_zero_of_one_le (h : 1 ≤ capacity) : capacity ≠ 0 := by
  rintro rfl
  exact absurd h (by decide)

/-- An `Enqueue` of at most the capacity goes through. -/
theorem step_enqueue_of_le (hcap : q.capacity ≠ 0) (hsize : size ≤ q.capacity) :
    step q (.enqueue true (some data) size) =
      ({ q with
          data := (q.data.memcpy q.head.toNat data size.toNat).1
          head := (q.head + size) % q.capacity
          size := q.size + size },
        .ok { ret := kIOReturnSuccess,
              accesses := (q.data.memcpy q.head.toNat data size.toNat).2 }) := by
  simp only [step, lpnuIODataQueueEnqueue]
  rw [if_neg (UInt32.not_lt.2 hsize), if_neg hcap]

/-- An `Enqueue` of more is refused. -/
theorem step_enqueue_of_gt (hsize : q.capacity < size) :
    step q (.enqueue true (some data) size) = (q, .ok { ret := kIOReturnNoResource }) := by
  simp only [step, lpnuIODataQueueEnqueue]
  rw [if_pos hsize]

/-- **`Dequeue` leaves the queue as it is.** -/
theorem step_dequeue_fst (queue : Bool) (data : Option Memory) (size : Bool) :
    (step q (.dequeue queue data size)).1 = q := by
  simp only [step, lpnuIODataQueueDequeue]
  split
  · split <;> rfl
  · rfl

/-- A queue of no capacity takes no payload: the empty one faults, and
copies nothing. -/
theorem step_enqueue_of_zero (hcap : q.capacity = 0) :
    step q (.enqueue true (some data) 0) = (q, .error .divisionByZero) := by
  have hle : ¬ (0 : UInt32) > q.capacity := by rw [hcap]; decide
  simp only [step, lpnuIODataQueueEnqueue]
  rw [if_neg hle, if_pos hcap, UInt32.toNat_zero, Memory.memcpy_zero]

/-- A call is an `Enqueue` with no null pointer, or it is answered with the
queue left as it is and nothing sent. -/
theorem enqueue_or_left (q : LPNUIODataQueue) (call : Call) :
    (∃ data size, call = .enqueue true (some data) size) ∨
      ∃ out, step q call = (q, .ok out) ∧ sent call (.ok out) = [] := by
  cases call with
  | dequeue queue data size =>
    right
    simp only [step, lpnuIODataQueueDequeue]
    split
    · split <;> exact ⟨_, rfl, rfl⟩
    · exact ⟨_, rfl, rfl⟩
  | enqueue queue data size =>
    rcases queue with _ | _ <;> rcases data with _ | data
    · exact Or.inr ⟨_, rfl, rfl⟩
    · exact Or.inr ⟨_, rfl, rfl⟩
    · exact Or.inr ⟨_, rfl, rfl⟩
    · exact Or.inl ⟨data, size, rfl⟩

/-- **What a call can do**: it leaves the queue and sends nothing, or it is
an `Enqueue` that goes through. -/
theorem step_cases (q : LPNUIODataQueue) (call : Call) :
    (step q call).1 = q ∧ sent call (step q call).2 = [] ∨
      ∃ data size, call = .enqueue true (some data) size ∧ q.capacity ≠ 0 ∧
        size ≤ q.capacity := by
  rcases enqueue_or_left q call with ⟨data, size, rfl⟩ | ⟨out, hout, hsent⟩
  · by_cases hgt : q.capacity < size
    · rw [step_enqueue_of_gt hgt]
      exact Or.inl ⟨rfl, rfl⟩
    · have hle : size ≤ q.capacity := UInt32.not_lt.1 hgt
      by_cases hcap : q.capacity = 0
      · -- no payload but the empty one fits
        rw [hcap, UInt32.le_zero_iff] at hle
        rw [hle, step_enqueue_of_zero hcap]
        exact Or.inl ⟨rfl, rfl⟩
      · exact Or.inr ⟨data, size, rfl, hcap, hle⟩
  · rw [hout]
    exact Or.inl ⟨rfl, hsent⟩

/-- No call changes the capacity. -/
theorem capacity_step (call : Call) : (step q call).1.capacity = q.capacity := by
  rcases step_cases q call with ⟨heq, -⟩ | ⟨data, size, rfl, hcap, hle⟩
  · rw [heq]
  · rw [step_enqueue_of_le hcap hle]

/-- No run does. -/
theorem capacity_after (run : List Call) : (after step q run).capacity = q.capacity := by
  have hstep : ∀ q' call, q'.capacity = q.capacity → (step q' call).1.capacity = q.capacity :=
    fun q' call h => (capacity_step call).trans h
  exact after_of_inv hstep rfl run

/-- A condition that reads of the queue the capacity alone is one on the
calls. -/
theorem eachStep_iff_forall_calls {ok : LPNUIODataQueue → Call → Prop} {P : Call → Prop}
    (hok : ∀ q' call, q'.capacity = q.capacity → (ok q' call ↔ P call)) :
    EachStep step q ok run ↔ ∀ call ∈ run, P call := by
  have hstep : ∀ q' call, q'.capacity = q.capacity → (step q' call).1.capacity = q.capacity :=
    fun q' call h => (capacity_step call).trans h
  exact (eachStep_congr hstep hok rfl).trans eachStep_iff_forall_mem

end DataQueue

end IOKit

end Lpnu
