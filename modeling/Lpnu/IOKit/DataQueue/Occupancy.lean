import Lpnu.IOKit.DataQueue.Model
/-!
# IODataQueue — occupancy

A queue of `capacity` bytes holds no more than that, takes a payload
exactly if there is room for it, and says so truly when asked. The source
measures a payload against the capacity alone, so this holds of the runs
whose payloads fit the room left or exceed the whole queue:
`occupied_iff`.
-/

namespace Lpnu

namespace IOKit

open IOReturn Run

namespace DataQueue

variable {q : LPNUIODataQueue} {capacity : UInt32} {run : List Call}

/-- The room left in a queue that is not overfull. -/
def room (q : LPNUIODataQueue) : ℕ := q.capacity.toNat - q.size.toNat

/-- **A call admits by room**: a payload goes in exactly if it is no
larger than the room left, and is otherwise refused for want of resources,
with nothing changed. -/
def AdmitsByRoom (q : LPNUIODataQueue) : Call → Prop
  | .enqueue true (some data) size =>
    (size.toNat ≤ room q → ∃ out,
      (step q (.enqueue true (some data) size)).2 = .ok out ∧ out.ret = kIOReturnSuccess) ∧
    (room q < size.toNat → ∃ out,
      step q (.enqueue true (some data) size) = (q, .ok out) ∧ out.ret = kIOReturnNoResource)
  | _ => True

/-- **A queue reports `n` bytes**: as its size, as emptiness and as
fullness. -/
structure Reports (q : LPNUIODataQueue) (n : ℕ) : Prop where
  getSize : (lpnuIODataQueueGetSize (some q)).toNat = n
  isEmpty : lpnuIODataQueueIsEmpty (some q) = true ↔ n = 0
  isFull : lpnuIODataQueueIsFull (some q) = true ↔ n = q.capacity.toNat

/-- **The occupancy of a queue over a run**: it is never more than the
capacity, it decides what is taken, and it is what is reported, of the
bytes sent so far. -/
structure Occupied (q : LPNUIODataQueue) (run : List Call) : Prop where
  size_le : Throughout step q (fun q => q.size ≤ q.capacity) run
  admits : EachStep step q AdmitsByRoom run
  reports : ∀ pre, pre <+: run → Reports (after step q pre) (collect step sent q pre).length

/-- **The condition on a call**: its payload fits the room left in a queue
of some capacity, or exceeds the whole queue. -/
def FitsOrExceeds (q : LPNUIODataQueue) : Call → Prop
  | .enqueue true (some _) size =>
    q.size.toNat + size.toNat ≤ q.capacity.toNat ∧ q.capacity ≠ 0 ∨ q.capacity < size
  | _ => True

/-- In a queue that is not overfull, a call admits by room exactly under
the condition. -/
theorem admitsByRoom_iff (hsize : q.size ≤ q.capacity) (call : Call) :
    AdmitsByRoom q call ↔ FitsOrExceeds q call := by
  cases call with
  | dequeue queue data size => exact Iff.rfl
  | enqueue queue data size =>
    rcases queue with _ | _ <;> rcases data with _ | data
    · exact Iff.rfl
    · exact Iff.rfl
    · exact Iff.rfl
    · have hle : q.size.toNat ≤ q.capacity.toNat := UInt32.le_iff_toNat_le.1 hsize
      simp only [AdmitsByRoom, FitsOrExceeds, room]
      by_cases hgt : q.capacity < size
      · have hlt : q.capacity.toNat < size.toNat := UInt32.lt_iff_toNat_lt.1 hgt
        rw [step_enqueue_of_gt hgt]
        refine iff_of_true ⟨fun hroom => ?_, fun _ => ⟨_, rfl, rfl⟩⟩ (Or.inr hgt)
        omega
      · rw [or_iff_left hgt]
        by_cases hcap : q.capacity = 0
        · -- no room, and the empty payload faults
          have h0 : size = 0 := by
            rw [UInt32.not_lt, hcap, UInt32.le_iff_toNat_le, UInt32.toNat_zero] at hgt
            exact UInt32.toNat_inj.1 (by rw [UInt32.toNat_zero]; omega)
          refine iff_of_false (fun h => ?_) (fun h => h.2 hcap)
          rw [h0, step_enqueue_of_zero hcap] at h
          obtain ⟨out, hout, -⟩ := h.1 (by rw [UInt32.toNat_zero]; omega)
          cases hout
        · rw [step_enqueue_of_le hcap (UInt32.not_lt.1 hgt)]
          constructor
          · rintro ⟨-, hrefused⟩
            refine ⟨?_, hcap⟩
            by_contra hroom
            obtain ⟨out, hout, hret⟩ := hrefused (by omega)
            obtain rfl := Except.ok.inj (Prod.mk.inj hout).2
            cases hret
          · rintro ⟨hfits, -⟩
            refine ⟨fun _ => ⟨_, rfl, rfl⟩, fun hroom => ?_⟩
            omega

/-- **What a call under the condition adds** to a queue is what it sends,
counted without wrapping. -/
theorem size_step (call : Call) (hcall : FitsOrExceeds q call) :
    (step q call).1.size.toNat = q.size.toNat + (sent call (step q call).2).length := by
  rcases step_cases q call with ⟨heq, hsent⟩ | ⟨data, size, rfl, hcap, hle⟩
  · rw [heq, hsent]
    rfl
  · rcases hcall with ⟨hfits, -⟩ | hgt
    · have hlt := q.capacity.toNat_lt
      rw [step_enqueue_of_le hcap hle]
      simp only [sent, if_true, Memory.length_bytes]
      rw [UInt32.toNat_add]
      omega
    · exact absurd hle (UInt32.not_le.2 hgt)

/-- No call under the condition overfills the queue. -/
theorem size_le_step (hsize : q.size ≤ q.capacity) (call : Call)
    (hcall : FitsOrExceeds q call) : (step q call).1.size ≤ (step q call).1.capacity := by
  rw [capacity_step]
  rcases step_cases q call with ⟨heq, -⟩ | ⟨data, size, rfl, hcap, hle⟩
  · rw [heq]
    exact hsize
  · rcases hcall with ⟨hfits, -⟩ | hgt
    · have hadd := size_step (.enqueue true (some data) size) (Or.inl ⟨hfits, hcap⟩)
      rw [UInt32.le_iff_toNat_le, hadd, step_enqueue_of_le hcap hle]
      simp only [sent, if_true, Memory.length_bytes]
      exact hfits
    · exact absurd hle (UInt32.not_le.2 hgt)

/-- **The size of a queue after a run under the condition** counts the
bytes sent. -/
theorem size_after : ∀ {run : List Call} {q : LPNUIODataQueue}, q.size ≤ q.capacity →
    EachStep step q FitsOrExceeds run →
      (after step q run).size.toNat = q.size.toNat + (collect step sent q run).length
  | [], _, _, _ => rfl
  | call :: run, q, hsize, hrun => by
    have ih := size_after (size_le_step hsize call hrun.1) hrun.2
    rw [after_cons, ih, size_step call hrun.1, collect, List.length_append]
    omega

/-- A queue that is not overfull, of some size, reports it. -/
theorem reports_of_size {n : ℕ} (hn : q.size.toNat = n) (hsize : q.size ≤ q.capacity) :
    Reports q n := by
  refine ⟨hn, ?_, ?_⟩
  · simp only [lpnuIODataQueueIsEmpty, beq_iff_eq, ← UInt32.toNat_inj, UInt32.toNat_zero, hn]
  · rw [UInt32.le_iff_toNat_le] at hsize
    simp only [lpnuIODataQueueIsFull, decide_eq_true_eq, ge_iff_le, UInt32.le_iff_toNat_le]
    omega

/-- **When a created queue keeps its occupancy**: if and only if every
payload fits the room left, in a queue of some capacity, or exceeds the
whole queue. -/
theorem occupied_iff {queue callocQueue callocData : Bool}
    (hcreate : lpnuIODataQueueCreate queue capacity callocQueue callocData =
      (some q, kIOReturnSuccess)) :
    Occupied q run ↔ EachStep step q FitsOrExceeds run := by
  obtain rfl := eq_createdQueue_of_create hcreate
  have hsize : (createdQueue capacity).size ≤ (createdQueue capacity).capacity := UInt32.zero_le
  have hboth : Throughout step (createdQueue capacity) (fun q => q.size ≤ q.capacity) run ∧
      EachStep step (createdQueue capacity) AdmitsByRoom run ↔
        EachStep step (createdQueue capacity) FitsOrExceeds run :=
    throughout_and_eachStep_iff (fun q call h => admitsByRoom_iff h call)
      (fun q call h hok => size_le_step h call hok) hsize
  constructor
  · rintro ⟨hle, hadmits, -⟩
    exact hboth.1 ⟨hle, hadmits⟩
  · intro hrun
    obtain ⟨hle, hadmits⟩ := hboth.2 hrun
    refine ⟨hle, hadmits, fun pre hpre => ?_⟩
    have hcount := size_after hsize (hrun.beginning hpre)
    refine reports_of_size ?_ (hle pre hpre)
    rw [hcount]
    exact Nat.zero_add _

/-- Two payloads of one byte. -/
def twoLetters : List Call :=
  [.enqueue true (some fun _ => 65) 1, .enqueue true (some fun _ => 65) 1]

theorem occupied_two : Occupied (createdQueue 2) twoLetters := by
  have hcreate : lpnuIODataQueueCreate true 2 true true =
      (some (createdQueue 2), kIOReturnSuccess) := rfl
  refine (occupied_iff hcreate).2 ⟨Or.inl ?_, Or.inl ?_, trivial⟩
  · decide
  · decide

/-- They overfill a queue of one. -/
theorem not_occupied_one : ¬ Occupied (createdQueue 1) twoLetters := by
  intro h
  exact absurd h.size_le.last (by decide)

end DataQueue

end IOKit

end Lpnu
