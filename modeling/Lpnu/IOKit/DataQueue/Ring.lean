import Lpnu.Common.Ring
import Lpnu.IOKit.DataQueue.Copy
/-!
# IODataQueue — what the ring holds

Nothing takes a payload out of a data queue, so the buffer is a ring that
the runs write over and over. As long as every payload ends before the
ring does, no byte is written outside it, the head stands where the next
byte belongs, and the buffer holds the last `capacity` bytes sent
(`keepsLast_iff`); the first payload that does not is written past the
end.
-/

namespace Lpnu

namespace IOKit

open IOReturn Run

namespace DataQueue

variable {q : LPNUIODataQueue} {capacity : UInt32} {run : List Call} {stream : List UInt8}

/-- The accesses of a call to the queue's buffer. -/
def accessesOf : Except Fault Out → List Access
  | .ok out => out.accesses
  | .error _ => []

/-- **The queue keeps the last bytes a run sends**: it writes inside its
buffer only, and the buffer is a ring of `capacity` places that holds the
end of what was sent, with the head where the next byte belongs. -/
structure KeepsLast (q : LPNUIODataQueue) (run : List Call) : Prop where
  inside : ∀ out ∈ outputs step q run, ∀ i, .write i ∈ accessesOf out →
    i < (after step q run).capacity.toNat
  head : (after step q run).head.toNat =
    (collect step sent q run).length % (after step q run).capacity.toNat
  held : Ring.Holds (after step q run).data (after step q run).capacity.toNat
    (collect step sent q run)

/-- A payload that goes through ends before the ring does. -/
def EndsInside (q : LPNUIODataQueue) : Call → Prop
  | .enqueue true (some _) size =>
    size ≤ q.capacity → q.head.toNat + size.toNat ≤ q.capacity.toNat
  | _ => True

/-- What the queue holds of a stream that was sent to it. -/
structure InRing (q : LPNUIODataQueue) (stream : List UInt8) : Prop where
  inside : HeadInside q
  head : q.head.toNat = stream.length % q.capacity.toNat
  held : Ring.Holds q.data q.capacity.toNat stream

theorem inRing_createdQueue (hcap : capacity ≠ 0) : InRing (createdQueue capacity) [] where
  inside := headInside_createdQueue hcap
  head := (Nat.zero_mod _).symm
  held := Ring.holds_nil

/-- A payload that ends before the ring does is written around it. -/
theorem written_memcpy (data : Memory) {size : UInt32}
    (hends : q.head.toNat + size.toNat ≤ q.capacity.toNat) :
    Ring.Written q.data (q.data.memcpy q.head.toNat data size.toNat).1 q.capacity.toNat
      q.head.toNat (data.bytes size.toNat) := by
  refine Ring.written_of_straight ?_ ?_ ?_
  · rw [Memory.length_bytes]
    exact hends
  · intro i hi
    rw [Memory.length_bytes] at hi
    have hread : (data.bytes size.toNat)[i]? = some (data i) := by
      simp [Memory.bytes, hi]
    rw [hread, Memory.memcpy_of_mem (by omega), Nat.add_sub_cancel_left]
  · intro j hj
    rw [Memory.length_bytes] at hj
    exact Memory.memcpy_of_notMem hj

/-- A payload sent to the ring, the head after it. -/
theorem inRing_enqueue {data : Memory} {size : UInt32} (h : InRing q stream)
    (hle : size ≤ q.capacity) (hends : q.head.toNat + size.toNat ≤ q.capacity.toNat) :
    InRing (step q (.enqueue true (some data) size)).1 (stream ++ data.bytes size.toNat) := by
  have hinside := headInside_step h.inside (.enqueue true (some data) size)
  rw [step_enqueue_of_le h.inside.1 hle] at hinside ⊢
  refine ⟨hinside, ?_, ?_⟩
  · -- the sum stays under the capacity, and so in its 32 bits
    have hsum : (q.head + size).toNat = q.head.toNat + size.toNat := by
      have hlt := q.capacity.toNat_lt
      rw [UInt32.toNat_add]
      exact Nat.mod_eq_of_lt (by omega)
    show ((q.head + size) % q.capacity).toNat = _
    rw [UInt32.toNat_mod, hsum, h.head, List.length_append, Memory.length_bytes,
      Nat.mod_add_mod]
  · have hwritten := written_memcpy data hends
    show Ring.Holds (q.data.memcpy q.head.toNat data size.toNat).1 q.capacity.toNat _
    rw [h.head] at hwritten ⊢
    exact h.held.append hwritten

/-- **One call** adds what it sends to what the ring holds. -/
theorem inRing_step (h : InRing q stream) (call : Call) (hends : EndsInside q call) :
    InRing (step q call).1 (stream ++ sent call (step q call).2) := by
  rcases step_cases q call with ⟨heq, hsent⟩ | ⟨data, size, rfl, hcap, hle⟩
  · rw [heq, hsent, List.append_nil]
    exact h
  · have hsent : sent (.enqueue true (some data) size)
        (step q (.enqueue true (some data) size)).2 = data.bytes size.toNat := by
      rw [step_enqueue_of_le hcap hle]
      rfl
    rw [hsent]
    exact inRing_enqueue h hle (hends hle)

/-- **A run** adds what its calls send. -/
theorem inRing_after : ∀ {run : List Call} {q : LPNUIODataQueue} {stream : List UInt8},
    InRing q stream → EachStep step q EndsInside run →
      InRing (after step q run) (stream ++ collect step sent q run)
  | [], _, _, h, _ => by
    rw [collect, List.append_nil]
    exact h
  | call :: run, q, stream, h, hends => by
    have hstep := inRing_step h call hends.1
    have ih := inRing_after hstep hends.2
    rwa [List.append_assoc] at ih

/-- A call other than an `Enqueue` with no null pointer leaves the buffer
alone. -/
theorem enqueue_or_untouched (q : LPNUIODataQueue) (call : Call) :
    (∃ data size, call = .enqueue true (some data) size) ∨
      EndsInside q call ∧ accessesOf (step q call).2 = [] := by
  cases call with
  | dequeue queue data size =>
    right
    refine ⟨trivial, ?_⟩
    simp only [step, lpnuIODataQueueDequeue]
    split
    · split <;> rfl
    · rfl
  | enqueue queue data size =>
    rcases queue with _ | _ <;> rcases data with _ | data
    · exact Or.inr ⟨trivial, rfl⟩
    · exact Or.inr ⟨trivial, rfl⟩
    · exact Or.inr ⟨trivial, rfl⟩
    · exact Or.inl ⟨data, size, rfl⟩

/-- **A call writes inside the buffer** exactly if its payload ends before
the ring does. -/
theorem writesInside_iff (h : HeadInside q) (call : Call) :
    (∀ i, .write i ∈ accessesOf (step q call).2 → i < q.capacity.toNat) ↔
      EndsInside q call := by
  rcases enqueue_or_untouched q call with ⟨data, size, rfl⟩ | ⟨hends, hnone⟩
  · by_cases hle : size ≤ q.capacity
    · rw [step_enqueue_of_le h.1 hle]
      have hwritten : ∀ i, .write i ∈ (q.data.memcpy q.head.toNat data size.toNat).2 ↔
          q.head.toNat ≤ i ∧ i < q.head.toNat + size.toNat :=
        fun i => Memory.write_mem_memcpy_iff
      constructor
      · intro hinside _
        have hhead := h.2
        by_contra hover
        -- the last byte of the payload is written past the end
        have hlast := hinside (q.head.toNat + size.toNat - 1) ((hwritten _).2 (by omega))
        omega
      · intro hends i hi
        have hcopied := (hwritten i).1 hi
        have hstraight := hends hle
        omega
    · rw [step_enqueue_of_gt (UInt32.not_le.1 hle)]
      exact ⟨fun _ hfits => absurd hfits hle, fun _ i hi => absurd hi List.not_mem_nil⟩
  · rw [hnone]
    exact ⟨fun _ => hends, fun _ i hi => absurd hi List.not_mem_nil⟩

/-- **A run writes inside the buffer** exactly if all its payloads end
before the ring does. -/
theorem forall_inside_iff (h : HeadInside q) (run : List Call) :
    (∀ out ∈ outputs step q run, ∀ i, .write i ∈ accessesOf out → i < q.capacity.toNat) ↔
      EachStep step q EndsInside run := by
  rw [forall_outputs_iff]
  have hinv : ∀ q' call, HeadInside q' ∧ q'.capacity = q.capacity →
      HeadInside (step q' call).1 ∧ (step q' call).1.capacity = q.capacity :=
    fun q' call h => ⟨headInside_step h.1 call, (capacity_step call).trans h.2⟩
  have hok : ∀ q' call, HeadInside q' ∧ q'.capacity = q.capacity →
      ((∀ i, .write i ∈ accessesOf (step q' call).2 → i < q.capacity.toNat) ↔
        EndsInside q' call) := by
    rintro q' call ⟨hinside, hcap⟩
    rw [← hcap]
    exact writesInside_iff hinside call
  exact eachStep_congr hinv hok ⟨h, rfl⟩

/-- **When a queue keeps the last bytes it is sent**: if and only if every
payload that goes through ends before the ring does. -/
theorem keepsLast_iff {queue callocQueue callocData : Bool}
    (hcreate : lpnuIODataQueueCreate queue capacity callocQueue callocData =
      (some q, kIOReturnSuccess)) (hcap : 1 ≤ capacity) :
    KeepsLast q run ↔ EachStep step q EndsInside run := by
  obtain rfl := eq_createdQueue_of_create hcreate
  have hne := ne_zero_of_one_le hcap
  have hwrites := forall_inside_iff (headInside_createdQueue hne) run
  constructor
  · rintro ⟨hinside, -, -⟩
    rw [capacity_after] at hinside
    exact hwrites.1 hinside
  · intro hends
    have hring := inRing_after (inRing_createdQueue hne) hends
    rw [List.nil_append] at hring
    refine ⟨?_, hring.head, hring.held⟩
    rw [capacity_after]
    exact hwrites.2 hends

/-- Four letters, in two payloads, and two more. -/
def sixLetters : List Call :=
  threeBytes ++ [.enqueue true (some fun _ => 66) 1, .enqueue true (some fun _ => 67) 2]

/-- They go once around a queue of four. -/
theorem keepsLast_sixLetters : KeepsLast (createdQueue 4) sixLetters := by
  have hcreate : lpnuIODataQueueCreate true 4 true true =
      (some (createdQueue 4), kIOReturnSuccess) := rfl
  refine (keepsLast_iff hcreate (by decide)).2 ⟨?_, ?_, ?_, trivial⟩
  · intro _; decide
  · intro _; decide
  · intro _; decide

end DataQueue

end IOKit

end Lpnu
