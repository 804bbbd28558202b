import Lpnu.IOKit.DataQueue.Model
/-!
# IODataQueue — the copy into the ring

A ring of `capacity` bytes takes a payload from the head on, and from the
front again once the end is reached. The source copies straight on, so a
payload arrives in the ring as it should exactly if it ends before the
ring does: `wraps_iff`.
-/

namespace Lpnu

namespace IOKit

open IOReturn Run

namespace DataQueue

variable {q : LPNUIODataQueue} {capacity : UInt32} {run : List Call} {data : Memory}
variable {size : UInt32} {out : Out}

/-- Where byte `i` of a payload belongs in the ring. -/
def ringOffset (q : LPNUIODataQueue) (i : ℕ) : ℕ := (q.head.toNat + i) % q.capacity.toNat

/-- **A payload is copied into the ring**: the copy writes inside the
buffer, every byte arrives where it belongs, and the others stay. -/
structure Wraps (q q' : LPNUIODataQueue) (data : Memory) (size : UInt32)
    (accesses : List Access) : Prop where
  inside : ∀ i, .write i ∈ accesses → i < q.capacity.toNat
  arrives : ∀ i < size.toNat, q'.data (ringOffset q i) = data i
  others : ∀ j < q.capacity.toNat, (∀ i < size.toNat, j ≠ ringOffset q i) →
    q'.data j = q.data j

/-- The head of a queue of some capacity stands inside its buffer. -/
def HeadInside (q : LPNUIODataQueue) : Prop :=
  q.capacity ≠ 0 ∧ q.head.toNat < q.capacity.toNat

theorem headInside_createdQueue (hcap : capacity ≠ 0) : HeadInside (createdQueue capacity) := by
  refine ⟨hcap, Nat.pos_of_ne_zero fun h0 => hcap (UInt32.toNat_inj.1 h0)⟩

theorem headInside_step (h : HeadInside q) (call : Call) : HeadInside (step q call).1 := by
  rcases step_cases q call with ⟨heq, -⟩ | ⟨data, size, rfl, hcap, hle⟩
  · rw [heq]
    exact h
  · rw [step_enqueue_of_le hcap hle]
    refine ⟨hcap, ?_⟩
    simp only [UInt32.toNat_mod]
    exact Nat.mod_lt _ (Nat.zero_lt_of_lt h.2)

theorem headInside_after (h : HeadInside q) (run : List Call) :
    HeadInside (after step q run) := by
  have hstep : ∀ q call, HeadInside q → HeadInside (step q call).1 :=
    fun q call hq => headInside_step hq call
  exact after_of_inv hstep h run

/-- An `Enqueue` that succeeds is one that goes through. -/
theorem le_capacity_of_success
    (h : (step q (.enqueue true (some data) size)).2 = .ok out)
    (hret : out.ret = kIOReturnSuccess) : size ≤ q.capacity := by
  by_contra hgt
  rw [step_enqueue_of_gt (UInt32.not_le.1 hgt)] at h
  rw [← Except.ok.inj h] at hret
  cases hret

/-- Up to the end of the ring, the bytes of a payload belong one after the
other. -/
theorem ringOffset_of_lt {i : ℕ} (h : q.head.toNat + i < q.capacity.toNat) :
    ringOffset q i = q.head.toNat + i :=
  Nat.mod_eq_of_lt h

/-- **When a payload is copied into the ring**, in any queue a run leads
to: if and only if it ends before the ring does. -/
theorem wraps_iff {queue callocQueue callocData : Bool}
    (hcreate : lpnuIODataQueueCreate queue capacity callocQueue callocData =
      (some q, kIOReturnSuccess)) (hcap : 1 ≤ capacity)
    (hout : (step (after step q run) (.enqueue true (some data) size)).2 = .ok out)
    (hret : out.ret = kIOReturnSuccess) :
    Wraps (after step q run) (step (after step q run) (.enqueue true (some data) size)).1 data
        size out.accesses ↔
      (after step q run).head.toNat + size.toNat ≤ (after step q run).capacity.toNat := by
  obtain rfl := eq_createdQueue_of_create hcreate
  have hinside := headInside_after (headInside_createdQueue (ne_zero_of_one_le hcap)) run
  generalize after step (createdQueue capacity) run = q at hout hinside ⊢
  obtain ⟨hq, hhead⟩ := hinside
  have hle := le_capacity_of_success hout hret
  rw [step_enqueue_of_le hq hle] at hout ⊢
  obtain rfl := Except.ok.inj hout
  have hwritten : ∀ i, .write i ∈ (q.data.memcpy q.head.toNat data size.toNat).2 ↔
      q.head.toNat ≤ i ∧ i < q.head.toNat + size.toNat := fun i => Memory.write_mem_memcpy_iff
  constructor
  · rintro ⟨hwrites, -, -⟩
    by_contra hover
    -- the last byte is written past the end
    have hlast : q.head.toNat + size.toNat - 1 < q.capacity.toNat :=
      hwrites _ ((hwritten _).2 (by omega))
    omega
  · intro hends
    refine ⟨?_, ?_, ?_⟩
    · intro i hi
      have hcopied := (hwritten i).1 hi
      omega
    · intro i hi
      rw [ringOffset_of_lt (by omega)]
      show (q.data.memcpy q.head.toNat data size.toNat).1 (q.head.toNat + i) = data i
      rw [Memory.memcpy_of_mem (by omega), Nat.add_sub_cancel_left]
    · intro j hj hother
      refine Memory.memcpy_of_notMem fun hcopied => ?_
      refine hother (j - q.head.toNat) (by omega) ?_
      rw [ringOffset_of_lt (by omega)]
      omega

/-- Three bytes, sent. -/
def threeBytes : List Call := [.enqueue true (some fun _ => 65) 3]

theorem wraps_one_after_three :
    Wraps (after step (createdQueue 4) threeBytes)
      (step (after step (createdQueue 4) threeBytes) (.enqueue true (some fun _ => 66) 1)).1
      (fun _ => 66) 1 [.write 3] := by
  have hcreate : lpnuIODataQueueCreate true 4 true true =
      (some (createdQueue 4), kIOReturnSuccess) := rfl
  have hout : (step (after step (createdQueue 4) threeBytes)
      (.enqueue true (some fun _ => 66) 1)).2 =
        .ok { ret := kIOReturnSuccess, accesses := [.write 3] } := rfl
  exact (wraps_iff hcreate (by decide) hout rfl).2 (by decide)

/-- Of two more bytes sent to a queue of four, the second is written past
the end. -/
theorem not_wraps_two_after_three :
    (step (after step (createdQueue 4) threeBytes) (.enqueue true (some fun _ => 66) 2)).2 =
        .ok { ret := kIOReturnSuccess, accesses := [.write 3, .write 4] } ∧
      ¬ Wraps (after step (createdQueue 4) threeBytes)
        (step (after step (createdQueue 4) threeBytes) (.enqueue true (some fun _ => 66) 2)).1
        (fun _ => 66) 2 [.write 3, .write 4] := by
  refine ⟨rfl, fun h => ?_⟩
  exact absurd (h.inside 4 (by simp)) (by decide)

end DataQueue

end IOKit

end Lpnu
