import Lpnu.IOKit.DataQueue.Model
/-!
# IODataQueue — first in, first out

What a queue is for: the bytes taken out of it are the bytes put into it,
in order, once it is drained. `Dequeue` takes out nothing, so this holds
of the runs that put in nothing: `fifo_iff`.
-/

namespace Lpnu

namespace IOKit

open IOReturn Run

namespace DataQueue

variable {q : LPNUIODataQueue} {capacity : UInt32} {bufs : ℕ → Memory} {n : ℕ}
variable {run : List Call}

/-- `n` calls of `Dequeue`, each with a buffer of its own. -/
def drain (bufs : ℕ → Memory) (n : ℕ) : List Call :=
  (List.range n).map fun i => .dequeue true (some (bufs i)) true

/-- **`Dequeue` called until it answers `kIOReturnNoData`** is called `n`
times before it does. -/
def DrainedBy (q : LPNUIODataQueue) (bufs : ℕ → Memory) (n : ℕ) : Prop :=
  (∀ out ∈ outputs step q (drain bufs n), ∃ o, out = .ok o ∧ o.ret = kIOReturnSuccess) ∧
    ∃ o, (step (after step q (drain bufs n)) (.dequeue true (some (bufs n)) true)).2 = .ok o ∧
      o.ret = kIOReturnNoData

/-- **First in, first out**: after the run the queue can be drained, and
the bytes received, by then, are the bytes sent. -/
def Fifo (q : LPNUIODataQueue) (run : List Call) : Prop :=
  ∀ bufs, ∃ n, DrainedBy (after step q run) bufs n ∧
    collect step received q (run ++ drain bufs n) = collect step sent q run

/-- **The condition on a call**: it sends no bytes, whether its payload is
empty or larger than the queue. -/
def SendsNothing (capacity : UInt32) : Call → Prop
  | .enqueue true (some _) size => size = 0 ∨ capacity < size
  | _ => True

/-- **No `Dequeue` gives a byte.** -/
theorem received_eq_nil (call : Call) : received call (step q call).2 = [] := by
  cases call with
  | enqueue queue data size => rfl
  | dequeue queue data size =>
    rcases queue with _ | _ <;> rcases data with _ | data <;> rcases size with _ | _
    all_goals try rfl
    -- the call with no null pointer
    simp only [step, lpnuIODataQueueDequeue]
    split
    · rfl
    · exact Memory.bytes_eq_nil_iff.2 rfl

theorem collect_received (run : List Call) : collect step received q run = [] := by
  refine collect_eq_nil_iff.2 (eachStep_iff_prefixes.2 fun pre call _ => ?_)
  exact received_eq_nil call

/-- A call sends nothing exactly under the condition. -/
theorem sent_eq_nil_iff (hcap : q.capacity ≠ 0) (call : Call) :
    sent call (step q call).2 = [] ↔ SendsNothing q.capacity call := by
  cases call with
  | enqueue queue data size =>
    rcases queue with _ | _ <;> rcases data with _ | data
    · exact iff_of_true rfl trivial
    · exact iff_of_true rfl trivial
    · exact iff_of_true rfl trivial
    · rw [SendsNothing]
      by_cases hne : q.capacity < size
      · rw [step_enqueue_of_gt hne]
        exact iff_of_true rfl (Or.inr hne)
      · rw [step_enqueue_of_le hcap (UInt32.not_lt.1 hne)]
        have hzero : size.toNat = 0 ↔ size = 0 := by
          rw [← UInt32.toNat_inj, UInt32.toNat_zero]
        simp only [sent, if_true, Memory.bytes_eq_nil_iff, hzero, hne, or_false]
  | dequeue queue data size => exact iff_of_true rfl trivial

theorem collect_sent_eq_nil_iff (hcap : q.capacity ≠ 0) :
    collect step sent q run = [] ↔ ∀ call ∈ run, SendsNothing q.capacity call := by
  rw [collect_eq_nil_iff]
  refine eachStep_iff_forall_calls fun q' call h => ?_
  rw [sent_eq_nil_iff (h ▸ hcap), h]

/-! ## Draining -/

theorem after_drain : after step q (drain bufs n) = q := by
  induction n with
  | zero => rfl
  | succ n ih =>
    rw [drain, List.range_succ, List.map_append, after_append]
    rw [drain] at ih
    rw [ih]
    exact step_dequeue_fst true (some (bufs n)) true

/-- **A queue that is not empty cannot be drained**, and an empty one is
drained by no call. -/
theorem exists_drainedBy_iff (q : LPNUIODataQueue) (bufs : ℕ → Memory) :
    (∃ n, DrainedBy q bufs n) ↔ q.size = 0 := by
  constructor
  · rintro ⟨n, -, o, ho, hret⟩
    by_contra hsize
    rw [after_drain] at ho
    simp only [step, lpnuIODataQueueDequeue, if_neg hsize] at ho
    rw [← Except.ok.inj ho] at hret
    cases hret
  · intro hsize
    refine ⟨0, by simp [drain], { ret := kIOReturnNoData, data := some (bufs 0) }, ?_, rfl⟩
    rw [after_drain]
    simp only [step, lpnuIODataQueueDequeue, if_pos hsize]

/-- Sending nothing leaves an empty queue empty. -/
theorem size_step_of_sendsNothing (h : q.size = 0) (call : Call)
    (hcall : SendsNothing q.capacity call) : (step q call).1.size = 0 := by
  rcases step_cases q call with ⟨heq, -⟩ | ⟨data, size, rfl, hcap, hle⟩
  · rw [heq]
    exact h
  · rcases hcall with hzero | hgt
    · rw [step_enqueue_of_le hcap hle]
      simp [h, hzero]
    · exact absurd hle (UInt32.not_le.2 hgt)

theorem size_after_of_sendsNothing (h : q.size = 0)
    (hrun : ∀ call ∈ run, SendsNothing q.capacity call) : (after step q run).size = 0 := by
  have hsteps : EachStep step q (fun q call => SendsNothing q.capacity call) run :=
    (eachStep_iff_forall_calls fun q' call hcap => by rw [hcap]).2 hrun
  have hthrough : Throughout step q (fun q => q.size = 0) run :=
    throughout_of_inv (fun q call h hcall => size_step_of_sendsNothing h call hcall) h hsteps
  exact hthrough.last

/-- **When a created queue is first in, first out**: if and only if every
payload sent to it is empty or larger than it. -/
theorem fifo_iff {queue callocQueue callocData : Bool}
    (hcreate : lpnuIODataQueueCreate queue capacity callocQueue callocData =
      (some q, kIOReturnSuccess)) (hcap : 1 ≤ capacity) :
    Fifo q run ↔ ∀ call ∈ run, SendsNothing capacity call := by
  obtain rfl := eq_createdQueue_of_create hcreate
  have hne : (createdQueue capacity).capacity ≠ 0 := ne_zero_of_one_le hcap
  constructor
  · intro hfifo
    obtain ⟨n, -, hbytes⟩ := hfifo fun _ _ => 0
    -- nothing is received, so nothing may have been sent
    rw [collect_received] at hbytes
    exact (collect_sent_eq_nil_iff hne).1 hbytes.symm
  · intro hrun bufs
    -- a queue nothing was sent to is drained as it stands
    have hempty : (after step (createdQueue capacity) run).size = 0 :=
      size_after_of_sendsNothing rfl hrun
    obtain ⟨n, hn⟩ := (exists_drainedBy_iff _ bufs).2 hempty
    refine ⟨n, hn, ?_⟩
    rw [collect_received, (collect_sent_eq_nil_iff hne).2 hrun]

/-- The one byte `A`, sent, and an attempt to take it out. -/
def letterRun (size : UInt32) : List Call :=
  [.enqueue true (some fun _ => 65) size, .dequeue true (some fun _ => 0) true]

/-- A payload too large for the queue is not sent, and nothing comes
out. -/
theorem fifo_letterRun_two : Fifo (createdQueue 1) (letterRun 2) := by
  have hcreate : lpnuIODataQueueCreate true 1 true true =
      (some (createdQueue 1), kIOReturnSuccess) := rfl
  refine (fifo_iff hcreate (by decide)).2 fun call hcall => ?_
  rcases List.mem_cons.1 hcall with rfl | hcall
  · exact Or.inr (by decide)
  · rw [List.mem_singleton.1 hcall]
    trivial

/-- The byte that is sent is never received. -/
theorem not_fifo_letterRun_one : ¬ Fifo (createdQueue 1) (letterRun 1) := by
  intro h
  obtain ⟨n, -, hbytes⟩ := h fun _ _ => 0
  rw [collect_received] at hbytes
  exact absurd hbytes (by decide)

end DataQueue

end IOKit

end Lpnu
