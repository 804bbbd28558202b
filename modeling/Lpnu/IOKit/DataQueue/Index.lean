import Lpnu.IOKit.DataQueue.Copy
import Mathlib.Data.Nat.ModEq
/-!
# IODataQueue — the head

`Enqueue` moves the head by the size of the payload, modulo the capacity.
The modulus is by zero in a queue created with no capacity, which takes
the empty payload: `neverDividesByZero_iff`. The sum under it is taken in
32 bits, so in a queue of more than half their range it may wrap, and the
head then no longer counts the bytes sent: `headCounts_iff`.
-/

namespace Lpnu

namespace IOKit

open IOReturn Run

namespace DataQueue

variable {q : LPNUIODataQueue} {capacity : UInt32} {run : List Call} {call : Call}

/-! ## The modulus -/

/-- An `Enqueue` of no bytes, with no null pointer. -/
def EmptyPayload (call : Call) : Prop := ∃ data, call = .enqueue true (some data) 0

/-- **No call of a run takes the modulus by zero.** -/
def NeverDividesByZero (q : LPNUIODataQueue) (run : List Call) : Prop :=
  ∀ out ∈ outputs step q run, out ≠ .error .divisionByZero

/-- What the check on the size lets through to the modulus, in a queue of
no capacity, is the empty payload. -/
theorem step_divisionByZero_iff :
    (step q call).2 = .error .divisionByZero ↔ q.capacity = 0 ∧ EmptyPayload call := by
  constructor
  · intro hfault
    rcases enqueue_or_left q call with ⟨data, size, rfl⟩ | ⟨out, hout, -⟩
    · have hle : size ≤ q.capacity := by
        by_contra hgt
        rw [step_enqueue_of_gt (UInt32.not_le.1 hgt)] at hfault
        cases hfault
      have hcap : q.capacity = 0 := by
        by_contra hne
        rw [step_enqueue_of_le hne hle] at hfault
        cases hfault
      rw [hcap, UInt32.le_zero_iff] at hle
      exact ⟨hcap, data, by rw [hle]⟩
    · rw [hout] at hfault
      cases hfault
  · rintro ⟨hcap, data, rfl⟩
    rw [step_enqueue_of_zero hcap]

/-- **When a created queue never takes the modulus by zero**: if and only
if it has some capacity or is sent no empty payload. -/
theorem neverDividesByZero_iff {queue callocQueue callocData : Bool}
    (hcreate : lpnuIODataQueueCreate queue capacity callocQueue callocData =
      (some q, kIOReturnSuccess)) :
    NeverDividesByZero q run ↔ capacity ≠ 0 ∨ ∀ call ∈ run, ¬ EmptyPayload call := by
  obtain rfl := eq_createdQueue_of_create hcreate
  have hok : ∀ q call, q.capacity = capacity →
      ((step q call).2 ≠ .error .divisionByZero ↔ capacity ≠ 0 ∨ ¬ EmptyPayload call) := by
    intro q call h
    rw [ne_eq, step_divisionByZero_iff, h, not_and_or]
  rw [NeverDividesByZero, forall_outputs_iff, eachStep_iff_forall_calls hok]
  constructor
  · intro h
    by_cases hcap : capacity = 0
    · exact Or.inr fun call hcall => (h call hcall).resolve_left (not_not_intro hcap)
    · exact Or.inl hcap
  · rintro (hcap | hrun) call hcall
    · exact Or.inl hcap
    · exact Or.inr (hrun call hcall)

/-- A payload too large for a queue of no capacity is refused before. -/
theorem neverDividesByZero_one_byte :
    NeverDividesByZero (createdQueue 0) [.enqueue true (some fun _ => 65) 1] := by
  have hcreate : lpnuIODataQueueCreate true 0 true true =
      (some (createdQueue 0), kIOReturnSuccess) := rfl
  refine (neverDividesByZero_iff hcreate).2 (Or.inr fun call hcall => ?_)
  rintro ⟨data, rfl⟩
  simp at hcall

theorem dividesByZero_empty :
    lpnuIODataQueueCreate true 0 true true = (some (createdQueue 0), kIOReturnSuccess) ∧
      ¬ NeverDividesByZero (createdQueue 0) [.enqueue true (some fun _ => 65) 0] := by
  refine ⟨rfl, fun h => ?_⟩
  refine h _ (List.mem_singleton.2 rfl) ?_
  show (step (createdQueue 0) (.enqueue true (some fun _ => 65) 0)).2 = _
  rw [step_enqueue_of_zero rfl]

/-! ## The count -/

/-- The size of the payload of an `Enqueue` that succeeds. -/
def accepted : Call → Except Fault Out → List ℕ
  | .enqueue _ (some _) size, .ok out =>
    if out.ret = kIOReturnSuccess then [size.toNat] else []
  | _, _ => []

/-- **The head of a queue counts what a run sends it**: it is the sum of
the sizes accepted, modulo the capacity. -/
def HeadCounts (q : LPNUIODataQueue) (run : List Call) : Prop :=
  (after step q run).head.toNat =
    (collect step accepted q run).sum % (after step q run).capacity.toNat

/-- An `Enqueue` that goes through and takes the sum of head and size out
of its 32 bits. -/
def overflows (q : LPNUIODataQueue) : Call → Bool
  | .enqueue true (some _) size =>
    decide (size ≤ q.capacity ∧ 2 ^ 32 ≤ q.head.toNat + size.toNat)
  | _ => false

/-- The sizes accepted add up to the bytes sent. -/
theorem sum_accepted (call : Call) (out : Except Fault Out) :
    (accepted call out).sum = (sent call out).length := by
  rcases call with ⟨queue, _ | data, size⟩ | _
  · rfl
  · rcases out with fault | out
    · rfl
    · simp only [accepted, sent]
      split_ifs
      · rw [Memory.length_bytes, List.sum_singleton]
      · rfl
  · rfl

theorem overflows_eq_true_iff :
    overflows q call = true ↔ ∃ data size, call = .enqueue true (some data) size ∧
      size ≤ q.capacity ∧ 2 ^ 32 ≤ q.head.toNat + size.toNat := by
  constructor
  · intro hover
    unfold overflows at hover
    split at hover
    · exact ⟨_, _, rfl, of_decide_eq_true hover⟩
    · cases hover
  · rintro ⟨data, size, rfl, hwraps⟩
    exact decide_eq_true hwraps

/-- A sum of 32 bits is short of the sum by their range, where it wraps. -/
theorem toNat_add_wrap (a b : UInt32) :
    (a + b).toNat + 2 ^ 32 * (if 2 ^ 32 ≤ a.toNat + b.toNat then 1 else 0) =
      a.toNat + b.toNat := by
  have ha := a.toNat_lt
  have hb := b.toNat_lt
  rw [UInt32.toNat_add]
  split_ifs <;> omega

/-- **What a call does to the head**: it moves it by the size accepted,
modulo the capacity, and by the range of 32 bits where the sum wraps. -/
theorem head_step (h : HeadInside q) (call : Call) :
    (step q call).1.head.toNat + 2 ^ 32 * (if overflows q call then 1 else 0) ≡
      q.head.toNat + (accepted call (step q call).2).sum [MOD q.capacity.toNat] := by
  by_cases hgoes : ∃ data size, call = .enqueue true (some data) size ∧ size ≤ q.capacity
  · obtain ⟨data, size, rfl, hle⟩ := hgoes
    have hover : overflows q (.enqueue true (some data) size) =
        decide (2 ^ 32 ≤ q.head.toNat + size.toNat) := by
      simp [overflows, hle]
    rw [step_enqueue_of_le h.1 hle, hover, sum_accepted]
    simp only [sent, if_true, Memory.length_bytes, UInt32.toNat_mod, decide_eq_true_eq]
    calc (q.head + size).toNat % q.capacity.toNat +
          2 ^ 32 * (if 2 ^ 32 ≤ q.head.toNat + size.toNat then 1 else 0)
        ≡ (q.head + size).toNat +
          2 ^ 32 * (if 2 ^ 32 ≤ q.head.toNat + size.toNat then 1 else 0)
          [MOD q.capacity.toNat] := (Nat.mod_modEq _ _).add_right _
      _ = q.head.toNat + size.toNat := toNat_add_wrap q.head size
  · -- the call leaves the queue and sends nothing
    have hover : overflows q call = false := by
      by_contra hwraps
      rw [Bool.not_eq_false, overflows_eq_true_iff] at hwraps
      obtain ⟨data, size, hcall, hle, -⟩ := hwraps
      exact hgoes ⟨data, size, hcall, hle⟩
    rcases step_cases q call with ⟨heq, hsent⟩ | ⟨data, size, hcall, -, hle⟩
    · rw [heq, hover, sum_accepted, hsent]
      rfl
    · exact absurd ⟨data, size, hcall, hle⟩ hgoes

/-- **The head after a run**, up to the wraps. -/
theorem head_after : ∀ (run : List Call) {q : LPNUIODataQueue}, HeadInside q →
    (after step q run).head.toNat + 2 ^ 32 * countSteps step overflows q run ≡
      q.head.toNat + (collect step accepted q run).sum [MOD q.capacity.toNat]
  | [], _, _ => rfl
  | call :: run, q, h => by
    have hstep := head_step h call
    have ih := head_after run (headInside_step h call)
    rw [capacity_step] at ih
    rw [after_cons, countSteps, collect, List.sum_append]
    calc (after step (step q call).1 run).head.toNat + 2 ^ 32 *
          ((if overflows q call then 1 else 0) + countSteps step overflows (step q call).1 run)
        = (after step (step q call).1 run).head.toNat +
          2 ^ 32 * countSteps step overflows (step q call).1 run +
          2 ^ 32 * (if overflows q call then 1 else 0) := by omega
      _ ≡ (step q call).1.head.toNat + (collect step accepted (step q call).1 run).sum +
          2 ^ 32 * (if overflows q call then 1 else 0) [MOD q.capacity.toNat] :=
        ih.add_right _
      _ = (step q call).1.head.toNat + 2 ^ 32 * (if overflows q call then 1 else 0) +
          (collect step accepted (step q call).1 run).sum := by omega
      _ ≡ q.head.toNat + (accepted call (step q call).2).sum +
          (collect step accepted (step q call).1 run).sum [MOD q.capacity.toNat] :=
        hstep.add_right _
      _ = q.head.toNat + ((accepted call (step q call).2).sum +
          (collect step accepted (step q call).1 run).sum) := Nat.add_assoc _ _ _

/-- **The head of a created queue is right after a run** exactly if the
capacity divides the ranges lost to the wraps. -/
theorem headCounts_iff_dvd (hcap : capacity ≠ 0) :
    HeadCounts (createdQueue capacity) run ↔
      capacity.toNat ∣ 2 ^ 32 * countSteps step overflows (createdQueue capacity) run := by
  have hinside := headInside_createdQueue hcap
  have hlt : (after step (createdQueue capacity) run).head.toNat < capacity.toNat := by
    have hlast := (headInside_after hinside run).2
    rwa [capacity_after] at hlast
  have hsum : (after step (createdQueue capacity) run).head.toNat +
      2 ^ 32 * countSteps step overflows (createdQueue capacity) run ≡
        (collect step accepted (createdQueue capacity) run).sum [MOD capacity.toNat] := by
    have hafter := head_after run hinside
    rwa [show (createdQueue capacity).head.toNat = 0 from rfl, Nat.zero_add] at hafter
  have hhead : HeadCounts (createdQueue capacity) run ↔
      (after step (createdQueue capacity) run).head.toNat ≡
        (collect step accepted (createdQueue capacity) run).sum [MOD capacity.toNat] := by
    rw [HeadCounts, capacity_after, Nat.ModEq, Nat.mod_eq_of_lt hlt]
    exact Iff.rfl
  rw [hhead, ← Nat.left_modEq_add_iff]
  constructor
  · intro h
    exact h.trans hsum.symm
  · intro h
    exact h.trans hsum

/-- A sum that wraps shows a capacity of more than half the range. -/
theorem lt_capacity_of_overflows (hcap : capacity ≠ 0)
    (hover : overflows (after step (createdQueue capacity) run) call = true) :
    2 ^ 31 < capacity.toNat := by
  obtain ⟨data, size, -, hle, hwraps⟩ := overflows_eq_true_iff.1 hover
  have hhead := (headInside_after (headInside_createdQueue hcap) run).2
  rw [capacity_after] at hle hhead
  have hsize : size.toNat ≤ capacity.toNat := UInt32.le_iff_toNat_le.1 hle
  have hcreated : (createdQueue capacity).capacity = capacity := rfl
  rw [hcreated] at hhead
  omega

/-- Such a capacity does not divide the range. -/
theorem not_dvd_range (hgt : 2 ^ 31 < capacity.toNat) : ¬ capacity.toNat ∣ 2 ^ 32 := by
  have hlt := capacity.toNat_lt
  rintro ⟨k, hk⟩
  have htwo : k < 2 := by
    by_contra hge
    have hmul : capacity.toNat * 2 ≤ capacity.toNat * k :=
      Nat.mul_le_mul_left _ (Nat.not_lt.1 hge)
    omega
  have hmul : capacity.toNat * k ≤ capacity.toNat * 1 :=
    Nat.mul_le_mul_left _ (Nat.le_of_lt_succ htwo)
  omega

/-- **No sum wraps between two right heads**: the capacity would divide
one range. -/
theorem overflows_eq_false_of_headCounts {pre : List Call} (hcap : capacity ≠ 0)
    (hbefore : HeadCounts (createdQueue capacity) pre)
    (hafter : HeadCounts (createdQueue capacity) (pre ++ [call])) :
    overflows (after step (createdQueue capacity) pre) call = false := by
  by_contra hover
  rw [Bool.not_eq_false] at hover
  rw [headCounts_iff_dvd hcap] at hbefore hafter
  rw [countSteps_concat, if_pos hover, Nat.mul_add] at hafter
  have hdvd : capacity.toNat ∣ 2 ^ 32 := (Nat.dvd_add_right hbefore).1 hafter
  exact not_dvd_range (lt_capacity_of_overflows hcap hover) hdvd

/-- Where no sum wraps, the head is right. -/
theorem headCounts_of_eachStep (hcap : capacity ≠ 0)
    (hsteps : EachStep step (createdQueue capacity) (fun q call => overflows q call = false) run) :
    HeadCounts (createdQueue capacity) run := by
  rw [headCounts_iff_dvd hcap, countSteps_eq_zero_iff.2 hsteps]
  exact Nat.dvd_zero _

/-- In such a queue a sum may wrap: two payloads of one byte less than
the capacity do it. -/
theorem exists_overflows (hgt : 2 ^ 31 < capacity.toNat) :
    ∃ pre call, overflows (after step (createdQueue capacity) pre) call = true := by
  have hone : 1 ≤ capacity := UInt32.le_iff_toNat_le.2 (by show 1 ≤ capacity.toNat; omega)
  have hsize : (capacity - 1).toNat = capacity.toNat - 1 := UInt32.toNat_sub_of_le _ _ hone
  have hle : capacity - 1 ≤ (createdQueue capacity).capacity := by
    rw [UInt32.le_iff_toNat_le, hsize]
    exact Nat.sub_le _ _
  refine ⟨[.enqueue true (some fun _ => 65) (capacity - 1)],
    .enqueue true (some fun _ => 66) (capacity - 1),
    overflows_eq_true_iff.2 ⟨fun _ => 66, capacity - 1, rfl, ?_, ?_⟩⟩
  · rw [capacity_after]
    exact hle
  · rw [after_cons, after_nil, step_enqueue_of_le (ne_zero_of_one_le hone) hle]
    show 2 ^ 32 ≤ ((0 + (capacity - 1)) % capacity).toNat + (capacity - 1).toNat
    rw [UInt32.zero_add, UInt32.toNat_mod, hsize, Nat.mod_eq_of_lt (by omega)]
    omega

/-- **A queue counts whatever it is sent** exactly if its capacity is at
most half the range. -/
theorem forall_headCounts_iff (hcap : capacity ≠ 0) :
    (∀ run, HeadCounts (createdQueue capacity) run) ↔ capacity.toNat ≤ 2 ^ 31 := by
  constructor
  · intro hall
    by_contra hgt
    obtain ⟨pre, call, hover⟩ := exists_overflows (Nat.not_le.1 hgt)
    have hnot := overflows_eq_false_of_headCounts hcap (hall pre) (hall (pre ++ [call]))
    rw [hover] at hnot
    cases hnot
  · intro hle run
    refine headCounts_of_eachStep hcap (eachStep_iff_prefixes.2 fun pre call _ => ?_)
    by_contra hover
    rw [Bool.not_eq_false] at hover
    exact absurd hle (Nat.not_le.2 (lt_capacity_of_overflows hcap hover))

/-- **When the head of a created queue counts what it is sent**: at the
end of a run, exactly if the capacity divides the ranges lost to the
wraps; all along it, exactly if no sum wraps. -/
theorem headCounts_iff {queue callocQueue callocData : Bool}
    (hcreate : lpnuIODataQueueCreate queue capacity callocQueue callocData =
      (some q, kIOReturnSuccess)) (hcap : 1 ≤ capacity) :
    (HeadCounts q run ↔ capacity.toNat ∣ 2 ^ 32 * countSteps step overflows q run) ∧
      ((∀ pre, pre <+: run → HeadCounts q pre) ↔
        EachStep step q (fun q call => overflows q call = false) run) := by
  obtain rfl := eq_createdQueue_of_create hcreate
  have hne := ne_zero_of_one_le hcap
  refine ⟨headCounts_iff_dvd hne, ?_, ?_⟩
  · intro hcounts
    refine eachStep_iff_prefixes.2 fun pre call hpre => ?_
    have hbefore := hcounts pre ((List.prefix_append pre [call]).trans hpre)
    exact overflows_eq_false_of_headCounts hne hbefore (hcounts (pre ++ [call]) hpre)
  · intro hsteps pre hpre
    exact headCounts_of_eachStep hne (hsteps.beginning hpre)

/-- Three bytes, and two more. -/
def fiveBytes : List Call := threeBytes ++ [.enqueue true (some fun _ => 66) 2]

theorem headCounts_five : HeadCounts (createdQueue 4) fiveBytes := by
  have hcreate : lpnuIODataQueueCreate true 4 true true =
      (some (createdQueue 4), kIOReturnSuccess) := rfl
  refine (headCounts_iff hcreate (by decide)).1.2 ?_
  exact ⟨0, rfl⟩

/-- Two payloads of half the range. -/
def twoHalves : List Call :=
  [.enqueue true (some fun _ => 65) 2147483648, .enqueue true (some fun _ => 66) 2147483648]

/-- In a queue of one byte more than half the range, the second sum
wraps to 0. -/
theorem not_headCounts_two_halves :
    lpnuIODataQueueCreate true 2147483649 true true =
        (some (createdQueue 2147483649), kIOReturnSuccess) ∧
      collect step accepted (createdQueue 2147483649) twoHalves = [2147483648, 2147483648] ∧
      (after step (createdQueue 2147483649) twoHalves).head = 0 ∧
      ¬ HeadCounts (createdQueue 2147483649) twoHalves := by
  have hsent : collect step accepted (createdQueue 2147483649) twoHalves =
      [2147483648, 2147483648] := rfl
  have hhead : (after step (createdQueue 2147483649) twoHalves).head = 0 := rfl
  refine ⟨rfl, hsent, hhead, ?_⟩
  rw [HeadCounts, capacity_after, hsent, hhead]
  decide

end DataQueue

end IOKit

end Lpnu
