import Lpnu.Kext.Load
/-!
# The kext runtime — the table as a list

`g_loaded_kexts`, of 256 slots and a count, against the list it stands
for: a load that succeeds appends, where there is room, and an unload
takes the first occurrence away. `listing_throughout` is the refinement,
with the bounds its loops and its readers rely on.
-/

namespace Lpnu

namespace Kext

open Run

/-- The list after the calls made so far, the newest first. -/
def listOf : List (Entry State Call Out) → List ℕ
  | [] => []
  | e :: past => listStep (listOf past) e.call e.out.ret

/-- **The table refines the list**: the slots in use hold it, none of them
null, the count is within the array, and the loops of every unload so far
stayed below the count they ran under. -/
structure Listing (c : Recorded State Call Out) : Prop where
  live_eq : c.now.loadedKexts.live = (listOf c.past).map some
  count_nonneg : 0 ≤ c.now.loadedKexts.count
  count_le : c.now.loadedKexts.count ≤ 256
  no_null : ∀ i : ℕ, (i : ℤ) < c.now.loadedKexts.count → c.now.loadedKexts.slots i ≠ none
  loops : ∀ e ∈ c.past, ∀ r, e.call = .unload (some r) →
    ∀ acc ∈ e.out.accesses, (acc.index : ℤ) < e.before.loadedKexts.count

variable {s : State} {c : Recorded State Call Out} {l : List ℕ}

/-- The loops of an unload stay below the count. -/
theorem unload_accesses (s : State) (r : ℕ) :
    ∀ acc ∈ (step s (.unload (some r))).2.accesses, (acc.index : ℤ) < s.loadedKexts.count :=
  fun acc hacc => (Table.removeFirst_accesses acc hacc).1

/-- The loops of the unloads so far were bounded. -/
def LoopsBounded (past : List (Entry State Call Out)) : Prop :=
  ∀ e ∈ past, ∀ r, e.call = .unload (some r) →
    ∀ acc ∈ e.out.accesses, (acc.index : ℤ) < e.before.loadedKexts.count

theorem loopsBounded_record (h : LoopsBounded c.past) (call : Call) :
    LoopsBounded (record step c call).1.past := by
  refine forall_mem_record_past.2 ⟨fun r hcall => ?_, h⟩
  obtain rfl : call = .unload (some r) := hcall
  exact unload_accesses c.now r

/-- A table that holds the list has what its readers rely on. -/
theorem listing_of (hl : Listed c.now.loadedKexts (listOf c.past))
    (hloops : LoopsBounded c.past) : Listing c := by
  refine ⟨hl.holds.live_eq, hl.count_nonneg, hl.count_le, fun i hi => ?_, hloops⟩
  rw [hl.holds.count_eq] at hi
  rw [hl.holds.slot_eq i (by omega), List.getElem?_eq_getElem (by omega)]
  exact Option.some_ne_none _

/-- **Every run refines the list**, from the start. -/
theorem listing_throughout (records : ℕ → LPnuKextInfo) (run : List Call) :
    Throughout (record step) (startWith records) Listing run := by
  have hboth : Throughout (record step) (startWith records)
      (fun c => Listed c.now.loadedKexts (listOf c.past) ∧ LoopsBounded c.past) run := by
    refine throughout_of_inv' ?_ ⟨Table.fits_empty, fun e he => absurd he List.not_mem_nil⟩
    intro c call ⟨hl, hloops⟩
    exact ⟨listed_listStep hl call, loopsBounded_record hloops call⟩
  exact fun pre hpre => listing_of (hboth pre hpre).1 (hboth pre hpre).2

end Kext

end Lpnu
