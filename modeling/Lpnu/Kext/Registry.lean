import Lpnu.Kext.Load
import Mathlib.Data.List.Nodup
/-!
# The kext runtime — which records the table lists

The table should list the records whose kext is loaded, each once. A load
appends without looking whether its record is there, drops it where the
table is full, and leaves it there when it fails; `Accountable` is the
condition on a call that none of these happens, and
`tableExact_throughout_iff` says that it is the exact one.
-/

namespace Lpnu

namespace Kext

open Run

/-- **The record's most recent load returned 0 and it has not been
unloaded since**, by the calls made so far, the newest first. -/
def LoadedSince : List (Entry State Call Out) → ℕ → Prop
  | [], _ => False
  | e :: past, r =>
    match e.call with
    | .load _ (some r') _ => if r' = r then e.out.ret = 0 else LoadedSince past r
    | .unload (some r') => r' ≠ r ∧ LoadedSince past r
    | _ => LoadedSince past r

/-- **The table lists exactly the loaded records, each once.** -/
def TableExact (c : Recorded State Call Out) : Prop :=
  c.now.loadedKexts.live.Nodup ∧
    ∀ p, p ∈ c.now.loadedKexts.live ↔ ∃ r, p = some r ∧ LoadedSince c.past r

/-- **The condition on a call**: a load that goes through finds its record
unlisted and a slot free, or its record listed and no slot free; any other
load is made on a record that is not listed. -/
def Accountable (s : State) : Call → Prop
  | .load path (some r) env =>
    (GoesThrough s path env → (some r ∈ s.loadedKexts.live ↔ s.loadedKexts.count = 256)) ∧
      (¬ GoesThrough s path env → some r ∉ s.loadedKexts.live)
  | _ => True

variable {c : Recorded State Call Out} {l : List ℕ}

/-- The property, of the list in the table. -/
theorem tableExact_iff (h : Listed c.now.loadedKexts l) :
    TableExact c ↔ l.Nodup ∧ ∀ r, r ∈ l ↔ LoadedSince c.past r := by
  rw [TableExact, h.holds.live_eq, List.nodup_map_iff (Option.some_injective ℕ)]
  refine and_congr Iff.rfl ⟨fun h r => ?_, fun h p => ?_⟩
  · have hr := h (some r)
    simpa using hr
  · simp only [List.mem_map]
    constructor
    · rintro ⟨r, hr, rfl⟩
      exact ⟨r, rfl, (h r).1 hr⟩
    · rintro ⟨r, rfl, hr⟩
      exact ⟨r, (h r).2 hr, rfl⟩

/-! ## The loaded records after one call -/

theorem loadedSince_load {past : List (Entry State Call Out)} {s : State}
    {path : Option Path} {env : LoadEnv} {out : Out} {r x : ℕ} :
    LoadedSince (⟨s, .load path (some r) env, out⟩ :: past) x ↔
      if r = x then out.ret = 0 else LoadedSince past x := by
  simp only [LoadedSince]

theorem loadedSince_unload {past : List (Entry State Call Out)} {s : State} {out : Out}
    {r x : ℕ} :
    LoadedSince (⟨s, .unload (some r), out⟩ :: past) x ↔ r ≠ x ∧ LoadedSince past x :=
  Iff.rfl

/-- A load that goes through: the record joins the loaded ones, and the
list with it unless it is full. -/
theorem tableExact_load_of_goesThrough (hl : Listed c.now.loadedKexts l) (h : TableExact c)
    {path : Option Path} {env : LoadEnv} {r : ℕ} (hgo : GoesThrough c.now path env) :
    TableExact (record step c (.load path (some r) env)).1 ↔
      (some r ∈ c.now.loadedKexts.live ↔ c.now.loadedKexts.count = 256) := by
  obtain ⟨hret, hl'⟩ := load_of_goesThrough (r := r) hl hgo
  obtain ⟨hnodup, hmem⟩ := (tableExact_iff hl).1 h
  have hlen := hl.length_le
  have hloaded : ∀ x, LoadedSince (record step c (.load path (some r) env)).1.past x ↔
      x = r ∨ x ∈ l := by
    intro x
    rw [record_past, loadedSince_load, hmem x]
    by_cases hx : r = x
    · simp [hx, ← hret, step]
    · rw [if_neg hx]
      simp [Ne.symm hx]
  rw [tableExact_iff (show Listed (record step c (.load path (some r) env)).1.now.loadedKexts _
    from hl'), hl.holds.mem_live, hl.holds.count_eq]
  unfold listLoad
  -- with room the record is listed once more, without it not at all
  by_cases hfull : l.length < 256
  · rw [if_pos hfull]
    have hne : ¬ ((l.length : ℤ) = 256) := by omega
    constructor
    · rintro ⟨hnd, -⟩
      refine iff_of_false (fun hr => ?_) hne
      exact (List.nodup_append.1 hnd).2.2 r hr r (List.mem_singleton_self r) rfl
    · intro hiff
      have hr : r ∉ l := fun hr => hne (hiff.1 hr)
      refine ⟨List.nodup_append.2 ⟨hnodup, List.nodup_singleton r, ?_⟩, fun x => ?_⟩
      · intro a ha b hb hab
        rw [List.mem_singleton.1 hb] at hab
        exact hr (hab ▸ ha)
      · rw [hloaded x, List.mem_append, List.mem_singleton, or_comm]
  · rw [if_neg hfull]
    have heq : (l.length : ℤ) = 256 := by omega
    constructor
    · rintro ⟨-, hall⟩
      exact iff_of_true ((hall r).2 ((hloaded r).2 (Or.inl rfl))) heq
    · intro hiff
      refine ⟨hnodup, fun x => ?_⟩
      rw [hloaded x]
      constructor
      · exact Or.inr
      · rintro (rfl | hx)
        · exact hiff.2 heq
        · exact hx

/-- A load that fails: the record leaves the loaded ones, and the list
keeps it. -/
theorem tableExact_load_of_not_goesThrough (hl : Listed c.now.loadedKexts l)
    (h : TableExact c) {path : Option Path} {env : LoadEnv} {r : ℕ}
    (hgo : ¬ GoesThrough c.now path env) :
    TableExact (record step c (.load path (some r) env)).1 ↔
      some r ∉ c.now.loadedKexts.live := by
  obtain ⟨hret, htable⟩ := load_of_not_goesThrough (r := r) hgo
  obtain ⟨hnodup, hmem⟩ := (tableExact_iff hl).1 h
  have hl' : Listed (record step c (.load path (some r) env)).1.now.loadedKexts l := by
    rw [record_now, step, htable]
    exact hl
  have hloaded : ∀ x, LoadedSince (record step c (.load path (some r) env)).1.past x ↔
      x ≠ r ∧ x ∈ l := by
    intro x
    rw [record_past, loadedSince_load, hmem x]
    by_cases hx : r = x
    · simp only [hx, if_true, ne_eq, not_true, false_and, iff_false]
      rw [← hx]
      exact hret
    · rw [if_neg hx]
      simp [Ne.symm hx]
  rw [tableExact_iff hl', hl.holds.mem_live]
  constructor
  · rintro ⟨-, hall⟩ hr
    exact ((hloaded r).1 ((hall r).1 hr)).1 rfl
  · intro hr
    refine ⟨hnodup, fun x => ?_⟩
    rw [hloaded x]
    refine ⟨fun hx => ⟨?_, hx⟩, And.right⟩
    rintro rfl
    exact hr hx

/-- An unload takes the record out of both. -/
theorem tableExact_unload (hl : Listed c.now.loadedKexts l) (h : TableExact c) (r : ℕ) :
    TableExact (record step c (.unload (some r))).1 := by
  obtain ⟨hnodup, hmem⟩ := (tableExact_iff hl).1 h
  have hl' : Listed (record step c (.unload (some r))).1.now.loadedKexts (l.erase r) :=
    listed_unload hl r
  refine (tableExact_iff hl').2 ⟨hnodup.erase r, fun x => ?_⟩
  rw [record_past, loadedSince_unload, hnodup.mem_erase_iff, hmem x]
  exact and_congr ne_comm Iff.rfl

/-- A call that changes neither the table nor what is loaded. -/
theorem tableExact_of_eq {call : Call}
    (htable : (step c.now call).1.loadedKexts = c.now.loadedKexts)
    (hpast : ∀ x, LoadedSince (record step c call).1.past x ↔ LoadedSince c.past x) :
    TableExact (record step c call).1 ↔ TableExact c := by
  simp only [TableExact, record_now, htable, hpast]

/-- **One call keeps the table exact if and only if it is accountable.** -/
theorem tableExact_step_iff (hl : ∃ l, Listed c.now.loadedKexts l) (h : TableExact c)
    (call : Call) : TableExact (record step c call).1 ↔ Accountable c.now call := by
  obtain ⟨l, hl⟩ := hl
  cases call with
  | setRuntime enabled =>
    have htable : (step c.now (.setRuntime enabled)).1.loadedKexts = c.now.loadedKexts :=
      (setRuntime_frame c.now enabled).1
    exact iff_of_true ((tableExact_of_eq htable fun _ => Iff.rfl).2 h) trivial
  | load path info env =>
    cases info with
    | none =>
      refine iff_of_true ((tableExact_of_eq ?_ fun _ => Iff.rfl).2 h) trivial
      rw [step, lpnuKextLoad_none]
    | some r =>
      rw [Accountable]
      by_cases hgo : GoesThrough c.now path env
      · rw [tableExact_load_of_goesThrough hl h hgo]
        simp [hgo]
      · rw [tableExact_load_of_not_goesThrough hl h hgo]
        simp [hgo]
  | unload info =>
    cases info with
    | none => exact iff_of_true ((tableExact_of_eq rfl fun _ => Iff.rfl).2 h) trivial
    | some r => exact iff_of_true (tableExact_unload hl h r) trivial
  | loadBootKexts =>
    refine iff_of_true ((tableExact_of_eq ?_ fun _ => Iff.rfl).2 h) trivial
    rw [step, loadBootKexts_eq]

theorem tableExact_start : TableExact start := by
  refine (tableExact_iff Table.fits_empty).2 ⟨List.nodup_nil, fun r => ?_⟩
  simp [start, LoadedSince]

/-- **When the table lists exactly the loaded records throughout a run**:
if and only if every call of the run is accountable. -/
theorem tableExact_throughout_iff (run : List Call) :
    Throughout (record step) start TableExact run ↔
      EachStep step State.init Accountable run := by
  have hinv : ∀ (c : Recorded State Call Out) call, (∃ l, Listed c.now.loadedKexts l) →
      TableExact c → ∃ l, Listed (record step c call).1.now.loadedKexts l :=
    fun c call hl _ => listed_step hl call
  rw [throughout_iff_eachStep' hinv (fun c call hl h => tableExact_step_iff hl h call)
    ⟨[], Table.fits_empty⟩ tableExact_start]
  exact eachStep_record

/-- A host that finds the file, opens it and finds no `kext_main` in it. -/
def plainHost : LoadEnv := ⟨some 1, some 1, fun _ => none, 0⟩

/-- One record loaded twice: the table lists it twice. -/
theorem not_tableExact_loaded_twice :
    ¬ TableExact (after (record step) start
      [.setRuntime 1, .load (some (.apart CString.a)) (some 0) plainHost,
        .load (some (.apart CString.a)) (some 0) plainHost]) := by
  rintro ⟨hnodup, -⟩
  exact absurd hnodup (by decide)

end Kext

end Lpnu
