import Lpnu.Dyld.Model
import Mathlib.Data.List.Induction
/-!
# dyld — the registry is a list

`imageListStep` says what the registry is for: a list of at most 255
images, added at the end and removed at their first occurrence.
`registry_refines_imageList` is the refinement. What the array shows past
its count is another matter: `LPNUdyld_get_all_images` exports the array
and not the count, so a caller reads up to the first null slot, and
`scan_getAllImages_iff` says in which states that is the list.
-/

namespace Lpnu

namespace Dyld

open Run

/-! ## The abstract list -/

/-- **What the registry is for**: a list of at most 255 images. -/
def imageListStep (l : List ℕ) : RegistryCall → List ℕ × Option ℤ
  | .addImage none => (l, some (-1))
  | .addImage (some a) => if l.length < 255 then (l ++ [a], some 0) else (l, some (-1))
  | .removeImage none => (l, none)
  | .removeImage (some a) => (l.erase a, none)

/-- The table is the list, and the list fits the array with a slot to
spare. -/
abbrev Registers (t : Table ℕ) (l : List ℕ) : Prop := Table.Fits 255 t l

variable {t : Table ℕ} {l : List ℕ}

/-- **One call of the registry is one call of the list**, with the same
return value, and leaves the last slot alone. -/
theorem registryStep_refines (h : Registers t l) (call : RegistryCall) :
    Registers (registryStep t call).1 (imageListStep l call).1 ∧
      (registryStep t call).2.ret = (imageListStep l call).2 ∧
      Access.write 255 ∉ (registryStep t call).2.accesses := by
  have hlen := h.length_le
  have hcount := h.holds.count_eq
  cases call with
  | addImage image =>
    cases image with
    | none => exact ⟨h, rfl, List.not_mem_nil⟩
    | some a =>
      simp only [registryStep, lpnuDyldAddImage, imageListStep]
      by_cases hfull : l.length < 255
      · rw [if_neg (by omega), if_pos hfull]
        refine ⟨h.push hfull, rfl, ?_⟩
        simp only [Table.push, h.holds.toNat_count, List.mem_singleton, Access.write.injEq]
        omega
      · rw [if_pos (by omega), if_neg hfull]
        exact ⟨h, rfl, List.not_mem_nil⟩
  | removeImage image =>
    cases image with
    | none => exact ⟨h, rfl, List.not_mem_nil⟩
    | some a =>
      refine ⟨h.removeFirst, rfl, fun hacc => ?_⟩
      have hwrite := (Table.removeFirst_accesses _ hacc).2 255 rfl
      omega

/-- Whatever the run, the table is the list the abstract run ends in. -/
theorem registers_after (run : List RegistryCall) :
    Registers (after registryStep Table.empty run) (after imageListStep [] run) ∧
      (outputs registryStep Table.empty run).map Out.ret = outputs imageListStep [] run := by
  refine simulates (fun t l call h => ?_) Table.fits_empty
  obtain ⟨hrel, hret, -⟩ := registryStep_refines h call
  exact ⟨hrel, hret⟩

/-- **The registry refines the list.** After any run the slots below the
count are the list's elements in order, every call has returned what the
list's does, the count has stayed in `[0, 255]` and slot 255 has not been
written. -/
theorem registry_refines_imageList (run : List RegistryCall) :
    (after registryStep Table.empty run).live = (after imageListStep [] run).map some ∧
      (outputs registryStep Table.empty run).map Out.ret = outputs imageListStep [] run ∧
      0 ≤ (after registryStep Table.empty run).count ∧
      (after registryStep Table.empty run).count ≤ 255 ∧
      ∀ out ∈ outputs registryStep Table.empty run, Access.write 255 ∉ out.accesses := by
  obtain ⟨hreg, hret⟩ := registers_after run
  refine ⟨hreg.holds.live_eq, hret, hreg.count_nonneg, hreg.count_le, ?_⟩
  refine forall_outputs (I := fun t => ∃ l, Registers t l) (fun t call h => ?_)
    ⟨[], Table.fits_empty⟩
  obtain ⟨l, hl⟩ := h
  obtain ⟨hrel, -, hwrite⟩ := registryStep_refines hl call
  exact ⟨⟨_, hrel⟩, hwrite⟩

/-! ## What a caller of `LPNUdyld_get_all_images` reads

A removal leaves the last slot it vacates as it was, so the slots past
the count stay non-null up to the highest count the registry has had. -/

/-- The entries from slot `i` up to the first null one, if there is one
among the next `n` slots. -/
def scanImages (slots : ℕ → Option ℕ) : ℕ → ℕ → Option (List ℕ)
  | 0, _ => none
  | n + 1, i =>
    match slots i with
    | none => some []
    | some a => (scanImages slots n (i + 1)).map (a :: ·)

/-- **The exported array shows the registered images**: read from slot 0
to its first null entry, within its 256 slots, it gives the slots in use,
in order. -/
def ScanShowsRegistered (t : Table ℕ) : Prop :=
  (scanImages (lpnuDyldGetAllImages t) 256 0).map (List.map some) = some t.live

/-- The non-null slots are those below `hw`. -/
structure HighWater (t : Table ℕ) (hw : ℕ) : Prop where
  used : ∀ i, (t.slots i).isSome ↔ i < hw
  count_le : t.count ≤ hw
  le : hw ≤ 255

theorem highWater_empty : HighWater Table.empty 0 :=
  ⟨by simp [Table.empty], by simp [Table.empty], by omega⟩

variable {hw : ℕ}

/-- An insertion raises the mark only from its top. -/
theorem HighWater.push (h : HighWater t hw) (hr : Registers t l) (hfull : l.length < 255)
    (a : ℕ) : HighWater (t.push a).1 (max hw (l.length + 1)) := by
  have hcount := hr.holds.count_eq
  have hle := h.count_le
  refine ⟨fun i => ?_, ?_, ?_⟩
  · by_cases hi : i = l.length
    · have hself : (t.push a).1.slots i = some a := by
        rw [hi, ← hr.holds.toNat_count]; exact Table.push_slots_self
      rw [hself]
      simp only [Option.isSome_some, true_iff]
      omega
    · rw [Table.push_slots_of_ne (by omega) (by omega), h.used i]
      omega
  · simp only [Table.push, hcount]
    omega
  · have := h.le
    omega

/-- A removal moves the mark in no direction. -/
theorem HighWater.removeFirst (h : HighWater t hw) (hr : Registers t l) (a : ℕ) :
    HighWater (t.removeFirst a).1 hw := by
  have hcount := hr.holds.count_eq
  have hle := h.count_le
  have hholds := hr.holds.removeFirst (x := a)
  have hlen : l.length - 1 ≤ (l.erase a).length := List.le_length_erase
  have hlen' : (l.erase a).length ≤ l.length := List.erase_sublist.length_le
  refine ⟨fun i => ?_, ?_, h.le⟩
  · -- below the last slot in use the list says what is there, above it nothing moved
    by_cases hi : l.length ≤ i + 1
    · rw [hr.holds.removeFirst_slots_of_le hi, h.used i]
    · have hi' : i < (l.erase a).length := by omega
      rw [hholds.slot_eq i hi', List.getElem?_eq_getElem hi']
      simp only [Option.isSome_some, true_iff]
      omega
  · rw [hholds.count_eq]
    omega

/-- **One call raises the mark to the new count, or leaves it.** -/
theorem HighWater.step (h : HighWater t hw) (hr : Registers t l) (call : RegistryCall) :
    HighWater (registryStep t call).1 (max hw (imageListStep l call).1.length) := by
  have hcount := hr.holds.count_eq
  have hle := h.count_le
  have hkeep : max hw l.length = hw := by omega
  cases call with
  | addImage image =>
    cases image with
    | none => simpa only [registryStep, lpnuDyldAddImage, imageListStep, hkeep] using h
    | some a =>
      simp only [registryStep, lpnuDyldAddImage, imageListStep]
      by_cases hfull : l.length < 255
      · rw [if_neg (by omega), if_pos hfull, List.length_append, List.length_singleton]
        exact h.push hr hfull a
      · rw [if_pos (by omega), if_neg hfull, hkeep]
        exact h
  | removeImage image =>
    cases image with
    | none => simpa only [registryStep, lpnuDyldRemoveImage, imageListStep, hkeep] using h
    | some a =>
      have hlen : (l.erase a).length ≤ l.length := List.erase_sublist.length_le
      have hkeep' : max hw (l.erase a).length = hw := by omega
      simp only [registryStep, lpnuDyldRemoveImage, imageListStep, hkeep']
      exact h.removeFirst hr a

/-- **The mark of a run is the highest count it reached.** -/
theorem highWater_after (run : List RegistryCall) :
    ∃ hw, HighWater (after registryStep Table.empty run) hw ∧
      (∀ pre, pre <+: run → (after registryStep Table.empty pre).count ≤ hw) ∧
      ∃ pre, pre <+: run ∧ (after registryStep Table.empty pre).count = hw := by
  induction run using List.reverseRecOn with
  | nil => exact ⟨0, highWater_empty, by simp [Table.empty], [], List.nil_prefix, rfl⟩
  | append_singleton run call ih =>
    obtain ⟨hw, hmark, hbound, pre, hpre, heq⟩ := ih
    have hr := (registers_after run).1
    have hr' := (registers_after (run ++ [call])).1
    have hcount := hr'.holds.count_eq
    have hstep := hmark.step hr call
    rw [after_concat] at hcount ⊢
    rw [after_concat] at hcount
    refine ⟨_, hstep, fun pre' hpre' => ?_, ?_⟩
    · rcases List.prefix_concat_iff.1 hpre' with rfl | hpre'
      · rw [after_concat]
        omega
      · have := hbound pre' hpre'
        omega
    · rcases Nat.le_total (imageListStep (after imageListStep [] run) call).1.length hw with
        hle | hle
      · exact ⟨pre, hpre.trans (List.prefix_append _ _), by omega⟩
      · exact ⟨run ++ [call], List.prefix_rfl, by rw [after_concat]; omega⟩

/-- The scan stops at the mark. -/
theorem scanImages_eq {slots : ℕ → Option ℕ} (h : ∀ i, (slots i).isSome ↔ i < hw) :
    ∀ n i, i ≤ hw → hw < i + n → ∃ m, scanImages slots n i = some m ∧
      m.map some = (List.range' i (hw - i)).map slots := by
  intro n
  induction n with
  | zero => intro i h1 h2; omega
  | succ n ih =>
    intro i h1 h2
    rcases Nat.lt_or_ge i hw with hlt | hge
    · obtain ⟨a, ha⟩ := Option.isSome_iff_exists.1 ((h i).2 hlt)
      obtain ⟨m, hm, hmap⟩ := ih (i + 1) (by omega) (by omega)
      refine ⟨a :: m, by rw [scanImages, ha]; simp [hm], ?_⟩
      rw [show hw - i = (hw - (i + 1)) + 1 by omega, List.range'_succ, List.map_cons,
        List.map_cons, hmap, ha]
    · have hnone : slots i = none := by
        have := (h i).not.2 (by omega)
        simpa using this
      refine ⟨[], by rw [scanImages, hnone], ?_⟩
      simp [show hw - i = 0 by omega]

theorem scanShowsRegistered_iff (h : HighWater t hw) (hr : Registers t l) :
    ScanShowsRegistered t ↔ t.count = hw := by
  obtain ⟨m, hm, hmap⟩ := scanImages_eq h.used 256 0 (by omega) (by have := h.le; omega)
  have hcount := hr.holds.toNat_count
  have hnonneg := hr.count_nonneg
  rw [ScanShowsRegistered, lpnuDyldGetAllImages, hm, Option.map_some, Option.some.injEq, hmap,
    Table.live, List.range_eq_range', Nat.sub_zero]
  constructor
  · intro heq
    have hlen := congrArg List.length heq
    simp only [List.length_map, List.length_range'] at hlen
    omega
  · intro heq
    rw [heq, Int.toNat_natCast]

/-- **What a caller reads, exactly.** After a run the scan of the exported
array gives the registered images if and only if the registry has never
held more of them than it does now. -/
theorem scan_getAllImages_iff (run : List RegistryCall) :
    ScanShowsRegistered (after registryStep Table.empty run) ↔
      ∀ pre, pre <+: run → (after registryStep Table.empty pre).count ≤
        (after registryStep Table.empty run).count := by
  obtain ⟨hw, hmark, hbound, pre, hpre, heq⟩ := highWater_after run
  rw [scanShowsRegistered_iff hmark (registers_after run).1]
  constructor
  · intro hcount pre' hpre'
    rw [hcount]
    exact hbound pre' hpre'
  · intro hmax
    exact Int.le_antisymm hmark.count_le (heq ▸ hmax pre hpre)

/-- One image registered and removed again: the scan still shows it. -/
theorem not_scanShowsRegistered_add_remove :
    ¬ ScanShowsRegistered
      (after registryStep Table.empty [.addImage (some 7), .removeImage (some 7)]) := by
  unfold ScanShowsRegistered
  decide

end Dyld

end Lpnu
