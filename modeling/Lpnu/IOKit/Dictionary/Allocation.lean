import Lpnu.IOKit.Dictionary.Model
import Lpnu.Objects.Ownership
/-!
# IODictionary — what its arrays are when memory runs out

`Create` tests the block of the dictionary and neither of the two arrays,
so it succeeds with an array missing. Nothing goes wrong then until a key
is set: `sound_iff`. What it asks the allocator for and gives back is read
off `Objects.lpnuIODictionaryCreate`.
-/

namespace Lpnu

namespace IOKit

open Blocks (Owns)
open IOReturn Run

namespace Dictionary

/-- A call that stays inside the arrays: it does not go through a null one
and touches slots below 16 only. -/
def Inside (r : Except Fault Out) : Prop :=
  ∃ out, r = .ok out ∧ (∀ acc ∈ out.keyAccesses, acc.index < 16) ∧
    ∀ acc ∈ out.valueAccesses, acc.index < 16

/-- **What `Create` leaves is sound**: a dictionary it hands out stays
inside its arrays whatever is called on it, and where it fails it hands out
none and leaves in use the blocks that were in use before. -/
structure Sound (dict callocDict callocKeys callocValues : Bool) (strings : ℕ → CString)
    (run : List Call) : Prop where
  inside : ∀ d, lpnuIODictionaryCreate dict callocDict callocKeys callocValues =
    (some d, kIOReturnSuccess) → ∀ r ∈ outputs step ⟨strings, d⟩ run, Inside r
  undone : (lpnuIODictionaryCreate dict callocDict callocKeys callocValues).2 ≠ kIOReturnSuccess →
    (lpnuIODictionaryCreate dict callocDict callocKeys callocValues).1 = none ∧
      ∀ m blocks, Owns m blocks →
        Owns (Objects.lpnuIODictionaryCreate dict callocDict callocKeys callocValues m).2 blocks

/-- A call that sets a key. -/
def SetsKey (call : Call) : Prop := ∃ key value, call = .set true (some key) value

variable {s : State} {d : LPNUIODictionary} {strings : ℕ → CString} {call : Call} {key : ℕ}
variable {value : Option ℕ} {reads : List Access}

/-- The results of a call that touches no array. -/
theorem inside_of_untouched {out : Out} (hkeys : out.keyAccesses = [])
    (hvalues : out.valueAccesses = []) : Inside (.ok out) := by
  refine ⟨out, rfl, ?_, ?_⟩
  · rw [hkeys]
    simp
  · rw [hvalues]
    simp

/-! ## Both arrays -/

/-- A dictionary with both its arrays, and no more in them than they
hold. -/
structure Allocated (d : LPNUIODictionary) : Prop where
  keys : d.keys.isSome
  values : d.values.isSome
  count_le : d.count.toNat ≤ 16
  capacity_eq : d.capacity = 16

theorem findKey_of_allocated (h : Allocated d) (strings : ℕ → CString) (key : ℕ) :
    ∃ found reads, findKey strings d key = .ok (found, reads) ∧
      (∀ acc ∈ reads, acc.index < 16) ∧ ∀ i, found = some i → i < 16 := by
  obtain ⟨slots, hslots⟩ := Option.isSome_iff_exists.1 h.keys
  have hcount := h.count_le
  refine ⟨_, _, by rw [findKey, hslots], fun acc hacc => ?_, fun i hi => ?_⟩
  · obtain ⟨i, hi, rfl⟩ := search_reads _ acc hacc
    rw [List.mem_range] at hi
    show i < 16
    omega
  · have hmem := search_mem hi
    rw [List.mem_range] at hmem
    omega

theorem addKey_of_allocated (h : Allocated d) (hreads : ∀ acc ∈ reads, acc.index < 16) :
    Allocated (addKey d key value reads).1 ∧ Inside (addKey d key value reads).2 := by
  obtain ⟨keys, hkeys⟩ := Option.isSome_iff_exists.1 h.keys
  obtain ⟨values, hvalues⟩ := Option.isSome_iff_exists.1 h.values
  unfold addKey
  by_cases hroom : d.count < d.capacity
  · have hlt : d.count.toNat < 16 := by
      rw [UInt32.lt_iff_toNat_lt, h.capacity_eq] at hroom
      exact hroom
    have hwrite : (Access.write d.count.toNat).index < 16 := hlt
    rw [if_pos hroom, hkeys, hvalues]
    refine ⟨⟨rfl, rfl, ?_, h.capacity_eq⟩, _, rfl, ?_, ?_⟩
    · rw [UInt32.toNat_add, UInt32.toNat_one]
      omega
    · intro acc hacc
      rcases List.mem_append.1 hacc with hacc | hacc
      · exact hreads acc hacc
      · rw [List.mem_singleton.1 hacc]
        exact hwrite
    · intro acc hacc
      rw [List.mem_singleton.1 hacc]
      exact hwrite
  · rw [if_neg hroom]
    exact ⟨h, _, rfl, hreads, by simp⟩

theorem set_of_allocated (h : Allocated d) (dict : Bool) (key value : Option ℕ) :
    Allocated (lpnuIODictionarySet strings d dict key value).1 ∧
      Inside (lpnuIODictionarySet strings d dict key value).2 := by
  rcases dict with _ | _
  · exact ⟨h, inside_of_untouched rfl rfl⟩
  rcases key with _ | key
  · exact ⟨h, inside_of_untouched rfl rfl⟩
  obtain ⟨found, reads, hfind, hreads, hfound⟩ := findKey_of_allocated h strings key
  obtain ⟨values, hvalues⟩ := Option.isSome_iff_exists.1 h.values
  unfold lpnuIODictionarySet
  simp only [hfind]
  cases found with
  | none => exact addKey_of_allocated h hreads
  | some i =>
    simp only [hvalues]
    refine ⟨⟨h.keys, rfl, h.count_le, h.capacity_eq⟩, _, rfl, hreads, fun acc hacc => ?_⟩
    rw [List.mem_singleton.1 hacc]
    exact hfound i rfl

theorem copy_of_allocated (h : Allocated d) (dict : Bool) (key : Option ℕ) :
    Inside (lpnuIODictionaryCopy strings d dict key) := by
  rcases dict with _ | _
  · exact inside_of_untouched rfl rfl
  rcases key with _ | key
  · exact inside_of_untouched rfl rfl
  obtain ⟨found, reads, hfind, hreads, hfound⟩ := findKey_of_allocated h strings key
  obtain ⟨values, hvalues⟩ := Option.isSome_iff_exists.1 h.values
  unfold lpnuIODictionaryCopy
  simp only [hfind]
  cases found with
  | none => exact ⟨_, rfl, hreads, by simp⟩
  | some i =>
    simp only [hvalues]
    refine ⟨_, rfl, hreads, fun acc hacc => ?_⟩
    rw [List.mem_singleton.1 hacc]
    exact hfound i rfl

/-- **Every call on a dictionary with both arrays stays inside them**, and
leaves it so. -/
theorem step_of_allocated (h : Allocated s.dict) (call : Call) :
    Allocated (step s call).1.dict ∧ Inside (step s call).2 := by
  cases call with
  | set dict key value => exact set_of_allocated h dict key value
  | copy dict key => exact ⟨h, copy_of_allocated h dict key⟩
  | overwrite addr string => exact ⟨h, inside_of_untouched rfl rfl⟩

/-! ## An array missing -/

/-- An empty dictionary with an array missing. -/
structure Bare (d : LPNUIODictionary) : Prop where
  missing : d.keys = none ∨ d.values = none
  count_eq : d.count = 0
  capacity_eq : d.capacity = 16

/-- No slot is in use, so the search touches nothing. -/
theorem findKey_of_bare (h : Bare d) : findKey strings d key = .ok (none, []) := by
  unfold findKey
  cases d.keys with
  | none => exact if_pos h.count_eq
  | some slots =>
    rw [h.count_eq]
    rfl

/-- **Setting a key goes through the null array.** -/
theorem set_of_bare (h : Bare d) :
    (lpnuIODictionarySet strings d true (some key) value).2 = .error .nullArray := by
  have hroom : d.count < d.capacity := by
    rw [h.count_eq, h.capacity_eq]
    decide
  unfold lpnuIODictionarySet
  simp only [findKey_of_bare h, addKey, if_pos hroom]
  cases hkeys : d.keys with
  | none => rfl
  | some keys =>
    rw [h.missing.resolve_left (by rw [hkeys]; simp)]

/-- Any other call changes nothing and touches nothing. -/
theorem step_of_bare (h : Bare s.dict) (hcall : ¬ SetsKey call) :
    (step s call).1.dict = s.dict ∧ Inside (step s call).2 := by
  cases call with
  | set dict key value =>
    rcases dict with _ | _
    · exact ⟨rfl, inside_of_untouched rfl rfl⟩
    rcases key with _ | key
    · exact ⟨rfl, inside_of_untouched rfl rfl⟩
    exact absurd ⟨key, value, rfl⟩ hcall
  | copy dict key =>
    refine ⟨rfl, ?_⟩
    rcases dict with _ | _
    · exact inside_of_untouched rfl rfl
    rcases key with _ | key
    · exact inside_of_untouched rfl rfl
    simp only [step, lpnuIODictionaryCopy, findKey_of_bare h]
    exact inside_of_untouched rfl rfl
  | overwrite addr string => exact ⟨rfl, inside_of_untouched rfl rfl⟩

/-- **A run on it stays inside exactly if it sets no key.** -/
theorem inside_iff_of_bare : ∀ {run : List Call} {s : State}, Bare s.dict →
    ((∀ r ∈ outputs step s run, Inside r) ↔ ∀ call ∈ run, ¬ SetsKey call)
  | [], _, _ => by simp
  | call :: run, s, h => by
    rw [outputs_cons, List.forall_mem_cons, List.forall_mem_cons]
    by_cases hcall : SetsKey call
    · obtain ⟨key, value, rfl⟩ := hcall
      have hfault : ¬ Inside (step s (.set true (some key) value)).2 := by
        rintro ⟨out, hout, -⟩
        rw [step, set_of_bare h] at hout
        cases hout
      exact iff_of_false (fun hin => hfault hin.1) fun hno => hno.1 ⟨key, value, rfl⟩
    · obtain ⟨hdict, hin⟩ := step_of_bare h hcall
      rw [inside_iff_of_bare (s := (step s call).1) (hdict ▸ h)]
      exact and_congr (iff_of_true hin hcall) Iff.rfl

/-- Where no dictionary is handed out there is nothing to call, and no
block is left. -/
theorem sound_of_failed {dict callocDict callocKeys callocValues : Bool} {run : List Call}
    (hnone : (lpnuIODictionaryCreate dict callocDict callocKeys callocValues).1 = none)
    (hblocks : ∀ m, (Objects.lpnuIODictionaryCreate dict callocDict callocKeys callocValues
      m).1.2 = none) :
    Sound dict callocDict callocKeys callocValues strings run := by
  refine ⟨fun d hd => ?_, fun _ => ⟨hnone, fun m blocks hm => ?_⟩⟩
  · rw [hd] at hnone
    cases hnone
  · have howns := Objects.handsOut_dictionary dict callocDict callocKeys callocValues m blocks hm
    rw [Objects.handedOut, hblocks m] at howns
    exact howns

/-- **What `Create` leaves is sound if and only if it has both arrays, or
no key is set.** -/
theorem sound_iff (dict callocDict callocKeys callocValues : Bool) (strings : ℕ → CString)
    (run : List Call) :
    Sound dict callocDict callocKeys callocValues strings run ↔
      (dict = true → callocDict = true →
        (callocKeys = true ∧ callocValues = true) ∨ ∀ call ∈ run, ¬ SetsKey call) := by
  rcases dict with _ | _
  · exact iff_of_true (sound_of_failed rfl fun _ => rfl) (by simp)
  rcases callocDict with _ | _
  · exact iff_of_true (sound_of_failed rfl fun _ => rfl) (by simp)
  have hcreate : lpnuIODictionaryCreate true true callocKeys callocValues =
      (some ⟨callocArray callocKeys, callocArray callocValues, 0, 16⟩, kIOReturnSuccess) := rfl
  have hsound : Sound true true callocKeys callocValues strings run ↔
      ∀ r ∈ outputs step ⟨strings, ⟨callocArray callocKeys, callocArray callocValues, 0, 16⟩⟩ run,
        Inside r := by
    constructor
    · exact fun h => h.inside _ hcreate
    · intro h
      refine ⟨fun d hd => ?_, fun hfail => absurd (by rw [hcreate]) hfail⟩
      obtain rfl := Option.some.inj (Prod.mk.inj (hcreate.symm.trans hd)).1
      exact h
  rw [hsound]
  by_cases hboth : callocKeys = true ∧ callocValues = true
  · obtain ⟨rfl, rfl⟩ := hboth
    refine iff_of_true ?_ fun _ _ => Or.inl ⟨rfl, rfl⟩
    have hstep : ∀ (s : State) (call : Call), Allocated s.dict →
        Allocated (step s call).1.dict ∧ Inside (step s call).2 :=
      fun s call h => step_of_allocated h call
    exact forall_outputs hstep ⟨rfl, rfl, Nat.zero_le 16, rfl⟩
  · have hbare : Bare ⟨callocArray callocKeys, callocArray callocValues, 0, 16⟩ := by
      refine ⟨?_, rfl, rfl⟩
      rcases callocKeys with _ | _
      · exact Or.inl rfl
      rcases callocValues with _ | _
      · exact Or.inr rfl
      exact absurd ⟨rfl, rfl⟩ hboth
    rw [inside_iff_of_bare hbare]
    simp [hboth]

/-- No memory for the keys: the first key set goes through the null
array. -/
theorem not_sound_without_keys :
    ¬ Sound true true false true (fun _ => CString.a) [.set true (some 0) none] := by
  intro h
  obtain ⟨out, hout, -⟩ := h.inside _ rfl _ (List.mem_singleton_self _)
  cases hout

end Dictionary

end IOKit

end Lpnu
