import Lpnu.Common.CArray
import Lpnu.Common.Run
import Lpnu.IOKit.Basic
import Mathlib.Logic.Function.Basic
/-!
# IORegistryEntry

The registry entry of `lpnu_iokit.c`: a name, a class and eight slots for
the values of its properties, with their number. `SetProperty` keeps a
value while there is a slot for it and succeeds either way, and
`CopyProperty` finds none. `propertyKept_iff` says when a value that is
set is kept, and `holdsFirst_run` which ones a run leaves.
-/

namespace Lpnu

namespace IOKit

open IOReturn

/-- `struct LPNUIORegistryEntry`. The slots are given over all indices;
eight of them belong to the entry. -/
structure LPNUIORegistryEntry where
  name : Option CString
  className : CString
  allocs : ℕ → Option ℕ
  allocCount : UInt32

/-- The bytes of `"IORegistryEntry"`. -/
def ioRegistryEntryClassName : CString :=
  ⟨[73, 79, 82, 101, 103, 105, 115, 116, 114, 121, 69, 110, 116, 114, 121], by decide⟩

/-- An entry as it is created, over zeroed memory. -/
def createdRegistryEntry (name : Option CString) : LPNUIORegistryEntry where
  name := name
  className := ioRegistryEntryClassName
  allocs := fun _ => none
  allocCount := 0

/-- `LPNUIORegistryEntryCreate`: what it stores through its out-parameter
and what it returns. -/
def lpnuIORegistryEntryCreate (entry : Bool) (name : Option CString) (calloc : Bool) :
    Option LPNUIORegistryEntry × IOReturn :=
  if entry then
    if calloc then (some (createdRegistryEntry name), kIOReturnSuccess)
    else (none, kIOReturnNoMemory)
  else (none, kIOReturnBadArgument)

/-- `LPNUIORegistryEntrySetProperty`. The key is tested and not kept. -/
def lpnuIORegistryEntrySetProperty (e : LPNUIORegistryEntry) (entry : Bool)
    (key : Option CString) (value : Option ℕ) : LPNUIORegistryEntry × IOReturn :=
  match entry, key with
  | true, some _ =>
    if e.allocCount < 8 then
      ({ e with
          allocs := Function.update e.allocs e.allocCount.toNat value
          allocCount := e.allocCount + 1 }, kIOReturnSuccess)
    else (e, kIOReturnSuccess)
  | _, _ => (e, kIOReturnBadArgument)

/-- `LPNUIORegistryEntryCopyProperty`, which reads neither of its
arguments. -/
def lpnuIORegistryEntryCopyProperty (_entry : Option LPNUIORegistryEntry)
    (_key : Option CString) : Option ℕ :=
  none

namespace RegistryEntry

open Run

/-- The calls on an entry. -/
inductive Call
  | setProperty (entry : Bool) (key : Option CString) (value : Option ℕ)
  | copyProperty (key : Option CString)

/-- One call, on an entry. -/
def step (e : LPNUIORegistryEntry) : Call → LPNUIORegistryEntry × (IOReturn ⊕ Option ℕ)
  | .setProperty entry key value =>
    let r := lpnuIORegistryEntrySetProperty e entry key value
    (r.1, .inl r.2)
  | .copyProperty key => (e, .inr (lpnuIORegistryEntryCopyProperty (some e) key))

/-- The value is among the slots in use. -/
def Among (e : LPNUIORegistryEntry) (value : Option ℕ) : Prop :=
  ∃ i < e.allocCount.toNat, e.allocs i = value

/-- **A value set with success is kept.** -/
def PropertyKept (e : LPNUIORegistryEntry) (entry : Bool) (key : Option CString)
    (value : Option ℕ) : Prop :=
  (lpnuIORegistryEntrySetProperty e entry key value).2 = kIOReturnSuccess →
    Among (lpnuIORegistryEntrySetProperty e entry key value).1 value

/-- **The condition on a `SetProperty`**: there is a slot, or the value is
in one already. -/
def SlotOrAmong (e : LPNUIORegistryEntry) (entry : Bool) (key : Option CString)
    (value : Option ℕ) : Prop :=
  entry = true → key.isSome → e.allocCount < 8 ∨ Among e value

/-- **When a value set is kept**, in any entry. -/
theorem propertyKept_iff (e : LPNUIORegistryEntry) (entry : Bool) (key : Option CString)
    (value : Option ℕ) : PropertyKept e entry key value ↔ SlotOrAmong e entry key value := by
  rcases entry with _ | _ <;> rcases key with _ | key
  · refine iff_of_true (fun h => ?_) (fun h => ?_) <;> cases h
  · refine iff_of_true (fun h => ?_) (fun h => ?_) <;> cases h
  · refine iff_of_true (fun h => ?_) (fun _ h => ?_) <;> cases h
  · simp only [PropertyKept, SlotOrAmong, lpnuIORegistryEntrySetProperty, Option.isSome_some,
      forall_const]
    by_cases hroom : e.allocCount < 8
    · rw [if_pos hroom]
      refine iff_of_true (fun _ => ⟨e.allocCount.toNat, ?_, ?_⟩) (Or.inl hroom)
      · -- the count is far from its 32 bits
        have hlt : e.allocCount.toNat < 8 := UInt32.lt_iff_toNat_lt.1 hroom
        simp only [UInt32.toNat_add, UInt32.toNat_one]
        omega
      · simp
    · rw [if_neg hroom]
      simp only [forall_const, hroom, false_or]

/-! ## Runs -/

/-- The value of a `SetProperty` that succeeds. -/
def valueSet : Call → List (Option ℕ)
  | .setProperty true (some _) value => [value]
  | _ => []

/-- **The entry holds the first eight values of a list**, in order. -/
structure HoldsFirst (e : LPNUIORegistryEntry) (values : List (Option ℕ)) : Prop where
  allocCount : e.allocCount.toNat = min 8 values.length
  allocs : ∀ i < 8, e.allocs i = (values[i]?).join

variable {e : LPNUIORegistryEntry} {values : List (Option ℕ)}

theorem holdsFirst_created (name : Option CString) :
    HoldsFirst (createdRegistryEntry name) [] where
  allocCount := rfl
  allocs _ _ := rfl

/-- A value set goes to the next slot, while there is one. -/
theorem HoldsFirst.set (h : HoldsFirst e values) (key : CString) (value : Option ℕ) :
    HoldsFirst (lpnuIORegistryEntrySetProperty e true (some key) value).1 (values ++ [value]) := by
  have hcount := h.allocCount
  simp only [lpnuIORegistryEntrySetProperty]
  by_cases hroom : e.allocCount < 8
  · have hlt : e.allocCount.toNat < 8 := UInt32.lt_iff_toNat_lt.1 hroom
    have hlength : e.allocCount.toNat = values.length := by omega
    rw [if_pos hroom]
    refine ⟨?_, fun i hi => ?_⟩
    · simp only [UInt32.toNat_add, UInt32.toNat_one, List.length_append, List.length_singleton]
      omega
    · show Function.update e.allocs e.allocCount.toNat value i = _
      rw [hlength]
      rcases lt_trichotomy i values.length with hlt | rfl | hgt
      · rw [Function.update_of_ne (by omega), List.getElem?_append_left hlt, h.allocs i hi]
      · rw [Function.update_self, List.getElem?_concat_length, Option.join_some]
      · rw [Function.update_of_ne (by omega), h.allocs i hi, List.getElem?_eq_none (by omega),
          List.getElem?_eq_none (by simp; omega)]
  · -- all slots are in use, and the value is dropped
    have hfull : 8 ≤ values.length := by
      have hge : ¬ e.allocCount.toNat < 8 := fun hlt => hroom (UInt32.lt_iff_toNat_lt.2 hlt)
      omega
    rw [if_neg hroom]
    refine ⟨?_, fun i hi => ?_⟩
    · rw [hcount, List.length_append]
      omega
    · rw [h.allocs i hi, List.getElem?_append_left (by omega)]

theorem HoldsFirst.step (h : HoldsFirst e values) (call : Call) :
    HoldsFirst (step e call).1 (values ++ valueSet call) := by
  have hleft : HoldsFirst e (values ++ []) := by
    rw [List.append_nil]
    exact h
  cases call with
  | copyProperty key => exact hleft
  | setProperty entry key value =>
    rcases entry with _ | _ <;> rcases key with _ | key
    · exact hleft
    · exact hleft
    · exact hleft
    · exact h.set key value

theorem holdsFirst_after : ∀ {run : List Call} {e : LPNUIORegistryEntry}
    {values : List (Option ℕ)}, HoldsFirst e values →
      HoldsFirst (after step e run) (values ++ run.flatMap valueSet)
  | [], _, _, h => by
    rw [List.flatMap_nil, List.append_nil]
    exact h
  | call :: run, _, _, h => by
    have ih : HoldsFirst (after RegistryEntry.step _ run) _ := holdsFirst_after (h.step call)
    rwa [List.append_assoc] at ih

/-- **What a call answers**, whatever the entry holds: a `SetProperty` of an
entry and a key succeeds, also where its value is dropped; one without is
refused; and a `CopyProperty` finds nothing. -/
def Answers : Call → IOReturn ⊕ Option ℕ → Prop
  | .setProperty true (some _) _, out => out = .inl kIOReturnSuccess
  | .setProperty _ _ _, out => out = .inl kIOReturnBadArgument
  | .copyProperty _, out => out = .inr none

theorem answers_step (e : LPNUIORegistryEntry) (call : Call) :
    Answers call (RegistryEntry.step e call).2 := by
  cases call with
  | copyProperty key => exact rfl
  | setProperty entry key value =>
    rcases entry with _ | _ <;> rcases key with _ | key
    · exact rfl
    · exact rfl
    · exact rfl
    · simp only [Answers, RegistryEntry.step, lpnuIORegistryEntrySetProperty]
      split <;> rfl

/-- **After every run an entry holds the first eight values set**, those
set under one key each in a slot of its own. The calls that dropped the
others succeeded like the first, and no property was ever found. -/
theorem holdsFirst_run (name : Option CString) (run : List Call) :
    HoldsFirst (after step (createdRegistryEntry name) run) (run.flatMap valueSet) ∧
      EachStep step (createdRegistryEntry name)
        (fun e call => Answers call (step e call).2) run :=
  ⟨holdsFirst_after (holdsFirst_created name),
    eachStep_iff_prefixes.2 fun _ call _ => answers_step _ call⟩

/-- `n` values set, the numbers from 0 on. -/
def numbers (n : ℕ) : List Call :=
  (List.range n).map fun i => .setProperty true (some CString.a) (some i)

/-- The ninth value is dropped. -/
theorem not_propertyKept_ninth :
    ¬ PropertyKept (after step (createdRegistryEntry none) (numbers 8)) true (some CString.a)
      (some 8) := by
  intro h
  obtain ⟨i, hi, hvalue⟩ := h rfl
  have hother : ∀ i < 8, (lpnuIORegistryEntrySetProperty
      (after step (createdRegistryEntry none) (numbers 8)) true (some CString.a)
      (some 8)).1.allocs i ≠ some 8 := by decide
  exact hother i hi hvalue

end RegistryEntry

end IOKit

end Lpnu
