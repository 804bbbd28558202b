import Lpnu.Common.CArray
import Mathlib.Data.List.Count
import Mathlib.Data.Option.Basic
import Mathlib.Logic.Function.Basic
import Mathlib.Tactic.Common
/-!
# Pointer tables

A global array of pointers with a count beside it: the first `count`
slots are in use, an insertion writes the slot at the count, and a
removal searches the slots in use for the pointer, shifts the ones after
it down and lowers the count. A slot past the count keeps what was last
written to it. Each operation also gives the accesses it makes to the
array, in order, so that a bound on them can be stated.

`Table.Holds` relates a table to the list in its slots; through it an
insertion is an append (`Holds.push`) and a removal is `List.erase`
(`Holds.removeFirst`). `Table.Fits` adds that the list fits the array.
-/

namespace Lpnu

/-- An array of pointers and the number of slots in use. The array is
given over all indices, since nothing in the code bounds them; `none` is
the null pointer. -/
structure Table (α : Type*) where
  slots : ℕ → Option α
  count : ℤ

namespace Table

variable {α : Type*}

/-- A zeroed table. -/
def empty : Table α := ⟨fun _ => none, 0⟩

/-- The slots in use. -/
def live (t : Table α) : List (Option α) := (List.range t.count.toNat).map t.slots

/-- `a[n++] = x`. -/
def push (t : Table α) (x : α) : Table α × List Access :=
  (⟨Function.update t.slots t.count.toNat (some x), t.count + 1⟩, [.write t.count.toNat])

/-- `for (j = i; j < n - 1; j++) a[j] = a[j + 1];` -/
def shiftDown (t : Table α) (i : ℕ) : Table α × List Access :=
  let js := List.range' i (t.count - 1 - i).toNat
  (⟨js.foldl (fun slots j => Function.update slots j (slots (j + 1))) t.slots, t.count⟩,
    js.flatMap fun j => [.read (j + 1), .write j])

/-- **The list a table holds**: its length is the count and its elements
stand in the slots in use. -/
structure Holds (t : Table α) (l : List α) : Prop where
  count_eq : t.count = l.length
  slot_eq : ∀ i, i < l.length → t.slots i = l[i]?

/-- The list a table holds fits an array of `cap` slots. -/
structure Fits (cap : ℕ) (t : Table α) (l : List α) : Prop where
  holds : Holds t l
  length_le : l.length ≤ cap

theorem holds_empty : Holds (empty : Table α) [] := ⟨rfl, by simp⟩

variable {t : Table α} {l : List α} {x : α} {i k n cap : ℕ}

namespace Holds

theorem toNat_count (h : Holds t l) : t.count.toNat = l.length := by
  rw [h.count_eq, Int.toNat_natCast]

theorem live_eq (h : Holds t l) : t.live = l.map some := by
  refine List.ext_getElem (by simp [live, h.toNat_count]) fun i h1 h2 => ?_
  have hi : i < l.length := by simpa using h2
  simp [live, h.slot_eq i hi, hi]

theorem mem_live (h : Holds t l) : some x ∈ t.live ↔ x ∈ l := by
  simp [h.live_eq]

theorem count_live [DecidableEq α] (h : Holds t l) : t.live.count (some x) = l.count x := by
  rw [h.live_eq]
  exact List.count_map_of_injective l some (Option.some_injective α) x

end Holds

/-! ## Insertion -/

theorem push_slots_of_ne {j : ℕ} (h : (j : ℤ) ≠ t.count) (h0 : 0 ≤ t.count) :
    (t.push x).1.slots j = t.slots j :=
  Function.update_of_ne (by omega) _ _

theorem push_slots_self : (t.push x).1.slots t.count.toNat = some x :=
  Function.update_self _ _ _

/-- **Insertion is an append.** -/
theorem Holds.push (h : Holds t l) : Holds (t.push x).1 (l ++ [x]) := by
  refine ⟨by simp [Table.push, h.count_eq], fun i hi => ?_⟩
  simp only [List.length_append, List.length_singleton] at hi
  simp only [Table.push, h.toNat_count]
  rcases Nat.lt_succ_iff_lt_or_eq.1 hi with hlt | rfl
  · rw [Function.update_of_ne (by omega), h.slot_eq i hlt, List.getElem?_append_left hlt]
  · simp

/-! ## The bound of the array -/

theorem fits_empty : Fits cap (empty : Table α) [] := ⟨holds_empty, by simp⟩

namespace Fits

theorem count_le (h : Fits cap t l) : t.count ≤ cap := by
  have hle := h.length_le
  rw [h.holds.count_eq]
  omega

theorem count_nonneg (h : Fits cap t l) : 0 ≤ t.count := by
  rw [h.holds.count_eq]
  omega

theorem count_lt_iff (h : Fits cap t l) : t.count < cap ↔ l.length < cap := by
  rw [h.holds.count_eq]
  omega

/-- Below the bound there is room for one more. -/
theorem push (h : Fits cap t l) (hroom : l.length < cap) : Fits cap (t.push x).1 (l ++ [x]) := by
  refine ⟨h.holds.push, ?_⟩
  rw [List.length_append, List.length_singleton]
  omega

end Fits

/-! ## The shift -/

/-- What the shift leaves in each slot. -/
theorem foldl_shift_apply (slots : ℕ → Option α) :
    ((List.range' i n).foldl (fun slots j => Function.update slots j (slots (j + 1))) slots) k
      = if i ≤ k ∧ k < i + n then slots (k + 1) else slots k := by
  induction n generalizing i slots with
  | zero => simp only [List.range'_zero, List.foldl_nil]; rw [if_neg (by omega)]
  | succ n ih =>
    rw [List.range'_succ, List.foldl_cons, ih]
    -- slot `i` takes its neighbour before the rest of the shift moves it
    rcases Nat.lt_trichotomy k i with hlt | rfl | hgt
    · rw [if_neg (by omega), if_neg (by omega), Function.update_of_ne (by omega)]
    · rw [if_neg (by omega), if_pos (by omega), Function.update_self]
    · rw [Function.update_of_ne (by omega), Function.update_of_ne (by omega)]
      exact if_congr (by omega) rfl rfl

theorem shiftDown_slots :
    (t.shiftDown i).1.slots k =
      if i ≤ k ∧ (k : ℤ) < t.count - 1 then t.slots (k + 1) else t.slots k := by
  simp only [shiftDown, foldl_shift_apply]
  exact if_congr (by omega) rfl rfl

/-- The shift reads below the count, and writes below the slot before it. -/
theorem shiftDown_accesses : ∀ acc ∈ (t.shiftDown i).2,
    (acc.index : ℤ) < t.count ∧ (∀ j, acc = .write j → (j : ℤ) + 1 < t.count) := by
  intro acc hacc
  simp only [shiftDown, List.mem_flatMap, List.mem_range'_1, List.mem_cons,
    List.not_mem_nil, or_false] at hacc
  obtain ⟨j, hj, rfl | rfl⟩ := hacc
  · exact ⟨by simp only [Access.index]; omega, fun _ h => by cases h⟩
  · exact ⟨by simp only [Access.index]; omega, fun _ h => by cases h; omega⟩

/-! ## Removal -/

variable [DecidableEq α]

/-- The search for `x` over the slots in use. -/
def find (t : Table α) (x : α) : Option ℕ × List Access :=
  search (fun i => t.slots i = some x) (List.range t.count.toNat)

/-- The search and, where it finds `x`, the shift and the decrement before
its `break`. -/
def removeFirst (t : Table α) (x : α) : Table α × List Access :=
  match t.find x with
  | (none, tr) => (t, tr)
  -- the slot that falls out of use keeps its pointer
  | (some i, tr) => (⟨(t.shiftDown i).1.slots, t.count - 1⟩, tr ++ (t.shiftDown i).2)

theorem Holds.find_eq (h : Holds t l) :
    (t.find x).1 = if x ∈ l then some (l.idxOf x) else none := by
  rw [find, h.toNat_count]
  refine search_range fun i hi => ?_
  simp [h.slot_eq i hi]

theorem removeFirst_of_notMem (h : Holds t l) (hx : x ∉ l) : (t.removeFirst x).1 = t := by
  have hs := h.find_eq (x := x)
  rw [if_neg hx] at hs
  rw [removeFirst]
  split
  · rfl
  · rename_i heq; rw [heq] at hs; cases hs

/-- Where `x` is listed, the removal is the shift from its first place. -/
theorem removeFirst_of_mem (h : Holds t l) (hx : x ∈ l) :
    (t.removeFirst x).1 = ⟨(t.shiftDown (l.idxOf x)).1.slots, t.count - 1⟩ := by
  have hs := h.find_eq (x := x)
  rw [if_pos hx] at hs
  rw [removeFirst]
  split
  · rename_i heq; rw [heq] at hs; cases hs
  · rename_i heq; rw [heq] at hs; rw [Option.some.inj hs]

/-- **Removal is `List.erase`**: of the first occurrence, the others kept
in order. -/
theorem Holds.removeFirst (h : Holds t l) : Holds (t.removeFirst x).1 (l.erase x) := by
  by_cases hx : x ∈ l
  · have hpos := List.length_pos_of_mem hx
    rw [removeFirst_of_mem h hx]
    refine ⟨?_, fun k hk => ?_⟩
    · simp only [h.count_eq, List.length_erase_of_mem hx]
      omega
    · rw [List.length_erase_of_mem hx] at hk
      simp only [shiftDown_slots, h.count_eq]
      rw [List.erase_eq_eraseIdx_of_idxOf rfl, List.getElem?_eraseIdx]
      by_cases hik : l.idxOf x ≤ k
      · rw [if_pos (by omega), if_neg (by omega), h.slot_eq (k + 1) (by omega)]
      · rw [if_neg (by omega), if_pos (by omega), h.slot_eq k (by omega)]
  · rw [removeFirst_of_notMem h hx, List.erase_of_not_mem hx]
    exact h

/-- The removal of a listed pointer touches no slot from the last in use
on. -/
theorem Holds.removeFirst_slots_of_le (h : Holds t l) (hk : l.length ≤ k + 1) :
    (t.removeFirst x).1.slots k = t.slots k := by
  by_cases hx : x ∈ l
  · rw [removeFirst_of_mem h hx, shiftDown_slots, if_neg (by rw [h.count_eq]; omega)]
  · rw [removeFirst_of_notMem h hx]

/-- What is left fits the array it came from. -/
theorem Fits.removeFirst (h : Fits cap t l) : Fits cap (t.removeFirst x).1 (l.erase x) := by
  have hle := h.length_le
  have hsub := (List.erase_sublist (a := x) (l := l)).length_le
  exact ⟨h.holds.removeFirst, by omega⟩

/-! ## Accesses -/

/-- **The loops of a removal stay below the count**, and write below the
slot before it. -/
theorem removeFirst_accesses : ∀ acc ∈ (t.removeFirst x).2,
    (acc.index : ℤ) < t.count ∧ (∀ j, acc = .write j → (j : ℤ) + 1 < t.count) := by
  have hread : ∀ acc ∈ (t.find x).2,
      (acc.index : ℤ) < t.count ∧ (∀ j, acc = .write j → (j : ℤ) + 1 < t.count) := by
    intro acc hacc
    obtain ⟨i, hi, rfl⟩ := search_reads _ acc hacc
    rw [List.mem_range] at hi
    exact ⟨by simp only [Access.index]; omega, fun _ h => by cases h⟩
  intro acc hacc
  rw [removeFirst] at hacc
  split at hacc
  · rename_i heq; rw [heq] at hread; exact hread acc hacc
  · rename_i heq
    rw [heq] at hread
    rcases List.mem_append.1 hacc with h | h
    · exact hread acc h
    · exact shiftDown_accesses acc h

end Table

end Lpnu
