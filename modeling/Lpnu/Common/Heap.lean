import Mathlib.Data.Finset.Erase
import Mathlib.Data.Finset.Filter
import Mathlib.Data.Finset.Range
import Mathlib.Data.Option.Basic
import Mathlib.Logic.Function.Basic
import Mathlib.Data.Nat.Notation
import Mathlib.Tactic.Common
/-!
# A heap of blocks

Objects an allocator hands out one at a time. A block is named by the
allocation that made it, as in the C standard's account of object
lifetimes, so the name of a freed block is never that of a later one: a
pointer to it stays dangling, whatever the allocator does with its
storage. A write through a pointer to no block is undefined in C; here it
changes nothing, and every result is about programs that make none.
-/

namespace Lpnu

/-- The blocks allocated so far: `cells a` is `none` before block `a` is
allocated and after it is freed. -/
@[ext] structure Heap (α : Type*) where
  cells : ℕ → Option α
  /-- The next block to be handed out. -/
  fresh : ℕ
  cells_of_le : ∀ a, fresh ≤ a → cells a = none

namespace Heap

variable {α : Type*}

/-- Nothing allocated yet. -/
def empty : Heap α := ⟨fun _ => none, 0, fun _ _ => rfl⟩

/-- A new block holding `v`. -/
def alloc (h : Heap α) (v : α) : Heap α where
  cells := Function.update h.cells h.fresh (some v)
  fresh := h.fresh + 1
  cells_of_le a ha := by
    rw [Function.update_of_ne (by omega)]
    exact h.cells_of_le a (by omega)

/-- Rewrite block `a`. -/
def modify (h : Heap α) (a : ℕ) (f : α → α) : Heap α where
  cells := Function.update h.cells a ((h.cells a).map f)
  fresh := h.fresh
  cells_of_le b hb := by
    by_cases hba : b = a
    · subst hba
      rw [Function.update_self, h.cells_of_le b hb, Option.map_none]
    · rw [Function.update_of_ne hba, h.cells_of_le b hb]

/-- Free block `a`. -/
def free (h : Heap α) (a : ℕ) : Heap α where
  cells := Function.update h.cells a none
  fresh := h.fresh
  cells_of_le b hb := by
    by_cases hba : b = a
    · rw [hba, Function.update_self]
    · rw [Function.update_of_ne hba, h.cells_of_le b hb]

/-- Block `a` is allocated and not freed. -/
def IsLive (h : Heap α) (a : ℕ) : Prop := (h.cells a).isSome

/-- Block `a` was allocated and has been freed. -/
def Freed (h : Heap α) (a : ℕ) : Prop := a < h.fresh ∧ h.cells a = none

instance (h : Heap α) (a : ℕ) : Decidable (h.IsLive a) :=
  inferInstanceAs (Decidable ((h.cells a).isSome = true))

instance (h : Heap α) (a : ℕ) : Decidable (h.Freed a) :=
  inferInstanceAs (Decidable (a < h.fresh ∧ h.cells a = none))

variable {h : Heap α} {a b : ℕ} {v : α} {f : α → α}

@[simp] theorem cells_empty : (empty : Heap α).cells a = none := rfl

@[simp] theorem fresh_alloc : (h.alloc v).fresh = h.fresh + 1 := rfl

@[simp] theorem fresh_modify : (h.modify a f).fresh = h.fresh := rfl

@[simp] theorem fresh_free : (h.free a).fresh = h.fresh := rfl

theorem cells_alloc : (h.alloc v).cells b = if b = h.fresh then some v else h.cells b :=
  Function.update_apply _ _ _ _

theorem cells_modify :
    (h.modify a f).cells b = if b = a then (h.cells a).map f else h.cells b :=
  Function.update_apply _ _ _ _

theorem cells_free : (h.free a).cells b = if b = a then none else h.cells b :=
  Function.update_apply _ _ _ _

theorem isLive_iff : h.IsLive a ↔ ∃ v, h.cells a = some v :=
  Option.isSome_iff_exists

theorem isLive_of_cells (hv : h.cells a = some v) : h.IsLive a :=
  isLive_iff.2 ⟨v, hv⟩

@[simp] theorem not_isLive_empty : ¬ (empty : Heap α).IsLive a := by simp [IsLive]

/-- A live block was handed out. -/
theorem IsLive.lt_fresh (hl : h.IsLive a) : a < h.fresh := by
  by_contra hge
  rw [IsLive, h.cells_of_le a (by omega)] at hl
  exact absurd hl (by simp)

theorem IsLive.not_freed (hl : h.IsLive a) : ¬ h.Freed a := by
  rintro ⟨-, hnone⟩
  rw [IsLive, hnone] at hl
  exact absurd hl (by simp)

@[simp] theorem isLive_alloc : (h.alloc v).IsLive b ↔ b = h.fresh ∨ h.IsLive b := by
  by_cases hb : b = h.fresh <;> simp [IsLive, cells_alloc, hb]

@[simp] theorem isLive_modify : (h.modify a f).IsLive b ↔ h.IsLive b := by
  by_cases hb : b = a <;> simp [IsLive, cells_modify, hb]

@[simp] theorem isLive_free : (h.free a).IsLive b ↔ b ≠ a ∧ h.IsLive b := by
  by_cases hb : b = a <;> simp [IsLive, cells_free, hb]

/-- Allocation brings no freed block back. -/
@[simp] theorem freed_alloc : (h.alloc v).Freed b ↔ h.Freed b := by
  have hnone := h.cells_of_le h.fresh (Nat.le_refl _)
  by_cases hb : b = h.fresh
  · simp [Freed, cells_alloc, hb]
  · simp only [Freed, fresh_alloc, cells_alloc, if_neg hb]
    constructor
    · rintro ⟨hlt, h0⟩; exact ⟨by omega, h0⟩
    · rintro ⟨hlt, h0⟩; exact ⟨by omega, h0⟩

@[simp] theorem freed_modify : (h.modify a f).Freed b ↔ h.Freed b := by
  by_cases hb : b = a <;> simp [Freed, cells_modify, hb]

/-- Freeing a live block makes it a freed one, and no other. -/
theorem freed_free (hl : h.IsLive a) : (h.free a).Freed b ↔ b = a ∨ h.Freed b := by
  have hlt := hl.lt_fresh
  by_cases hb : b = a
  · simp [Freed, cells_free, hb, hlt]
  · simp [Freed, cells_free, hb]

/-- What a block held is gone with it, rewritten or not. -/
theorem free_modify_self : (h.modify a f).free a = h.free a := by
  ext1
  · exact Function.update_idem ..
  · rfl

/-! ## A heap seen through a function -/

section Map

variable {β : Type*} {g : α → β}

/-- The same blocks, each seen through `g`. -/
def map (g : α → β) (h : Heap α) : Heap β where
  cells a := (h.cells a).map g
  fresh := h.fresh
  cells_of_le a ha := by rw [h.cells_of_le a ha, Option.map_none]

@[simp] theorem cells_map : (h.map g).cells a = (h.cells a).map g := rfl

theorem map_alloc : (h.alloc v).map g = (h.map g).alloc (g v) := by
  ext1
  · funext b
    rw [cells_map, cells_alloc, cells_alloc, apply_ite (Option.map g)]
    rfl
  · rfl

/-- A rewriting is one of what is seen. -/
theorem map_modify {f' : β → β} (hf : ∀ v, g (f v) = f' (g v)) :
    (h.modify a f).map g = (h.map g).modify a f' := by
  have hcomp : g ∘ f = f' ∘ g := funext hf
  ext1
  · funext b
    rw [cells_map, cells_modify, cells_modify, apply_ite (Option.map g), Option.map_map, hcomp,
      cells_map, Option.map_map]
    rfl
  · rfl

/-- One that does not show. -/
theorem map_modify_of_eq (hf : ∀ v, g (f v) = g v) : (h.modify a f).map g = h.map g := by
  have hcomp : g ∘ f = g := funext hf
  ext1
  · funext b
    rw [cells_map, cells_modify, apply_ite (Option.map g), Option.map_map, hcomp]
    split
    · rename_i hb
      rw [hb, cells_map]
    · rfl
  · rfl

theorem map_free : (h.free a).map g = (h.map g).free a := by
  ext1
  · funext b
    rw [cells_map, cells_free, cells_free, apply_ite (Option.map g)]
    rfl
  · rfl

end Map

/-! ## The blocks that are live -/

/-- The live blocks, as a set. -/
def liveBlocks (h : Heap α) : Finset ℕ := (Finset.range h.fresh).filter fun a => h.IsLive a

@[simp] theorem mem_liveBlocks : a ∈ h.liveBlocks ↔ h.IsLive a := by
  rw [liveBlocks, Finset.mem_filter, Finset.mem_range]
  exact and_iff_right_of_imp IsLive.lt_fresh

@[simp] theorem liveBlocks_empty : (empty : Heap α).liveBlocks = ∅ := rfl

theorem liveBlocks_alloc : (h.alloc v).liveBlocks = insert h.fresh h.liveBlocks := by
  ext b
  simp

theorem liveBlocks_free : (h.free a).liveBlocks = h.liveBlocks.erase a := by
  ext b
  simp

/-- The next block is not live yet. -/
theorem fresh_notMem_liveBlocks : h.fresh ∉ h.liveBlocks := by
  rw [mem_liveBlocks]
  exact fun hl => Nat.lt_irrefl _ hl.lt_fresh

/-! ## A property of every block -/

/-- Every live block has the property. -/
def All (h : Heap α) (Q : α → Prop) : Prop := ∀ a v, h.cells a = some v → Q v

variable {Q : α → Prop}

theorem all_empty : (empty : Heap α).All Q := fun _ _ hv => by cases hv

theorem All.alloc (hQ : h.All Q) (hv : Q v) : (h.alloc v).All Q := by
  intro b w hw
  rw [cells_alloc] at hw
  split at hw
  · rwa [← Option.some.inj hw]
  · exact hQ b w hw

theorem All.modify (hQ : h.All Q) (hf : ∀ v, Q v → Q (f v)) : (h.modify a f).All Q := by
  intro b w hw
  rw [cells_modify] at hw
  split at hw
  · obtain ⟨u, hu, rfl⟩ := Option.map_eq_some_iff.1 hw
    exact hf u (hQ a u hu)
  · exact hQ b w hw

theorem All.free (hQ : h.All Q) : (h.free a).All Q := by
  intro b w hw
  rw [cells_free] at hw
  split at hw
  · cases hw
  · exact hQ b w hw

end Heap

end Lpnu
