import Lpnu.Common.Heap
import Lpnu.Common.Run
/-!
# Where the contents of a heap come from

A component that allocates its objects filled and does not write to them
again holds, after every run, what the calls of the run put there
(`fromCalls_after`). An object that is written to holds what was written
last; what that is can be read off the record of the calls, and the
object tracks it (`Tracks`).
-/

namespace Lpnu

namespace Provenance

open Run

variable {σ ι ω α β : Type*}

/-- **Every object of the heap was put there by a recorded call.** -/
def FromCalls (heap : σ → Heap α) (made : Entry σ ι ω → ℕ → α → Prop) (c : Recorded σ ι ω) :
    Prop :=
  ∀ a v, (heap c.now).cells a = some v → ∃ e ∈ c.past, made e a v

variable {step : σ → ι → σ × ω} {heap : σ → Heap α} {made : Entry σ ι ω → ℕ → α → Prop} {s : σ}

/-- **Where every call leaves an object or makes it**, a run holds only
objects its calls made. -/
theorem fromCalls_after
    (hstep : ∀ s call a v, (heap (step s call).1).cells a = some v →
      (heap s).cells a = some v ∨ made ⟨s, call, (step s call).2⟩ a v)
    (h0 : ∀ a, ¬ (heap s).IsLive a) (run : List ι) :
    FromCalls heap made (after (record step) ⟨s, []⟩ run) := by
  have hcall : ∀ (c : Recorded σ ι ω) (call : ι), FromCalls heap made c →
      FromCalls heap made (record step c call).1 := by
    intro c call h a v hv
    rcases hstep c.now call a v hv with hv | hmade
    · obtain ⟨e, he, hmade⟩ := h a v hv
      exact ⟨e, List.mem_cons_of_mem _ he, hmade⟩
    · exact ⟨_, List.mem_cons_self, hmade⟩
  refine after_of_inv hcall (fun a v hv => ?_) run
  exact absurd (Heap.isLive_of_cells hv) (h0 a)

/-- Every object reads as recorded of its name. -/
def Tracks (heap : Heap α) (view : α → β) (recorded : ℕ → β) : Prop :=
  ∀ a v, heap.cells a = some v → view v = recorded a

variable {blocks : Heap α} {view : α → β} {recorded recorded' : ℕ → β} {a : ℕ} {v : α}
  {f : α → α}

theorem tracks_empty : Tracks (Heap.empty : Heap α) view recorded := fun _ _ hv => by cases hv

namespace Tracks

/-- A record that says the same of the live objects. -/
theorem congr (h : Tracks blocks view recorded)
    (heq : ∀ a, blocks.IsLive a → recorded' a = recorded a) : Tracks blocks view recorded' := by
  intro a v hv
  rw [heq a (Heap.isLive_of_cells hv)]
  exact h a v hv

/-- **A new object**, recorded under its name. -/
theorem alloc (h : Tracks blocks view recorded) (hnew : recorded' blocks.fresh = view v)
    (hold : ∀ a, a ≠ blocks.fresh → recorded' a = recorded a) :
    Tracks (blocks.alloc v) view recorded' := by
  intro a w hw
  rw [Heap.cells_alloc] at hw
  split at hw
  · rename_i ha
    rw [ha, hnew, Option.some.inj hw]
  · rename_i ha
    rw [hold a ha]
    exact h a w hw

/-- **An object written to**, and recorded so. -/
theorem modify (h : Tracks blocks view recorded)
    (hnew : ∀ v, view v = recorded a → view (f v) = recorded' a)
    (hold : ∀ b, b ≠ a → recorded' b = recorded b) :
    Tracks (blocks.modify a f) view recorded' := by
  intro b w hw
  rw [Heap.cells_modify] at hw
  split at hw
  · rename_i hb
    obtain ⟨v, hv, rfl⟩ := Option.map_eq_some_iff.1 hw
    rw [hb]
    exact hnew v (h a v hv)
  · rename_i hb
    rw [hold b hb]
    exact h b w hw

/-- What is left where an object goes. -/
theorem free (h : Tracks blocks view recorded) : Tracks (blocks.free a) view recorded := by
  intro b w hw
  rw [Heap.cells_free] at hw
  split at hw
  · cases hw
  · exact h b w hw

end Tracks

end Provenance

end Lpnu
