import Lpnu.Common.Run
/-!
# A component inside another

A component with many calls may be one with fewer, and calls beside these
that do not show in what the smaller one knows of the state. A run of the
larger component is then, seen through `view`, the run of those of its
calls that the smaller one has (`Projects.after_eq`); what holds along the
one holds along the other, and both answer alike.
-/

namespace Lpnu

namespace Run

variable {σ τ ι κ ω ω' : Type*}

/-- **A component projects to another**: a call with a counterpart does to
what is seen what the counterpart does, and is answered alike; a call with
none leaves what is seen. -/
structure Projects (step : σ → ι → σ × ω) (step' : τ → κ → τ × ω') (view : σ → τ)
    (calls : ι → Option κ) (answer : ω → ω') : Prop where
  leaves : ∀ s a, calls a = none → view (step s a).1 = view s
  makes : ∀ s a b, calls a = some b → view (step s a).1 = (step' (view s) b).1
  answers : ∀ s a b, calls a = some b → answer (step s a).2 = (step' (view s) b).2

/-- The answers to the calls that have a counterpart. -/
def answered (step : σ → ι → σ × ω) (calls : ι → Option κ) (answer : ω → ω') :
    σ → List ι → List ω' :=
  collect step fun a out => if (calls a).isSome then [answer out] else []

namespace Projects

variable {step : σ → ι → σ × ω} {step' : τ → κ → τ × ω'} {view : σ → τ}
variable {calls : ι → Option κ} {answer : ω → ω'} {P : τ → Prop}

/-- **The state a run ends in**, as it is seen. -/
theorem after_eq (h : Projects step step' view calls answer) : ∀ (run : List ι) (s : σ),
    view (after step s run) = after step' (view s) (run.filterMap calls)
  | [], _ => rfl
  | a :: as, s => by
    rw [after_cons, after_eq h as]
    cases hcall : calls a with
    | none => rw [List.filterMap_cons_none hcall, h.leaves s a hcall]
    | some b => rw [List.filterMap_cons_some hcall, after_cons, h.makes s a b hcall]

/-- **A property of what is seen** holds along both runs or neither. -/
theorem throughout_iff (h : Projects step step' view calls answer) : ∀ {run : List ι} {s : σ},
    Throughout step s (fun s => P (view s)) run ↔
      Throughout step' (view s) P (run.filterMap calls)
  | [], s => by rw [List.filterMap_nil, throughout_nil, throughout_nil]
  | a :: as, s => by
    rw [throughout_cons, throughout_iff h]
    cases hcall : calls a with
    | none =>
      rw [List.filterMap_cons_none hcall, h.leaves s a hcall]
      exact and_iff_right_of_imp Throughout.head
    | some b => rw [List.filterMap_cons_some hcall, throughout_cons, h.makes s a b hcall]

/-- **The two runs are answered alike.** -/
theorem answered_eq (h : Projects step step' view calls answer) : ∀ (run : List ι) (s : σ),
    answered step calls answer s run = outputs step' (view s) (run.filterMap calls)
  | [], _ => rfl
  | a :: as, s => by
    have ih := answered_eq h as (step s a).1
    rw [answered] at ih
    rw [answered, collect, ih]
    cases hcall : calls a with
    | none =>
      rw [List.filterMap_cons_none hcall, h.leaves s a hcall]
      rfl
    | some b =>
      rw [List.filterMap_cons_some hcall, outputs_cons, h.makes s a b hcall,
        ← h.answers s a b hcall]
      rfl

end Projects

end Run

end Lpnu
