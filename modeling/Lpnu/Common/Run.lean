import Mathlib.Data.List.Basic
import Mathlib.Tactic.Common
/-!
# Runs of a step function

A component is a step function taking a state and a call to the next
state and an output; a run is a list of calls. This file defines the
state and the outputs a run ends with, the two ways a property can hold
along it (`Throughout`, of every state reached, and `EachStep`, of every
call made), and the rules the components' proofs are assembled from:
`throughout_of_inv` for an invariant, `throughout_iff_eachStep` for a
property that one kind of step breaks, `simulates` for a refinement.
-/

namespace Lpnu

namespace Run

variable {σ τ ι ω ω' : Type*}

/-- The state a run ends in. -/
def after (step : σ → ι → σ × ω) (s : σ) : List ι → σ
  | [] => s
  | a :: as => after step (step s a).1 as

/-- The outputs of a run, one a call, in order. -/
def outputs (step : σ → ι → σ × ω) (s : σ) : List ι → List ω
  | [] => []
  | a :: as => (step s a).2 :: outputs step (step s a).1 as

/-- **A property of every state the run reaches**, its first and its last
among them. -/
def Throughout (step : σ → ι → σ × ω) (s : σ) (P : σ → Prop) (run : List ι) : Prop :=
  ∀ pre, pre <+: run → P (after step s pre)

/-- **A property of every call of the run**, read in the state the call is
made in. -/
def EachStep (step : σ → ι → σ × ω) (s : σ) (ok : σ → ι → Prop) : List ι → Prop
  | [] => True
  | a :: as => ok s a ∧ EachStep step (step s a).1 ok as

variable {step : σ → ι → σ × ω} {s : σ} {a : ι} {run : List ι}

@[simp] theorem after_nil : after step s [] = s := rfl

@[simp] theorem after_cons {as : List ι} :
    after step s (a :: as) = after step (step s a).1 as := rfl

@[simp] theorem outputs_nil : outputs step s [] = [] := rfl

@[simp] theorem outputs_cons {as : List ι} :
    outputs step s (a :: as) = (step s a).2 :: outputs step (step s a).1 as := rfl

theorem after_append {s : σ} (as bs : List ι) :
    after step s (as ++ bs) = after step (after step s as) bs := by
  induction as generalizing s with
  | nil => rfl
  | cons a as ih => exact ih

theorem after_concat (as : List ι) (a : ι) :
    after step s (as ++ [a]) = (step (after step s as) a).1 := by
  rw [after_append]; rfl

/-! ## Properties along a run -/

section Along

variable {P : σ → Prop} {ok ok' legal : σ → ι → Prop}

@[simp] theorem throughout_nil : Throughout step s P [] ↔ P s := by
  simp [Throughout]

/-- The states a run reaches are the first one and those its tail
reaches. -/
theorem throughout_cons {as : List ι} :
    Throughout step s P (a :: as) ↔ P s ∧ Throughout step (step s a).1 P as := by
  constructor
  · intro h
    refine ⟨h [] List.nil_prefix, fun pre hpre => ?_⟩
    exact h (a :: pre) (List.prefix_cons_inj a |>.2 hpre)
  · rintro ⟨h0, h⟩ pre hpre
    rcases List.prefix_cons_iff.1 hpre with rfl | ⟨pre', rfl, hpre'⟩
    · exact h0
    · exact h pre' hpre'

theorem Throughout.head (h : Throughout step s P run) : P s :=
  h [] List.nil_prefix

theorem Throughout.last (h : Throughout step s P run) : P (after step s run) :=
  h run List.prefix_rfl

/-- The calls of a run, by where they stand in it. -/
theorem eachStep_iff_prefixes :
    ∀ {run : List ι} {s : σ}, EachStep step s ok run ↔
      ∀ pre a, pre ++ [a] <+: run → ok (after step s pre) a
  | [], s => by simp [EachStep]
  | b :: bs, s => by
    rw [EachStep, eachStep_iff_prefixes]
    constructor
    · rintro ⟨h0, h⟩ pre a hpre
      cases pre with
      | nil =>
        obtain rfl : a = b := by simpa using hpre
        exact h0
      | cons c pre =>
        rw [List.cons_append, List.cons_prefix_cons] at hpre
        obtain ⟨rfl, hpre⟩ := hpre
        exact h pre a hpre
    · intro h
      refine ⟨h [] b (by simp), fun pre a hpre => ?_⟩
      exact h (b :: pre) a (by simpa using hpre)

/-- **The invariant rule.** What holds at first and is kept by every
legal step holds throughout. -/
theorem throughout_of_inv (hstep : ∀ s a, P s → legal s a → P (step s a).1) :
    ∀ {run : List ι} {s : σ}, P s → EachStep step s legal run → Throughout step s P run
  | [], _, h0, _ => throughout_nil.2 h0
  | a :: _, s, h0, hl =>
    throughout_cons.2 ⟨h0, throughout_of_inv hstep (hstep s a h0 hl.1) hl.2⟩

/-- The same where every step is legal. -/
theorem throughout_of_inv' (hstep : ∀ s a, P s → P (step s a).1) (h0 : P s) :
    Throughout step s P run := by
  have hl : EachStep step s (fun _ _ => True) run :=
    eachStep_iff_prefixes.2 fun _ _ _ => trivial
  exact throughout_of_inv (fun s a h _ => hstep s a h) h0 hl

/-- In particular it holds in the state a run ends in. -/
theorem after_of_inv (hstep : ∀ s a, P s → P (step s a).1) (h0 : P s) (run : List ι) :
    P (after step s run) :=
  (throughout_of_inv' hstep h0).last

/-- **The exact condition for a property to hold throughout.** Where a
step out of a good state leads to a good state exactly when it meets
`ok`, the good runs are those whose every step meets it. `Inv` is what
the argument may use of a good state reached by legal steps. -/
theorem throughout_iff_eachStep {Inv : σ → Prop}
    (hinv : ∀ s a, Inv s → P s → legal s a → Inv (step s a).1)
    (hP : ∀ s a, Inv s → P s → legal s a → (P (step s a).1 ↔ ok s a)) :
    ∀ {run : List ι} {s : σ}, Inv s → P s → EachStep step s legal run →
      (Throughout step s P run ↔ EachStep step s ok run)
  | [], _, _, h0, _ => by simp [EachStep, h0]
  | a :: as, s, hI, h0, hl => by
    rw [throughout_cons, EachStep, ← hP s a hI h0 hl.1]
    have ih : P (step s a).1 → (Throughout step (step s a).1 P as ↔
        EachStep step (step s a).1 ok as) := fun h1 =>
      throughout_iff_eachStep hinv hP (hinv s a hI h0 hl.1) h1 hl.2
    constructor
    · rintro ⟨-, h⟩
      exact ⟨h.head, (ih h.head).1 h⟩
    · rintro ⟨h1, h⟩
      exact ⟨h0, (ih h1).2 h⟩

/-- The same where every step is legal. -/
theorem throughout_iff_eachStep' {Inv : σ → Prop}
    (hinv : ∀ s a, Inv s → P s → Inv (step s a).1)
    (hP : ∀ s a, Inv s → P s → (P (step s a).1 ↔ ok s a)) (hI : Inv s) (h0 : P s) :
    Throughout step s P run ↔ EachStep step s ok run := by
  have hl : EachStep step s (fun _ _ => True) run :=
    eachStep_iff_prefixes.2 fun _ _ _ => trivial
  exact throughout_iff_eachStep (fun s a h hp _ => hinv s a h hp)
    (fun s a h hp _ => hP s a h hp) hI h0 hl

/-- **The exact condition for a property of the states and one of the
calls to hold together.** In a good state the calls answered well are
those that meet `ok`, and these lead to good states. -/
theorem throughout_and_eachStep_iff {good : σ → ι → Prop}
    (hgood : ∀ s a, P s → (good s a ↔ ok s a)) (hstep : ∀ s a, P s → ok s a → P (step s a).1) :
    ∀ {run : List ι} {s : σ}, P s →
      (Throughout step s P run ∧ EachStep step s good run ↔ EachStep step s ok run)
  | [], _, h0 => by simp [EachStep, h0]
  | a :: as, s, h0 => by
    rw [throughout_cons, EachStep, EachStep, hgood s a h0]
    constructor
    · rintro ⟨⟨-, hthrough⟩, hok, hgoods⟩
      have hP : P (step s a).1 := hstep s a h0 hok
      exact ⟨hok, (throughout_and_eachStep_iff hgood hstep hP).1 ⟨hthrough, hgoods⟩⟩
    · rintro ⟨hok, hoks⟩
      have hP : P (step s a).1 := hstep s a h0 hok
      obtain ⟨hthrough, hgoods⟩ := (throughout_and_eachStep_iff hgood hstep hP).2 hoks
      exact ⟨⟨h0, hthrough⟩, hok, hgoods⟩

/-- A run's calls include those of its beginnings. -/
theorem EachStep.beginning {pre : List ι} (h : EachStep step s ok run) (hpre : pre <+: run) :
    EachStep step s ok pre :=
  eachStep_iff_prefixes.2 fun pre' a hpre' =>
    eachStep_iff_prefixes.1 h pre' a (hpre'.trans hpre)

/-- A condition that does not read the state is one on the calls. -/
theorem eachStep_iff_forall_mem {P : ι → Prop} :
    ∀ {run : List ι} {s : σ}, EachStep step s (fun _ a => P a) run ↔ ∀ a ∈ run, P a
  | [], _ => by simp [EachStep]
  | a :: as, s => by rw [EachStep, eachStep_iff_forall_mem, List.forall_mem_cons]

/-- Conditions that agree in every state of an invariant agree along
runs. -/
theorem eachStep_congr {Inv : σ → Prop} (hinv : ∀ s a, Inv s → Inv (step s a).1)
    (hok : ∀ s a, Inv s → (ok s a ↔ ok' s a)) :
    ∀ {run : List ι} {s : σ}, Inv s → (EachStep step s ok run ↔ EachStep step s ok' run)
  | [], _, _ => Iff.rfl
  | a :: _, s, h => and_congr (hok s a h) (eachStep_congr hinv hok (hinv s a h))

end Along

/-! ## What the calls of a run yield

A call may carry data one way or the other, and what a run carries is
what its calls do, in order. -/

section Collect

variable {β : Type*} {f : ι → ω → List β}

/-- What a run yields. -/
def collect (step : σ → ι → σ × ω) (f : ι → ω → List β) (s : σ) : List ι → List β
  | [] => []
  | a :: as => f a (step s a).2 ++ collect step f (step s a).1 as

/-- **A run yields nothing exactly if no call of it does.** -/
theorem collect_eq_nil_iff :
    ∀ {run : List ι} {s : σ}, collect step f s run = [] ↔
      EachStep step s (fun s a => f a (step s a).2 = []) run
  | [], _ => by simp [collect, EachStep]
  | a :: as, s => by rw [collect, EachStep, List.append_eq_nil_iff, collect_eq_nil_iff]

end Collect

/-! ## Counting the calls of a run -/

section Count

variable {p : σ → ι → Bool}

/-- How many calls of a run meet a condition, read in the state each is
made in. -/
def countSteps (step : σ → ι → σ × ω) (p : σ → ι → Bool) (s : σ) : List ι → ℕ
  | [] => 0
  | a :: as => (if p s a then 1 else 0) + countSteps step p (step s a).1 as

/-- None is counted exactly if every call fails the condition. -/
theorem countSteps_eq_zero_iff :
    ∀ {run : List ι} {s : σ}, countSteps step p s run = 0 ↔
      EachStep step s (fun s a => p s a = false) run
  | [], _ => by simp [countSteps, EachStep]
  | a :: as, s => by
    rw [countSteps, EachStep, Nat.add_eq_zero_iff, countSteps_eq_zero_iff]
    simp

/-- The last call counts in the state the others lead to. -/
theorem countSteps_concat (a : ι) :
    ∀ (as : List ι) (s : σ), countSteps step p s (as ++ [a]) =
      countSteps step p s as + if p (after step s as) a then 1 else 0
  | [], _ => Nat.add_comm _ _
  | b :: bs, s => by
    rw [List.cons_append, countSteps, countSteps_concat a bs, countSteps, after_cons]
    omega

end Count

/-! ## Refinement -/

/-- **A simulation lifts to runs.** Where related states step to related
states, and `f` takes the one's output to the other's, the two components
answer a whole run alike. -/
theorem simulates {step' : τ → ι → τ × ω'} {R : σ → τ → Prop} {f : ω → ω'}
    (hstep : ∀ s t a, R s t → R (step s a).1 (step' t a).1 ∧ f (step s a).2 = (step' t a).2) :
    ∀ {run : List ι} {s : σ} {t : τ}, R s t →
      R (after step s run) (after step' t run) ∧
        (outputs step s run).map f = outputs step' t run
  | [], _, _, h => ⟨h, rfl⟩
  | a :: _, s, t, h => by
    obtain ⟨hrel, hout⟩ := hstep s t a h
    obtain ⟨hrel', hout'⟩ := simulates hstep hrel
    exact ⟨hrel', by rw [outputs_cons, List.map_cons, hout, hout', outputs_cons]⟩

/-- The outputs of a run are those of its calls. -/
theorem forall_outputs_iff {Q : ω → Prop} :
    ∀ {run : List ι} {s : σ}, (∀ out ∈ outputs step s run, Q out) ↔
      EachStep step s (fun s a => Q (step s a).2) run
  | [], _ => by simp [EachStep]
  | a :: as, s => by rw [outputs_cons, List.forall_mem_cons, forall_outputs_iff, EachStep]

/-- **A property of every output**, under an invariant of the states. -/
theorem forall_outputs {I : σ → Prop} {Q : ω → Prop}
    (hstep : ∀ s a, I s → I (step s a).1 ∧ Q (step s a).2) :
    ∀ {run : List ι} {s : σ}, I s → ∀ out ∈ outputs step s run, Q out
  | [], _, _, _, hmem => absurd hmem List.not_mem_nil
  | a :: _, s, h, out, hmem => by
    rcases List.mem_cons.1 hmem with rfl | hmem
    · exact (hstep s a h).2
    · exact forall_outputs hstep (hstep s a h).1 out hmem

/-! ## Recorded runs

A property of a run's past is a property of the state of the same run
recorded: each call is kept with the state it was made in and what it
gave back, the newest first. -/

/-- One call of a recorded run. -/
structure Entry (σ ι ω : Type*) where
  before : σ
  call : ι
  out : ω

/-- A state with the record of the calls that led to it. -/
structure Recorded (σ ι ω : Type*) where
  now : σ
  past : List (Entry σ ι ω)

/-- A component, recorded. -/
def record (step : σ → ι → σ × ω) (c : Recorded σ ι ω) (a : ι) : Recorded σ ι ω × ω :=
  (⟨(step c.now a).1, ⟨c.now, a, (step c.now a).2⟩ :: c.past⟩, (step c.now a).2)

@[simp] theorem record_now (c : Recorded σ ι ω) :
    (record step c a).1.now = (step c.now a).1 := rfl

@[simp] theorem record_past (c : Recorded σ ι ω) :
    (record step c a).1.past = ⟨c.now, a, (step c.now a).2⟩ :: c.past := rfl

/-- A property of every recorded call is one of the newest and of those
before it. -/
theorem forall_mem_record_past {Q : Entry σ ι ω → Prop} {c : Recorded σ ι ω} :
    (∀ e ∈ (record step c a).1.past, Q e) ↔
      Q ⟨c.now, a, (step c.now a).2⟩ ∧ ∀ e ∈ c.past, Q e :=
  List.forall_mem_cons

/-- What the recorded calls gave back, in the order they were made. -/
def Recorded.outs (c : Recorded σ ι ω) : List ω := (c.past.map Entry.out).reverse

@[simp] theorem outs_record (c : Recorded σ ι ω) :
    (record step c a).1.outs = c.outs ++ [(step c.now a).2] := by
  simp [Recorded.outs]

/-- Recording changes nothing of the run itself. -/
theorem after_record : ∀ (run : List ι) (c : Recorded σ ι ω),
    (after (record step) c run).now = after step c.now run
  | [], _ => rfl
  | a :: as, c => after_record as (record step c a).1

/-- A property of the states is one of the recorded states. -/
theorem throughout_record {P : σ → Prop} {c : Recorded σ ι ω} :
    Throughout (record step) c (fun c => P c.now) run ↔ Throughout step c.now P run := by
  simp only [Throughout, after_record]

/-- The record keeps every output. -/
theorem outs_after_record : ∀ (run : List ι) (c : Recorded σ ι ω),
    (after (record step) c run).outs = c.outs ++ outputs step c.now run
  | [], c => by simp
  | a :: as, c => by
    rw [after_cons, outs_after_record as, outs_record]
    simp

/-- A condition that does not read the record is one on the run itself. -/
theorem eachStep_record {ok : σ → ι → Prop} : ∀ {run : List ι} {c : Recorded σ ι ω},
    EachStep (record step) c (fun c a => ok c.now a) run ↔ EachStep step c.now ok run
  | [], _ => Iff.rfl
  | _ :: _, _ => and_congr Iff.rfl eachStep_record

end Run

end Lpnu
