import Mathlib.Data.Finset.Card
import Mathlib.Data.List.Infix
import Mathlib.Tactic.Common
/-!
# Accounts of what is acquired

A trace of events, each of which acquires, uses or releases a resource, or
none of these, and a finite set of owners that hold one resource each. A
trace is sound if no prefix of it has released more than it acquired and
nothing is used that is not held (`Sound`). It covers the owners if each
resource has at most as many of them as it has acquisitions left
(`Covered`), and is settled with them if it has exactly as many
(`Settled`): an owner that forgets what it held keeps an account covered,
and a settled account is a sound one that leaks nothing.
-/

namespace Lpnu

namespace Accounts

/-- What an event does, and to which resource. -/
inductive Effect (ρ : Type*)
  | acquire (h : ρ)
  | use (h : ρ)
  | release (h : ρ)
  | other
  deriving DecidableEq

variable {ε ι ρ : Type*} [DecidableEq ρ]

/-- How often `h` is acquired. -/
def acquired (effect : ε → Effect ρ) (h : ρ) (tr : List ε) : ℕ :=
  tr.countP fun e => effect e = .acquire h

/-- How often `h` is released. -/
def released (effect : ε → Effect ρ) (h : ρ) (tr : List ε) : ℕ :=
  tr.countP fun e => effect e = .release h

/-- **A sound trace**: in no prefix has a resource been released more often
than acquired, and none is used that has been released as often as
acquired. -/
structure Sound (effect : ε → Effect ρ) (tr : List ε) : Prop where
  balanced : ∀ pre, pre <+: tr → ∀ h, released effect h pre ≤ acquired effect h pre
  usesHeld : ∀ pre e, pre ++ [e] <+: tr → ∀ h, effect e = .use h →
    released effect h pre < acquired effect h pre

/-- How many of the owners hold `h`. -/
def held (O : Finset ι) (what : ι → Option ρ) (h : ρ) : ℕ :=
  (O.filter fun i => what i = some h).card

/-- **A covered account**: the trace is sound, and the owners hold no more
than it has acquired and not released. -/
structure Covered (effect : ε → Effect ρ) (tr : List ε) (O : Finset ι) (what : ι → Option ρ) :
    Prop where
  sound : Sound effect tr
  covers : ∀ h, released effect h tr + held O what h ≤ acquired effect h tr

/-- **A settled account**: the trace is sound, and the owners hold exactly
what it has acquired and not released. -/
structure Settled (effect : ε → Effect ρ) (tr : List ε) (O : Finset ι) (what : ι → Option ρ) :
    Prop where
  sound : Sound effect tr
  exact_eq : ∀ h, acquired effect h tr = released effect h tr + held O what h

variable {effect : ε → Effect ρ} {tr tr' : List ε} {e : ε} {h h' : ρ}

@[simp] theorem acquired_append :
    acquired effect h (tr ++ tr') = acquired effect h tr + acquired effect h tr' :=
  List.countP_append

@[simp] theorem released_append :
    released effect h (tr ++ tr') = released effect h tr + released effect h tr' :=
  List.countP_append

theorem acquired_singleton :
    acquired effect h [e] = if effect e = .acquire h then 1 else 0 := by
  simp [acquired, List.countP_cons]

theorem released_singleton :
    released effect h [e] = if effect e = .release h then 1 else 0 := by
  simp [released, List.countP_cons]

/-! ## Sound traces -/

theorem sound_nil : Sound effect [] := by
  refine ⟨fun pre hpre h => ?_, fun pre e hpre => ?_⟩
  · rw [List.prefix_nil.1 hpre]
    exact Nat.le_refl _
  · simp at hpre

/-- What one more event must satisfy. -/
theorem Sound.concat (hs : Sound effect tr)
    (hrelease : ∀ h, effect e = .release h → released effect h tr < acquired effect h tr)
    (huse : ∀ h, effect e = .use h → released effect h tr < acquired effect h tr) :
    Sound effect (tr ++ [e]) := by
  refine ⟨fun pre hpre h => ?_, fun pre e' hpre h he => ?_⟩
  · rcases List.prefix_concat_iff.1 hpre with rfl | hpre
    · have hle := hs.balanced tr List.prefix_rfl h
      rw [released_append, acquired_append, released_singleton]
      split
      · rename_i heq
        have hlt := hrelease h heq
        omega
      · omega
    · exact hs.balanced pre hpre h
  · rcases List.prefix_concat_iff.1 hpre with heq | hpre
    · obtain ⟨rfl, hlast⟩ := List.append_inj' heq rfl
      obtain rfl : e' = e := (List.cons.inj hlast).1
      exact huse h he
    · exact hs.usesHeld pre e' hpre h he

theorem acquired_others (ho : ∀ e ∈ tr, effect e = .other) : acquired effect h tr = 0 := by
  refine List.countP_eq_zero.2 fun e he => ?_
  simp [ho e he]

theorem released_others (ho : ∀ e ∈ tr, effect e = .other) : released effect h tr = 0 := by
  refine List.countP_eq_zero.2 fun e he => ?_
  simp [ho e he]

/-- Events of no effect leave a trace sound. -/
theorem Sound.append_others (hs : Sound effect tr) (ho : ∀ e ∈ tr', effect e = .other) :
    Sound effect (tr ++ tr') := by
  induction tr' generalizing tr with
  | nil => rw [List.append_nil]; exact hs
  | cons e tr' ih =>
    rw [List.forall_mem_cons] at ho
    have hone : Sound effect (tr ++ [e]) := by
      refine hs.concat (fun _ hr => ?_) fun _ hu => ?_
      · rw [ho.1] at hr
        cases hr
      · rw [ho.1] at hu
        cases hu
    rw [List.append_cons]
    exact ih hone ho.2

/-! ## Owners -/

section Owners

variable [DecidableEq ι] {O : Finset ι} {what what' : ι → Option ρ} {i : ι}

omit [DecidableEq ι] in
/-- Owners are counted by what they hold. -/
theorem held_congr (heq : ∀ x ∈ O, what' x = what x) (h : ρ) : held O what' h = held O what h := by
  unfold held
  congr 1
  refine Finset.filter_congr fun x hx => ?_
  rw [heq x hx]

/-- One owner more. -/
theorem held_insert (hi : i ∉ O) (heq : ∀ x ∈ O, what' x = what x) (h : ρ) :
    held (insert i O) what' h = held O what h + if what' i = some h then 1 else 0 := by
  have hcongr := held_congr heq h
  unfold held at hcongr ⊢
  rw [Finset.filter_insert, ← hcongr]
  split
  · exact Finset.card_insert_of_notMem fun hmem => hi (Finset.mem_filter.1 hmem).1
  · rfl

/-- One owner fewer. -/
theorem held_erase (hi : i ∈ O) (what : ι → Option ρ) (h : ρ) :
    held (O.erase i) what h + (if what i = some h then 1 else 0) = held O what h := by
  have hback : held (insert i (O.erase i)) what h = _ :=
    held_insert (Finset.notMem_erase i O) (fun _ _ => rfl) h
  rw [Finset.insert_erase hi] at hback
  exact hback.symm

/-- An owner fewer, whatever it holds then. -/
theorem held_erase_le (heq : ∀ x ∈ O, x ≠ i → what' x = what x) (h : ρ) :
    held (O.erase i) what' h ≤ held O what h := by
  have hcongr : held (O.erase i) what' h = held (O.erase i) what h :=
    held_congr (fun x hx => heq x (Finset.mem_of_mem_erase hx) (Finset.ne_of_mem_erase hx)) h
  rw [hcongr]
  exact Finset.card_le_card (Finset.filter_subset_filter _ (Finset.erase_subset i O))

/-- An owner that takes something is one more owner of it, whatever it
held before. -/
theorem held_insert_le (heq : ∀ x ∈ O, x ≠ i → what' x = what x) (h : ρ) :
    held (insert i O) what' h ≤ held O what h + if what' i = some h then 1 else 0 := by
  have hinsert : held (insert i (O.erase i)) what' h = _ :=
    held_insert (Finset.notMem_erase i O) (fun _ _ => rfl) h
  have herase := held_erase_le heq h
  have hsame : insert i (O.erase i) = insert i O := by grind
  rw [hsame] at hinsert
  omega

omit [DecidableEq ι] in
/-- An owner counts. -/
theorem held_pos (hi : i ∈ O) (hw : what i = some h) : 0 < held O what h :=
  Finset.card_pos.2 ⟨i, Finset.mem_filter.2 ⟨hi, hw⟩⟩

/-! ## Covered accounts -/

omit [DecidableEq ι] in
theorem covered_nil : Covered effect [] (∅ : Finset ι) what :=
  ⟨sound_nil, fun _ => Nat.le_refl 0⟩

namespace Covered

omit [DecidableEq ι] in
/-- What an owner holds is there to be used or released. -/
theorem released_lt (hc : Covered effect tr O what) (hi : i ∈ O) (hw : what i = some h) :
    released effect h tr < acquired effect h tr := by
  have hcovers := hc.covers h
  have hpos := held_pos hi hw
  omega

/-- **An owner takes** the resource just acquired. -/
theorem acquire (hc : Covered effect tr O what) (he : effect e = .acquire h)
    (hw : what' i = some h) (heq : ∀ x ∈ O, x ≠ i → what' x = what x) :
    Covered effect (tr ++ [e]) (insert i O) what' := by
  refine ⟨hc.sound.concat (fun _ hr => ?_) fun _ hu => ?_, fun h' => ?_⟩
  · rw [he] at hr
    cases hr
  · rw [he] at hu
    cases hu
  · have hcovers := hc.covers h'
    have hinsert := held_insert_le heq h'
    rw [hw] at hinsert
    rw [acquired_append, released_append, acquired_singleton, released_singleton, he]
    simp only [Effect.acquire.injEq, Option.some.injEq, reduceCtorEq, if_false] at hinsert ⊢
    omega

omit [DecidableEq ι] in
/-- **A use** of what an owner holds. -/
theorem use (hc : Covered effect tr O what) (he : effect e = .use h) (hi : i ∈ O)
    (hw : what i = some h) : Covered effect (tr ++ [e]) O what := by
  refine ⟨hc.sound.concat (fun _ hr => ?_) fun h' hu => ?_, fun h' => ?_⟩
  · rw [he] at hr
    cases hr
  · rw [he] at hu
    cases hu
    exact hc.released_lt hi hw
  · rw [acquired_append, released_append, acquired_singleton, released_singleton, he]
    simpa using hc.covers h'

omit [DecidableEq ι] in
/-- Events of no effect. -/
theorem append_others (hc : Covered effect tr O what) (ho : ∀ e ∈ tr', effect e = .other) :
    Covered effect (tr ++ tr') O what := by
  refine ⟨hc.sound.append_others ho, fun h => ?_⟩
  rw [acquired_append, released_append, acquired_others ho, released_others ho]
  exact hc.covers h

/-- **An owner gives back** what it holds. -/
theorem release (hc : Covered effect tr O what) (he : effect e = .release h) (hi : i ∈ O)
    (hw : what i = some h) : Covered effect (tr ++ [e]) (O.erase i) what := by
  refine ⟨hc.sound.concat (fun h' hr => ?_) fun _ hu => ?_, fun h' => ?_⟩
  · rw [he] at hr
    cases hr
    exact hc.released_lt hi hw
  · rw [he] at hu
    cases hu
  · have hcovers := hc.covers h'
    have herase := held_erase hi what h'
    rw [hw] at herase
    rw [acquired_append, released_append, acquired_singleton, released_singleton, he]
    simp only [Effect.release.injEq, Option.some.injEq, reduceCtorEq, if_false] at herase ⊢
    omega

/-- **An owner forgets** what it held. -/
theorem forget (hc : Covered effect tr O what) (heq : ∀ x ∈ O, x ≠ i → what' x = what x) :
    Covered effect tr (O.erase i) what' := by
  refine ⟨hc.sound, fun h => ?_⟩
  have hcovers := hc.covers h
  have herase := held_erase_le heq h
  omega

omit [DecidableEq ι] in
/-- **A resource acquired and given back at once** has no owner. -/
theorem borrow (hc : Covered effect tr O what) {a b : ε} {mid : List ε}
    (ha : effect a = .acquire h) (hmid : ∀ e ∈ mid, effect e = .other)
    (hb : effect b = .release h) : Covered effect (tr ++ [a] ++ mid ++ [b]) O what := by
  have hacquired : ∀ h', acquired effect h' (tr ++ [a] ++ mid) =
      acquired effect h' tr + if h = h' then 1 else 0 := by
    intro h'
    rw [acquired_append, acquired_append, acquired_singleton, acquired_others hmid, ha]
    simp only [Effect.acquire.injEq, Nat.add_zero]
  have hreleased : ∀ h', released effect h' (tr ++ [a] ++ mid) = released effect h' tr := by
    intro h'
    rw [released_append, released_append, released_singleton, released_others hmid, ha]
    simp
  have hopen : Sound effect (tr ++ [a] ++ mid) := by
    refine (hc.sound.concat (fun _ hr => ?_) fun _ hu => ?_).append_others hmid
    · rw [ha] at hr
      cases hr
    · rw [ha] at hu
      cases hu
  refine ⟨hopen.concat (fun h' hr => ?_) fun _ hu => ?_, fun h' => ?_⟩
  · rw [hb] at hr
    cases hr
    have hle := hc.sound.balanced tr List.prefix_rfl h
    rw [hacquired, hreleased, if_pos rfl]
    omega
  · rw [hb] at hu
    cases hu
  · have hcovers := hc.covers h'
    rw [acquired_append, released_append, hacquired, hreleased, acquired_singleton,
      released_singleton, hb]
    simp only [Effect.release.injEq, reduceCtorEq, if_false]
    omega

end Covered

/-! ## Settled accounts -/

omit [DecidableEq ι] in
theorem settled_nil : Settled effect [] (∅ : Finset ι) what :=
  ⟨sound_nil, fun _ => rfl⟩

namespace Settled

omit [DecidableEq ι] in
theorem covered (hs : Settled effect tr O what) : Covered effect tr O what :=
  ⟨hs.sound, fun h => (hs.exact_eq h).ge⟩

omit [DecidableEq ι] in
/-- What an owner holds is there to be used or released. -/
theorem released_lt (hs : Settled effect tr O what) (hi : i ∈ O) (hw : what i = some h) :
    released effect h tr < acquired effect h tr :=
  hs.covered.released_lt hi hw

omit [DecidableEq ι] in
theorem congr (hs : Settled effect tr O what) (heq : ∀ x ∈ O, what' x = what x) :
    Settled effect tr O what' :=
  ⟨hs.sound, fun h => by rw [held_congr heq h]; exact hs.exact_eq h⟩

/-- **A new owner** of the resource just acquired. -/
theorem acquire (hs : Settled effect tr O what) (he : effect e = .acquire h) (hi : i ∉ O)
    (hw : what' i = some h) (heq : ∀ x ∈ O, what' x = what x) :
    Settled effect (tr ++ [e]) (insert i O) what' := by
  refine ⟨(hs.covered.acquire he hw fun x hx _ => heq x hx).sound, fun h' => ?_⟩
  have hexact := hs.exact_eq h'
  rw [acquired_append, released_append, acquired_singleton, released_singleton,
    held_insert hi heq, he, hw]
  simp only [Effect.acquire.injEq, Option.some.injEq, reduceCtorEq, if_false]
  omega

omit [DecidableEq ι] in
/-- **A use** of what an owner holds. -/
theorem use (hs : Settled effect tr O what) (he : effect e = .use h) (hi : i ∈ O)
    (hw : what i = some h) : Settled effect (tr ++ [e]) O what := by
  refine ⟨(hs.covered.use he hi hw).sound, fun h' => ?_⟩
  rw [acquired_append, released_append, acquired_singleton, released_singleton, he]
  simpa using hs.exact_eq h'

omit [DecidableEq ι] in
/-- Events of no effect. -/
theorem append_others (hs : Settled effect tr O what) (ho : ∀ e ∈ tr', effect e = .other) :
    Settled effect (tr ++ tr') O what := by
  refine ⟨hs.sound.append_others ho, fun h => ?_⟩
  rw [acquired_append, released_append, acquired_others ho, released_others ho]
  exact hs.exact_eq h

/-- **An owner gives back** what it holds. -/
theorem release (hs : Settled effect tr O what) (he : effect e = .release h) (hi : i ∈ O)
    (hw : what i = some h) : Settled effect (tr ++ [e]) (O.erase i) what := by
  refine ⟨(hs.covered.release he hi hw).sound, fun h' => ?_⟩
  have hexact := hs.exact_eq h'
  have herase := held_erase hi what h'
  rw [hw] at herase
  rw [acquired_append, released_append, acquired_singleton, released_singleton, he]
  simp only [Effect.release.injEq, Option.some.injEq, reduceCtorEq, if_false] at herase ⊢
  omega

omit [DecidableEq ι] in
/-- **Conservation.** Between two settled accounts, what the owners hold
changes by what is acquired and released. -/
theorem conservation {O' : Finset ι} (hs : Settled effect tr O what)
    (hs' : Settled effect (tr ++ tr') O' what') (h : ρ) :
    held O' what' h + released effect h tr' = held O what h + acquired effect h tr' := by
  have hbefore := hs.exact_eq h
  have hafter := hs'.exact_eq h
  rw [acquired_append, released_append] at hafter
  omega

/-- An owner that holds nothing leaves. -/
theorem drop (hs : Settled effect tr O what) (hi : i ∈ O) (hw : what i = none) :
    Settled effect tr (O.erase i) what := by
  refine ⟨hs.sound, fun h => ?_⟩
  have hexact := hs.exact_eq h
  have herase := held_erase hi what h
  rw [hw] at herase
  simp only [reduceCtorEq, if_false] at herase
  omega

omit [DecidableEq ι] in
/-- **A resource acquired and given back at once** has no owner. -/
theorem borrow (hs : Settled effect tr O what) {a b : ε} {mid : List ε}
    (ha : effect a = .acquire h) (hmid : ∀ e ∈ mid, effect e = .other)
    (hb : effect b = .release h) : Settled effect (tr ++ [a] ++ mid ++ [b]) O what := by
  refine ⟨(hs.covered.borrow ha hmid hb).sound, fun h' => ?_⟩
  have hexact := hs.exact_eq h'
  simp only [acquired_append, released_append, acquired_singleton, released_singleton,
    acquired_others hmid, released_others hmid, ha, hb, Effect.acquire.injEq,
    Effect.release.injEq, reduceCtorEq, if_false]
  omega

end Settled

end Owners

end Accounts

end Lpnu
