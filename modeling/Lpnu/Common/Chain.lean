import Mathlib.Data.List.Nodup
import Mathlib.Tactic.Common
/-!
# Chains of pointers

A walk that starts at a pointer and follows one link from each object to
the next until the link is null. `Chain next p l` says that the walk from
`p` ends and visits `l`, in order; a walk that runs into a cycle has no
such `l`.
-/

namespace Lpnu

/-- **The walk from a pointer along `next`** ends, having visited the
list. -/
inductive Chain {α : Type*} (next : α → Option α) : Option α → List α → Prop
  | nil : Chain next none []
  | cons {a : α} {l : List α} : Chain next (next a) l → Chain next (some a) (a :: l)

namespace Chain

variable {α : Type*} {next next' : α → Option α} {p : Option α} {a c : α} {l m : List α}

theorem nil_iff : Chain next none l ↔ l = [] := by
  constructor
  · rintro ⟨⟩; rfl
  · rintro rfl; exact nil

theorem cons_iff : Chain next (some a) l ↔ ∃ m, l = a :: m ∧ Chain next (next a) m := by
  constructor
  · rintro (_ | h); exact ⟨_, rfl, h⟩
  · rintro ⟨m, rfl, h⟩; exact cons h

/-- A walk visits one list. -/
theorem unique (h : Chain next p l) : ∀ {m : List α}, Chain next p m → l = m := by
  induction h with
  | nil => intro m hm; exact (nil_iff.1 hm).symm
  | cons _ ih =>
    intro m hm
    obtain ⟨m', rfl, hm'⟩ := cons_iff.1 hm
    rw [ih hm']

/-- The rest of a walk is the walk from there. -/
theorem exists_rest (h : Chain next p l) (hc : c ∈ l) :
    ∃ k m, l = k ++ c :: m ∧ Chain next (some c) (c :: m) := by
  induction h with
  | nil => exact absurd hc List.not_mem_nil
  | @cons a l h ih =>
    by_cases hac : c = a
    · exact ⟨[], l, by rw [hac, List.nil_append], hac ▸ cons h⟩
    · obtain ⟨k, m, rfl, hm⟩ := ih ((List.mem_cons.1 hc).resolve_left hac)
      exact ⟨a :: k, m, rfl, hm⟩

/-- **A walk that ends visits nothing twice**: from the second visit on it
would repeat itself. -/
theorem nodup (h : Chain next p l) : l.Nodup := by
  induction h with
  | nil => exact List.nodup_nil
  | @cons a l h ih =>
    refine List.nodup_cons.2 ⟨fun hmem => ?_, ih⟩
    obtain ⟨k, m, hl, hm⟩ := h.exists_rest hmem
    have heq : l = m := (List.cons.inj ((cons h).unique hm)).2
    have hlen : l.length = k.length + (m.length + 1) := by rw [hl]; simp
    rw [heq] at hlen
    omega

/-- **A walk that meets no changed link is unchanged.** -/
theorem congr (h : Chain next p l) (heq : ∀ x ∈ l, next' x = next x) : Chain next' p l := by
  induction h with
  | nil => exact nil
  | @cons a l _ ih =>
    refine cons ?_
    rw [heq a List.mem_cons_self]
    exact ih fun x hx => heq x (List.mem_cons_of_mem a hx)

/-- **A walk reaches the one changed link it met before.** Up to `c` the
two walks follow the same links. -/
theorem mem_of_changed (h : Chain next p l) (hc : c ∈ l)
    (heq : ∀ x, x ≠ c → next' x = next x) :
    ∀ {m : List α}, Chain next' p m → c ∈ m := by
  induction h with
  | nil => exact absurd hc List.not_mem_nil
  | @cons a l _ ih =>
    intro m hm
    obtain ⟨m', rfl, hm'⟩ := cons_iff.1 hm
    by_cases hac : a = c
    · rw [hac]; exact List.mem_cons_self
    · have hcl : c ∈ l := (List.mem_cons.1 hc).resolve_left (Ne.symm hac)
      rw [heq a hac] at hm'
      exact List.mem_cons_of_mem a (ih hcl hm')

/-! ## Walks that end

Where one link is redirected, the walks still end exactly if the walk from
its new target does not come back to it. -/

/-- The walk from a pointer visits an object, whether it ends or not. -/
inductive Visits (next : α → Option α) : Option α → α → Prop
  | here {a : α} : Visits next (some a) a
  | there {a b : α} : Visits next (next a) b → Visits next (some a) b

/-- The walk from a pointer ends. -/
def Ends (next : α → Option α) (p : Option α) : Prop := ∃ l, Chain next p l

theorem Ends.none : Ends next none := ⟨[], nil⟩

theorem Ends.some (h : Ends next (next a)) : Ends next (some a) := by
  obtain ⟨l, hl⟩ := h
  exact ⟨a :: l, cons hl⟩

/-- What a walk that ends visits. -/
theorem visits_iff (h : Chain next p l) : Visits next p c ↔ c ∈ l := by
  induction h with
  | nil =>
    refine iff_of_false ?_ List.not_mem_nil
    rintro ⟨⟩
  | @cons a l _ ih =>
    rw [List.mem_cons, ← ih]
    constructor
    · rintro (_ | hc)
      · exact Or.inl rfl
      · exact Or.inr hc
    · rintro (rfl | hc)
      · exact Visits.here
      · exact Visits.there hc

section Redirect

variable {q : Option α} (hself : next' c = q) (hother : ∀ x, x ≠ c → next' x = next x)

include hself hother

/-- **Every walk still ends** if the one from the new target ended and did
not visit the link. -/
theorem Ends.redirect (hq : Ends next q) (hnot : ¬ Visits next q c) (h : Ends next p) :
    Ends next' p := by
  obtain ⟨m, hm⟩ := hq
  have hcm : c ∉ m := fun hc => hnot ((visits_iff hm).2 hc)
  have hm' : Chain next' q m := hm.congr fun x hx => hother x fun hxc => hcm (hxc ▸ hx)
  obtain ⟨l, hl⟩ := h
  induction hl with
  | nil => exact Ends.none
  | @cons a l _ ih =>
    by_cases hac : a = c
    · subst hac
      exact ⟨a :: m, cons (hself ▸ hm')⟩
    · refine Ends.some ?_
      rw [hother a hac]
      exact ih

/-- **The walk from the link runs in a circle** if the one from the new
target visited it. -/
theorem not_ends_redirect (hq : Ends next q) (hvisits : Visits next q c) :
    ¬ Ends next' (some c) := by
  obtain ⟨m, hm⟩ := hq
  rintro ⟨l, hl⟩
  obtain ⟨k, rfl, hk⟩ := cons_iff.1 hl
  rw [hself] at hk
  have hck : c ∈ k := mem_of_changed hm ((visits_iff hm).1 hvisits) hother hk
  exact (List.nodup_cons.1 hl.nodup).1 hck

end Redirect

end Chain

end Lpnu
