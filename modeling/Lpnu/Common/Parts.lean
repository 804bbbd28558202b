import Mathlib.Data.List.DropRight
import Mathlib.Data.List.Infix
import Mathlib.Tactic.Common
/-!
# Parts of a list

What stands after the last of a separator, what stands before the first
occurrence of another list, and a list without its suffix: the last
component of a path, a name up to its extension, a name without it. The
first two are told apart from their surroundings by `afterLast_eq_iff`
and `beforeFirst_eq_iff`.
-/

namespace Lpnu

namespace Parts

variable {α : Type*} [DecidableEq α] {sep b : α} {s t x dir needle n rest : List α}

/-! ## After the last separator -/

/-- What follows the last `sep`, or everything where there is none. -/
def afterLast (sep : α) (s : List α) : List α := s.rtakeWhile (· ≠ sep)

theorem notMem_afterLast : sep ∉ afterLast sep s := by
  intro hmem
  have hne := List.mem_rtakeWhile_imp hmem
  simp at hne

theorem afterLast_of_notMem (h : sep ∉ s) : afterLast sep s = s := by
  refine List.rtakeWhile_eq_self_iff.2 fun a ha => ?_
  have hne : a ≠ sep := fun heq => h (heq ▸ ha)
  simpa using hne

theorem afterLast_append_cons (h : sep ∉ t) : afterLast sep (dir ++ sep :: t) = t := by
  have hall : ∀ a ∈ t.reverse, decide (a ≠ sep) = true := by
    intro a ha
    have hne : a ≠ sep := fun heq => h (heq ▸ List.mem_reverse.1 ha)
    simpa using hne
  rw [afterLast, List.rtakeWhile, List.reverse_append, List.reverse_cons, List.append_assoc,
    List.takeWhile_append_of_pos hall]
  simp

/-- **A list is what follows its last separator**, after a directory or
after nothing. -/
theorem eq_append_afterLast (sep : α) (s : List α) :
    (sep ∉ s ∧ afterLast sep s = s) ∨ ∃ dir, s = dir ++ sep :: afterLast sep s := by
  by_cases hmem : sep ∈ s
  · obtain ⟨as, bs, hs, hnot⟩ := List.eq_append_cons_of_mem (List.mem_reverse.2 hmem)
    have hs' : s = bs.reverse ++ sep :: as.reverse := by
      rw [← List.reverse_reverse s, hs]
      simp
    have hlast : afterLast sep s = as.reverse := by
      rw [hs']
      exact afterLast_append_cons fun h => hnot (List.mem_reverse.1 h)
    exact Or.inr ⟨bs.reverse, by rw [hlast]; exact hs'⟩
  · exact Or.inl ⟨hmem, afterLast_of_notMem hmem⟩

/-- Nothing, or something that ends in the separator. -/
def IsDir (sep : α) (dir : List α) : Prop := dir = [] ∨ ∃ d, dir = d ++ [sep]

/-- **What follows the last separator is what follows a directory and has
no separator in it.** -/
theorem afterLast_eq_iff :
    afterLast sep s = t ↔ sep ∉ t ∧ ∃ dir, IsDir sep dir ∧ s = dir ++ t := by
  constructor
  · rintro rfl
    refine ⟨notMem_afterLast, ?_⟩
    rcases eq_append_afterLast sep s with ⟨-, heq⟩ | ⟨dir, heq⟩
    · exact ⟨[], Or.inl rfl, heq.symm⟩
    · refine ⟨dir ++ [sep], Or.inr ⟨dir, rfl⟩, ?_⟩
      rw [List.append_assoc]
      exact heq
  · rintro ⟨hnot, dir, rfl | ⟨d, rfl⟩, rfl⟩
    · exact afterLast_of_notMem hnot
    · rw [List.append_assoc]
      exact afterLast_append_cons hnot

/-! ## Before the first occurrence -/

/-- What precedes the first occurrence of `needle`, or everything where
there is none. -/
def beforeFirst (needle : List α) : List α → List α
  | [] => []
  | b :: s => if needle <+: b :: s then [] else b :: beforeFirst needle s

theorem beforeFirst_prefix_self : ∀ {s : List α}, beforeFirst needle s <+: s
  | [] => List.nil_prefix
  | b :: s => by
    rw [beforeFirst]
    split
    · exact List.nil_prefix
    · exact (List.prefix_cons_inj b).2 beforeFirst_prefix_self

theorem beforeFirst_of_absent : ∀ {s : List α}, ¬ needle <:+: s → beforeFirst needle s = s
  | [], _ => rfl
  | b :: s, h => by
    rw [List.infix_cons_iff, not_or] at h
    rw [beforeFirst, if_neg h.1, beforeFirst_of_absent h.2]

/-- What precedes the first occurrence has none in it. -/
theorem not_infix_beforeFirst (hne : needle ≠ []) :
    ∀ {s : List α}, ¬ needle <:+: beforeFirst needle s
  | [] => fun h => hne (List.infix_nil.1 h)
  | b :: s => by
    rw [beforeFirst]
    split
    · exact fun h => hne (List.infix_nil.1 h)
    · rename_i hnot
      rw [List.infix_cons_iff, not_or]
      refine ⟨fun h => hnot (h.trans ?_), not_infix_beforeFirst hne⟩
      exact (List.prefix_cons_inj b).2 beforeFirst_prefix_self

/-- After it stands the occurrence, if there is one. -/
theorem exists_eq_beforeFirst_append :
    ∀ {s : List α}, needle <:+: s → ∃ rest, s = beforeFirst needle s ++ needle ++ rest
  | [], h => ⟨[], by rw [List.infix_nil.1 h]; rfl⟩
  | b :: s, h => by
    rw [beforeFirst]
    split
    · rename_i hprefix
      obtain ⟨rest, hrest⟩ := hprefix
      exact ⟨rest, hrest.symm⟩
    · rename_i hnot
      obtain ⟨rest, hrest⟩ := exists_eq_beforeFirst_append
        ((List.infix_cons_iff.1 h).resolve_left hnot)
      exact ⟨rest, by rw [List.cons_append, List.cons_append, ← hrest]⟩

/-- A needle whose first element does not come again in it does not overlap
itself, and so is not met before it starts. -/
theorem beforeFirst_append (hb : b ∉ n) :
    ∀ {x : List α}, ¬ b :: n <:+: x → beforeFirst (b :: n) (x ++ (b :: n ++ rest)) = x
  | [], _ => by
    rw [List.nil_append, List.cons_append, beforeFirst, if_pos]
    exact ⟨rest, List.cons_append⟩
  | a :: x, h => by
    rw [List.infix_cons_iff, not_or] at h
    have hnot : ¬ b :: n <+: a :: (x ++ (b :: n ++ rest)) := by
      rw [← List.cons_append]
      rintro ⟨v, hv⟩
      rcases List.append_eq_append_iff.1 hv with ⟨u, hu, -⟩ | ⟨u, hu, hrest⟩
      · exact h.1 ⟨u, hu.symm⟩
      · cases u with
        | nil =>
          rw [List.append_nil] at hu
          exact h.1 (hu ▸ List.prefix_rfl)
        | cons c u =>
          -- what is left over starts as the needle does
          obtain rfl : b = c := (List.cons.inj hrest).1
          obtain ⟨-, rfl⟩ := List.cons.inj hu
          exact hb (by simp)
    rw [List.cons_append, beforeFirst, if_neg hnot, beforeFirst_append hb h.2]

/-- **What precedes the first occurrence has none in it, and ends the list
or is followed by one.** -/
theorem beforeFirst_eq_iff (hb : b ∉ n) :
    beforeFirst (b :: n) s = x ↔
      ¬ b :: n <:+: x ∧ ∃ rest, (rest = [] ∨ b :: n <+: rest) ∧ s = x ++ rest := by
  constructor
  · rintro rfl
    refine ⟨not_infix_beforeFirst (by simp), ?_⟩
    by_cases hinfix : b :: n <:+: s
    · obtain ⟨rest, hrest⟩ := exists_eq_beforeFirst_append hinfix
      refine ⟨b :: n ++ rest, Or.inr (List.prefix_append _ _), ?_⟩
      rw [← List.append_assoc]
      exact hrest
    · refine ⟨[], Or.inl rfl, ?_⟩
      rw [beforeFirst_of_absent hinfix, List.append_nil]
  · rintro ⟨hnot, rest, rfl | ⟨u, rfl⟩, rfl⟩
    · rw [List.append_nil]
      exact beforeFirst_of_absent hnot
    · exact beforeFirst_append hb hnot

/-! ## Without the suffix -/

/-- A list without `suffix` at its end, where it ends in it. -/
def withoutSuffix (suffix s : List α) : List α :=
  if suffix <:+ s then s.rdrop suffix.length else s

/-- What was at the end is all that is gone. -/
theorem exists_eq_withoutSuffix_append (suffix s : List α) :
    ∃ rest, (rest = [] ∨ rest = suffix) ∧ s = withoutSuffix suffix s ++ rest := by
  unfold withoutSuffix
  split
  · rename_i h
    obtain ⟨t, rfl⟩ := h
    exact ⟨suffix, Or.inr rfl, by rw [List.rdrop_append_length]⟩
  · exact ⟨[], Or.inl rfl, (List.append_nil s).symm⟩

end Parts

end Lpnu
