import Lpnu.Common.Chain
import Lpnu.IOKit.Service.Links
/-!
# IOService — the child lists

The walk from a service along its child list should visit the services
whose parent it is. `AddChild` links a child into one list without taking
it out of another, and `RemoveChild` clears the child's `parent` and
nothing else, so both are right only for a child that has no parent:
`childListsExact_throughout_iff`.
-/

namespace Lpnu

namespace IOKit

namespace Service

open Run

variable {services : Heap LPNUIOService} {a b c p q x : ℕ} {l m : List ℕ}

/-- The child list of `p`: the walk from `p->child` along `sibling` ends,
having visited `l`. -/
def ChildList (services : Heap LPNUIOService) (p : ℕ) (l : List ℕ) : Prop :=
  Chain (follow services LPNUIOService.sibling) (follow services LPNUIOService.child p) l

/-- **Every child list visits exactly the services whose parent heads it**,
each once. -/
def ChildListsExact (services : Heap LPNUIOService) : Prop :=
  ∀ p, services.IsLive p → ∃ l, ChildList services p l ∧ l.Nodup ∧
    ∀ c, c ∈ l ↔ follow services LPNUIOService.parent c = some p

/-- **The condition on a call**: a child that is added or removed has no
parent. -/
def Parentless (services : Heap LPNUIOService) : TreeCall → Prop
  | .addChild (some _) (some c) | .removeChild (some _) (some c) =>
    follow services LPNUIOService.parent c = none
  | _ => True

/-- Every parent is a live service. -/
def ParentsLive (services : Heap LPNUIOService) : Prop :=
  ∀ a b, follow services LPNUIOService.parent a = some b → services.IsLive b

theorem parentsLive_treeStep (h : ParentsLive services) (call : TreeCall)
    (hlegal : TreeLegal services call) : ParentsLive (treeStep services call).1 := by
  intro a b hab
  refine isLive_treeStep call ?_
  rcases treeStep_cases services call with heq | ⟨name, heq⟩ | ⟨p, c, rfl⟩ | ⟨p, c, rfl⟩
  · rw [heq] at hab
    exact h a b hab
  · rw [heq, follow_alloc (by rfl)] at hab
    exact h a b hab
  · rw [treeStep, parent_addChild (hlegal.2 c rfl)] at hab
    split at hab
    · exact hlegal.1 b hab
    · exact h a b hab
  · have hab : follow (setParent services c none) LPNUIOService.parent a = some b := hab
    rw [parent_setParent (hlegal.2 c rfl)] at hab
    split at hab
    · cases hab
    · exact h a b hab

/-- A list the walk visits is visited once: only the parents are left to
say. -/
theorem childListsExact_of (h : ∀ p, services.IsLive p → ∃ l, ChildList services p l ∧
    ∀ c, c ∈ l ↔ follow services LPNUIOService.parent c = some p) :
    ChildListsExact services := by
  intro p hp
  obtain ⟨l, hl, hmem⟩ := h p hp
  exact ⟨l, hl, Chain.nodup hl, hmem⟩

/-- Two child lists share no service. -/
theorem ChildListsExact.parent_of_mem (h : ChildListsExact services) (hp : services.IsLive p)
    (hl : ChildList services p l) (hc : c ∈ l) :
    follow services LPNUIOService.parent c = some p := by
  obtain ⟨m, hm, -, hmem⟩ := h p hp
  rw [Chain.unique hl hm] at hc
  exact (hmem c).1 hc

/-- A creation leaves every list and makes an empty one. -/
theorem childListsExact_create (hlive : ParentsLive services) (h : ChildListsExact services)
    (service : Bool) (name : Option CString) (calloc : Bool) :
    ChildListsExact (lpnuIOServiceCreate services service name calloc).1 := by
  refine childListsExact_of fun p hp => ?_
  have hparent : ∀ x, follow (lpnuIOServiceCreate services service name calloc).1
      LPNUIOService.parent x = follow services LPNUIOService.parent x :=
    fun x => follow_create rfl
  have hchild : follow (lpnuIOServiceCreate services service name calloc).1
      LPNUIOService.child p = follow services LPNUIOService.child p := follow_create rfl
  by_cases hold : services.IsLive p
  · obtain ⟨l, hl, -, hmem⟩ := h p hold
    refine ⟨l, ?_, fun c => by rw [hmem, hparent]⟩
    rw [ChildList, hchild]
    exact Chain.congr hl fun x _ => follow_create rfl
  · -- a service just created
    have hnone : follow services LPNUIOService.child p = none := by
      rcases hf : follow services LPNUIOService.child p with _ | b
      · rfl
      · exact absurd (isLive_of_follow hf) hold
    refine ⟨[], ?_, fun c => ?_⟩
    · rw [ChildList, hchild, hnone]
      exact Chain.nil
    · rw [hparent]
      refine iff_of_false List.not_mem_nil fun hc => ?_
      exact hold (hlive c p hc)

/-- A child without a parent goes to the head of the list. -/
theorem childListsExact_addChild (h : ChildListsExact services) (hp : services.IsLive p)
    (hc : services.IsLive c) (hnone : follow services LPNUIOService.parent c = none) :
    ChildListsExact (lpnuIOServiceAddChild services (some p) (some c)).1 := by
  refine childListsExact_of fun q hq => ?_
  have hq : services.IsLive q := by simpa [lpnuIOServiceAddChild] using hq
  obtain ⟨l, hl, -, hmem⟩ := h q hq
  have hcl : c ∉ l := fun hcl => by
    rw [(hmem c).1 hcl] at hnone
    cases hnone
  -- the lists there were do not meet the one sibling field that changes
  have hsame : Chain (follow (lpnuIOServiceAddChild services (some p) (some c)).1
      LPNUIOService.sibling) (follow services LPNUIOService.child q) l := by
    refine Chain.congr hl fun x hx => ?_
    rw [sibling_addChild hc, if_neg]
    rintro rfl
    exact hcl hx
  by_cases hqp : q = p
  · subst hqp
    refine ⟨c :: l, ?_, fun x => ?_⟩
    · rw [ChildList, child_addChild hp, if_pos rfl]
      refine Chain.cons ?_
      rw [sibling_addChild hc, if_pos rfl]
      exact hsame
    · rw [List.mem_cons, parent_addChild hc, hmem x]
      by_cases hx : x = c <;> simp [hx]
  · refine ⟨l, ?_, fun x => ?_⟩
    · rw [ChildList, child_addChild hp, if_neg hqp]
      exact hsame
    · rw [parent_addChild hc, hmem x]
      by_cases hx : x = c
      · rw [if_pos hx, hx, hnone]
        simp [Ne.symm hqp]
      · rw [if_neg hx]

/-- A child with a parent stays in that one's list as well, or comes to
stand in it twice. -/
theorem not_childListsExact_addChild (hlive : ParentsLive services)
    (h : ChildListsExact services) (hp : services.IsLive p) (hc : services.IsLive c)
    (hq : follow services LPNUIOService.parent c = some q) :
    ¬ ChildListsExact (lpnuIOServiceAddChild services (some p) (some c)).1 := by
  intro hafter
  have hqlive : services.IsLive q := hlive c q hq
  have hqlive' : (lpnuIOServiceAddChild services (some p) (some c)).1.IsLive q := by
    simpa [lpnuIOServiceAddChild] using hqlive
  obtain ⟨l, hl, -, hmem⟩ := h q hqlive
  obtain ⟨m, hm, hnodup, -⟩ := hafter q hqlive'
  have hchanged : ∀ x, x ≠ c → follow (lpnuIOServiceAddChild services (some p) (some c)).1
      LPNUIOService.sibling x = follow services LPNUIOService.sibling x :=
    fun x hx => by rw [sibling_addChild hc, if_neg hx]
  have hcl : c ∈ l := (hmem c).2 hq
  by_cases hqp : q = p
  · -- the walk meets `c` at the head and where it stood before
    subst hqp
    have hm' := hm
    rw [ChildList, child_addChild hp, if_pos rfl] at hm'
    obtain ⟨m', rfl, hrest⟩ := Chain.cons_iff.1 hm'
    rw [sibling_addChild hc, if_pos rfl] at hrest
    have hcm : c ∈ m' := Chain.mem_of_changed hl hcl hchanged hrest
    exact (List.nodup_cons.1 hnodup).1 hcm
  · -- the list of `q` still leads to `c`, whose parent is now `p`
    have hm' := hm
    rw [ChildList, child_addChild hp, if_neg hqp] at hm'
    have hcm : c ∈ m := Chain.mem_of_changed hl hcl hchanged hm'
    have hparent := hafter.parent_of_mem hqlive' hm hcm
    rw [parent_addChild hc, if_pos rfl] at hparent
    exact hqp (Option.some.inj hparent).symm

/-- Removing a child without a parent changes no link. -/
theorem childListsExact_removeChild (h : ChildListsExact services) (hc : services.IsLive c)
    (hnone : follow services LPNUIOService.parent c = none) :
    ChildListsExact (setParent services c none) := by
  refine childListsExact_of fun q hq => ?_
  obtain ⟨l, hl, -, hmem⟩ := h q (isLive_setParent.1 hq)
  refine ⟨l, ?_, fun x => ?_⟩
  · rw [ChildList, child_setParent]
    exact Chain.congr hl fun x _ => sibling_setParent
  · rw [parent_setParent hc, hmem x]
    by_cases hx : x = c
    · rw [if_pos hx, hx, hnone]
    · rw [if_neg hx]

/-- A child with a parent is still in that one's list after its
removal. -/
theorem not_childListsExact_removeChild (hlive : ParentsLive services)
    (h : ChildListsExact services) (hc : services.IsLive c)
    (hq : follow services LPNUIOService.parent c = some q) :
    ¬ ChildListsExact (setParent services c none) := by
  intro hafter
  -- no link of the list has changed, so the walk from `q` still visits `c`
  obtain ⟨l, hl, -, hmem⟩ := h q (hlive c q hq)
  have hl' : ChildList (setParent services c none) q l := by
    rw [ChildList, child_setParent]
    exact Chain.congr hl fun x _ => sibling_setParent
  have hparent := hafter.parent_of_mem (isLive_setParent.2 (hlive c q hq)) hl' ((hmem c).2 hq)
  rw [parent_setParent hc, if_pos rfl] at hparent
  cases hparent

/-- **One call keeps the child lists exact if and only if its child has no
parent.** -/
theorem childListsExact_step_iff (hlive : ParentsLive services) (h : ChildListsExact services)
    (call : TreeCall) (hlegal : TreeLegal services call) :
    ChildListsExact (treeStep services call).1 ↔ Parentless services call := by
  cases call with
  | create service name calloc =>
    exact iff_of_true (childListsExact_create hlive h service name calloc) trivial
  | addChild parent child =>
    rcases parent with _ | p <;> rcases child with _ | c
    · exact iff_of_true h trivial
    · exact iff_of_true h trivial
    · exact iff_of_true h trivial
    · have hp := hlegal.1 p rfl
      have hc := hlegal.2 c rfl
      rw [Parentless]
      rcases hq : follow services LPNUIOService.parent c with _ | q
      · exact iff_of_true (childListsExact_addChild h hp hc hq) rfl
      · exact iff_of_false (not_childListsExact_addChild hlive h hp hc hq) (by simp)
  | removeChild parent child =>
    rcases parent with _ | p <;> rcases child with _ | c
    · exact iff_of_true h trivial
    · exact iff_of_true h trivial
    · exact iff_of_true h trivial
    · have hc := hlegal.2 c rfl
      rw [Parentless]
      rcases hq : follow services LPNUIOService.parent c with _ | q
      · exact iff_of_true (childListsExact_removeChild h hc hq) rfl
      · exact iff_of_false (not_childListsExact_removeChild hlive h hc hq) (by simp)

theorem parentsLive_empty : ParentsLive (Heap.empty : Heap LPNUIOService) := by
  intro a b hab
  cases hab

theorem childListsExact_empty : ChildListsExact (Heap.empty : Heap LPNUIOService) :=
  fun _ hp => absurd hp Heap.not_isLive_empty

/-- **When the child lists are exact throughout a run**: if and only if
every child added or removed has no parent at the time. -/
theorem childListsExact_throughout_iff {run : List TreeCall}
    (hlegal : EachStep treeStep Heap.empty TreeLegal run) :
    Throughout treeStep Heap.empty ChildListsExact run ↔
      EachStep treeStep Heap.empty Parentless run :=
  throughout_iff_eachStep (fun _ call hlive _ hl => parentsLive_treeStep hlive call hl)
    (fun _ call hlive h hl => childListsExact_step_iff hlive h call hl)
    parentsLive_empty childListsExact_empty hlegal

/-- Two services, the second made a child of the first. -/
def adoption : List TreeCall :=
  [.create true none true, .create true none true, .addChild (some 0) (some 1)]

/-- The same, and the child removed again. -/
def adoptionUndone : List TreeCall := adoption ++ [.removeChild (some 0) (some 1)]

theorem childListsExact_adoption :
    Throughout treeStep Heap.empty ChildListsExact adoption := by
  have hlegal : EachStep treeStep Heap.empty TreeLegal adoption := by
    refine ⟨trivial, trivial, ⟨?_, ?_⟩, trivial⟩ <;>
      · rintro a ⟨⟩; decide
  exact (childListsExact_throughout_iff hlegal).2 ⟨trivial, trivial, rfl, trivial⟩

/-- The child removed has no parent and stands in the list still. -/
theorem not_childListsExact_adoptionUndone :
    EachStep treeStep Heap.empty TreeLegal adoptionUndone ∧
      ¬ ChildListsExact (after treeStep Heap.empty adoptionUndone) := by
  constructor
  · refine ⟨trivial, trivial, ⟨?_, ?_⟩, ⟨?_, ?_⟩, trivial⟩ <;>
      · rintro a ⟨⟩; decide
  · intro h
    have hlist : ChildList (after treeStep Heap.empty adoptionUndone) 0 [1] :=
      Chain.cons Chain.nil
    have hparent := h.parent_of_mem (by decide) hlist (List.mem_singleton_self 1)
    exact absurd hparent (by decide)

end Service

end IOKit

end Lpnu
