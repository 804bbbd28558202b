import Lpnu.IOKit.Service.Children
/-!
# IOService — the order of the child lists, and what a removal is

A run that adds no service twice leaves under each service the list of
those added to it, the last added first, cycles or not: the one sibling
field a call writes belongs to a service in no list yet
(`listsAdded_after`). A removal reads nothing: it takes the child from
whatever parent it has, `detaches_after`.
-/

namespace Lpnu

namespace IOKit

namespace Service

open IOReturn Run

/-- The service a call adds to another. -/
def adds : TreeCall → Option ℕ
  | .addChild (some _) (some c) => some c
  | _ => none

/-- The service a call adds under `p`. -/
def addsUnder (p : ℕ) : TreeCall → Option ℕ
  | .addChild (some q) (some c) => if q = p then some c else none
  | _ => none

/-- The services a run adds under `p`, the last one first. -/
def addedUnder (p : ℕ) (run : List TreeCall) : List ℕ := (run.filterMap (addsUnder p)).reverse

/-- A run that removes no service and adds none twice. -/
structure AddsOnce (run : List TreeCall) : Prop where
  no_removal : ∀ parent child, .removeChild parent child ∉ run
  once : (run.filterMap adds).Nodup

/-- **The walk from each service lists what was added under it**, the last
one first, and these have it for their parent. -/
def ListsAdded (services : Heap LPNUIOService) (run : List TreeCall) : Prop :=
  ∀ p, ChildList services p (addedUnder p run) ∧
    ∀ c ∈ addedUnder p run, follow services LPNUIOService.parent c = some p

/-- They do in every state a run reaches. -/
def ListsAddedThroughout (run : List TreeCall) : Prop :=
  ∀ pre, pre <+: run → ListsAdded (after treeStep Heap.empty pre) pre

variable {services : Heap LPNUIOService} {run : List TreeCall} {call : TreeCall} {c p q : ℕ}

theorem addedUnder_concat :
    addedUnder p (run ++ [call]) = (addsUnder p call).toList ++ addedUnder p run := by
  unfold addedUnder
  cases h : addsUnder p call <;> simp [List.filterMap_append, h]

theorem addedUnder_of_adds (hcall : adds call = none) :
    addedUnder p (run ++ [call]) = addedUnder p run := by
  have hunder : addsUnder p call = none := by
    unfold adds at hcall
    split at hcall
    · cases hcall
    · rename_i hno
      unfold addsUnder
      split
      · exact absurd rfl (hno _ _)
      · rfl
  rw [addedUnder_concat, hunder]
  rfl

/-- What was added under a service was added. -/
theorem mem_filterMap_adds (h : c ∈ addedUnder p run) : c ∈ run.filterMap adds := by
  rw [addedUnder, List.mem_reverse, List.mem_filterMap] at h
  obtain ⟨call, hmem, hcall⟩ := h
  refine List.mem_filterMap.2 ⟨call, hmem, ?_⟩
  unfold addsUnder at hcall
  split at hcall
  · split at hcall
    · exact hcall
    · cases hcall
  · cases hcall

/-- A call that leaves the links and adds nothing. -/
theorem listsAdded_of_follow {services' : Heap LPNUIOService} (h : ListsAdded services run)
    (hcall : adds call = none)
    (hfollow : ∀ field x, (∀ name, field (createdService name) = none) →
      follow services' field x = follow services field x) :
    ListsAdded services' (run ++ [call]) := by
  intro p
  obtain ⟨hlist, hparent⟩ := h p
  rw [addedUnder_of_adds hcall]
  refine ⟨?_, fun c hc => ?_⟩
  · rw [ChildList, hfollow _ _ fun _ => rfl]
    exact Chain.congr hlist fun x _ => hfollow _ x fun _ => rfl
  · rw [hfollow _ c fun _ => rfl]
    exact hparent c hc

/-- **A service added for the first time goes to the head of one list**,
and the others do not meet it. -/
theorem listsAdded_addChild (h : ListsAdded services run) (hp : services.IsLive p)
    (hc : services.IsLive c) (hnew : c ∉ run.filterMap adds) :
    ListsAdded (lpnuIOServiceAddChild services (some p) (some c)).1
      (run ++ [.addChild (some p) (some c)]) := by
  intro q
  obtain ⟨hlist, hparent⟩ := h q
  have hcq : c ∉ addedUnder q run := fun hmem => hnew (mem_filterMap_adds hmem)
  have hsame : Chain (follow (lpnuIOServiceAddChild services (some p) (some c)).1
      LPNUIOService.sibling) (follow services LPNUIOService.child q) (addedUnder q run) := by
    refine Chain.congr hlist fun x hx => ?_
    rw [sibling_addChild hc, if_neg]
    rintro rfl
    exact hcq hx
  have hkept : ∀ x ∈ addedUnder q run, follow (lpnuIOServiceAddChild services (some p)
      (some c)).1 LPNUIOService.parent x = some q := by
    intro x hx
    rw [parent_addChild hc, if_neg]
    · exact hparent x hx
    · rintro rfl
      exact hcq hx
  rw [addedUnder_concat]
  by_cases hpq : p = q
  · subst hpq
    have hhead : addsUnder p (.addChild (some p) (some c)) = some c := if_pos rfl
    rw [hhead]
    refine ⟨?_, fun x hx => ?_⟩
    · rw [ChildList, child_addChild hp, if_pos rfl]
      refine Chain.cons ?_
      rw [sibling_addChild hc, if_pos rfl]
      exact hsame
    · rcases List.mem_cons.1 hx with rfl | hx
      · rw [parent_addChild hc, if_pos rfl]
      · exact hkept x hx
  · have hnone : addsUnder q (.addChild (some p) (some c)) = none := if_neg hpq
    rw [hnone]
    refine ⟨?_, hkept⟩
    rw [ChildList, child_addChild hp, if_neg (Ne.symm hpq)]
    exact hsame

theorem AddsOnce.beginning {pre : List TreeCall} (h : AddsOnce run) (hpre : pre <+: run) :
    AddsOnce pre :=
  ⟨fun parent child hmem => h.no_removal parent child (hpre.mem hmem),
    h.once.sublist (hpre.sublist.filterMap adds)⟩

/-- The service the last call adds was not added before. -/
theorem AddsOnce.notMem_of_concat (h : AddsOnce (run ++ [call])) (hcall : adds call = some c) :
    c ∉ run.filterMap adds := by
  have hnodup := h.once
  rw [List.filterMap_append, List.filterMap_cons_some hcall, List.nodup_append] at hnodup
  exact fun hmem => hnodup.2.2 c hmem c List.mem_cons_self rfl

theorem listsAdded_step (h : ListsAdded services run) (hlegal : TreeLegal services call)
    (hadds : AddsOnce (run ++ [call])) :
    ListsAdded (treeStep services call).1 (run ++ [call]) := by
  cases call with
  | create service name calloc =>
    exact listsAdded_of_follow h rfl fun field x hfield => follow_create (hfield name)
  | addChild parent child =>
    rcases parent with _ | p <;> rcases child with _ | c
    · exact listsAdded_of_follow h rfl fun _ _ _ => rfl
    · exact listsAdded_of_follow h rfl fun _ _ _ => rfl
    · exact listsAdded_of_follow h rfl fun _ _ _ => rfl
    · exact listsAdded_addChild h (hlegal.1 p rfl) (hlegal.2 c rfl) (hadds.notMem_of_concat rfl)
  | removeChild parent child =>
    exact absurd (List.mem_append_right run (List.mem_singleton_self _))
      (hadds.no_removal parent child)

theorem listsAdded_of_addsOnce (hlegal : EachStep treeStep Heap.empty TreeLegal run)
    (hadds : AddsOnce run) : ListsAdded (after treeStep Heap.empty run) run := by
  induction run using List.reverseRecOn with
  | nil => exact fun p => ⟨Chain.nil, fun c hc => absurd hc List.not_mem_nil⟩
  | append_singleton run call ih =>
    have hpre : run <+: run ++ [call] := List.prefix_append run [call]
    have hlast := eachStep_iff_prefixes.1 hlegal run call List.prefix_rfl
    rw [after_concat]
    exact listsAdded_step (ih (hlegal.beginning hpre) (hadds.beginning hpre)) hlast hadds

/-- **In every state of a run that adds no service twice, every child list
is what was added to it**, the last one first. -/
theorem listsAdded_after (hlegal : EachStep treeStep Heap.empty TreeLegal run)
    (hadds : AddsOnce run) : ListsAddedThroughout run :=
  fun _ hpre => listsAdded_of_addsOnce (hlegal.beginning hpre) (hadds.beginning hpre)

/-- Two services, each made a child of the other, and a third made its own
child. -/
def tangle : List TreeCall :=
  [.create true none true, .create true none true, .create true none true,
    .addChild (some 0) (some 1), .addChild (some 1) (some 0), .addChild (some 2) (some 2)]

theorem listsAdded_tangle : ListsAddedThroughout tangle := by
  have hlegal : EachStep treeStep Heap.empty TreeLegal tangle := by
    refine ⟨trivial, trivial, trivial, ⟨?_, ?_⟩, ⟨?_, ?_⟩, ⟨?_, ?_⟩, trivial⟩ <;>
      · rintro a ⟨⟩; decide
  exact listsAdded_after hlegal ⟨by simp [tangle], by decide⟩

/-! ## Removal -/

/-- **The removal takes `c` from whatever parent it has and touches nothing
else**: no other field, no other service, no child list, and nothing at all
where `c` has no parent. -/
structure Detaches (services services' : Heap LPNUIOService) (c : ℕ) : Prop where
  detached : follow services' LPNUIOService.parent c = none
  fields : ∀ svc, services.cells c = some svc →
    services'.cells c = some { svc with parent := none }
  others : ∀ x, x ≠ c → services'.cells x = services.cells x
  lists : ∀ q l, ChildList services' q l ↔ ChildList services q l
  unparented : follow services LPNUIOService.parent c = none → services' = services

theorem detaches_setParent (hc : services.IsLive c) :
    Detaches services (setParent services c none) c := by
  have hself : (setParent services c none).cells c =
      (services.cells c).map fun svc => { svc with parent := none } := by
    rw [setParent, Heap.cells_modify, if_pos rfl]
  have hother : ∀ x, x ≠ c → (setParent services c none).cells x = services.cells x :=
    fun x hx => by rw [setParent, Heap.cells_modify, if_neg hx]
  refine ⟨by rw [parent_setParent hc, if_pos rfl], fun svc hsvc => by rw [hself, hsvc]; rfl,
    hother, fun q l => ?_, fun hnone => ?_⟩
  · have hsibling : follow (setParent services c none) LPNUIOService.sibling =
        follow services LPNUIOService.sibling := funext fun _ => sibling_setParent
    rw [ChildList, ChildList, child_setParent, hsibling]
  · obtain ⟨svc, hsvc⟩ := Heap.isLive_iff.1 hc
    have hparent : svc.parent = none := by
      rw [follow, hsvc] at hnone
      exact hnone
    have hcells : (setParent services c none).cells = services.cells := by
      funext x
      by_cases hx : x = c
      · rw [hx, hself, hsvc, Option.map_some, ← hparent]
      · exact hother x hx
    exact Heap.ext hcells rfl

/-- **In every state of every run a removal succeeds and detaches**,
whichever parent it is given. -/
theorem detaches_after (run : List TreeCall) (p : ℕ)
    (hc : (after treeStep Heap.empty run).IsLive c) :
    (lpnuIOServiceRemoveChild (after treeStep Heap.empty run) (some p) (some c)).2.ret =
        some kIOReturnSuccess ∧
      Detaches (after treeStep Heap.empty run)
        (lpnuIOServiceRemoveChild (after treeStep Heap.empty run) (some p) (some c)).1 c :=
  ⟨rfl, detaches_setParent hc⟩

/-- Three services, the last a child of the first. -/
def bystander : List TreeCall :=
  [.create true none true, .create true none true, .create true none true,
    .addChild (some 0) (some 2)]

theorem detaches_bystander :
    (lpnuIOServiceRemoveChild (after treeStep Heap.empty bystander) (some 1) (some 2)).2.ret =
        some kIOReturnSuccess ∧
      Detaches (after treeStep Heap.empty bystander)
        (lpnuIOServiceRemoveChild (after treeStep Heap.empty bystander) (some 1) (some 2)).1 2 :=
  detaches_after bystander 1 (by decide)

/-- The second is not its parent and takes it from the first. -/
theorem removeChild_of_bystander :
    EachStep treeStep Heap.empty TreeLegal (bystander ++ [.removeChild (some 1) (some 2)]) ∧
      follow (after treeStep Heap.empty bystander) LPNUIOService.parent 2 = some 0 ∧
      (lpnuIOServiceRemoveChild (after treeStep Heap.empty bystander) (some 1) (some 2)).2.ret =
        some kIOReturnSuccess ∧
      follow (lpnuIOServiceRemoveChild (after treeStep Heap.empty bystander) (some 1)
        (some 2)).1 LPNUIOService.parent 2 = none := by
  refine ⟨⟨trivial, trivial, trivial, ⟨?_, ?_⟩, ⟨?_, ?_⟩, trivial⟩, by decide, by decide,
    by decide⟩ <;>
    · rintro a ⟨⟩; decide

end Service

end IOKit

end Lpnu
