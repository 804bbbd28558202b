import Lpnu.Common.Chain
import Lpnu.IOKit.Service.Links
/-!
# IOService — walks over the tree

A walk down a child list or up the parents should come to an end.
`AddChild` redirects one link of each kind and asks neither whether the
child is an ancestor of its parent nor whether it stands in that one's
list already; `walksEnd_throughout_iff` says that these are what there is
to ask.
-/

namespace Lpnu

namespace IOKit

namespace Service

open Run

variable {services : Heap LPNUIOService} {a c p s : ℕ}

/-- **Both walks from a service end**: its child, then sibling after
sibling, and itself, its parent and so on. -/
def BothEnd (services : Heap LPNUIOService) (s : ℕ) : Prop :=
  Chain.Ends (follow services LPNUIOService.sibling) (follow services LPNUIOService.child s) ∧
    Chain.Ends (follow services LPNUIOService.parent) (some s)

/-- **All walks over the tree end.** -/
def WalksEnd (services : Heap LPNUIOService) : Prop :=
  ∀ s, services.IsLive s → BothEnd services s

/-- **The condition on a call**: a child that is added is not visited by
the walk up from its new parent, nor by the walk down that one's child
list. -/
def OffWalks (services : Heap LPNUIOService) : TreeCall → Prop
  | .addChild (some p) (some c) =>
    ¬ Chain.Visits (follow services LPNUIOService.parent) (some p) c ∧
      ¬ Chain.Visits (follow services LPNUIOService.sibling)
        (follow services LPNUIOService.child p) c
  | _ => True

/-- The sibling walk from any service ends, whether it stands in a list or
not. -/
def SiblingsEnd (services : Heap LPNUIOService) : Prop :=
  ∀ a, Chain.Ends (follow services LPNUIOService.sibling) (some a)

/-- A service that is not live leads nowhere. -/
theorem follow_of_not_isLive {field : LPNUIOService → Option ℕ} (h : ¬ services.IsLive a) :
    follow services field a = none := by
  rcases hf : follow services field a with _ | b
  · rfl
  · exact absurd (isLive_of_follow hf) h

theorem WalksEnd.bothEnd (h : WalksEnd services) (s : ℕ) : BothEnd services s := by
  by_cases hs : services.IsLive s
  · exact h s hs
  · refine ⟨?_, Chain.Ends.some ?_⟩
    · rw [follow_of_not_isLive hs]
      exact Chain.Ends.none
    · rw [follow_of_not_isLive hs]
      exact Chain.Ends.none

/-- Calls that leave every link leave every walk. -/
theorem walksEnd_of_follow {services' : Heap LPNUIOService}
    (hparent : ∀ x, follow services' LPNUIOService.parent x =
      follow services LPNUIOService.parent x)
    (hsibling : ∀ x, follow services' LPNUIOService.sibling x =
      follow services LPNUIOService.sibling x)
    (hchild : ∀ x, follow services' LPNUIOService.child x =
      follow services LPNUIOService.child x) (h : WalksEnd services) : WalksEnd services' := by
  intro s _
  rw [BothEnd, funext hparent, funext hsibling, hchild]
  exact h.bothEnd s

/-! ## Adding a child -/

section AddChild

variable (hp : services.IsLive p) (hc : services.IsLive c)

include hp hc

/-- A child off the walks leaves them ending. -/
theorem walksEnd_addChild (h : WalksEnd services) (hsiblings : SiblingsEnd services)
    (hoff : OffWalks services (.addChild (some p) (some c))) :
    WalksEnd (lpnuIOServiceAddChild services (some p) (some c)).1 ∧
      SiblingsEnd (lpnuIOServiceAddChild services (some p) (some c)).1 := by
  obtain ⟨hparent, hsibling⟩ := hoff
  have hlist := (h p hp).1
  have hends : ∀ q, Chain.Ends (follow services LPNUIOService.sibling) q →
      Chain.Ends (follow (lpnuIOServiceAddChild services (some p) (some c)).1
        LPNUIOService.sibling) q := by
    intro q hq
    refine Chain.Ends.redirect (c := c) ?_ ?_ hlist hsibling hq
    · rw [sibling_addChild hc, if_pos rfl]
    · intro x hx
      rw [sibling_addChild hc, if_neg hx]
  refine ⟨fun s _ => ⟨?_, ?_⟩, fun a => hends _ (hsiblings a)⟩
  · rw [child_addChild hp]
    split
    · exact hends _ (hsiblings c)
    · exact hends _ (h.bothEnd s).1
  · refine Chain.Ends.redirect (c := c) ?_ ?_ (h p hp).2 hparent (h.bothEnd s).2
    · rw [parent_addChild hc, if_pos rfl]
    · intro x hx
      rw [parent_addChild hc, if_neg hx]

/-- A child on one of them closes a circle. -/
theorem offWalks_of_walksEnd (h : WalksEnd services)
    (hafter : WalksEnd (lpnuIOServiceAddChild services (some p) (some c)).1) :
    OffWalks services (.addChild (some p) (some c)) := by
  have hlive : ∀ x, services.IsLive x →
      (lpnuIOServiceAddChild services (some p) (some c)).1.IsLive x := by
    intro x hx
    simpa [lpnuIOServiceAddChild] using hx
  constructor
  · intro hvisits
    refine Chain.not_ends_redirect ?_ ?_ (h p hp).2 hvisits (hafter c (hlive c hc)).2
    · rw [parent_addChild hc, if_pos rfl]
    · intro x hx
      rw [parent_addChild hc, if_neg hx]
  · intro hvisits
    have hhead := (hafter p (hlive p hp)).1
    rw [child_addChild hp, if_pos rfl] at hhead
    refine Chain.not_ends_redirect ?_ ?_ (h p hp).1 hvisits hhead
    · rw [sibling_addChild hc, if_pos rfl]
    · intro x hx
      rw [sibling_addChild hc, if_neg hx]

end AddChild

/-- Removing a child cuts its walk up short. -/
theorem walksEnd_removeChild (hc : services.IsLive c) (h : WalksEnd services) :
    WalksEnd (setParent services c none) := by
  intro s _
  constructor
  · have hsibling : follow (setParent services c none) LPNUIOService.sibling =
        follow services LPNUIOService.sibling := funext fun _ => sibling_setParent
    rw [hsibling, child_setParent]
    exact (h.bothEnd s).1
  · refine Chain.Ends.redirect (c := c) ?_ ?_ Chain.Ends.none ?_ (h.bothEnd s).2
    · rw [parent_setParent hc, if_pos rfl]
    · intro x hx
      rw [parent_setParent hc, if_neg hx]
    · rintro ⟨⟩

/-! ## Over a run -/

/-- **One call keeps the walks ending if and only if its child is off
them.** -/
theorem walksEnd_step_iff (hsiblings : SiblingsEnd services) (h : WalksEnd services)
    (call : TreeCall) (hlegal : TreeLegal services call) :
    WalksEnd (treeStep services call).1 ↔ OffWalks services call := by
  cases call with
  | create service name calloc =>
    refine iff_of_true (walksEnd_of_follow ?_ ?_ ?_ h) trivial
    · exact fun x => follow_create rfl
    · exact fun x => follow_create rfl
    · exact fun x => follow_create rfl
  | addChild parent child =>
    rcases parent with _ | p <;> rcases child with _ | c
    · exact iff_of_true h trivial
    · exact iff_of_true h trivial
    · exact iff_of_true h trivial
    · have hp := hlegal.1 p rfl
      have hc := hlegal.2 c rfl
      exact ⟨offWalks_of_walksEnd hp hc h, fun hoff => (walksEnd_addChild hp hc h hsiblings hoff).1⟩
  | removeChild parent child =>
    rcases parent with _ | p <;> rcases child with _ | c
    · exact iff_of_true h trivial
    · exact iff_of_true h trivial
    · exact iff_of_true h trivial
    · exact iff_of_true (walksEnd_removeChild (hlegal.2 c rfl) h) trivial

/-- Such a call keeps the sibling walks ending as well. -/
theorem siblingsEnd_step (hsiblings : SiblingsEnd services) (h : WalksEnd services)
    (call : TreeCall) (hlegal : TreeLegal services call) (hoff : OffWalks services call) :
    SiblingsEnd (treeStep services call).1 := by
  rcases treeStep_cases services call with heq | ⟨name, heq⟩ | ⟨p, c, rfl⟩ | ⟨p, c, rfl⟩
  · rw [heq]
    exact hsiblings
  · have hsibling : follow (services.alloc (createdService name)) LPNUIOService.sibling =
        follow services LPNUIOService.sibling := funext fun x => follow_alloc rfl
    rw [heq, SiblingsEnd, hsibling]
    exact hsiblings
  · exact (walksEnd_addChild (hlegal.1 p rfl) (hlegal.2 c rfl) h hsiblings hoff).2
  · have hsibling : follow (setParent services c none) LPNUIOService.sibling =
        follow services LPNUIOService.sibling := funext fun _ => sibling_setParent
    show SiblingsEnd (setParent services c none)
    rw [SiblingsEnd, hsibling]
    exact hsiblings

theorem walksEnd_empty : WalksEnd (Heap.empty : Heap LPNUIOService) :=
  fun _ hs => absurd hs Heap.not_isLive_empty

theorem siblingsEnd_empty : SiblingsEnd (Heap.empty : Heap LPNUIOService) :=
  fun _ => Chain.Ends.some Chain.Ends.none

/-- **When all walks end throughout a run**: if and only if every child
added is off the walks from its new parent at the time. -/
theorem walksEnd_throughout_iff {run : List TreeCall}
    (hlegal : EachStep treeStep Heap.empty TreeLegal run) :
    Throughout treeStep Heap.empty WalksEnd run ↔
      EachStep treeStep Heap.empty OffWalks run := by
  -- what is carried along: as long as the walks end, so do all sibling walks
  have hinv : ∀ services call, (WalksEnd services → SiblingsEnd services) →
      WalksEnd services → TreeLegal services call →
        WalksEnd (treeStep services call).1 → SiblingsEnd (treeStep services call).1 := by
    intro services call hcarried h hl hafter
    have hoff := (walksEnd_step_iff (hcarried h) h call hl).1 hafter
    exact siblingsEnd_step (hcarried h) h call hl hoff
  exact throughout_iff_eachStep hinv
    (fun services call hcarried h hl => walksEnd_step_iff (hcarried h) h call hl)
    (fun _ => siblingsEnd_empty) walksEnd_empty hlegal

/-- Two services, the second made the child of the first. -/
def addedOnce : List TreeCall :=
  [.create true none true, .create true none true, .addChild (some 0) (some 1)]

/-- The same, and the child removed and added again. -/
def addedTwice : List TreeCall :=
  addedOnce ++ [.removeChild (some 0) (some 1), .addChild (some 0) (some 1)]

theorem walksEnd_addedOnce : Throughout treeStep Heap.empty WalksEnd addedOnce := by
  have hlegal : EachStep treeStep Heap.empty TreeLegal addedOnce := by
    refine ⟨trivial, trivial, ⟨?_, ?_⟩, trivial⟩ <;>
      · rintro a ⟨⟩; decide
  refine (walksEnd_throughout_iff hlegal).2 ⟨trivial, trivial, ⟨?_, ?_⟩, trivial⟩
  · -- the walk up from the first service visits it alone
    rintro (_ | hup)
    cases hup
  · rintro ⟨⟩

/-- The removal leaves the child in the list, and so the second time it
becomes its own sibling. -/
theorem not_walksEnd_addedTwice :
    EachStep treeStep Heap.empty TreeLegal addedTwice ∧
      ¬ WalksEnd (after treeStep Heap.empty addedTwice) := by
  constructor
  · refine ⟨trivial, trivial, ⟨?_, ?_⟩, ⟨?_, ?_⟩, ⟨?_, ?_⟩, trivial⟩ <;>
      · rintro a ⟨⟩; decide
  · intro h
    obtain ⟨l, hl⟩ := (h 0 (by decide)).1
    have hhead : Chain (follow (after treeStep Heap.empty addedTwice) LPNUIOService.sibling)
        (some 1) l := hl
    obtain ⟨m, rfl, hm⟩ := Chain.cons_iff.1 hhead
    -- what follows the child is the child again
    have hsame : 1 :: m = m := hhead.unique hm
    exact absurd (congrArg List.length hsame) (by simp)

end Service

end IOKit

end Lpnu
