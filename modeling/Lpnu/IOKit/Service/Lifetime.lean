import Lpnu.IOKit.Service.Links
/-!
# IOService — the lifetime of a service

A service is freed by the `Destroy` that takes its reference count to
zero, and the tree and `g_serviceList` must not outlive it. Neither ever
takes a reference: the count of a live service is 1 in every state, so
the first `Destroy` frees it whatever still points there.
`noFreedService_throughout_iff` says when nothing does.
-/

namespace Lpnu

namespace IOKit

namespace Service

open Run

variable {services : Heap LPNUIOService} {s : State} {a b c p x : ℕ}

/-- Service `a` points to `b` by its parent, child or sibling field. -/
def Names (services : Heap LPNUIOService) (a b : ℕ) : Prop :=
  follow services LPNUIOService.parent a = some b ∨
    follow services LPNUIOService.child a = some b ∨
    follow services LPNUIOService.sibling a = some b

instance : Decidable (Names services a b) :=
  inferInstanceAs (Decidable (_ ∨ _ ∨ _))

/-- **No link of a live service and no registered service is a freed
one.** -/
def NoFreedService (s : State) : Prop :=
  (∀ a b, s.services.IsLive a → Names s.services a b → ¬ s.services.Freed b) ∧
    ∀ b, some b ∈ s.serviceList.live → ¬ s.services.Freed b

/-- **The condition on a call**: a service destroyed is not registered,
and no other service points to it. -/
def Unnamed (s : State) : Call → Prop
  | .destroy (some a) =>
    (∀ b, b ≠ a → ¬ Names s.services b a) ∧ some a ∉ s.serviceList.live
  | _ => True

/-- What the argument uses of a state: no link and no registration is
counted, and the list holds what was registered. -/
structure Uncounted (s : State) : Prop where
  refCount_eq : s.services.All fun svc => svc.refCount = 1
  listed : ∃ l, Table.Fits 256 s.serviceList l

theorem isLive_of_names (h : Names services a b) : services.IsLive a := by
  rcases h with h | h | h
  · exact isLive_of_follow h
  · exact isLive_of_follow h
  · exact isLive_of_follow h

/-! ## Calls on the tree -/

theorem refCount_treeStep (h : services.All fun svc => svc.refCount = 1) (call : TreeCall) :
    (treeStep services call).1.All fun svc => svc.refCount = 1 := by
  rcases treeStep_cases services call with heq | ⟨name, heq⟩ | ⟨p, c, rfl⟩ | ⟨p, c, rfl⟩
  · rw [heq]
    exact h
  · rw [heq]
    exact h.alloc rfl
  · exact Heap.All.modify (Heap.All.modify (h.modify fun _ hv => hv) fun _ hv => hv)
      fun _ hv => hv
  · exact h.modify fun _ hv => hv

/-- **A link made by a call on the tree** leads to a service passed, or
where one led before. -/
theorem names_treeStep {call : TreeCall} (hlegal : TreeLegal services call)
    (h : Names (treeStep services call).1 a b) :
    services.IsLive b ∨ ∃ x, Names services x b := by
  rcases treeStep_cases services call with heq | ⟨name, heq⟩ | ⟨p, c, rfl⟩ | ⟨p, c, rfl⟩
  · rw [heq] at h
    exact Or.inr ⟨a, h⟩
  · rw [heq] at h
    unfold Names at h
    rw [follow_alloc (by rfl), follow_alloc (by rfl), follow_alloc (by rfl)] at h
    exact Or.inr ⟨a, h⟩
  · have hp := hlegal.1 p rfl
    have hc := hlegal.2 c rfl
    unfold Names at h
    rw [treeStep, parent_addChild hc, child_addChild hp, sibling_addChild hc] at h
    rcases h with h | h | h
    · split at h
      · exact Or.inl (Option.some.inj h ▸ hp)
      · exact Or.inr ⟨a, Or.inl h⟩
    · split at h
      · exact Or.inl (Option.some.inj h ▸ hc)
      · exact Or.inr ⟨a, Or.inr (Or.inl h)⟩
    · split at h
      · -- the old head of the parent's list
        exact Or.inr ⟨p, Or.inr (Or.inl h)⟩
      · exact Or.inr ⟨a, Or.inr (Or.inr h)⟩
  · have h : Names (setParent services c none) a b := h
    unfold Names at h
    rw [parent_setParent (hlegal.2 c rfl), child_setParent, sibling_setParent] at h
    rcases h with h | h | h
    · split at h
      · cases h
      · exact Or.inr ⟨a, Or.inl h⟩
    · exact Or.inr ⟨a, Or.inr (Or.inl h)⟩
    · exact Or.inr ⟨a, Or.inr (Or.inr h)⟩

/-- A call on the tree makes no dangling link. -/
theorem noFreedService_tree (h : NoFreedService s) {call : TreeCall}
    (hlegal : TreeLegal s.services call) : NoFreedService (step s (.tree call)).1 := by
  constructor
  · intro a b _ hab hfreed
    have hfreed : s.services.Freed b := (freed_treeStep call).1 hfreed
    rcases names_treeStep hlegal hab with hlive | ⟨x, hx⟩
    · exact hlive.not_freed hfreed
    · exact h.1 x b (isLive_of_names hx) hx hfreed
  · intro b hb hfreed
    exact h.2 b hb ((freed_treeStep call).1 hfreed)

/-! ## Registration and destruction -/

theorem fits_registerService {l : List ℕ} (hl : Table.Fits 256 s.serviceList l)
    (service : Option ℕ) :
    ∃ m, Table.Fits 256 (step s (.registerService service)).1.serviceList m ∧
      ∀ b ∈ m, b ∈ l ∨ service = some b := by
  cases service with
  | none => exact ⟨l, hl, fun b hb => Or.inl hb⟩
  | some a =>
    simp only [step, lpnuIOServiceRegisterService]
    split
    · rename_i hroom
      refine ⟨l ++ [a], hl.push (hl.count_lt_iff.1 hroom), fun b hb => ?_⟩
      rcases List.mem_append.1 hb with hb | hb
      · exact Or.inl hb
      · exact Or.inr (congrArg some (List.mem_singleton.1 hb).symm)
    · exact ⟨l, hl, fun b hb => Or.inl hb⟩

/-- **`Destroy` frees**: no reference but the creator's is counted. -/
theorem destroy_eq_free (h : services.All fun svc => svc.refCount = 1)
    (ha : services.IsLive a) : (lpnuIOServiceDestroy services (some a)).1 = services.free a := by
  obtain ⟨svc, hsvc⟩ := Heap.isLive_iff.1 ha
  -- one reference, and the decrement takes it to zero
  have hone : svc.refCount = 1 := h a svc hsvc
  have hzero : ((services.modify a fun svc =>
      if svc.refCount > 0 then { svc with refCount := svc.refCount - 1 } else svc).cells a).map
        LPNUIOService.refCount = some 0 := by
    rw [Heap.cells_modify, if_pos rfl, hsvc]
    simp [hone]
  simp only [lpnuIOServiceDestroy]
  rw [if_pos hzero]
  exact Heap.free_modify_self

theorem names_free : Names (services.free a) x b ↔ x ≠ a ∧ Names services x b := by
  unfold Names follow
  rw [Heap.cells_free]
  by_cases hx : x = a <;> simp [hx]

/-- **A destruction leaves no dangling pointer if and only if nothing
points to the service.** -/
theorem noFreedService_destroy_iff (hs : Uncounted s) (h : NoFreedService s)
    (ha : s.services.IsLive a) :
    NoFreedService (step s (.destroy (some a))).1 ↔ Unnamed s (.destroy (some a)) := by
  have hservices : (step s (.destroy (some a))).1.services = s.services.free a :=
    destroy_eq_free hs.refCount_eq ha
  have hlist : (step s (.destroy (some a))).1.serviceList = s.serviceList := rfl
  unfold NoFreedService Unnamed
  rw [hservices, hlist]
  constructor
  · rintro ⟨hlinks, hregistered⟩
    refine ⟨fun b hb hba => ?_, fun hmem => ?_⟩
    · have hblive : (s.services.free a).IsLive b := Heap.isLive_free.2 ⟨hb, isLive_of_names hba⟩
      exact hlinks b a hblive (names_free.2 ⟨hb, hba⟩) ((Heap.freed_free ha).2 (Or.inl rfl))
    · exact hregistered a hmem ((Heap.freed_free ha).2 (Or.inl rfl))
  · rintro ⟨hlinks, hregistered⟩
    constructor
    · intro x b _ hlink hfreed
      obtain ⟨hx, hxb⟩ := names_free.1 hlink
      rcases (Heap.freed_free ha).1 hfreed with rfl | hold
      · exact hlinks x hx hxb
      · exact h.1 x b (isLive_of_names hxb) hxb hold
    · intro b hb hfreed
      rcases (Heap.freed_free ha).1 hfreed with rfl | hold
      · exact hregistered hb
      · exact h.2 b hb hold

/-! ## Runs -/

theorem uncounted_step (hs : Uncounted s) (call : Call) (hlegal : Legal s call) :
    Uncounted (step s call).1 := by
  obtain ⟨l, hl⟩ := hs.listed
  cases call with
  | tree call => exact ⟨refCount_treeStep hs.refCount_eq call, l, hl⟩
  | registerService service =>
    obtain ⟨m, hm, -⟩ := fits_registerService hl service
    exact ⟨hs.refCount_eq, m, hm⟩
  | destroy service =>
    cases service with
    | none => exact hs
    | some a =>
      have hservices : (step s (.destroy (some a))).1.services = s.services.free a :=
        destroy_eq_free hs.refCount_eq (hlegal a rfl)
      exact ⟨hservices ▸ hs.refCount_eq.free, l, hl⟩

theorem noFreedService_step_iff (hs : Uncounted s) (h : NoFreedService s) (call : Call)
    (hlegal : Legal s call) : NoFreedService (step s call).1 ↔ Unnamed s call := by
  cases call with
  | tree call => exact iff_of_true (noFreedService_tree h hlegal) trivial
  | registerService service =>
    obtain ⟨l, hl⟩ := hs.listed
    obtain ⟨m, hm, hmem⟩ := fits_registerService hl service
    refine iff_of_true ⟨h.1, fun b hb hfreed => ?_⟩ trivial
    rcases hmem b (hm.holds.mem_live.1 hb) with hb | hb
    · exact h.2 b (hl.holds.mem_live.2 hb) hfreed
    · exact (hlegal b hb).not_freed hfreed
  | destroy service =>
    cases service with
    | none => exact iff_of_true h trivial
    | some a => exact noFreedService_destroy_iff hs h (hlegal a rfl)

theorem uncounted_init : Uncounted State.init :=
  ⟨Heap.all_empty, [], Table.fits_empty⟩

theorem noFreedService_init : NoFreedService State.init :=
  ⟨fun _ _ ha => absurd ha Heap.not_isLive_empty, fun b hb => absurd hb (by
    simp [State.init, Table.live, Table.empty])⟩

/-- **When no link and no registration ever dangles.** Of the runs on live
services, exactly those in which a service destroyed is pointed to by no
other and is not registered. -/
theorem noFreedService_throughout_iff {run : List Call}
    (hlegal : EachStep step State.init Legal run) :
    Throughout step State.init NoFreedService run ↔ EachStep step State.init Unnamed run :=
  throughout_iff_eachStep (fun _ call hs _ hl => uncounted_step hs call hl)
    (fun _ call hs h hl => noFreedService_step_iff hs h call hl)
    uncounted_init noFreedService_init hlegal

/-- A parent and a child, the parent destroyed after the child let go of
it. -/
def partingRun : List Call :=
  [.tree (.create true none true), .tree (.create true none true),
    .tree (.addChild (some 0) (some 1)), .tree (.removeChild (some 0) (some 1)),
    .destroy (some 0)]

/-- The same, with the child destroyed instead. -/
def orphaningRun : List Call :=
  [.tree (.create true none true), .tree (.create true none true),
    .tree (.addChild (some 0) (some 1)), .tree (.removeChild (some 0) (some 1)),
    .destroy (some 1)]

theorem noFreedService_partingRun :
    Throughout step State.init NoFreedService partingRun := by
  have hlegal : EachStep step State.init Legal partingRun := by
    refine ⟨trivial, trivial, ⟨?_, ?_⟩, ⟨?_, ?_⟩, ?_, trivial⟩ <;>
      · rintro a ⟨⟩; decide
  refine (noFreedService_throughout_iff hlegal).2
    ⟨trivial, trivial, trivial, trivial, ⟨fun b hb hnames => ?_, by decide⟩, trivial⟩
  -- of the two services only the child could point to the parent
  have hlt := (isLive_of_names hnames).lt_fresh
  have hb1 : b = 1 := by
    have hfresh : b < 2 := hlt
    omega
  subst hb1
  exact absurd hnames (by decide)

/-- The parent's `child` field outlives the child. -/
theorem freedService_orphaningRun :
    EachStep step State.init Legal orphaningRun ∧
      ¬ NoFreedService (after step State.init orphaningRun) := by
  constructor
  · refine ⟨trivial, trivial, ⟨?_, ?_⟩, ⟨?_, ?_⟩, ?_, trivial⟩ <;>
      · rintro a ⟨⟩; decide
  · intro h
    exact h.1 0 1 (by decide) (by decide) (by decide)

end Service

end IOKit

end Lpnu
