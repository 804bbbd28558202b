import Lpnu.IOKit.Service.Model
/-!
# IOService — what one call does to the links

`treeStep_cases` lists the ways of a call on the tree; of the two that
change links, `parent_addChild`, `sibling_addChild`, `child_addChild` and
`parent_setParent` with its companions say where each field leads
afterwards.
-/

namespace Lpnu

namespace IOKit

namespace Service

variable {services : Heap LPNUIOService} {field : LPNUIOService → Option ℕ} {a b c p x : ℕ}
variable {f : LPNUIOService → LPNUIOService} {name : Option CString}

theorem isLive_of_follow (h : follow services field a = some b) : services.IsLive a := by
  obtain ⟨svc, hsvc, -⟩ := Option.bind_eq_some_iff.1 h
  exact Heap.isLive_of_cells hsvc

theorem follow_alloc {svc : LPNUIOService} (hfield : field svc = none) :
    follow (services.alloc svc) field x = follow services field x := by
  unfold follow
  rw [Heap.cells_alloc]
  split
  · -- nothing stood in the block before
    rename_i hx
    rw [hx, services.cells_of_le services.fresh (Nat.le_refl _)]
    simpa using hfield
  · rfl

/-- A rewriting that leaves a field alone. -/
theorem follow_modify_of_eq (hf : ∀ svc, field (f svc) = field svc) :
    follow (services.modify a f) field x = follow services field x := by
  unfold follow
  rw [Heap.cells_modify]
  split
  · rename_i hx
    have hcomp : field ∘ f = field := funext hf
    rw [Option.bind_map, hcomp, hx]
  · rfl

/-- A rewriting that sets a field. -/
theorem follow_modify_of_const {q : Option ℕ} (ha : services.IsLive a)
    (hf : ∀ svc, field (f svc) = q) :
    follow (services.modify a f) field x = if x = a then q else follow services field x := by
  obtain ⟨svc, hsvc⟩ := Heap.isLive_iff.1 ha
  unfold follow
  rw [Heap.cells_modify, hsvc]
  split
  · simp [hf]
  · rfl

section Assignments

variable {q : Option ℕ}

@[simp] theorem isLive_setParent : (setParent services a q).IsLive b ↔ services.IsLive b :=
  Heap.isLive_modify

@[simp] theorem isLive_setSibling : (setSibling services a q).IsLive b ↔ services.IsLive b :=
  Heap.isLive_modify

@[simp] theorem isLive_setChild : (setChild services a q).IsLive b ↔ services.IsLive b :=
  Heap.isLive_modify

@[simp] theorem freed_setParent : (setParent services a q).Freed b ↔ services.Freed b :=
  Heap.freed_modify

@[simp] theorem freed_setSibling : (setSibling services a q).Freed b ↔ services.Freed b :=
  Heap.freed_modify

@[simp] theorem freed_setChild : (setChild services a q).Freed b ↔ services.Freed b :=
  Heap.freed_modify

theorem parent_setParent (ha : services.IsLive a) :
    follow (setParent services a q) LPNUIOService.parent x =
      if x = a then q else follow services LPNUIOService.parent x :=
  follow_modify_of_const ha fun _ => rfl

theorem sibling_setSibling (ha : services.IsLive a) :
    follow (setSibling services a q) LPNUIOService.sibling x =
      if x = a then q else follow services LPNUIOService.sibling x :=
  follow_modify_of_const ha fun _ => rfl

theorem child_setChild (ha : services.IsLive a) :
    follow (setChild services a q) LPNUIOService.child x =
      if x = a then q else follow services LPNUIOService.child x :=
  follow_modify_of_const ha fun _ => rfl

@[simp] theorem sibling_setParent : follow (setParent services a q) LPNUIOService.sibling x =
    follow services LPNUIOService.sibling x :=
  follow_modify_of_eq fun _ => rfl

@[simp] theorem child_setParent : follow (setParent services a q) LPNUIOService.child x =
    follow services LPNUIOService.child x :=
  follow_modify_of_eq fun _ => rfl

@[simp] theorem parent_setSibling : follow (setSibling services a q) LPNUIOService.parent x =
    follow services LPNUIOService.parent x :=
  follow_modify_of_eq fun _ => rfl

@[simp] theorem child_setSibling : follow (setSibling services a q) LPNUIOService.child x =
    follow services LPNUIOService.child x :=
  follow_modify_of_eq fun _ => rfl

@[simp] theorem parent_setChild : follow (setChild services a q) LPNUIOService.parent x =
    follow services LPNUIOService.parent x :=
  follow_modify_of_eq fun _ => rfl

@[simp] theorem sibling_setChild : follow (setChild services a q) LPNUIOService.sibling x =
    follow services LPNUIOService.sibling x :=
  follow_modify_of_eq fun _ => rfl

end Assignments

/-! `AddChild` on live services sets the child's parent, its sibling to
the old head of the parent's list, and that head to the child. -/

theorem parent_addChild (hc : services.IsLive c) :
    follow (lpnuIOServiceAddChild services (some p) (some c)).1 LPNUIOService.parent x =
      if x = c then some p else follow services LPNUIOService.parent x := by
  simp [lpnuIOServiceAddChild, parent_setParent hc]

theorem sibling_addChild (hc : services.IsLive c) :
    follow (lpnuIOServiceAddChild services (some p) (some c)).1 LPNUIOService.sibling x =
      if x = c then follow services LPNUIOService.child p
        else follow services LPNUIOService.sibling x := by
  have hc' : (setParent services c (some p)).IsLive c := isLive_setParent.2 hc
  simp [lpnuIOServiceAddChild, sibling_setSibling hc']

theorem child_addChild (hp : services.IsLive p) :
    follow (lpnuIOServiceAddChild services (some p) (some c)).1 LPNUIOService.child x =
      if x = p then some c else follow services LPNUIOService.child x := by
  simp only [lpnuIOServiceAddChild]
  rw [child_setChild (by simpa using hp)]
  simp

/-- **The ways of a call on the tree**: it changes nothing, makes a service
with no links, adds a child or removes one. -/
theorem treeStep_cases (services : Heap LPNUIOService) (call : TreeCall) :
    (treeStep services call).1 = services ∨
      (∃ name, (treeStep services call).1 = services.alloc (createdService name)) ∨
      (∃ p c, call = .addChild (some p) (some c)) ∨
      ∃ p c, call = .removeChild (some p) (some c) := by
  cases call with
  | create service name calloc =>
    cases service <;> cases calloc
    · exact Or.inl rfl
    · exact Or.inl rfl
    · exact Or.inl rfl
    · exact Or.inr (Or.inl ⟨name, rfl⟩)
  | addChild parent child =>
    rcases parent with _ | p <;> rcases child with _ | c
    · exact Or.inl rfl
    · exact Or.inl rfl
    · exact Or.inl rfl
    · exact Or.inr (Or.inr (Or.inl ⟨p, c, rfl⟩))
  | removeChild parent child =>
    rcases parent with _ | p <;> rcases child with _ | c
    · exact Or.inl rfl
    · exact Or.inl rfl
    · exact Or.inl rfl
    · exact Or.inr (Or.inr (Or.inr ⟨p, c, rfl⟩))

/-- A call on the tree frees nothing. -/
theorem freed_treeStep (call : TreeCall) :
    (treeStep services call).1.Freed x ↔ services.Freed x := by
  rcases treeStep_cases services call with heq | ⟨name, heq⟩ | ⟨p, c, rfl⟩ | ⟨p, c, rfl⟩
  · rw [heq]
  · rw [heq, Heap.freed_alloc]
  · simp [treeStep, lpnuIOServiceAddChild]
  · simp [treeStep, lpnuIOServiceRemoveChild]

/-- Nor does it take a live service away. -/
theorem isLive_treeStep (call : TreeCall) (hx : services.IsLive x) :
    (treeStep services call).1.IsLive x := by
  rcases treeStep_cases services call with heq | ⟨name, heq⟩ | ⟨p, c, rfl⟩ | ⟨p, c, rfl⟩
  · rw [heq]; exact hx
  · rw [heq]; exact Heap.isLive_alloc.2 (Or.inr hx)
  · simp [treeStep, lpnuIOServiceAddChild, hx]
  · simp [treeStep, lpnuIOServiceRemoveChild, hx]

/-- A creation leaves every link. -/
theorem follow_create {service calloc : Bool}
    (hfield : field (createdService name) = none) :
    follow (lpnuIOServiceCreate services service name calloc).1 field x =
      follow services field x := by
  cases service <;> cases calloc <;> simp [lpnuIOServiceCreate, follow_alloc hfield]

end Service

end IOKit

end Lpnu
