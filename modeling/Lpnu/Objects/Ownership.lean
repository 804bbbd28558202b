import Lpnu.Objects.Model
/-!
# The objects handed out — who owns which block

Over every run of creations and destructions, whatever the allocator
answers, the blocks in use are those of the objects not yet destroyed
(`ownsLive_throughout`): nothing is freed twice, and nothing is lost on a
path that fails.
-/

namespace Lpnu

namespace Objects

open Blocks Run

/-- **The blocks in use are those of the live objects**, and `g_device`,
where it is set, is the block of a live device. -/
structure OwnsLive (s : State) : Prop where
  owns : Owns s.memory (s.live.flatMap Object.blocks)
  device : ∀ b, s.device = some b → .device b ∈ s.live

variable {s : State} {o : Object} {prog : Creation} {args found foundPart : Bool}

/-! ## Creations -/

/-- The blocks of what a creation hands out. -/
def handedOut (r : Code × Option Object) : List ℕ := r.2.toList.flatMap Object.blocks

/-- **A creation leaves in use the blocks of what it hands out**, and none
where it hands out nothing. -/
abbrev HandsOut (prog : Creation) : Prop := Spec [] prog handedOut

theorem handsOut_createAlone (codes : Codes) {made : ℕ → Object}
    (hmade : ∀ b, (made b).blocks = [b]) (args found : Bool) :
    HandsOut (createAlone codes made args found) := by
  cases args with
  | false => exact Spec.pure (codes.badArgument, none) handedOut
  | true =>
    refine (Spec.calloc found).bind fun block => ?_
    cases block with
    | none => exact Spec.pure (codes.noMemory, none) handedOut
    | some block =>
      have hpure := Spec.pure (codes.success, some (made block)) handedOut
      have hblocks : handedOut (codes.success, some (made block)) = [block] := by
        simp [handedOut, hmade]
      rw [hblocks] at hpure
      exact hpure

theorem handsOut_createWithPart (codes : Codes) (kind : WithPart) (args found foundPart : Bool) :
    HandsOut (createWithPart codes kind args found foundPart) := by
  cases args with
  | false => exact Spec.pure (codes.badArgument, none) handedOut
  | true =>
    refine (Spec.calloc found).bind fun block => ?_
    cases block with
    | none => exact Spec.pure (codes.noMemory, none) handedOut
    | some block =>
      -- the object's block is in use while its part is asked for
      refine ((Spec.calloc foundPart).frame [block]).bind fun part => ?_
      cases part with
      | none =>
        exact (Spec.free block).bind fun _ => Spec.pure (codes.noPart, none) handedOut
      | some part =>
        exact Spec.pure (codes.success, some (.withPart kind block (some part))) handedOut

theorem handsOut_dictionary (args found foundKeys foundValues : Bool) :
    HandsOut (lpnuIODictionaryCreate args found foundKeys foundValues) := by
  cases args with
  | false => exact Spec.pure (iokitCodes.badArgument, none) handedOut
  | true =>
    refine (Spec.calloc found).bind fun dict => ?_
    cases dict with
    | none => exact Spec.pure (iokitCodes.noMemory, none) handedOut
    | some dict =>
      refine ((Spec.calloc foundKeys).frame [dict]).bind fun keys => ?_
      refine ((Spec.calloc foundValues).frame (keys.toList ++ [dict])).bind fun values => ?_
      have hpure := Spec.pure (iokitCodes.success, some (.dictionary dict keys values)) handedOut
      refine hpure.perm ?_ fun _ => List.Perm.refl _
      -- the arrays are listed in the order they are freed in
      cases keys with
      | none => cases values <;> exact List.Perm.refl _
      | some keys =>
        cases values with
        | none => exact List.Perm.refl _
        | some values => exact List.Perm.swap _ _ _

theorem handsOut_alone (kind : Alone) (args found : Bool) : HandsOut (kind.create args found) := by
  cases kind <;> exact handsOut_createAlone _ (fun _ => rfl) args found

theorem handsOut_withPart (kind : WithPart) (args found foundPart : Bool) :
    HandsOut (kind.create args found foundPart) := by
  cases kind <;> exact handsOut_createWithPart _ _ args found foundPart

theorem handsOut_kept (kind : Kept) (args found : Bool) : HandsOut (kind.create args found) := by
  cases kind <;> exact handsOut_createAlone _ (fun _ => rfl) args found

theorem handsOut_service (args found : Bool) : HandsOut (lpnuIOServiceCreate args found) :=
  handsOut_createAlone _ (fun _ => rfl) args found

/-- What a device's creation does with `g_device` is no matter of the
blocks. -/
theorem handsOut_device (args found : Bool) (gDevice : Option ℕ) :
    Spec [] (lpnuMetalCreateDevice args found gDevice) fun r => handedOut r.1 := by
  cases args with
  | false =>
    exact Spec.pure ((metalCodes.badArgument, none), gDevice) fun r => handedOut r.1
  | true =>
    refine (Spec.calloc found).bind fun block => ?_
    cases block with
    | none => exact Spec.pure ((metalCodes.noMemory, none), none) fun r => handedOut r.1
    | some block =>
      exact Spec.pure ((metalCodes.success, some (.device block)), some block)
        fun r => handedOut r.1

/-- `g_device` is what it was, or nothing, or the device made. -/
theorem device_of_createDevice {b : ℕ} {m : Allocator} {gDevice : Option ℕ}
    (h : (lpnuMetalCreateDevice args found gDevice m).1.2 = some b) :
    gDevice = some b ∨ (lpnuMetalCreateDevice args found gDevice m).1.1.2 = some (.device b) := by
  cases args with
  | false => exact Or.inl h
  | true =>
    cases found with
    | false => cases h
    | true => exact Or.inr (congrArg _ (congrArg Object.device (Option.some.inj h)))

/-! ## Destructions -/

/-- The blocks of an object, or of none. -/
def blocksOf (object : Option Object) : List ℕ := object.toList.flatMap Object.blocks

/-- **A destruction takes the blocks of its object over** and leaves those
of what is left of it. -/
abbrev Destroys (object : Option Object) (prog : Program (Option Object)) : Prop :=
  Spec (blocksOf object) prog blocksOf

/-- A program after which nothing is left. -/
theorem destroys_of_spec {object : Option Object} {prog : Program Unit}
    (h : Spec (blocksOf object) prog fun _ => []) :
    Destroys object (do prog; pure none) :=
  h.bind fun _ => Spec.pure none blocksOf

theorem spec_destroyAlone (kind : Alone) (block : Option ℕ) :
    Spec (blocksOf (block.map (.alone kind))) (destroyAlone block) fun _ => [] := by
  cases block with
  | none => exact Spec.freeIf none
  | some b => exact Spec.freeIf (some b)

theorem spec_destroyWithPart (kind : WithPart) (object : Option (ℕ × Option ℕ)) :
    Spec (blocksOf (object.map fun o => .withPart kind o.1 o.2)) (destroyWithPart object)
      fun _ => [] := by
  rcases object with _ | ⟨block, part⟩
  · exact Spec.pure () fun _ => []
  · have hblocks : blocksOf ((some (block, part)).map fun o => .withPart kind o.1 o.2) =
        part.toList ++ [block] := List.append_nil _
    rw [hblocks]
    exact ((Spec.freeIf part).frame [block]).bind fun _ => Spec.free block

theorem spec_destroyDictionary (dict : Option (ℕ × Option ℕ × Option ℕ)) :
    Spec (blocksOf (dict.map fun d => .dictionary d.1 d.2.1 d.2.2)) (lpnuIODictionaryDestroy dict)
      fun _ => [] := by
  rcases dict with _ | ⟨block, keys, values⟩
  · exact Spec.pure () fun _ => []
  · have hblocks : blocksOf ((some (block, keys, values)).map
        fun d => .dictionary d.1 d.2.1 d.2.2) = keys.toList ++ (values.toList ++ [block]) :=
      List.append_nil _
    rw [hblocks]
    refine ((Spec.freeIf keys).frame (values.toList ++ [block])).bind fun _ => ?_
    exact ((Spec.freeIf values).frame [block]).bind fun _ => Spec.free block

/-- A service is freed, or left with its block, by what its count comes
to. -/
theorem destroys_service (service : Option (ℕ × UInt32)) :
    Destroys (service.map fun svc => .service svc.1 svc.2) (do
      let left ← lpnuIOServiceDestroy service
      pure (left.map fun svc => .service svc.1 svc.2)) := by
  rcases service with _ | ⟨block, refCount⟩
  · exact Spec.pure none blocksOf
  · have hleft : Spec [block] (lpnuIOServiceDestroy (some (block, refCount)))
        fun left => blocksOf (left.map fun svc => .service svc.1 svc.2) := by
      simp only [lpnuIOServiceDestroy]
      generalize (if refCount > 0 then refCount - 1 else refCount) = dropped
      by_cases hzero : dropped = 0
      · rw [if_pos hzero]
        exact (Spec.free block).bind fun _ =>
          Spec.pure none fun left => blocksOf (left.map fun svc => .service svc.1 svc.2)
      · rw [if_neg hzero]
        exact Spec.pure (some (block, dropped))
          fun left => blocksOf (left.map fun svc => .service svc.1 svc.2)
    exact hleft.bind fun left => Spec.pure (left.map fun svc => .service svc.1 svc.2) blocksOf

theorem spec_releaseDevice (gDevice device : Option ℕ) :
    Spec (blocksOf (device.map .device)) (lpnuMetalReleaseDevice gDevice device)
      fun _ => [] := by
  cases device with
  | none => exact Spec.pure gDevice fun _ => []
  | some b =>
    exact (Spec.free b).bind fun _ =>
      Spec.pure (if gDevice = some b then none else gDevice) fun _ => []

theorem destroys_alone (kind : Alone) (block : Option ℕ) :
    Destroys (block.map (.alone kind)) (do kind.destroy block; pure none) := by
  refine destroys_of_spec ?_
  cases kind <;> exact spec_destroyAlone _ block

theorem destroys_withPart (kind : WithPart) (object : Option (ℕ × Option ℕ)) :
    Destroys (object.map fun o => .withPart kind o.1 o.2)
      (do kind.destroy object; pure none) := by
  refine destroys_of_spec ?_
  cases kind <;> exact spec_destroyWithPart _ object

/-! ## One call -/

theorem OwnsLive.create (h : OwnsLive s) (hp : HandsOut prog) : OwnsLive (s.create prog).1 where
  owns := by
    have howns := hp s.memory _ h.owns
    show Owns (prog s.memory).2 (((prog s.memory).1.2.toList ++ s.live).flatMap Object.blocks)
    rw [List.flatMap_append]
    exact howns
  device b hb := List.mem_append_right _ (h.device b hb)

/-- The object destroyed, before the others. -/
theorem perm_flatMap_erase {object : Option Object} (ho : ∀ o, object = some o → o ∈ s.live) :
    (s.live.flatMap Object.blocks).Perm
      (blocksOf object ++ (object.elim s.live s.live.erase).flatMap Object.blocks) := by
  cases object with
  | none => exact List.Perm.refl _
  | some o =>
    have hblocks : blocksOf (some o) = o.blocks := List.append_nil _
    rw [hblocks]
    exact (List.perm_cons_erase (ho o rfl)).flatMap_right Object.blocks

/-- Objects other than the one destroyed stay live. -/
theorem mem_elim_erase {object : Option Object} (ho : o ∈ s.live) (hne : object ≠ some o) :
    o ∈ object.elim s.live s.live.erase := by
  cases object with
  | none => exact ho
  | some o' => exact (List.mem_erase_of_ne fun heq => hne (congrArg some heq.symm)).2 ho

theorem OwnsLive.destroy {object : Option Object} {prog : Program (Option Object)}
    (h : OwnsLive s) (ho : ∀ o, object = some o → o ∈ s.live)
    (hdevice : ∀ b, object ≠ some (.device b)) (hp : Destroys object prog) :
    OwnsLive (s.destroy object prog).1 where
  owns := by
    have howns := hp s.memory _ (h.owns.perm (perm_flatMap_erase ho))
    show Owns (prog s.memory).2
      (((prog s.memory).1.toList ++ object.elim s.live s.live.erase).flatMap Object.blocks)
    rw [List.flatMap_append]
    exact howns
  device b hb :=
    List.mem_append_right _ (mem_elim_erase (h.device b hb) (hdevice b))

theorem OwnsLive.createDevice (h : OwnsLive s) (args found : Bool) :
    OwnsLive (step s (.createDevice args found)).1 where
  owns := by
    have howns := handsOut_device args found s.device s.memory _ h.owns
    show Owns (lpnuMetalCreateDevice args found s.device s.memory).2
      (((lpnuMetalCreateDevice args found s.device s.memory).1.1.2.toList ++
        s.live).flatMap Object.blocks)
    rw [List.flatMap_append]
    exact howns
  device b hb := by
    rcases device_of_createDevice hb with hold | hmade
    · exact List.mem_append_right _ (h.device b hold)
    · refine List.mem_append_left _ ?_
      rw [hmade]
      exact List.mem_singleton_self _

/-- A device released is `g_device` no more. -/
theorem OwnsLive.releaseDevice (h : OwnsLive s) {device : Option ℕ}
    (ho : ∀ o, device.map .device = some o → o ∈ s.live) :
    OwnsLive (step s (.releaseDevice device)).1 where
  owns := spec_releaseDevice s.device device s.memory _ (h.owns.perm (perm_flatMap_erase ho))
  device b hb := by
    refine mem_elim_erase ?_ fun heq => ?_
    · cases device with
      | none => exact h.device b hb
      | some d =>
        refine h.device b ?_
        have hdevice : (if s.device = some d then none else s.device) = some b := hb
        split at hdevice
        · cases hdevice
        · exact hdevice
    · obtain ⟨d, rfl, hd⟩ := Option.map_eq_some_iff.1 heq
      obtain rfl := Object.device.inj hd
      have hdevice : (if s.device = some d then none else s.device) = some d := hb
      split at hdevice
      · cases hdevice
      · rename_i hne
        exact hne hdevice

/-- A device is released by nothing else. -/
theorem destroyed_ne_device {call : Call} (hcall : ∀ device, call ≠ .releaseDevice device)
    (b : ℕ) : call.destroyed ≠ some (.device b) := by
  intro h
  cases call with
  | releaseDevice device => exact hcall device rfl
  | _ => simp [Call.destroyed] at h

/-- **One call on live objects keeps the blocks accounted for.** -/
theorem ownsLive_step (h : OwnsLive s) (call : Call) (hlegal : Legal s call) :
    OwnsLive (step s call).1 := by
  cases call with
  | create kind args found => exact h.create (handsOut_alone kind args found)
  | createWithPart kind args found foundPart =>
    exact h.create (handsOut_withPart kind args found foundPart)
  | createKept kind args found => exact h.create (handsOut_kept kind args found)
  | createDictionary args found foundKeys foundValues =>
    exact h.create (handsOut_dictionary args found foundKeys foundValues)
  | createService args found => exact h.create (handsOut_service args found)
  | serviceMatching args found => exact h.create (handsOut_service args found)
  | deviceTreeAddChild args found => exact h.create (handsOut_alone .deviceTree args found)
  | createDevice args found => exact h.createDevice args found
  | destroy kind object =>
    exact h.destroy hlegal (destroyed_ne_device (by simp)) (destroys_alone kind object)
  | destroyWithPart kind object =>
    exact h.destroy hlegal (destroyed_ne_device (by simp)) (destroys_withPart kind object)
  | destroyDictionary dict =>
    exact h.destroy hlegal (destroyed_ne_device (by simp))
      (destroys_of_spec (spec_destroyDictionary dict))
  | destroyService service =>
    exact h.destroy hlegal (destroyed_ne_device (by simp)) (destroys_service service)
  | releaseDevice device => exact h.releaseDevice hlegal

/-! ## Runs -/

theorem ownsLive_init : OwnsLive State.init := ⟨owns_init, fun _ hb => by cases hb⟩

/-- **Every run that destroys live objects only keeps the blocks in use to
those of the objects that are live**, whatever the allocator answers: no
block is freed twice, no two objects share one, and the blocks of a
creation that fails are given back. -/
theorem ownsLive_throughout {run : List Call} (hlegal : EachStep step State.init Legal run) :
    Throughout step State.init OwnsLive run :=
  throughout_of_inv (fun _ call h hl => ownsLive_step h call hl) ownsLive_init hlegal

/-- A queue whose buffer finds no memory, a dictionary without values and
its destruction, a service and its. -/
def shortRun : List Call :=
  [.createWithPart .dataQueue true true false, .createDictionary true true true false,
    .destroyDictionary (some (1, some 2, none)), .createService true true,
    .destroyService (some (3, 1))]

theorem ownsLive_shortRun : Throughout step State.init OwnsLive shortRun := by
  refine ownsLive_throughout ⟨?_, ?_, ?_, ?_, ?_, trivial⟩
  · rintro o ⟨⟩
  · rintro o ⟨⟩
  · rintro o ⟨⟩
    exact List.mem_singleton.2 rfl
  · rintro o ⟨⟩
  · rintro o ⟨⟩
    exact List.mem_singleton.2 rfl

end Objects

end Lpnu
