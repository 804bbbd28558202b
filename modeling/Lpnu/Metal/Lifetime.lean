import Lpnu.Metal.Model
/-!
# Metal — pointers between objects

A render pipeline keeps the buffers and textures it was set, a compute
pipeline the function it was made of, and `g_device` is the device made
last. None of them is counted, so that a buffer or a texture may be
destroyed while a pipeline still has it in a slot:
`noDangling_throughout_iff`. A device clears the global as it is
released, and a function is never destroyed.
-/

namespace Lpnu

namespace Metal

open Run

/-- The object passed, if one is, is live. -/
def Passed {α : Type} (heap : Heap α) (object : Option ℕ) : Prop :=
  ∀ a, object = some a → heap.IsLive a

/-- A call under the protocol: an object that is changed, destroyed or
kept is live. -/
def Legal (s : State) : Call → Prop
  | .releaseDevice device => Passed s.devices device
  | .bufferDestroy buffer => Passed s.buffers buffer
  | .textureDestroy texture => Passed s.textures texture
  | .samplerDestroy sampler => Passed s.samplers sampler
  | .commandQueueDestroy queue => Passed s.commandQueues queue
  | .commandBufferDestroy buffer => Passed s.commandBuffers buffer
  | .commandBufferCommit buffer => Passed s.commandBuffers buffer
  | .renderPipelineDestroy pipeline => Passed s.renderPipelines pipeline
  | .renderPipelineSetBuffer pipeline _ buffer =>
    Passed s.renderPipelines pipeline ∧ Passed s.buffers buffer
  | .renderPipelineSetTexture pipeline _ texture =>
    Passed s.renderPipelines pipeline ∧ Passed s.textures texture
  | .computePipelineCreate _ function _ _ => Passed s.functions function
  | .computePipelineDestroy pipeline => Passed s.computePipelines pipeline
  | _ => True

/-- **No pointer kept is one to a destroyed object.** -/
structure NoDangling (s : State) : Prop where
  device : Passed s.devices s.device
  buffers : s.renderPipelines.All fun pipe => ∀ i, Passed s.buffers (pipe.buffers i)
  textures : s.renderPipelines.All fun pipe => ∀ i, Passed s.textures (pipe.textures i)
  functions : s.computePipelines.All fun pipe => Passed s.functions pipe.function

/-- **The condition on a call**: a buffer or a texture destroyed is in no
slot of a pipeline. -/
def Unbound (s : State) : Call → Prop
  | .bufferDestroy (some b) => s.renderPipelines.All fun pipe => ∀ i, pipe.buffers i ≠ some b
  | .textureDestroy (some t) => s.renderPipelines.All fun pipe => ∀ i, pipe.textures i ≠ some t
  | _ => True

variable {α : Type} {heap heap' : Heap α} {object : Option ℕ} {s : State} {a : ℕ}

theorem passed_none : Passed heap none := fun _ h => by cases h

theorem Passed.mono (h : Passed heap object) (hle : ∀ a, heap.IsLive a → heap'.IsLive a) :
    Passed heap' object := fun a ha => hle a (h a ha)

/-- What is passed stays live where another object is freed, and no
longer where it is the one. -/
theorem Passed.free_iff (h : Passed heap object) :
    Passed (heap.free a) object ↔ object ≠ some a := by
  constructor
  · rintro hfree rfl
    exact (Heap.isLive_free.1 (hfree a rfl)).1 rfl
  · intro hne b hb
    refine Heap.isLive_free.2 ⟨?_, h b hb⟩
    rintro rfl
    exact hne hb

/-- **The ways of a creation.** -/
theorem create_cases (heap : Heap α) (args : Bool) (v : α) (calloc : Bool) :
    (∃ ret, create heap args v calloc = (heap, { ret := some ret })) ∨
      args = true ∧ create heap args v calloc =
        (heap.alloc v, { ret := some 0, object := some heap.fresh }) := by
  cases args with
  | false => exact Or.inl ⟨-1, rfl⟩
  | true =>
    cases calloc with
    | false => exact Or.inl ⟨-2, rfl⟩
    | true => exact Or.inr ⟨rfl, rfl⟩

/-- A creation takes no object away. -/
theorem isLive_create {args : Bool} {v : α} {calloc : Bool} (ha : heap.IsLive a) :
    (create heap args v calloc).1.IsLive a := by
  rcases create_cases heap args v calloc with ⟨ret, heq⟩ | ⟨-, heq⟩
  · rw [heq]
    exact ha
  · rw [heq]
    exact Heap.isLive_alloc.2 (Or.inr ha)

/-- A property of every object is one of those created too. -/
theorem all_create {Q : α → Prop} {args : Bool} {v : α} {calloc : Bool} (h : heap.All Q)
    (hv : args = true → Q v) : (create heap args v calloc).1.All Q := by
  rcases create_cases heap args v calloc with ⟨ret, heq⟩ | ⟨hargs, heq⟩
  · rw [heq]
    exact h
  · rw [heq]
    exact h.alloc (hv hargs)

theorem all_destroy {Q : α → Prop} (h : heap.All Q) : (destroy heap object).All Q := by
  cases object with
  | none => exact h
  | some a => exact h.free

/-- **Destroying an object** leaves what keeps no pointer to it. -/
theorem all_passed_free_iff {β ι : Type} {holders : Heap β} {slot : β → ι → Option ℕ}
    (h : holders.All fun v => ∀ i, Passed heap (slot v i)) :
    (holders.All fun v => ∀ i, Passed (heap.free a) (slot v i)) ↔
      holders.All fun v => ∀ i, slot v i ≠ some a :=
  forall_congr' fun b => forall_congr' fun v => forall_congr' fun hv => forall_congr' fun i =>
    (h b v hv i).free_iff

theorem setSlot_passed {slots : Fin 8 → Option ℕ} {index : UInt32}
    (h : ∀ i, Passed heap (slots i)) (ho : Passed heap object) (i : Fin 8) :
    Passed heap (setSlot slots index object i) := by
  unfold setSlot
  split
  · by_cases hi : i = ⟨index.toNat, ‹_›⟩
    · rw [hi, Function.update_self]
      exact ho
    · rw [Function.update_of_ne hi]
      exact h i
  · exact h i

theorem isLive_bufferCreate {buffers : Heap LPnuMetalBuffer} {device : Option ℕ}
    {length : UInt64} {options : UInt32} {buffer callocBuffer : Bool} {callocData : Option ℕ}
    (ha : buffers.IsLive a) :
    (lpnuMetalBufferCreate device buffers length options buffer callocBuffer
      callocData).1.IsLive a := by
  unfold lpnuMetalBufferCreate
  split
  · split
    · split
      · exact ha
      · exact Heap.isLive_alloc.2 (Or.inr ha)
    · exact ha
  · exact ha

/-! ## One call -/

theorem NoDangling.createDevice (h : NoDangling s) (device calloc : Bool) :
    NoDangling (lpnuMetalCreateDevice s device calloc).1 := by
  cases device with
  | false => exact h
  | true =>
    cases calloc with
    | false => exact ⟨passed_none, h.buffers, h.textures, h.functions⟩
    | true =>
      refine ⟨fun a ha => ?_, h.buffers, h.textures, h.functions⟩
      rw [← Option.some.inj ha]
      exact Heap.isLive_alloc.2 (Or.inl rfl)

theorem NoDangling.releaseDevice (h : NoDangling s) (device : Option ℕ) :
    NoDangling (lpnuMetalReleaseDevice s device) := by
  cases device with
  | none => exact h
  | some a =>
    refine ⟨?_, h.buffers, h.textures, h.functions⟩
    show Passed (s.devices.free a) (if s.device = some a then none else s.device)
    split
    · exact passed_none
    · rename_i hne
      exact h.device.free_iff.2 hne

/-- **One call leaves no pointer dangling exactly if what it destroys is
unbound.** -/
theorem noDangling_step_iff (h : NoDangling s) (call : Call) (hlegal : Legal s call) :
    NoDangling (step s call).1 ↔ Unbound s call := by
  cases call with
  | createDevice device calloc => exact iff_of_true (h.createDevice device calloc) trivial
  | releaseDevice device => exact iff_of_true (h.releaseDevice device) trivial
  | bufferCreate device length options buffer callocBuffer callocData =>
    refine iff_of_true ⟨h.device, fun p pipe hpipe i => ?_, h.textures, h.functions⟩ trivial
    exact (h.buffers p pipe hpipe i).mono fun _ => isLive_bufferCreate
  | bufferDestroy buffer =>
    cases buffer with
    | none => exact iff_of_true h trivial
    | some b =>
      have hslots := all_passed_free_iff (a := b) h.buffers
      exact ⟨fun h' => hslots.1 h'.buffers, fun hunbound =>
        ⟨h.device, hslots.2 hunbound, h.textures, h.functions⟩⟩
  | textureCreate device pixelFormat width height mipLevels texture calloc =>
    refine iff_of_true ⟨h.device, h.buffers, fun p pipe hpipe i => ?_, h.functions⟩ trivial
    exact (h.textures p pipe hpipe i).mono fun _ => isLive_create
  | textureDestroy texture =>
    cases texture with
    | none => exact iff_of_true h trivial
    | some t =>
      have hslots := all_passed_free_iff (a := t) h.textures
      exact ⟨fun h' => hslots.1 h'.textures, fun hunbound =>
        ⟨h.device, h.buffers, hslots.2 hunbound, h.functions⟩⟩
  | libraryGetFunction library name function calloc =>
    refine iff_of_true ⟨h.device, h.buffers, h.textures, fun p pipe hpipe => ?_⟩ trivial
    refine (h.functions p pipe hpipe).mono fun a ha => ?_
    cases name with
    | none => exact ha
    | some name => exact isLive_create ha
  | renderPipelineCreate device library vertexFunc fragmentFunc pipeline calloc =>
    refine iff_of_true ⟨h.device, ?_, ?_, h.functions⟩ trivial
    · exact all_create h.buffers fun _ _ => passed_none
    · exact all_create h.textures fun _ _ => passed_none
  | renderPipelineDestroy pipeline =>
    exact iff_of_true ⟨h.device, all_destroy h.buffers, all_destroy h.textures, h.functions⟩
      trivial
  | renderPipelineSetBuffer pipeline index buffer =>
    cases pipeline with
    | none => exact iff_of_true h trivial
    | some p =>
      refine iff_of_true ⟨h.device, ?_, h.textures.modify fun _ hv => hv, h.functions⟩ trivial
      exact h.buffers.modify fun pipe hpipe => setSlot_passed hpipe hlegal.2
  | renderPipelineSetTexture pipeline index texture =>
    cases pipeline with
    | none => exact iff_of_true h trivial
    | some p =>
      refine iff_of_true ⟨h.device, h.buffers.modify fun _ hv => hv, ?_, h.functions⟩ trivial
      exact h.textures.modify fun pipe hpipe => setSlot_passed hpipe hlegal.2
  | computePipelineCreate device function pipeline calloc =>
    exact iff_of_true ⟨h.device, h.buffers, h.textures, all_create h.functions fun _ => hlegal⟩
      trivial
  | computePipelineDestroy pipeline =>
    exact iff_of_true ⟨h.device, h.buffers, h.textures, all_destroy h.functions⟩ trivial
  | _ => exact iff_of_true ⟨h.device, h.buffers, h.textures, h.functions⟩ trivial

/-- **When no pointer ever dangles.** Of the runs on live objects, exactly
those that destroy only buffers and textures that no pipeline has in a
slot; `g_device` and the functions of compute pipelines never do. -/
theorem noDangling_throughout_iff {run : List Call} (hlegal : EachStep step State.init Legal run) :
    Throughout step State.init NoDangling run ↔ EachStep step State.init Unbound run := by
  have hinit : NoDangling State.init :=
    ⟨passed_none, Heap.all_empty, Heap.all_empty, Heap.all_empty⟩
  have hstep : ∀ s call, True → NoDangling s → Legal s call →
      (NoDangling (step s call).1 ↔ Unbound s call) :=
    fun s call _ h hl => noDangling_step_iff h call hl
  exact throughout_iff_eachStep (fun _ _ _ _ _ => trivial) hstep trivial hinit hlegal

/-- A buffer set into a pipeline, taken out of it and destroyed. -/
def boundRun : List Call :=
  [.createDevice true true, .bufferCreate (some 0) 16 0 true true (some 4096),
    .renderPipelineCreate (some 0) none none none true true,
    .renderPipelineSetBuffer (some 0) 3 (some 0), .renderPipelineSetBuffer (some 0) 3 none,
    .bufferDestroy (some 0)]

theorem noDangling_boundRun : Throughout step State.init NoDangling boundRun := by
  have hlegal : EachStep step State.init Legal boundRun := by
    refine ⟨trivial, trivial, trivial, ?_, ?_, ?_, trivial⟩
    · constructor <;> · rintro a ⟨⟩; decide
    · refine ⟨?_, passed_none⟩
      rintro a ⟨⟩
      decide
    · rintro a ⟨⟩
      decide
  refine (noDangling_throughout_iff hlegal).2
    ⟨trivial, trivial, trivial, trivial, trivial, ?_, trivial⟩
  -- of the one pipeline, the slot that was filled is NULL again
  rintro (_ | p) pipe hpipe i
  · obtain rfl := Option.some.inj hpipe
    revert i
    decide
  · cases hpipe

end Metal

end Lpnu
