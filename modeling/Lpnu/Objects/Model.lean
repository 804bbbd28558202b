import Lpnu.Common.Blocks
import Lpnu.Common.Run
import Lpnu.IOKit.Basic
/-!
# The objects handed out — the model

The creating and destroying functions of `lpnu_iokit.c` and
`lpnu_metal.c`, read for the blocks they ask for and give back. Most
creating functions allocate one block; five allocate blocks beside it that
the object points to, and four of these give the first one back when
memory runs out on the way. Most destroying functions free what their
creating function allocated; a service is freed when its reference count
comes to 0, the release of a device clears `g_device`, and no function
destroys a Metal library or function. The functions that hand out a
constant in place of a pointer, `LPNUIONotifierCreate` for one, ask for no
memory and are left out. Whether each `calloc` finds memory is an argument
of the call.
-/

namespace Lpnu

namespace Objects

open Blocks Run
open IOKit (IOReturn)

/-! ## Objects -/

/-- The types of objects that are one block, and are destroyed by one
`free`. -/
inductive Alone
  | registryEntry
  | memoryDescriptor
  | lock
  | simpleLock
  | sharedLock
  | conditionLock
  | userClient
  | deviceMemory
  | deviceTree
  | workLoop
  | commandQueue
  | sharedDataQueue
  | metalTexture
  | metalSampler
  | metalCommandQueue
  | metalCommandBuffer
  | metalRenderPipeline
  | metalComputePipeline
  deriving DecidableEq

/-- The types of objects that point to one block of their own. -/
inductive WithPart
  | dataQueue
  | commandPool
  | bufferMemoryDescriptor
  | metalBuffer
  deriving DecidableEq

/-- The types of objects that no function destroys. -/
inductive Kept
  | metalLibrary
  | metalFunction
  deriving DecidableEq

/-- An object handed out: its block, and its pointers to blocks of its
own; of a service also its reference count. -/
inductive Object
  | alone (kind : Alone) (block : ℕ)
  | withPart (kind : WithPart) (block : ℕ) (part : Option ℕ)
  | dictionary (block : ℕ) (keys values : Option ℕ)
  | service (block : ℕ) (refCount : UInt32)
  | device (block : ℕ)
  | kept (kind : Kept) (block : ℕ)
  deriving DecidableEq

/-- The blocks of an object. -/
def Object.blocks : Object → List ℕ
  | .alone _ block | .service block _ | .device block | .kept _ block => [block]
  | .withPart _ block part => part.toList ++ [block]
  | .dictionary block keys values => keys.toList ++ (values.toList ++ [block])

/-! ## Creations -/

/-- What a creation returns: an `IOReturn`, or an `int` of
`lpnu_metal.c`. -/
abbrev Code := IOReturn ⊕ ℤ

/-- The codes of a creation: a null argument, no memory for the object,
no memory for its part, and success. -/
structure Codes where
  badArgument : Code
  noMemory : Code
  noPart : Code
  success : Code

/-- The codes of `lpnu_iokit.c`. -/
def iokitCodes : Codes where
  badArgument := .inl .kIOReturnBadArgument
  noMemory := .inl .kIOReturnNoMemory
  noPart := .inl .kIOReturnNoMemory
  success := .inl .kIOReturnSuccess

/-- The codes of `lpnu_metal.c`. -/
def metalCodes : Codes where
  badArgument := .inr (-1)
  noMemory := .inr (-2)
  noPart := .inr (-3)
  success := .inr 0

/-- A program that may hand out an object. -/
abbrev Creation := Program (Code × Option Object)

/-- The creations of one block, of whether the arguments they test are
there. -/
def createAlone (codes : Codes) (made : ℕ → Object) (args found : Bool) : Creation := do
  if args then
    match ← calloc found with
    | none => pure (codes.noMemory, none)
    | some block => pure (codes.success, some (made block))
  else pure (codes.badArgument, none)

/-- The creations of a block with a part, which is tested. -/
def createWithPart (codes : Codes) (kind : WithPart) (args found foundPart : Bool) :
    Creation := do
  if args then
    match ← calloc found with
    | none => pure (codes.noMemory, none)
    | some block =>
      match ← calloc foundPart with
      | none => do
        free block
        pure (codes.noPart, none)
      | some part => pure (codes.success, some (.withPart kind block (some part)))
  else pure (codes.badArgument, none)

section Create

variable (args found foundPart : Bool)

/-- `LPNUIODataQueueCreate`. -/
def lpnuIODataQueueCreate : Creation :=
  createWithPart iokitCodes .dataQueue args found foundPart

/-- `LPNUIOCommandPoolCreate`. -/
def lpnuIOCommandPoolCreate : Creation :=
  createWithPart iokitCodes .commandPool args found foundPart

/-- `LPNUIOBufferMemoryDescriptorCreate`. -/
def lpnuIOBufferMemoryDescriptorCreate : Creation :=
  createWithPart iokitCodes .bufferMemoryDescriptor args found foundPart

/-- `LPnuMetalBufferCreate`. -/
def lpnuMetalBufferCreate : Creation :=
  createWithPart metalCodes .metalBuffer args found foundPart

/-- `LPNUIODictionaryCreate`, whose two arrays are not tested. -/
def lpnuIODictionaryCreate (foundKeys foundValues : Bool) : Creation := do
  if args then
    match ← calloc found with
    | none => pure (iokitCodes.noMemory, none)
    | some dict =>
      let keys ← calloc foundKeys
      let values ← calloc foundValues
      pure (iokitCodes.success, some (.dictionary dict keys values))
  else pure (iokitCodes.badArgument, none)

/-- `LPNUIOServiceCreate`, with a reference count of 1. -/
def lpnuIOServiceCreate : Creation :=
  createAlone iokitCodes (fun block => .service block 1) args found

/-- `LPNUIOServiceMatching`. -/
def lpnuIOServiceMatching : Creation := lpnuIOServiceCreate args found

/-- `LPNUIORegistryEntryCreate`. -/
def lpnuIORegistryEntryCreate : Creation :=
  createAlone iokitCodes (.alone .registryEntry) args found

/-- `LPNUIOMemoryDescriptorCreate`. -/
def lpnuIOMemoryDescriptorCreate : Creation :=
  createAlone iokitCodes (.alone .memoryDescriptor) args found

/-- `LPNUIOLockCreate`. -/
def lpnuIOLockCreate : Creation := createAlone iokitCodes (.alone .lock) args found

/-- `LPNUIOSimpleLockCreate`. -/
def lpnuIOSimpleLockCreate : Creation := createAlone iokitCodes (.alone .simpleLock) args found

/-- `LPNUIOSharedLockCreate`. -/
def lpnuIOSharedLockCreate : Creation := createAlone iokitCodes (.alone .sharedLock) args found

/-- `LPNUIOConditionLockCreate`. -/
def lpnuIOConditionLockCreate : Creation :=
  createAlone iokitCodes (.alone .conditionLock) args found

/-- `LPNUIOUserClientCreate`. -/
def lpnuIOUserClientCreate : Creation := createAlone iokitCodes (.alone .userClient) args found

/-- `LPNUIODeviceMemoryCreate`. -/
def lpnuIODeviceMemoryCreate : Creation :=
  createAlone iokitCodes (.alone .deviceMemory) args found

/-- `LPNUIODeviceTreeCreate`. -/
def lpnuIODeviceTreeCreate : Creation := createAlone iokitCodes (.alone .deviceTree) args found

/-- `LPNUIODeviceTreeAddChild`, which does not link the child it makes. -/
def lpnuIODeviceTreeAddChild : Creation := createAlone iokitCodes (.alone .deviceTree) args found

/-- `LPNUIOWorkLoopCreate`. -/
def lpnuIOWorkLoopCreate : Creation := createAlone iokitCodes (.alone .workLoop) args found

/-- `LPNUIOCommandQueueCreate`. -/
def lpnuIOCommandQueueCreate : Creation :=
  createAlone iokitCodes (.alone .commandQueue) args found

/-- `LPNUIOSharedDataQueueCreate`. -/
def lpnuIOSharedDataQueueCreate : Creation :=
  createAlone iokitCodes (.alone .sharedDataQueue) args found

/-- `LPnuMetalTextureCreate`. -/
def lpnuMetalTextureCreate : Creation := createAlone metalCodes (.alone .metalTexture) args found

/-- `LPnuMetalSamplerCreate`. -/
def lpnuMetalSamplerCreate : Creation := createAlone metalCodes (.alone .metalSampler) args found

/-- `LPnuMetalCommandQueueCreate`. -/
def lpnuMetalCommandQueueCreate : Creation :=
  createAlone metalCodes (.alone .metalCommandQueue) args found

/-- `LPnuMetalCommandBufferCreate`. -/
def lpnuMetalCommandBufferCreate : Creation :=
  createAlone metalCodes (.alone .metalCommandBuffer) args found

/-- `LPnuMetalRenderPipelineCreate`. -/
def lpnuMetalRenderPipelineCreate : Creation :=
  createAlone metalCodes (.alone .metalRenderPipeline) args found

/-- `LPnuMetalComputePipelineCreate`. -/
def lpnuMetalComputePipelineCreate : Creation :=
  createAlone metalCodes (.alone .metalComputePipeline) args found

/-- `LPnuMetalLibraryCreateFromSource`. -/
def lpnuMetalLibraryCreateFromSource : Creation :=
  createAlone metalCodes (.kept .metalLibrary) args found

/-- `LPnuMetalLibraryGetFunction`. -/
def lpnuMetalLibraryGetFunction : Creation :=
  createAlone metalCodes (.kept .metalFunction) args found

/-- `LPnuMetalCreateDevice`, with what it leaves in `g_device`. -/
def lpnuMetalCreateDevice (gDevice : Option ℕ) :
    Program ((Code × Option Object) × Option ℕ) := do
  if args then
    match ← calloc found with
    -- the global is assigned before it is tested
    | none => pure ((metalCodes.noMemory, none), none)
    | some block => pure ((metalCodes.success, some (.device block)), some block)
  else pure ((metalCodes.badArgument, none), gDevice)

end Create

/-- The creations of the types of one block. -/
def Alone.create (args found : Bool) : Alone → Creation
  | .registryEntry => lpnuIORegistryEntryCreate args found
  | .memoryDescriptor => lpnuIOMemoryDescriptorCreate args found
  | .lock => lpnuIOLockCreate args found
  | .simpleLock => lpnuIOSimpleLockCreate args found
  | .sharedLock => lpnuIOSharedLockCreate args found
  | .conditionLock => lpnuIOConditionLockCreate args found
  | .userClient => lpnuIOUserClientCreate args found
  | .deviceMemory => lpnuIODeviceMemoryCreate args found
  | .deviceTree => lpnuIODeviceTreeCreate args found
  | .workLoop => lpnuIOWorkLoopCreate args found
  | .commandQueue => lpnuIOCommandQueueCreate args found
  | .sharedDataQueue => lpnuIOSharedDataQueueCreate args found
  | .metalTexture => lpnuMetalTextureCreate args found
  | .metalSampler => lpnuMetalSamplerCreate args found
  | .metalCommandQueue => lpnuMetalCommandQueueCreate args found
  | .metalCommandBuffer => lpnuMetalCommandBufferCreate args found
  | .metalRenderPipeline => lpnuMetalRenderPipelineCreate args found
  | .metalComputePipeline => lpnuMetalComputePipelineCreate args found

/-- Those of the types with a part. -/
def WithPart.create (args found foundPart : Bool) : WithPart → Creation
  | .dataQueue => lpnuIODataQueueCreate args found foundPart
  | .commandPool => lpnuIOCommandPoolCreate args found foundPart
  | .bufferMemoryDescriptor => lpnuIOBufferMemoryDescriptorCreate args found foundPart
  | .metalBuffer => lpnuMetalBufferCreate args found foundPart

/-- Those of the types that no function destroys. -/
def Kept.create (args found : Bool) : Kept → Creation
  | .metalLibrary => lpnuMetalLibraryCreateFromSource args found
  | .metalFunction => lpnuMetalLibraryGetFunction args found

/-! ## Destructions -/

/-- The destructions of one block: `if (p) free(p);`. -/
def destroyAlone : Option ℕ → Program Unit := freeIf

/-- The destructions of a block with a part: the part, if it is there, and
the block. -/
def destroyWithPart : Option (ℕ × Option ℕ) → Program Unit
  | none => pure ()
  | some (block, part) => do
    freeIf part
    free block

/-- `LPNUIORegistryEntryDestroy`. -/
def lpnuIORegistryEntryDestroy : Option ℕ → Program Unit := destroyAlone

/-- `LPNUIOMemoryDescriptorDestroy`. -/
def lpnuIOMemoryDescriptorDestroy : Option ℕ → Program Unit := destroyAlone

/-- `LPNUIOLockDestroy`. -/
def lpnuIOLockDestroy : Option ℕ → Program Unit := destroyAlone

/-- `LPNUIOSimpleLockDestroy`. -/
def lpnuIOSimpleLockDestroy : Option ℕ → Program Unit := destroyAlone

/-- `LPNUIOSharedLockDestroy`. -/
def lpnuIOSharedLockDestroy : Option ℕ → Program Unit := destroyAlone

/-- `LPNUIOConditionLockDestroy`. -/
def lpnuIOConditionLockDestroy : Option ℕ → Program Unit := destroyAlone

/-- `LPNUIOUserClientDestroy`. -/
def lpnuIOUserClientDestroy : Option ℕ → Program Unit := destroyAlone

/-- `LPNUIODeviceMemoryDestroy`. -/
def lpnuIODeviceMemoryDestroy : Option ℕ → Program Unit := destroyAlone

/-- `LPNUIODeviceTreeDestroy`, which frees one node, with or without
children. -/
def lpnuIODeviceTreeDestroy : Option ℕ → Program Unit := destroyAlone

/-- `LPNUIOWorkLoopDestroy`. -/
def lpnuIOWorkLoopDestroy : Option ℕ → Program Unit := destroyAlone

/-- `LPNUIOCommandQueueDestroy`. -/
def lpnuIOCommandQueueDestroy : Option ℕ → Program Unit := destroyAlone

/-- `LPNUIOSharedDataQueueDestroy`. -/
def lpnuIOSharedDataQueueDestroy : Option ℕ → Program Unit := destroyAlone

/-- `LPnuMetalTextureDestroy`. -/
def lpnuMetalTextureDestroy : Option ℕ → Program Unit := destroyAlone

/-- `LPnuMetalSamplerDestroy`. -/
def lpnuMetalSamplerDestroy : Option ℕ → Program Unit := destroyAlone

/-- `LPnuMetalCommandQueueDestroy`. -/
def lpnuMetalCommandQueueDestroy : Option ℕ → Program Unit := destroyAlone

/-- `LPnuMetalCommandBufferDestroy`. -/
def lpnuMetalCommandBufferDestroy : Option ℕ → Program Unit := destroyAlone

/-- `LPnuMetalRenderPipelineDestroy`. -/
def lpnuMetalRenderPipelineDestroy : Option ℕ → Program Unit := destroyAlone

/-- `LPnuMetalComputePipelineDestroy`. -/
def lpnuMetalComputePipelineDestroy : Option ℕ → Program Unit := destroyAlone

/-- `LPNUIODataQueueDestroy`. -/
def lpnuIODataQueueDestroy : Option (ℕ × Option ℕ) → Program Unit := destroyWithPart

/-- `LPNUIOCommandPoolDestroy`. -/
def lpnuIOCommandPoolDestroy : Option (ℕ × Option ℕ) → Program Unit := destroyWithPart

/-- `LPNUIOBufferMemoryDescriptorDestroy`. -/
def lpnuIOBufferMemoryDescriptorDestroy : Option (ℕ × Option ℕ) → Program Unit :=
  destroyWithPart

/-- `LPnuMetalBufferDestroy`. -/
def lpnuMetalBufferDestroy : Option (ℕ × Option ℕ) → Program Unit := destroyWithPart

/-- `LPNUIODictionaryDestroy`. -/
def lpnuIODictionaryDestroy : Option (ℕ × Option ℕ × Option ℕ) → Program Unit
  | none => pure ()
  | some (block, keys, values) => do
    freeIf keys
    freeIf values
    free block

/-- `LPNUIOServiceDestroy`, of a service and its reference count: what is
left of it. -/
def lpnuIOServiceDestroy : Option (ℕ × UInt32) → Program (Option (ℕ × UInt32))
  | none => pure none
  | some (block, refCount) => do
    let dropped := if refCount > 0 then refCount - 1 else refCount
    if dropped = 0 then
      free block
      pure none
    else pure (some (block, dropped))

/-- `LPnuMetalReleaseDevice`, with what it leaves in `g_device`. -/
def lpnuMetalReleaseDevice (gDevice : Option ℕ) : Option ℕ → Program (Option ℕ)
  | none => pure gDevice
  | some device => do
    free device
    pure (if gDevice = some device then none else gDevice)

/-- The destructions of the types of one block. -/
def Alone.destroy : Alone → Option ℕ → Program Unit
  | .registryEntry => lpnuIORegistryEntryDestroy
  | .memoryDescriptor => lpnuIOMemoryDescriptorDestroy
  | .lock => lpnuIOLockDestroy
  | .simpleLock => lpnuIOSimpleLockDestroy
  | .sharedLock => lpnuIOSharedLockDestroy
  | .conditionLock => lpnuIOConditionLockDestroy
  | .userClient => lpnuIOUserClientDestroy
  | .deviceMemory => lpnuIODeviceMemoryDestroy
  | .deviceTree => lpnuIODeviceTreeDestroy
  | .workLoop => lpnuIOWorkLoopDestroy
  | .commandQueue => lpnuIOCommandQueueDestroy
  | .sharedDataQueue => lpnuIOSharedDataQueueDestroy
  | .metalTexture => lpnuMetalTextureDestroy
  | .metalSampler => lpnuMetalSamplerDestroy
  | .metalCommandQueue => lpnuMetalCommandQueueDestroy
  | .metalCommandBuffer => lpnuMetalCommandBufferDestroy
  | .metalRenderPipeline => lpnuMetalRenderPipelineDestroy
  | .metalComputePipeline => lpnuMetalComputePipelineDestroy

/-- Those of the types with a part. -/
def WithPart.destroy : WithPart → Option (ℕ × Option ℕ) → Program Unit
  | .dataQueue => lpnuIODataQueueDestroy
  | .commandPool => lpnuIOCommandPoolDestroy
  | .bufferMemoryDescriptor => lpnuIOBufferMemoryDescriptorDestroy
  | .metalBuffer => lpnuMetalBufferDestroy

/-! ## The component -/

/-- The calls: a creation, of whether the arguments it tests are there and
of what each `calloc` finds, or a destruction. -/
inductive Call
  | create (kind : Alone) (args found : Bool)
  | createWithPart (kind : WithPart) (args found foundPart : Bool)
  | createKept (kind : Kept) (args found : Bool)
  | createDictionary (args found foundKeys foundValues : Bool)
  | createService (args found : Bool)
  | serviceMatching (args found : Bool)
  | deviceTreeAddChild (args found : Bool)
  | createDevice (args found : Bool)
  | destroy (kind : Alone) (object : Option ℕ)
  | destroyWithPart (kind : WithPart) (object : Option (ℕ × Option ℕ))
  | destroyDictionary (dict : Option (ℕ × Option ℕ × Option ℕ))
  | destroyService (service : Option (ℕ × UInt32))
  | releaseDevice (device : Option ℕ)

/-- The object a call destroys. -/
def Call.destroyed : Call → Option Object
  | .destroy kind object => object.map (.alone kind)
  | .destroyWithPart kind object => object.map fun o => .withPart kind o.1 o.2
  | .destroyDictionary dict => dict.map fun d => .dictionary d.1 d.2.1 d.2.2
  | .destroyService service => service.map fun svc => .service svc.1 svc.2
  | .releaseDevice device => device.map .device
  | _ => none

/-- The allocator, `g_device`, and the objects handed out and not
destroyed. -/
structure State where
  memory : Allocator
  device : Option ℕ
  live : List Object

/-- No object yet. -/
def State.init : State := ⟨Allocator.init, none, []⟩

/-- What a creation hands out is live from there on. -/
def State.create (s : State) (prog : Creation) : State × Option Code :=
  let r := prog s.memory
  ({ s with memory := r.2, live := r.1.2.toList ++ s.live }, some r.1.1)

/-- What is destroyed is not, but for what is left of it. -/
def State.destroy (s : State) (object : Option Object) (prog : Program (Option Object)) :
    State × Option Code :=
  let r := prog s.memory
  ({ s with memory := r.2, live := r.1.toList ++ object.elim s.live s.live.erase }, none)

/-- One call. -/
def step (s : State) (call : Call) : State × Option Code :=
  match call with
  | .create kind args found => s.create (kind.create args found)
  | .createWithPart kind args found foundPart => s.create (kind.create args found foundPart)
  | .createKept kind args found => s.create (kind.create args found)
  | .createDictionary args found foundKeys foundValues =>
    s.create (lpnuIODictionaryCreate args found foundKeys foundValues)
  | .createService args found => s.create (lpnuIOServiceCreate args found)
  | .serviceMatching args found => s.create (lpnuIOServiceMatching args found)
  | .deviceTreeAddChild args found => s.create (lpnuIODeviceTreeAddChild args found)
  | .createDevice args found =>
    let r := lpnuMetalCreateDevice args found s.device s.memory
    (⟨r.2, r.1.2, r.1.1.2.toList ++ s.live⟩, some r.1.1.1)
  | .destroy kind object => s.destroy call.destroyed do
    kind.destroy object
    pure none
  | .destroyWithPart kind object => s.destroy call.destroyed do
    kind.destroy object
    pure none
  | .destroyDictionary dict => s.destroy call.destroyed do
    lpnuIODictionaryDestroy dict
    pure none
  | .destroyService service => s.destroy call.destroyed do
    let left ← lpnuIOServiceDestroy service
    pure (left.map fun svc => .service svc.1 svc.2)
  | .releaseDevice device =>
    let r := lpnuMetalReleaseDevice s.device device s.memory
    (⟨r.2, r.1, call.destroyed.elim s.live s.live.erase⟩, none)

/-- A call under the protocol: an object destroyed is live. -/
def Legal (s : State) (call : Call) : Prop := ∀ o, call.destroyed = some o → o ∈ s.live

end Objects

end Lpnu
