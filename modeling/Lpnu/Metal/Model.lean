import Lpnu.Common.CArray
import Lpnu.Common.Heap
import Lpnu.Common.Run
/-!
# Metal — the model

The objects of `lpnu_metal.c` and the global `g_device`. Each kind of
object has a heap of its own, as its pointer type keeps it apart, and an
object is named by its block there. The Vulkan handles beside an object's
fields are never set or read and are left out. A device, a library or a
queue an object is made from is tested for null and not kept. Whether
`calloc` finds memory is an argument of the call.
-/

namespace Lpnu

namespace Metal

/-- `struct LPnuMetalDevice`. -/
structure LPnuMetalDevice where
  backendType : Int32
  name : CString

/-- `struct LPnuMetalBuffer`; `data` is the address of its bytes. -/
structure LPnuMetalBuffer where
  data : Option ℕ
  length : UInt64
  options : Int32

/-- `struct LPnuMetalTexture`. -/
structure LPnuMetalTexture where
  pixelFormat : UInt32
  width : UInt32
  height : UInt32

/-- `struct LPnuMetalSampler`. -/
structure LPnuMetalSampler where
  minFilter : Int32
  magFilter : Int32

/-- `struct LPnuMetalCommandQueue`. -/
structure LPnuMetalCommandQueue where

/-- `struct LPnuMetalCommandBuffer`. -/
structure LPnuMetalCommandBuffer where
  committed : Int32

/-- `struct LPnuMetalLibrary`. -/
structure LPnuMetalLibrary where
  source : CString

/-- `struct LPnuMetalFunction`. -/
structure LPnuMetalFunction where
  name : CString

/-- `struct LPnuMetalRenderPipeline`, its two arrays of eight slots. -/
structure LPnuMetalRenderPipeline where
  buffers : Fin 8 → Option ℕ
  textures : Fin 8 → Option ℕ

/-- `struct LPnuMetalComputePipeline`. -/
structure LPnuMetalComputePipeline where
  function : Option ℕ

/-- The bytes of `"LPNU Metal (Vulkan Backend)"`. -/
def deviceName : CString :=
  ⟨[76, 80, 78, 85, 32, 77, 101, 116, 97, 108, 32, 40, 86, 117, 108, 107, 97, 110, 32, 66, 97, 99,
    107, 101, 110, 100, 41], by decide⟩

/-- `g_device` and the objects handed out. -/
structure State where
  device : Option ℕ
  devices : Heap LPnuMetalDevice
  buffers : Heap LPnuMetalBuffer
  textures : Heap LPnuMetalTexture
  samplers : Heap LPnuMetalSampler
  commandQueues : Heap LPnuMetalCommandQueue
  commandBuffers : Heap LPnuMetalCommandBuffer
  libraries : Heap LPnuMetalLibrary
  functions : Heap LPnuMetalFunction
  renderPipelines : Heap LPnuMetalRenderPipeline
  computePipelines : Heap LPnuMetalComputePipeline

/-- No device and no object yet. -/
def State.init : State where
  device := none
  devices := Heap.empty
  buffers := Heap.empty
  textures := Heap.empty
  samplers := Heap.empty
  commandQueues := Heap.empty
  commandBuffers := Heap.empty
  libraries := Heap.empty
  functions := Heap.empty
  renderPipelines := Heap.empty
  computePipelines := Heap.empty

/-- What a call gives back: its return value, if it has one, and the
pointer it stores through its out-parameter. -/
structure Out where
  ret : Option ℤ := none
  object : Option ℕ := none

/-- The creations, of whether the arguments they test are there and of
what the new object holds. -/
def create {α : Type} (heap : Heap α) (args : Bool) (v : α) (calloc : Bool) : Heap α × Out :=
  if args then
    if calloc then (heap.alloc v, { ret := some 0, object := some heap.fresh })
    else (heap, { ret := some (-2) })
  else (heap, { ret := some (-1) })

/-- The destructions. -/
def destroy {α : Type} (heap : Heap α) : Option ℕ → Heap α
  | none => heap
  | some a => heap.free a

variable (s : State)

/-- `LPnuMetalCreateDevice`. -/
def lpnuMetalCreateDevice (device calloc : Bool) : State × Out :=
  if device then
    if calloc then
      ({ s with device := some s.devices.fresh, devices := s.devices.alloc ⟨1, deviceName⟩ },
        { ret := some 0, object := some s.devices.fresh })
    -- the global is assigned before it is tested
    else ({ s with device := none }, { ret := some (-2) })
  else (s, { ret := some (-1) })

/-- `LPnuMetalReleaseDevice`. -/
def lpnuMetalReleaseDevice (device : Option ℕ) : State :=
  match device with
  | none => s
  | some a =>
    { s with
      devices := s.devices.free a
      device := if s.device = some a then none else s.device }

variable (device : Option ℕ)

/-- `LPnuMetalBufferCreate`. Of the second `calloc`, for the bytes, the
address is given, where it finds memory. -/
def lpnuMetalBufferCreate (buffers : Heap LPnuMetalBuffer) (length : UInt64) (options : UInt32)
    (buffer callocBuffer : Bool) (callocData : Option ℕ) : Heap LPnuMetalBuffer × Out :=
  if device.isSome && buffer then
    if callocBuffer then
      match callocData with
      | none => (buffers, { ret := some (-3) })
      | some data =>
        (buffers.alloc ⟨some data, length, options.toInt32⟩,
          { ret := some 0, object := some buffers.fresh })
    else (buffers, { ret := some (-2) })
  else (buffers, { ret := some (-1) })

/-- `LPnuMetalBufferDestroy`. -/
def lpnuMetalBufferDestroy : Heap LPnuMetalBuffer → Option ℕ → Heap LPnuMetalBuffer := destroy

/-- `LPnuMetalTextureCreate`, which does not keep `mipLevels`. -/
def lpnuMetalTextureCreate (textures : Heap LPnuMetalTexture)
    (pixelFormat width height _mipLevels : UInt32) (texture calloc : Bool) :
    Heap LPnuMetalTexture × Out :=
  create textures (device.isSome && texture) ⟨pixelFormat, width, height⟩ calloc

/-- `LPnuMetalTextureDestroy`. -/
def lpnuMetalTextureDestroy : Heap LPnuMetalTexture → Option ℕ → Heap LPnuMetalTexture := destroy

/-- `LPnuMetalSamplerCreate`. -/
def lpnuMetalSamplerCreate (samplers : Heap LPnuMetalSampler) (sampler calloc : Bool) :
    Heap LPnuMetalSampler × Out :=
  create samplers (device.isSome && sampler) ⟨0, 0⟩ calloc

/-- `LPnuMetalSamplerDestroy`. -/
def lpnuMetalSamplerDestroy : Heap LPnuMetalSampler → Option ℕ → Heap LPnuMetalSampler := destroy

/-- `LPnuMetalCommandQueueCreate`. -/
def lpnuMetalCommandQueueCreate (queues : Heap LPnuMetalCommandQueue) (queue calloc : Bool) :
    Heap LPnuMetalCommandQueue × Out :=
  create queues (device.isSome && queue) ⟨⟩ calloc

/-- `LPnuMetalCommandQueueDestroy`. -/
def lpnuMetalCommandQueueDestroy :
    Heap LPnuMetalCommandQueue → Option ℕ → Heap LPnuMetalCommandQueue := destroy

/-- `LPnuMetalCommandBufferCreate`. -/
def lpnuMetalCommandBufferCreate (buffers : Heap LPnuMetalCommandBuffer) (queue : Option ℕ)
    (buffer calloc : Bool) : Heap LPnuMetalCommandBuffer × Out :=
  create buffers (queue.isSome && buffer) ⟨0⟩ calloc

/-- `LPnuMetalCommandBufferDestroy`. -/
def lpnuMetalCommandBufferDestroy :
    Heap LPnuMetalCommandBuffer → Option ℕ → Heap LPnuMetalCommandBuffer := destroy

/-- `LPnuMetalCommandBufferCommit`. -/
def lpnuMetalCommandBufferCommit (buffers : Heap LPnuMetalCommandBuffer) (buffer : Option ℕ) :
    Heap LPnuMetalCommandBuffer :=
  match buffer with
  | none => buffers
  | some b => buffers.modify b fun buf => { buf with committed := 1 }

/-- `LPnuMetalLibraryCreateFromSource`. -/
def lpnuMetalLibraryCreateFromSource (libraries : Heap LPnuMetalLibrary)
    (source : Option CString) (library calloc : Bool) : Heap LPnuMetalLibrary × Out :=
  match source with
  | some source => create libraries (device.isSome && library) ⟨source⟩ calloc
  | none => (libraries, { ret := some (-1) })

/-- `LPnuMetalLibraryGetFunction`, which makes a function of any name. -/
def lpnuMetalLibraryGetFunction (functions : Heap LPnuMetalFunction) (library : Option ℕ)
    (name : Option CString) (function calloc : Bool) : Heap LPnuMetalFunction × Out :=
  match name with
  | some name => create functions (library.isSome && function) ⟨name⟩ calloc
  | none => (functions, { ret := some (-1) })

/-- `LPnuMetalRenderPipelineCreate`, which reads neither the library nor
the names of its functions. -/
def lpnuMetalRenderPipelineCreate (pipelines : Heap LPnuMetalRenderPipeline)
    (_library : Option ℕ) (_vertexFunc _fragmentFunc : Option CString) (pipeline calloc : Bool) :
    Heap LPnuMetalRenderPipeline × Out :=
  create pipelines (device.isSome && pipeline) ⟨fun _ => none, fun _ => none⟩ calloc

/-- `LPnuMetalRenderPipelineDestroy`. -/
def lpnuMetalRenderPipelineDestroy :
    Heap LPnuMetalRenderPipeline → Option ℕ → Heap LPnuMetalRenderPipeline := destroy

/-- `slots[index] = object`, where the array has the index. -/
def setSlot (slots : Fin 8 → Option ℕ) (index : UInt32) (object : Option ℕ) : Fin 8 → Option ℕ :=
  if h : index.toNat < 8 then Function.update slots ⟨index.toNat, h⟩ object else slots

/-- `LPnuMetalRenderPipelineSetBuffer`. -/
def lpnuMetalRenderPipelineSetBuffer (pipelines : Heap LPnuMetalRenderPipeline)
    (pipeline : Option ℕ) (index : UInt32) (buffer : Option ℕ) : Heap LPnuMetalRenderPipeline :=
  match pipeline with
  | none => pipelines
  | some p => pipelines.modify p fun pipe =>
      { pipe with buffers := setSlot pipe.buffers index buffer }

/-- `LPnuMetalRenderPipelineSetTexture`. -/
def lpnuMetalRenderPipelineSetTexture (pipelines : Heap LPnuMetalRenderPipeline)
    (pipeline : Option ℕ) (index : UInt32) (texture : Option ℕ) : Heap LPnuMetalRenderPipeline :=
  match pipeline with
  | none => pipelines
  | some p => pipelines.modify p fun pipe =>
      { pipe with textures := setSlot pipe.textures index texture }

/-- `LPnuMetalComputePipelineCreate`. -/
def lpnuMetalComputePipelineCreate (pipelines : Heap LPnuMetalComputePipeline)
    (function : Option ℕ) (pipeline calloc : Bool) : Heap LPnuMetalComputePipeline × Out :=
  create pipelines (device.isSome && function.isSome && pipeline) ⟨function⟩ calloc

/-- `LPnuMetalComputePipelineDestroy`. -/
def lpnuMetalComputePipelineDestroy :
    Heap LPnuMetalComputePipeline → Option ℕ → Heap LPnuMetalComputePipeline := destroy

/-! ## The component -/

/-- The calls that make, change and destroy objects. -/
inductive Call
  | createDevice (device calloc : Bool)
  | releaseDevice (device : Option ℕ)
  | bufferCreate (device : Option ℕ) (length : UInt64) (options : UInt32)
      (buffer callocBuffer : Bool) (callocData : Option ℕ)
  | bufferDestroy (buffer : Option ℕ)
  | textureCreate (device : Option ℕ) (pixelFormat width height mipLevels : UInt32)
      (texture calloc : Bool)
  | textureDestroy (texture : Option ℕ)
  | samplerCreate (device : Option ℕ) (sampler calloc : Bool)
  | samplerDestroy (sampler : Option ℕ)
  | commandQueueCreate (device : Option ℕ) (queue calloc : Bool)
  | commandQueueDestroy (queue : Option ℕ)
  | commandBufferCreate (queue : Option ℕ) (buffer calloc : Bool)
  | commandBufferDestroy (buffer : Option ℕ)
  | commandBufferCommit (buffer : Option ℕ)
  | libraryCreateFromSource (device : Option ℕ) (source : Option CString) (library calloc : Bool)
  | libraryGetFunction (library : Option ℕ) (name : Option CString) (function calloc : Bool)
  | renderPipelineCreate (device library : Option ℕ) (vertexFunc fragmentFunc : Option CString)
      (pipeline calloc : Bool)
  | renderPipelineDestroy (pipeline : Option ℕ)
  | renderPipelineSetBuffer (pipeline : Option ℕ) (index : UInt32) (buffer : Option ℕ)
  | renderPipelineSetTexture (pipeline : Option ℕ) (index : UInt32) (texture : Option ℕ)
  | computePipelineCreate (device function : Option ℕ) (pipeline calloc : Bool)
  | computePipelineDestroy (pipeline : Option ℕ)

/-- One call. -/
def step : Call → State × Out
  | .createDevice device calloc => lpnuMetalCreateDevice s device calloc
  | .releaseDevice device => (lpnuMetalReleaseDevice s device, {})
  | .bufferCreate device length options buffer callocBuffer callocData =>
    let r := lpnuMetalBufferCreate device s.buffers length options buffer callocBuffer callocData
    ({ s with buffers := r.1 }, r.2)
  | .bufferDestroy buffer => ({ s with buffers := lpnuMetalBufferDestroy s.buffers buffer }, {})
  | .textureCreate device pixelFormat width height mipLevels texture calloc =>
    let r := lpnuMetalTextureCreate device s.textures pixelFormat width height mipLevels texture
      calloc
    ({ s with textures := r.1 }, r.2)
  | .textureDestroy texture =>
    ({ s with textures := lpnuMetalTextureDestroy s.textures texture }, {})
  | .samplerCreate device sampler calloc =>
    let r := lpnuMetalSamplerCreate device s.samplers sampler calloc
    ({ s with samplers := r.1 }, r.2)
  | .samplerDestroy sampler =>
    ({ s with samplers := lpnuMetalSamplerDestroy s.samplers sampler }, {})
  | .commandQueueCreate device queue calloc =>
    let r := lpnuMetalCommandQueueCreate device s.commandQueues queue calloc
    ({ s with commandQueues := r.1 }, r.2)
  | .commandQueueDestroy queue =>
    ({ s with commandQueues := lpnuMetalCommandQueueDestroy s.commandQueues queue }, {})
  | .commandBufferCreate queue buffer calloc =>
    let r := lpnuMetalCommandBufferCreate s.commandBuffers queue buffer calloc
    ({ s with commandBuffers := r.1 }, r.2)
  | .commandBufferDestroy buffer =>
    ({ s with commandBuffers := lpnuMetalCommandBufferDestroy s.commandBuffers buffer }, {})
  | .commandBufferCommit buffer =>
    ({ s with commandBuffers := lpnuMetalCommandBufferCommit s.commandBuffers buffer }, {})
  | .libraryCreateFromSource device source library calloc =>
    let r := lpnuMetalLibraryCreateFromSource device s.libraries source library calloc
    ({ s with libraries := r.1 }, r.2)
  | .libraryGetFunction library name function calloc =>
    let r := lpnuMetalLibraryGetFunction s.functions library name function calloc
    ({ s with functions := r.1 }, r.2)
  | .renderPipelineCreate device library vertexFunc fragmentFunc pipeline calloc =>
    let r := lpnuMetalRenderPipelineCreate device s.renderPipelines library vertexFunc
      fragmentFunc pipeline calloc
    ({ s with renderPipelines := r.1 }, r.2)
  | .renderPipelineDestroy pipeline =>
    ({ s with renderPipelines := lpnuMetalRenderPipelineDestroy s.renderPipelines pipeline }, {})
  | .renderPipelineSetBuffer pipeline index buffer =>
    ({ s with
        renderPipelines :=
          lpnuMetalRenderPipelineSetBuffer s.renderPipelines pipeline index buffer }, {})
  | .renderPipelineSetTexture pipeline index texture =>
    ({ s with
        renderPipelines :=
          lpnuMetalRenderPipelineSetTexture s.renderPipelines pipeline index texture }, {})
  | .computePipelineCreate device function pipeline calloc =>
    let r := lpnuMetalComputePipelineCreate device s.computePipelines function pipeline calloc
    ({ s with computePipelines := r.1 }, r.2)
  | .computePipelineDestroy pipeline =>
    ({ s with
        computePipelines := lpnuMetalComputePipelineDestroy s.computePipelines pipeline }, {})

end Metal

end Lpnu
