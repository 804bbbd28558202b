import Lpnu.Common.Heap
import Lpnu.Common.Run
import Lpnu.Common.Table
/-!
# dyld — the model

`lpnu_dyld.c`: loading an image, registering it in `g_images`, and the
way back. An image is a block of the heap; `g_images` and `g_image_count`
are a pointer table of 256 slots, of which the last is never filled.
What the loader underneath answers is an argument of each call, and the
diagnostics on stderr are left out.
-/

namespace Lpnu

namespace Dyld

/-- `LPNUImageStateReady`. -/
def lpnuImageStateReady : Int32 := 4

/-- `struct LPNUImageInfo`. -/
structure LPNUImageInfo where
  path : CharArray 256
  handle : Option ℕ
  base : UInt64
  state : Int32
  name : CharArray 256

/-- A call of the host's loader that has an effect on a handle. -/
inductive Event
  | dlopen (handle : ℕ)
  | dlclose (handle : ℕ)
  deriving DecidableEq, Repr

/-- What a call gives back: its return value, if it has one, the pointer
it stores through its out-parameter, the loader calls it makes and its
accesses to `g_images`. -/
structure Out where
  ret : Option ℤ := none
  image : Option ℕ := none
  events : List Event := []
  accesses : List Access := []

/-- What the host answers a load: the handle `dlopen` returns, and
whether `calloc` finds memory. -/
structure LoadEnv where
  dlopen : Option ℕ
  calloc : Bool

/-- The image `LPNUdyld_load` fills in, over zeroed memory. -/
def loadedImage (path : CString) (handle : ℕ) : LPNUImageInfo where
  path := CharArray.zero.strncpy path 255
  name := CharArray.zero.strncpy path 255
  handle := some handle
  base := UInt64.ofNat handle
  state := lpnuImageStateReady

/-- `LPNUdyld_load`. The out-parameter `image` is given by whether it is
non-null. -/
def lpnuDyldLoad (heap : Heap LPNUImageInfo) (path : Option CString) (image : Bool)
    (env : LoadEnv) : Heap LPNUImageInfo × Out :=
  match path, image with
  | some path, true =>
    match env.dlopen with
    | none => (heap, { ret := some (-2) })
    | some handle =>
      if env.calloc then
        (heap.alloc (loadedImage path handle),
          { ret := some 0, image := some heap.fresh, events := [.dlopen handle] })
      else
        (heap, { ret := some (-3), events := [.dlopen handle, .dlclose handle] })
  | _, _ => (heap, { ret := some (-1) })

/-- `LPNUdyld_unload`. -/
def lpnuDyldUnload (heap : Heap LPNUImageInfo) (image : Option ℕ) : Heap LPNUImageInfo × Out :=
  match image with
  | none => (heap, {})
  | some a =>
    match (heap.cells a).bind LPNUImageInfo.handle with
    | none => (heap.free a, {})
    | some handle => (heap.free a, { events := [.dlclose handle] })

/-- `LPNUdyld_add_image`. -/
def lpnuDyldAddImage (images : Table ℕ) (image : Option ℕ) : Table ℕ × Out :=
  match image with
  | none => (images, { ret := some (-1) })
  | some a =>
    if images.count ≥ 255 then (images, { ret := some (-1) })
    else ((images.push a).1, { ret := some 0, accesses := (images.push a).2 })

/-- `LPNUdyld_remove_image`. -/
def lpnuDyldRemoveImage (images : Table ℕ) (image : Option ℕ) : Table ℕ × Out :=
  match image with
  | none => (images, {})
  | some a => ((images.removeFirst a).1, { accesses := (images.removeFirst a).2 })

/-- `LPNUdyld_get_all_images`: the array itself, without its count. -/
def lpnuDyldGetAllImages (images : Table ℕ) : ℕ → Option ℕ := images.slots

/-! ## The component -/

/-- The calls on the registry alone. -/
inductive RegistryCall
  | addImage (image : Option ℕ)
  | removeImage (image : Option ℕ)
  deriving DecidableEq, Repr

/-- One call on the registry. -/
def registryStep (images : Table ℕ) : RegistryCall → Table ℕ × Out
  | .addImage image => lpnuDyldAddImage images image
  | .removeImage image => lpnuDyldRemoveImage images image

/-- The images allocated and those registered. -/
structure State where
  heap : Heap LPNUImageInfo
  images : Table ℕ

/-- Nothing loaded and nothing registered. -/
def State.init : State := ⟨Heap.empty, Table.empty⟩

/-- The calls on images and the registry. -/
inductive Call
  | load (path : Option CString) (image : Bool) (env : LoadEnv)
  | unload (image : Option ℕ)
  | registry (call : RegistryCall)

/-- One call. -/
def step (s : State) : Call → State × Out
  | .load path image env =>
    let r := lpnuDyldLoad s.heap path image env
    ({ s with heap := r.1 }, r.2)
  | .unload image =>
    let r := lpnuDyldUnload s.heap image
    ({ s with heap := r.1 }, r.2)
  | .registry call =>
    let r := registryStep s.images call
    ({ s with images := r.1 }, r.2)

end Dyld

end Lpnu
