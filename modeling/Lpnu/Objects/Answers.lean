import Lpnu.IOKit.CommandPool
import Lpnu.IOKit.DataQueue.Model
import Lpnu.IOKit.Dictionary.Model
import Lpnu.IOKit.ReadBack
import Lpnu.IOKit.RegistryEntry
import Lpnu.IOKit.Service.Model
import Lpnu.Metal.Model
import Lpnu.Objects.Model
/-!
# The objects handed out — the functions modelled elsewhere

Several creating functions are also modelled for what the object they hand
out holds. The code a creation returns, and whether it hands out an
object, are the same in both. So is what a destruction leaves, where it
may leave something: a service that is still counted, and `g_device`.
-/

namespace Lpnu

namespace Objects

open Blocks

variable {args found foundPart : Bool} {m : Allocator}

/-- What a creation answers. -/
def answer (prog : Creation) (m : Allocator) : Bool × Code :=
  ((prog m).1.2.isSome, (prog m).1.1)

theorem answer_dataQueue {capacity : UInt32} :
    answer (lpnuIODataQueueCreate args found foundPart) m =
      ((IOKit.lpnuIODataQueueCreate args capacity found foundPart).1.isSome,
        .inl (IOKit.lpnuIODataQueueCreate args capacity found foundPart).2) := by
  cases args <;> cases found <;> cases foundPart <;> rfl

theorem answer_commandPool {count size : UInt32} {commands : Option ℕ} :
    answer (lpnuIOCommandPoolCreate args found commands.isSome) m =
      ((IOKit.lpnuIOCommandPoolCreate args count size found commands).1.isSome,
        .inl (IOKit.lpnuIOCommandPoolCreate args count size found commands).2) := by
  cases args <;> cases found <;> cases commands <;> rfl

theorem answer_dictionary {foundKeys foundValues : Bool} :
    answer (lpnuIODictionaryCreate args found foundKeys foundValues) m =
      ((IOKit.lpnuIODictionaryCreate args found foundKeys foundValues).1.isSome,
        .inl (IOKit.lpnuIODictionaryCreate args found foundKeys foundValues).2) := by
  cases args <;> cases found <;> rfl

/-- Its arrays are there in both, or in neither. -/
theorem arrays_dictionary {foundKeys foundValues : Bool} {b : ℕ} {keys values : Option ℕ}
    {d : IOKit.LPNUIODictionary}
    (ho : (lpnuIODictionaryCreate args found foundKeys foundValues m).1.2 =
      some (.dictionary b keys values))
    (hd : (IOKit.lpnuIODictionaryCreate args found foundKeys foundValues).1 = some d) :
    d.keys.isSome = keys.isSome ∧ d.values.isSome = values.isSome := by
  cases args
  · cases hd
  cases found
  · cases hd
  cases hd
  cases foundKeys <;> cases foundValues <;> cases ho <;> exact ⟨rfl, rfl⟩

theorem answer_service {services : Heap IOKit.LPNUIOService} {name : Option CString} :
    answer (lpnuIOServiceCreate args found) m =
      let r := (IOKit.lpnuIOServiceCreate services args name found).2
      (r.service.isSome, .inl (r.ret.getD .kIOReturnSuccess)) := by
  cases args <;> cases found <;> rfl

theorem answer_memoryDescriptor {address length : UInt64} {direction : UInt32} :
    answer (lpnuIOMemoryDescriptorCreate args found) m =
      ((IOKit.lpnuIOMemoryDescriptorCreate args address length direction found).1.isSome,
        .inl (IOKit.lpnuIOMemoryDescriptorCreate args address length direction found).2) := by
  cases args <;> cases found <;> rfl

theorem answer_registryEntry {name : Option CString} :
    answer (lpnuIORegistryEntryCreate args found) m =
      ((IOKit.lpnuIORegistryEntryCreate args name found).1.isSome,
        .inl (IOKit.lpnuIORegistryEntryCreate args name found).2) := by
  cases args <;> cases found <;> rfl

theorem answer_deviceMemory {base length : UInt64} :
    answer (lpnuIODeviceMemoryCreate args found) m =
      ((IOKit.lpnuIODeviceMemoryCreate args base length found).1.isSome,
        .inl (IOKit.lpnuIODeviceMemoryCreate args base length found).2) := by
  cases args <;> cases found <;> rfl

theorem answer_bufferMemoryDescriptor {length : UInt64} {options : UInt32}
    {buffer : Option UInt64} :
    answer (lpnuIOBufferMemoryDescriptorCreate args found buffer.isSome) m =
      let r := IOKit.lpnuIOBufferMemoryDescriptorCreate args length options found buffer
      (r.1.isSome, .inl r.2) := by
  cases args <;> cases found <;> cases buffer <;> rfl

theorem answer_conditionLock {value : UInt32} :
    answer (lpnuIOConditionLockCreate args found) m =
      ((IOKit.lpnuIOConditionLockCreate args value found).1.isSome,
        .inl (IOKit.lpnuIOConditionLockCreate args value found).2) := by
  cases args <;> cases found <;> rfl

theorem answer_commandQueue {workLoop : Option ℕ} :
    answer (lpnuIOCommandQueueCreate args found) m =
      ((IOKit.lpnuIOCommandQueueCreate args workLoop found).1.isSome,
        .inl (IOKit.lpnuIOCommandQueueCreate args workLoop found).2) := by
  cases args <;> cases found <;> rfl

theorem answer_metalBuffer {device : Option ℕ} {buffers : Heap Metal.LPnuMetalBuffer}
    {length : UInt64} {options : UInt32} {buffer : Bool} {data : Option ℕ} :
    answer (lpnuMetalBufferCreate (device.isSome && buffer) found data.isSome) m =
      let r := (Metal.lpnuMetalBufferCreate device buffers length options buffer found data).2
      (r.object.isSome, .inr (r.ret.getD 0)) := by
  cases device <;> cases buffer <;> cases found <;> cases data <;> rfl

/-- The other creations of Metal, the device's apart. -/
theorem answer_metal {α : Type} {heap : Heap α} {v : α} {made : ℕ → Object} :
    answer (createAlone metalCodes made args found) m =
      let r := (Metal.create heap args v found).2
      (r.object.isSome, .inr (r.ret.getD 0)) := by
  cases args <;> cases found <;> rfl

/-- A device's creation sets `g_device` in both, or in neither. -/
theorem answer_device {s : Metal.State} {gDevice : Option ℕ}
    (h : gDevice.isSome = s.device.isSome) :
    let r := (lpnuMetalCreateDevice args found gDevice m).1
    (r.1.2.isSome, r.1.1, r.2.isSome) =
      let r := Metal.lpnuMetalCreateDevice s args found
      (r.2.object.isSome, .inr (r.2.ret.getD 0), r.1.device.isSome) := by
  cases args
  · exact congrArg (fun b => (false, (Sum.inr (-1) : Code), b)) h
  · cases found <;> rfl

/-- A service that is destroyed is left with the same count in both, or
freed. -/
theorem left_service {services : Heap IOKit.LPNUIOService} {svc : IOKit.LPNUIOService} {a b : ℕ}
    (hsvc : services.cells a = some svc) :
    (lpnuIOServiceDestroy (some (b, svc.refCount)) m).1.map Prod.snd =
      ((IOKit.lpnuIOServiceDestroy services (some a)).1.cells a).map
        IOKit.LPNUIOService.refCount := by
  have hcount : ((services.modify a fun svc =>
      if svc.refCount > 0 then { svc with refCount := svc.refCount - 1 } else svc).cells a).map
        IOKit.LPNUIOService.refCount =
      some (if svc.refCount > 0 then svc.refCount - 1 else svc.refCount) := by
    rw [Heap.cells_modify, if_pos rfl, hsvc]
    simp only [Option.map_some]
    split <;> rfl
  simp only [lpnuIOServiceDestroy, IOKit.lpnuIOServiceDestroy]
  rw [hcount]
  by_cases hzero : (if svc.refCount > 0 then svc.refCount - 1 else svc.refCount) = 0
  · rw [if_pos hzero, if_pos (congrArg some hzero), Heap.cells_free, if_pos rfl]
    rfl
  · rw [if_neg hzero, if_neg (fun h => hzero (Option.some.inj h)), hcount]
    rfl

/-- A device released leaves the same in `g_device`. -/
theorem left_device {s : Metal.State} {device : Option ℕ} :
    (lpnuMetalReleaseDevice s.device device m).1 =
      (Metal.lpnuMetalReleaseDevice s device).device := by
  cases device <;> rfl

end Objects

end Lpnu
