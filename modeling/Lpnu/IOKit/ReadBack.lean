import Lpnu.Common.Provenance
import Lpnu.IOKit.MemoryDescriptor
/-!
# IOKit — objects that stay as they were made

Memory descriptors, device memory, buffer descriptors, condition locks and
command queues of `lpnu_iokit.c`: each is filled in when it is created,
and no function writes to it afterwards. So whatever a run does with them
and with others, one that is live answers by the arguments it was created
with (`answeredFromCreation_run`): a condition lock with the value it was
created with, though `Release` is given another, and a command queue that
it is empty, though `Enqueue` succeeded.
-/

namespace Lpnu

namespace IOKit

open IOReturn Run Provenance

/-! ## The functions -/

/-- `LPNUIOMemoryDescriptorGetAddress`. -/
def lpnuIOMemoryDescriptorGetAddress : Option LPNUIOMemoryDescriptor → UInt64
  | some desc => desc.address
  | none => 0

/-- `LPNUIOMemoryDescriptorGetLength`. -/
def lpnuIOMemoryDescriptorGetLength : Option LPNUIOMemoryDescriptor → UInt64
  | some desc => desc.length
  | none => 0

/-- `struct LPNUIODeviceMemory`. -/
structure LPNUIODeviceMemory where
  base : UInt64
  length : UInt64
  physical : UInt64

/-- `LPNUIODeviceMemoryCreate`: what it stores through its out-parameter
and what it returns. -/
def lpnuIODeviceMemoryCreate (memory : Bool) (base length : UInt64) (calloc : Bool) :
    Option LPNUIODeviceMemory × IOReturn :=
  if memory then
    if calloc then (some ⟨base, length, base⟩, kIOReturnSuccess)
    else (none, kIOReturnNoMemory)
  else (none, kIOReturnBadArgument)

/-- `LPNUIODeviceMemoryGetBase`. -/
def lpnuIODeviceMemoryGetBase : Option LPNUIODeviceMemory → UInt64
  | some memory => memory.base
  | none => 0

/-- `LPNUIODeviceMemoryGetLength`. -/
def lpnuIODeviceMemoryGetLength : Option LPNUIODeviceMemory → UInt64
  | some memory => memory.length
  | none => 0

/-- `LPNUIODeviceMemoryGetPhysicalAddress`. -/
def lpnuIODeviceMemoryGetPhysicalAddress : Option LPNUIODeviceMemory → UInt64
  | some memory => memory.physical
  | none => 0

/-- `struct LPNUIOBufferMemoryDescriptor`; `buffer` is the address of its
bytes. -/
structure LPNUIOBufferMemoryDescriptor where
  buffer : UInt64
  length : UInt64
  options : UInt32

/-- `LPNUIOBufferMemoryDescriptorCreate`. Of the second `calloc`, for the
bytes, the address is given, where it finds memory. -/
def lpnuIOBufferMemoryDescriptorCreate (desc : Bool) (length : UInt64) (options : UInt32)
    (callocDesc : Bool) (callocBuffer : Option UInt64) :
    Option LPNUIOBufferMemoryDescriptor × IOReturn :=
  if desc then
    if callocDesc then
      match callocBuffer with
      | none => (none, kIOReturnNoMemory)
      | some buffer => (some ⟨buffer, length, options⟩, kIOReturnSuccess)
    else (none, kIOReturnNoMemory)
  else (none, kIOReturnBadArgument)

/-- `LPNUIOBufferMemoryDescriptorGetBuffer`. -/
def lpnuIOBufferMemoryDescriptorGetBuffer : Option LPNUIOBufferMemoryDescriptor → UInt64
  | some desc => desc.buffer
  | none => 0

/-- `LPNUIOBufferMemoryDescriptorGetLength`. -/
def lpnuIOBufferMemoryDescriptorGetLength : Option LPNUIOBufferMemoryDescriptor → UInt64
  | some desc => desc.length
  | none => 0

/-- What an `LPNUIOConditionLock` points to. -/
structure LPNUIOConditionLock where
  value : UInt32

/-- `LPNUIOConditionLockCreate`. -/
def lpnuIOConditionLockCreate (lock : Bool) (value : UInt32) (calloc : Bool) :
    Option LPNUIOConditionLock × IOReturn :=
  if lock then
    if calloc then (some ⟨value⟩, kIOReturnSuccess)
    else (none, kIOReturnNoMemory)
  else (none, kIOReturnBadArgument)

/-- `LPNUIOConditionLockAcquire`, which does not wait. -/
def lpnuIOConditionLockAcquire (_lock : Option LPNUIOConditionLock) (_timeout : UInt32) :
    IOReturn :=
  kIOReturnSuccess

/-- `LPNUIOConditionLockRelease`, which does not store the value. -/
def lpnuIOConditionLockRelease (_lock : Option LPNUIOConditionLock) (_value : UInt32) :
    IOReturn :=
  kIOReturnSuccess

/-- `LPNUIOConditionLockTryAcquire`. -/
def lpnuIOConditionLockTryAcquire (_lock : Option LPNUIOConditionLock) (_value : UInt32) :
    Bool :=
  true

/-- `LPNUIOConditionLockGetValue`. -/
def lpnuIOConditionLockGetValue : Option LPNUIOConditionLock → UInt32
  | some lock => lock.value
  | none => 0

/-- `struct LPNUIOCommandQueue`. -/
structure LPNUIOCommandQueue where
  queue : Option ℕ
  gate : Option ℕ
  count : UInt32

/-- `LPNUIOCommandQueueCreate`, which does not keep the work loop. -/
def lpnuIOCommandQueueCreate (queue : Bool) (_workLoop : Option ℕ) (calloc : Bool) :
    Option LPNUIOCommandQueue × IOReturn :=
  if queue then
    if calloc then (some ⟨none, none, 0⟩, kIOReturnSuccess)
    else (none, kIOReturnNoMemory)
  else (none, kIOReturnBadArgument)

/-- `LPNUIOCommandQueueEnqueue`, which does not keep the command. -/
def lpnuIOCommandQueueEnqueue (_queue : Option LPNUIOCommandQueue) (_command : Option ℕ) :
    IOReturn :=
  kIOReturnSuccess

/-- `LPNUIOCommandQueueDequeue`. -/
def lpnuIOCommandQueueDequeue (_queue : Option LPNUIOCommandQueue) : Option ℕ := none

/-- `LPNUIOCommandQueueIsEmpty`. -/
def lpnuIOCommandQueueIsEmpty : Option LPNUIOCommandQueue → Bool
  | some queue => queue.count == 0
  | none => true

/-- `LPNUIOCommandQueueGetCount`. -/
def lpnuIOCommandQueueGetCount : Option LPNUIOCommandQueue → UInt32
  | some queue => queue.count
  | none => 0

namespace ReadBack

/-! ## The component -/

/-- An object, of one of the five types. -/
inductive Object
  | memoryDescriptor (desc : LPNUIOMemoryDescriptor)
  | deviceMemory (memory : LPNUIODeviceMemory)
  | bufferMemoryDescriptor (desc : LPNUIOBufferMemoryDescriptor)
  | conditionLock (lock : LPNUIOConditionLock)
  | commandQueue (queue : LPNUIOCommandQueue)

/-- A creation, of its arguments and of what each `calloc` finds. -/
inductive Creation
  | memoryDescriptor (desc : Bool) (address length : UInt64) (direction : UInt32) (calloc : Bool)
  | deviceMemory (memory : Bool) (base length : UInt64) (calloc : Bool)
  | bufferMemoryDescriptor (desc : Bool) (length : UInt64) (options : UInt32) (callocDesc : Bool)
    (callocBuffer : Option UInt64)
  | conditionLock (lock : Bool) (value : UInt32) (calloc : Bool)
  | commandQueue (queue : Bool) (workLoop : Option ℕ) (calloc : Bool)

/-- What a creation makes, and what it returns. -/
def Creation.made : Creation → Option Object × IOReturn
  | .memoryDescriptor desc address length direction calloc =>
    (lpnuIOMemoryDescriptorCreate desc address length direction calloc).map
      (Option.map .memoryDescriptor) id
  | .deviceMemory memory base length calloc =>
    (lpnuIODeviceMemoryCreate memory base length calloc).map (Option.map .deviceMemory) id
  | .bufferMemoryDescriptor desc length options callocDesc callocBuffer =>
    (lpnuIOBufferMemoryDescriptorCreate desc length options callocDesc callocBuffer).map
      (Option.map .bufferMemoryDescriptor) id
  | .conditionLock lock value calloc =>
    (lpnuIOConditionLockCreate lock value calloc).map (Option.map .conditionLock) id
  | .commandQueue queue workLoop calloc =>
    (lpnuIOCommandQueueCreate queue workLoop calloc).map (Option.map .commandQueue) id

/-- What a call gives back: its return value, the object it stores through
its out-parameter, and the word, the pointer or the answer it returns. -/
structure Out where
  ret : Option IOReturn := none
  object : Option ℕ := none
  word : Option UInt64 := none
  pointer : Option ℕ := none
  answer : Option Bool := none
  deriving DecidableEq

def Object.asMemoryDescriptor : Object → Option LPNUIOMemoryDescriptor
  | .memoryDescriptor desc => some desc
  | _ => none

def Object.asDeviceMemory : Object → Option LPNUIODeviceMemory
  | .deviceMemory memory => some memory
  | _ => none

def Object.asBufferMemoryDescriptor : Object → Option LPNUIOBufferMemoryDescriptor
  | .bufferMemoryDescriptor desc => some desc
  | _ => none

def Object.asConditionLock : Object → Option LPNUIOConditionLock
  | .conditionLock lock => some lock
  | _ => none

def Object.asCommandQueue : Object → Option LPNUIOCommandQueue
  | .commandQueue queue => some queue
  | _ => none

/-- The functions that take an object, and their other arguments. -/
inductive Use
  | memoryDescriptorGetAddress
  | memoryDescriptorGetLength
  | memoryDescriptorMap (map : Bool) (offset : UInt64)
  | deviceMemoryGetBase
  | deviceMemoryGetLength
  | deviceMemoryGetPhysicalAddress
  | bufferMemoryDescriptorGetBuffer
  | bufferMemoryDescriptorGetLength
  | conditionLockAcquire (timeout : UInt32)
  | conditionLockRelease (value : UInt32)
  | conditionLockTryAcquire (value : UInt32)
  | conditionLockGetValue
  | commandQueueEnqueue (command : Option ℕ)
  | commandQueueDequeue
  | commandQueueIsEmpty
  | commandQueueGetCount

/-- What they answer of an object, or of a null pointer. -/
def Use.answer (o : Option Object) : Use → Out
  | .memoryDescriptorGetAddress =>
    { word := some (lpnuIOMemoryDescriptorGetAddress (o.bind Object.asMemoryDescriptor)) }
  | .memoryDescriptorGetLength =>
    { word := some (lpnuIOMemoryDescriptorGetLength (o.bind Object.asMemoryDescriptor)) }
  | .memoryDescriptorMap map offset =>
    let r := lpnuIOMemoryDescriptorMap (o.bind Object.asMemoryDescriptor) map offset
    { ret := some r.2, word := r.1 }
  | .deviceMemoryGetBase =>
    { word := some (lpnuIODeviceMemoryGetBase (o.bind Object.asDeviceMemory)) }
  | .deviceMemoryGetLength =>
    { word := some (lpnuIODeviceMemoryGetLength (o.bind Object.asDeviceMemory)) }
  | .deviceMemoryGetPhysicalAddress =>
    { word := some (lpnuIODeviceMemoryGetPhysicalAddress (o.bind Object.asDeviceMemory)) }
  | .bufferMemoryDescriptorGetBuffer =>
    { word := some (lpnuIOBufferMemoryDescriptorGetBuffer
        (o.bind Object.asBufferMemoryDescriptor)) }
  | .bufferMemoryDescriptorGetLength =>
    { word := some (lpnuIOBufferMemoryDescriptorGetLength
        (o.bind Object.asBufferMemoryDescriptor)) }
  | .conditionLockAcquire timeout =>
    { ret := some (lpnuIOConditionLockAcquire (o.bind Object.asConditionLock) timeout) }
  | .conditionLockRelease value =>
    { ret := some (lpnuIOConditionLockRelease (o.bind Object.asConditionLock) value) }
  | .conditionLockTryAcquire value =>
    { answer := some (lpnuIOConditionLockTryAcquire (o.bind Object.asConditionLock) value) }
  | .conditionLockGetValue =>
    { word := some (lpnuIOConditionLockGetValue (o.bind Object.asConditionLock)).toUInt64 }
  | .commandQueueEnqueue command =>
    { ret := some (lpnuIOCommandQueueEnqueue (o.bind Object.asCommandQueue) command) }
  | .commandQueueDequeue =>
    { pointer := lpnuIOCommandQueueDequeue (o.bind Object.asCommandQueue) }
  | .commandQueueIsEmpty =>
    { answer := some (lpnuIOCommandQueueIsEmpty (o.bind Object.asCommandQueue)) }
  | .commandQueueGetCount =>
    { word := some (lpnuIOCommandQueueGetCount (o.bind Object.asCommandQueue)).toUInt64 }

/-- The destructions, for what they do to the objects. -/
def destroy (objects : Heap Object) (object : Option ℕ) : Heap Object :=
  object.elim objects objects.free

/-- `LPNUIOMemoryDescriptorDestroy`. -/
def lpnuIOMemoryDescriptorDestroy : Heap Object → Option ℕ → Heap Object := destroy

/-- `LPNUIODeviceMemoryDestroy`. -/
def lpnuIODeviceMemoryDestroy : Heap Object → Option ℕ → Heap Object := destroy

/-- `LPNUIOBufferMemoryDescriptorDestroy`, which frees the bytes too. -/
def lpnuIOBufferMemoryDescriptorDestroy : Heap Object → Option ℕ → Heap Object := destroy

/-- `LPNUIOConditionLockDestroy`. -/
def lpnuIOConditionLockDestroy : Heap Object → Option ℕ → Heap Object := destroy

/-- `LPNUIOCommandQueueDestroy`. -/
def lpnuIOCommandQueueDestroy : Heap Object → Option ℕ → Heap Object := destroy

/-- The five types. -/
inductive Kind
  | memoryDescriptor
  | deviceMemory
  | bufferMemoryDescriptor
  | conditionLock
  | commandQueue

/-- Their destructions. -/
def Kind.destroy : Kind → Heap Object → Option ℕ → Heap Object
  | .memoryDescriptor => lpnuIOMemoryDescriptorDestroy
  | .deviceMemory => lpnuIODeviceMemoryDestroy
  | .bufferMemoryDescriptor => lpnuIOBufferMemoryDescriptorDestroy
  | .conditionLock => lpnuIOConditionLockDestroy
  | .commandQueue => lpnuIOCommandQueueDestroy

/-- The calls. -/
inductive Call
  | create (creation : Creation)
  | use (use : Use) (object : Option ℕ)
  | destroy (kind : Kind) (object : Option ℕ)

/-- One call. -/
def step (objects : Heap Object) : Call → Heap Object × Out
  | .create creation =>
    match creation.made with
    | (some o, ret) => (objects.alloc o, { ret := some ret, object := some objects.fresh })
    | (none, ret) => (objects, { ret := some ret })
  | .use use object => (objects, use.answer (object.bind objects.cells))
  | .destroy kind object => (kind.destroy objects object, {})

/-- A recorded call. -/
abbrev Made := Entry (Heap Object) Call Out

/-- The creation of an object, and what it puts there. -/
def Creates (e : Made) (a : ℕ) (creation : Creation) (o : Object) : Prop :=
  e.call = .create creation ∧ creation.made.1 = some o ∧ e.out.object = some a

/-- A call that makes an object. -/
def Makes (e : Made) (a : ℕ) (o : Object) : Prop := ∃ creation, Creates e a creation o

/-- **What a use is to answer**, by the arguments its object was created
with: a descriptor its address and its length, and mapped the address so
many bytes on; device memory its base, also as the physical address, and
its length; a buffer descriptor the bytes its creation found and their
length; a condition lock the value it was created with, and success to
whoever acquires or releases it; a command queue that it is empty, and
success to whoever enqueues. A use of an object of another type is no call
the types allow. -/
def expected : Creation → Use → Option Out
  | .memoryDescriptor _ address _ _ _, .memoryDescriptorGetAddress =>
    some { word := some address }
  | .memoryDescriptor _ _ length _ _, .memoryDescriptorGetLength => some { word := some length }
  | .memoryDescriptor _ address _ _ _, .memoryDescriptorMap true offset =>
    some { ret := some kIOReturnSuccess, word := some (address + offset) }
  | .memoryDescriptor _ _ _ _ _, .memoryDescriptorMap false _ =>
    some { ret := some kIOReturnBadArgument }
  | .deviceMemory _ base _ _, .deviceMemoryGetBase => some { word := some base }
  | .deviceMemory _ _ length _, .deviceMemoryGetLength => some { word := some length }
  | .deviceMemory _ base _ _, .deviceMemoryGetPhysicalAddress => some { word := some base }
  | .bufferMemoryDescriptor _ _ _ _ (some buffer), .bufferMemoryDescriptorGetBuffer =>
    some { word := some buffer }
  | .bufferMemoryDescriptor _ length _ _ _, .bufferMemoryDescriptorGetLength =>
    some { word := some length }
  | .conditionLock _ _ _, .conditionLockAcquire _ => some { ret := some kIOReturnSuccess }
  | .conditionLock _ _ _, .conditionLockRelease _ => some { ret := some kIOReturnSuccess }
  | .conditionLock _ _ _, .conditionLockTryAcquire _ => some { answer := some true }
  | .conditionLock _ value _, .conditionLockGetValue => some { word := some value.toUInt64 }
  | .commandQueue _ _ _, .commandQueueEnqueue _ => some { ret := some kIOReturnSuccess }
  | .commandQueue _ _ _, .commandQueueDequeue => some { pointer := none }
  | .commandQueue _ _ _, .commandQueueIsEmpty => some { answer := some true }
  | .commandQueue _ _ _, .commandQueueGetCount => some { word := some 0 }
  | _, _ => none

/-- **A use is answered from the creation of its object**: a live object
was created by a call before it, and the answer is the one expected of
what that call was given. -/
def AnsweredFromCreation (c : Recorded (Heap Object) Call Out) (call : Call) : Prop :=
  ∀ use a, call = .use use (some a) → c.now.IsLive a →
    (∃ m ∈ c.past, ∃ o, Makes m a o) ∧
      ∀ m ∈ c.past, ∀ creation o, Creates m a creation o →
        ∀ out, expected creation use = some out → (step c.now call).2 = out

/-- **An object that was made and is there is as it was made.** -/
def KeptAsMade (c : Recorded (Heap Object) Call Out) : Prop :=
  ∀ m ∈ c.past, ∀ a o, Makes m a o →
    a < c.now.fresh ∧ (c.now.IsLive a → c.now.cells a = some o)

variable {c : Recorded (Heap Object) Call Out} {a : ℕ} {o : Object}

/-- **What was created answers as it is expected to.** -/
theorem answer_of_made {creation : Creation} {use : Use} {out : Out}
    (hmade : creation.made.1 = some o) (hout : expected creation use = some out) :
    use.answer (some o) = out := by
  cases creation with
  | memoryDescriptor desc address length direction calloc =>
    cases desc <;> cases calloc <;> cases hmade
    cases use with
    | memoryDescriptorMap map offset => cases map <;> cases hout <;> rfl
    | _ => cases hout <;> rfl
  | deviceMemory memory base length calloc =>
    cases memory <;> cases calloc <;> cases hmade
    cases use <;> cases hout <;> rfl
  | bufferMemoryDescriptor desc length options callocDesc callocBuffer =>
    cases desc <;> cases callocDesc <;> cases callocBuffer <;> cases hmade
    cases use <;> cases hout <;> rfl
  | conditionLock lock value calloc =>
    cases lock <;> cases calloc <;> cases hmade
    cases use <;> cases hout <;> rfl
  | commandQueue queue workLoop calloc =>
    cases queue <;> cases calloc <;> cases hmade
    cases use <;> cases hout <;> rfl

/-- No use hands an object out. -/
theorem object_answer (use : Use) (o : Option Object) : (use.answer o).object = none := by
  cases use <;> rfl

/-- **What a call can do**: it makes an object, or hands none out and
destroys one or none. -/
theorem step_cases (objects : Heap Object) (call : Call) :
    (∃ creation o, call = .create creation ∧ creation.made.1 = some o ∧
      (step objects call).1 = objects.alloc o ∧
        (step objects call).2.object = some objects.fresh) ∨
    (step objects call).2.object = none ∧
      ((step objects call).1 = objects ∨ ∃ a, (step objects call).1 = objects.free a) := by
  cases call with
  | create creation =>
    rcases hmade : creation.made with ⟨_ | o, ret⟩
    · right
      simp only [step, hmade, true_and]
      exact Or.inl trivial
    · left
      refine ⟨creation, o, rfl, by rw [hmade], ?_, ?_⟩
      · simp only [step, hmade]
      · simp only [step, hmade]
  | use use object => exact Or.inr ⟨object_answer use _, Or.inl rfl⟩
  | destroy kind object =>
    have hdestroy : (step objects (.destroy kind object)).1 = destroy objects object := by
      cases kind <;> rfl
    refine Or.inr ⟨rfl, ?_⟩
    rw [hdestroy]
    cases object with
    | none => exact Or.inl rfl
    | some a => exact Or.inr ⟨a, rfl⟩

theorem cells_of_free {objects : Heap Object} {b : ℕ} (h : (objects.free b).cells a = some o) :
    objects.cells a = some o := by
  rw [Heap.cells_free] at h
  split at h
  · cases h
  · exact h

/-- An object was there before a call or is made by it. -/
theorem makes_step (objects : Heap Object) (call : Call) (a : ℕ) (o : Object)
    (h : (step objects call).1.cells a = some o) :
    objects.cells a = some o ∨ Makes ⟨objects, call, (step objects call).2⟩ a o := by
  rcases step_cases objects call with ⟨creation, made, rfl, hmade, heap, hobject⟩ | ⟨-, heap⟩
  · rw [heap, Heap.cells_alloc] at h
    split at h
    · rename_i ha
      obtain rfl := Option.some.inj h
      exact Or.inr ⟨creation, rfl, hmade, hobject.trans (by rw [ha])⟩
    · exact Or.inl h
  · rcases heap with heap | ⟨b, heap⟩
    · exact Or.inl (heap ▸ h)
    · exact Or.inl (cells_of_free (heap ▸ h))

/-- **One call leaves what was made as it was made.** -/
theorem keptAsMade_step (h : KeptAsMade c) (call : Call) :
    KeptAsMade (record step c call).1 := by
  rcases step_cases c.now call with ⟨creation, made, rfl, hmade, heap, hobject⟩ | ⟨hnone, heap⟩
  · intro m hm a o hmakes
    rw [record_now, heap]
    rcases List.mem_cons.1 hm with rfl | hm
    · -- the call itself made it
      obtain ⟨creation', hcall, hmade', hobject'⟩ := hmakes
      obtain rfl := Call.create.inj hcall
      obtain rfl := Option.some.inj (hobject.symm.trans hobject')
      obtain rfl := Option.some.inj (hmade.symm.trans hmade')
      exact ⟨Nat.lt_succ_self _, fun _ => by rw [Heap.cells_alloc, if_pos rfl]⟩
    · obtain ⟨hlt, hcells⟩ := h m hm a o hmakes
      refine ⟨Nat.lt_succ_of_lt hlt, fun hlive => ?_⟩
      have hne : a ≠ c.now.fresh := by omega
      rw [Heap.cells_alloc, if_neg hne]
      exact hcells ((Heap.isLive_alloc.1 hlive).resolve_left hne)
  · intro m hm a o hmakes
    rcases List.mem_cons.1 hm with rfl | hm
    · -- it made none
      obtain ⟨creation, -, -, hobject⟩ := hmakes
      rw [hnone] at hobject
      cases hobject
    · obtain ⟨hlt, hcells⟩ := h m hm a o hmakes
      rw [record_now]
      rcases heap with heap | ⟨b, heap⟩
      · rw [heap]
        exact ⟨hlt, hcells⟩
      · rw [heap]
        refine ⟨hlt, fun hlive => ?_⟩
        obtain ⟨hne, hlive⟩ := Heap.isLive_free.1 hlive
        rw [Heap.cells_free, if_neg hne]
        exact hcells hlive

theorem keptAsMade_after (run : List Call) :
    KeptAsMade (after (record step) ⟨Heap.empty, []⟩ run) := by
  have hstep : ∀ (c : Recorded (Heap Object) Call Out) (call : Call), KeptAsMade c →
      KeptAsMade (record step c call).1 := fun c call h => keptAsMade_step h call
  exact after_of_inv hstep (fun m hm => absurd hm List.not_mem_nil) run

/-- **In every run, whatever is asked of a live object is answered by what
it was created with**: no call on it or on another, whatever it returned,
shows in an answer. -/
theorem answeredFromCreation_run (run : List Call) :
    EachStep (record step) ⟨Heap.empty, []⟩ AnsweredFromCreation run := by
  refine eachStep_iff_prefixes.2 fun pre call _ => ?_
  have hnone : ∀ a, ¬ (Heap.empty : Heap Object).IsLive a := fun _ => Heap.not_isLive_empty
  have hmade : FromCalls id Makes (after (record step) ⟨Heap.empty, []⟩ pre) :=
    fromCalls_after makes_step hnone pre
  have hkept := keptAsMade_after pre
  rintro use a rfl hlive
  obtain ⟨o, ho⟩ := Heap.isLive_iff.1 hlive
  obtain ⟨m, hm, hmakes⟩ := hmade a o ho
  refine ⟨⟨m, hm, o, hmakes⟩, fun m' hm' creation o' hcreates out hout => ?_⟩
  have hcells := (hkept m' hm' a o' ⟨creation, hcreates⟩).2 hlive
  show use.answer ((after (record step) ⟨Heap.empty, []⟩ pre).now.cells a) = out
  rw [hcells]
  exact answer_of_made hcreates.2.1 hout

/-- A condition lock released with another value than it was created
with. -/
example : outputs step Heap.empty
    [.create (.conditionLock true 3 true), .use (.conditionLockRelease 5) (some 0),
      .use .conditionLockGetValue (some 0)] =
    [{ ret := some kIOReturnSuccess, object := some 0 }, { ret := some kIOReturnSuccess },
      { word := some 3 }] := rfl

end ReadBack

end IOKit

end Lpnu
