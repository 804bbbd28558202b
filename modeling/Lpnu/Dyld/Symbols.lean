import Lpnu.Common.Accounts
import Lpnu.Common.Provenance
import Lpnu.Dyld.Model
/-!
# dyld — handles, symbols and what an image reads as

An image owns the handle `dlopen` gave its load until its unload closes
it, and `LPNUdyld_get_symbol` looks a name up in that handle. Over every
run on live images the host's handles are accounted for to the last one
(`handlesSettled_throughout`): none is closed twice, none is looked into
when it is closed, and the opens still to be closed are the live images.
What an image reads as is what its load put there (`asLoaded_after`).
-/

namespace Lpnu

namespace Dyld

open Accounts Run

/-- `LPNUImageStateNotLoaded`. -/
def lpnuImageStateNotLoaded : Int32 := 0

variable (heap : Heap LPNUImageInfo)

/-- `LPNUdyld_image_base`. -/
def lpnuDyldImageBase (image : Option ℕ) : UInt64 :=
  match image.bind heap.cells with
  | some info => info.base
  | none => 0

/-- `LPNUdyld_image_name`: the array, or null. -/
def lpnuDyldImageName (image : Option ℕ) : Option (CharArray 256) :=
  match image.bind heap.cells with
  | some info => some info.name
  | none => none

/-- `LPNUdyld_image_state`. -/
def lpnuDyldImageState (image : Option ℕ) : Int32 :=
  match image.bind heap.cells with
  | some info => info.state
  | none => lpnuImageStateNotLoaded

/-- A call of the host's loader: one with an effect on a handle, or the
lookup of a symbol in the module of a handle or, without one, in them
all. -/
inductive HostCall
  | event (e : Event)
  | dlsym (handle : Option ℕ) (name : CString)

/-- `LPNUdyld_get_symbol`, with what `dlsym` finds. -/
def lpnuDyldGetSymbol (image : Option ℕ) (name : Option CString) (dlsym : Option ℕ) :
    Option ℕ × List HostCall :=
  match image, name with
  | some a, some name =>
    match (heap.cells a).bind LPNUImageInfo.handle with
    | none => (none, [])
    | some handle => (dlsym, [.dlsym (some handle) name])
  | _, _ => (none, [])

/-- `LPNUdyld_get_symbol_all`, by `RTLD_DEFAULT`. -/
def lpnuDyldGetSymbolAll (name : Option CString) (dlsym : Option ℕ) :
    Option ℕ × List HostCall :=
  match name with
  | none => (none, [])
  | some name => (dlsym, [.dlsym none name])

/-! ## The component with its lookups -/

/-- The calls on images, the registry and symbols. -/
inductive SymbolCall
  | base (call : Call)
  | getSymbol (image : Option ℕ) (name : Option CString) (dlsym : Option ℕ)
  | getSymbolAll (name : Option CString) (dlsym : Option ℕ)

/-- What a call gives back, and the calls it makes on the host. -/
structure Answer where
  out : Out := {}
  symbol : Option ℕ := none
  calls : List HostCall := []

/-- One call. -/
def symbolStep (s : State) : SymbolCall → State × Answer
  | .base call =>
    let r := step s call
    (r.1, { out := r.2, calls := r.2.events.map .event })
  | .getSymbol image name dlsym =>
    let r := lpnuDyldGetSymbol s.heap image name dlsym
    (s, { symbol := r.1, calls := r.2 })
  | .getSymbolAll name dlsym =>
    let r := lpnuDyldGetSymbolAll name dlsym
    (s, { symbol := r.1, calls := r.2 })

/-- A call under the protocol: an image that is unloaded or looked into is
live. -/
def OnLive (s : State) : SymbolCall → Prop
  | .base (.unload image) => ∀ a, image = some a → s.heap.IsLive a
  | .getSymbol image _ _ => ∀ a, image = some a → s.heap.IsLive a
  | _ => True

/-- What a call on the host does to a handle. -/
def effect : HostCall → Effect ℕ
  | .event (.dlopen handle) => .acquire handle
  | .event (.dlclose handle) => .release handle
  | .dlsym (some handle) _ => .use handle
  | .dlsym none _ => .other

/-- The handle of an image. -/
def handleOf (a : ℕ) : Option ℕ := (heap.cells a).bind LPNUImageInfo.handle

/-- The calls a run has made on the host. -/
def hostCalls (c : Recorded State SymbolCall Answer) : List HostCall :=
  c.outs.flatMap Answer.calls

/-- The beginning of a recorded run. -/
def symbolStart : Recorded State SymbolCall Answer := ⟨State.init, []⟩

/-- **The host's handles are settled with the live images.** -/
def HandlesSettled (c : Recorded State SymbolCall Answer) : Prop :=
  Settled effect (hostCalls c) c.now.heap.liveBlocks (handleOf c.now.heap)

variable {heap} {c : Recorded State SymbolCall Answer} {s : State} {a : ℕ}

@[simp] theorem hostCalls_record {call : SymbolCall} :
    hostCalls (record symbolStep c call).1 = hostCalls c ++ (symbolStep c.now call).2.calls := by
  simp [hostCalls]

/-- **The ways of a load**: it gets no handle, it gives the one it got back
for want of memory, or it makes an image of it. -/
theorem lpnuDyldLoad_cases (heap : Heap LPNUImageInfo) (path : Option CString) (image : Bool)
    (env : LoadEnv) :
    (∃ ret, lpnuDyldLoad heap path image env = (heap, { ret := some ret })) ∨
      (∃ handle, lpnuDyldLoad heap path image env =
        (heap, { ret := some (-3), events := [.dlopen handle, .dlclose handle] })) ∨
      ∃ p handle, path = some p ∧ image = true ∧ env.dlopen = some handle ∧
        lpnuDyldLoad heap path image env = (heap.alloc (loadedImage p handle),
          { ret := some 0, image := some heap.fresh, events := [.dlopen handle] }) := by
  rcases path with _ | p
  · exact Or.inl ⟨-1, rfl⟩
  rcases image with _ | _
  · exact Or.inl ⟨-1, rfl⟩
  rcases hopen : env.dlopen with _ | handle
  · exact Or.inl ⟨-2, by simp [lpnuDyldLoad, hopen]⟩
  rcases hmem : env.calloc with _ | _
  · exact Or.inr (Or.inl ⟨handle, by simp [lpnuDyldLoad, hopen, hmem]⟩)
  · exact Or.inr (Or.inr ⟨p, handle, rfl, rfl, rfl, by simp [lpnuDyldLoad, hopen, hmem]⟩)

/-- **An unload** frees the image and closes its handle, if it has one. -/
theorem lpnuDyldUnload_eq (heap : Heap LPNUImageInfo) (a : ℕ) :
    lpnuDyldUnload heap (some a) =
      (heap.free a, { events := ((handleOf heap a).map .dlclose).toList }) := by
  cases h : (heap.cells a).bind LPNUImageInfo.handle <;> simp [lpnuDyldUnload, handleOf, h]

theorem handleOf_alloc_fresh {info : LPNUImageInfo} :
    handleOf (heap.alloc info) heap.fresh = info.handle := by
  rw [handleOf, Heap.cells_alloc, if_pos rfl]
  rfl

theorem handleOf_alloc_of_live {info : LPNUImageInfo} (ha : heap.IsLive a) :
    handleOf (heap.alloc info) a = handleOf heap a := by
  rw [handleOf, Heap.cells_alloc, if_neg (Nat.ne_of_lt ha.lt_fresh), handleOf]

theorem handleOf_free_of_ne {b : ℕ} (hb : b ≠ a) :
    handleOf (heap.free a) b = handleOf heap b := by
  rw [handleOf, Heap.cells_free, if_neg hb, handleOf]

/-- Adding and removing images calls nothing on the host. -/
theorem events_registryStep (images : Table ℕ) (call : RegistryCall) :
    (registryStep images call).2.events = [] := by
  rcases call with (_ | a) | (_ | a)
  · rfl
  · show (lpnuDyldAddImage images (some a)).2.events = []
    simp only [lpnuDyldAddImage]
    split <;> rfl
  · rfl
  · rfl

/-! ## The accounts of one call -/

/-- A call that makes none on the host, and leaves the images. -/
theorem HandlesSettled.of_eq (h : HandlesSettled c) {call : SymbolCall}
    (hcalls : (symbolStep c.now call).2.calls = [])
    (hheap : (symbolStep c.now call).1.heap = c.now.heap) :
    HandlesSettled (record symbolStep c call).1 := by
  rw [HandlesSettled, hostCalls_record, record_now, hcalls, hheap, List.append_nil]
  exact h

theorem HandlesSettled.load (h : HandlesSettled c) (path : Option CString) (image : Bool)
    (env : LoadEnv) :
    HandlesSettled (record symbolStep c (.base (.load path image env))).1 := by
  rcases lpnuDyldLoad_cases c.now.heap path image env with
    ⟨ret, heq⟩ | ⟨handle, heq⟩ | ⟨p, handle, -, -, -, heq⟩
  · exact h.of_eq (by simp [symbolStep, step, heq]) (by simp [symbolStep, step, heq])
  · have hborrow : Settled effect
        (hostCalls c ++ [.event (.dlopen handle)] ++ [] ++ [.event (.dlclose handle)])
        c.now.heap.liveBlocks (handleOf c.now.heap) :=
      Settled.borrow h rfl (fun _ he => absurd he List.not_mem_nil) rfl
    rw [HandlesSettled, hostCalls_record, record_now]
    simp only [symbolStep, step, heq]
    simpa using hborrow
  · rw [HandlesSettled, hostCalls_record, record_now]
    simp only [symbolStep, step, heq, Heap.liveBlocks_alloc]
    refine Settled.acquire h rfl Heap.fresh_notMem_liveBlocks handleOf_alloc_fresh fun x hx => ?_
    exact handleOf_alloc_of_live (Heap.mem_liveBlocks.1 hx)

theorem HandlesSettled.unload (h : HandlesSettled c) (ha : c.now.heap.IsLive a) :
    HandlesSettled (record symbolStep c (.base (.unload (some a)))).1 := by
  have hmem : a ∈ c.now.heap.liveBlocks := Heap.mem_liveBlocks.2 ha
  have hothers : ∀ x ∈ c.now.heap.liveBlocks.erase a,
      handleOf (c.now.heap.free a) x = handleOf c.now.heap x :=
    fun x hx => handleOf_free_of_ne (Finset.ne_of_mem_erase hx)
  rw [HandlesSettled, hostCalls_record, record_now]
  simp only [symbolStep, step, lpnuDyldUnload_eq, Heap.liveBlocks_free]
  rcases hhandle : handleOf c.now.heap a with _ | handle
  · have hdrop := (Settled.drop h hmem hhandle).congr hothers
    simpa using hdrop
  · exact (Settled.release h rfl hmem hhandle).congr hothers

theorem HandlesSettled.getSymbol (h : HandlesSettled c) {image : Option ℕ}
    (hlive : ∀ a, image = some a → c.now.heap.IsLive a) (name : Option CString)
    (dlsym : Option ℕ) :
    HandlesSettled (record symbolStep c (.getSymbol image name dlsym)).1 := by
  rcases image with _ | a
  · exact h.of_eq rfl rfl
  rcases name with _ | name
  · exact h.of_eq rfl rfl
  rcases hhandle : (c.now.heap.cells a).bind LPNUImageInfo.handle with _ | handle
  · exact h.of_eq (by simp [symbolStep, lpnuDyldGetSymbol, hhandle]) rfl
  · rw [HandlesSettled, hostCalls_record]
    simp only [symbolStep, lpnuDyldGetSymbol, hhandle]
    exact Settled.use h rfl (Heap.mem_liveBlocks.2 (hlive a rfl)) hhandle

/-- **One call on live images keeps the handles settled.** -/
theorem handlesSettled_step (h : HandlesSettled c) (call : SymbolCall)
    (hlive : OnLive c.now call) : HandlesSettled (record symbolStep c call).1 := by
  cases call with
  | base call =>
    cases call with
    | load path image env => exact h.load path image env
    | unload image =>
      cases image with
      | none => exact h.of_eq rfl rfl
      | some a => exact h.unload (hlive a rfl)
    | registry call => exact h.of_eq (by simp [symbolStep, step, events_registryStep]) rfl
  | getSymbol image name dlsym => exact h.getSymbol hlive name dlsym
  | getSymbolAll name dlsym =>
    cases name with
    | none => exact h.of_eq rfl rfl
    | some name =>
      have hothers : ∀ e ∈ [HostCall.dlsym none name], effect e = .other := by
        intro e he
        rw [List.mem_singleton.1 he]
        rfl
      rw [HandlesSettled, hostCalls_record]
      exact Settled.append_others h hothers

/-- **Every run on live images settles the host's handles with them**: in
no prefix is a handle closed more often than opened, every lookup in an
image is made in an open one, and a handle has as many opens left as there
are live images of it. What `LPNUdyld_get_symbol_all` looks into is
`RTLD_DEFAULT`, which is no handle. -/
theorem handlesSettled_throughout {run : List SymbolCall}
    (hlive : EachStep symbolStep State.init OnLive run) :
    Throughout (record symbolStep) symbolStart HandlesSettled run := by
  have hlive' : EachStep (record symbolStep) symbolStart (fun c => OnLive c.now) run :=
    eachStep_record.2 hlive
  exact throughout_of_inv (fun c call h hl => handlesSettled_step h call hl) settled_nil hlive'

/-- An image loaded, looked into and unloaded. -/
def lookupRun : List SymbolCall :=
  [.base (.load (some CString.a) true ⟨some 1, true⟩),
    .getSymbol (some 0) (some CString.a) (some 7), .base (.unload (some 0))]

theorem handlesSettled_lookupRun :
    Throughout (record symbolStep) symbolStart HandlesSettled lookupRun := by
  refine handlesSettled_throughout ⟨trivial, ?_, ?_, trivial⟩ <;>
    · rintro a ⟨⟩; decide

/-! ## What an image reads as -/

/-- **An image reads as the load of a path that got a handle.** -/
structure ReadsAs (heap : Heap LPNUImageInfo) (a : ℕ) (path : CString) (handle : ℕ) : Prop where
  base : lpnuDyldImageBase heap (some a) = UInt64.ofNat handle
  name : (lpnuDyldImageName heap (some a)).map CharArray.str = some (path.bytes.take 255)
  state : lpnuDyldImageState heap (some a) = lpnuImageStateReady
  symbol : ∀ name dlsym, lpnuDyldGetSymbol heap (some a) (some name) dlsym =
    (dlsym, [.dlsym (some handle) name])

/-- A load that gave image `a` of a path and a handle. -/
def Loads (a : ℕ) (path : CString) (handle : ℕ) (e : Entry State SymbolCall Answer) : Prop :=
  ∃ env, e.call = .base (.load (some path) true env) ∧ env.dlopen = some handle ∧
    e.out.out.ret = some 0 ∧ e.out.out.image = some a

/-- **Every live image reads as a load of the run left it.** -/
def AsLoaded (c : Recorded State SymbolCall Answer) : Prop :=
  ∀ a, c.now.heap.IsLive a →
    ∃ e ∈ c.past, ∃ path handle, Loads a path handle e ∧ ReadsAs c.now.heap a path handle

/-- What a load leaves in an image reads so. -/
theorem readsAs_of_cells {path : CString} {handle : ℕ}
    (h : heap.cells a = some (loadedImage path handle)) : ReadsAs heap a path handle := by
  refine ⟨?_, ?_, ?_, fun name dlsym => ?_⟩
  · simp [lpnuDyldImageBase, h, loadedImage]
  · simp only [lpnuDyldImageName, Option.bind_some, h, Option.map_some]
    exact congrArg some (CharArray.str_zero_strncpy path (by omega))
  · simp [lpnuDyldImageState, h, loadedImage]
  · simp [lpnuDyldGetSymbol, h, loadedImage]

/-- A call leaves an image as it is or is the load that made it. -/
theorem cells_symbolStep (s : State) (call : SymbolCall) (a : ℕ) (info : LPNUImageInfo)
    (hinfo : (symbolStep s call).1.heap.cells a = some info) :
    s.heap.cells a = some info ∨ ∃ path handle,
      Loads a path handle ⟨s, call, (symbolStep s call).2⟩ ∧ info = loadedImage path handle := by
  cases call with
  | base call =>
    cases call with
    | load path image env =>
      rcases lpnuDyldLoad_cases s.heap path image env with
        ⟨ret, heq⟩ | ⟨handle, heq⟩ | ⟨p, handle, rfl, rfl, hopen, heq⟩
      · exact Or.inl (by simpa [symbolStep, step, heq] using hinfo)
      · exact Or.inl (by simpa [symbolStep, step, heq] using hinfo)
      · rw [symbolStep, step] at hinfo
        simp only [heq, Heap.cells_alloc] at hinfo
        split at hinfo
        · rename_i ha
          refine Or.inr ⟨p, handle, ⟨env, rfl, hopen, ?_, ?_⟩, (Option.some.inj hinfo).symm⟩
          · simp [symbolStep, step, heq]
          · simp [symbolStep, step, heq, ha]
        · exact Or.inl hinfo
    | unload image =>
      cases image with
      | none => exact Or.inl hinfo
      | some b =>
        rw [symbolStep, step] at hinfo
        simp only [lpnuDyldUnload_eq, Heap.cells_free] at hinfo
        split at hinfo
        · cases hinfo
        · exact Or.inl hinfo
    | registry call => exact Or.inl hinfo
  | getSymbol image name dlsym => exact Or.inl hinfo
  | getSymbolAll name dlsym => exact Or.inl hinfo

/-- **After every run, an image that is live reads as its load left it**:
the base is its handle, the name the first 255 bytes of its path, the
state ready, and symbols are looked up in its handle. -/
theorem asLoaded_after (run : List SymbolCall) :
    AsLoaded (after (record symbolStep) symbolStart run) := by
  have hnone : ∀ a, ¬ State.init.heap.IsLive a := fun _ => Heap.not_isLive_empty
  have hleft : Provenance.FromCalls State.heap (fun e a info => ∃ path handle,
      Loads a path handle e ∧ info = loadedImage path handle)
      (after (record symbolStep) symbolStart run) :=
    Provenance.fromCalls_after cells_symbolStep hnone run
  intro a ha
  obtain ⟨info, hinfo⟩ := Heap.isLive_iff.1 ha
  obtain ⟨e, he, path, handle, hload, rfl⟩ := hleft a info hinfo
  exact ⟨e, he, path, handle, hload, readsAs_of_cells hinfo⟩

end Dyld

end Lpnu
