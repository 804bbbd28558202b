import Lpnu.Common.Projection
import Lpnu.Common.Provenance
import Lpnu.IOKit.Service.Links
/-!
# IOService — the whole component

The calls on services beside those on the tree, the list and the lifetime:
`Start` and `Stop` set and clear a bit of the state, the provider is set,
cleared and read, `Probe` and `Match` do nothing, and `Matching` is
`Create`. None of them shows in the tree (`treeUnaffected_after`), and what
a service's state and provider are is told by the last calls that set them
(`asSet_after`).
-/

namespace Lpnu

namespace IOKit

open IOReturn Run Provenance

/-- `kIOService20State`. -/
def kIOService20State : UInt32 := 0x20

variable (services : Heap LPNUIOService)

/-- `LPNUIOServiceStart`. -/
def lpnuIOServiceStart (service : Option ℕ) : Heap LPNUIOService × IOReturn :=
  match service with
  | none => (services, kIOReturnBadArgument)
  | some a =>
    (services.modify a fun svc => { svc with state := svc.state ||| kIOService20State },
      kIOReturnSuccess)

/-- `LPNUIOServiceStop`. -/
def lpnuIOServiceStop (service : Option ℕ) : Heap LPNUIOService × IOReturn :=
  match service with
  | none => (services, kIOReturnBadArgument)
  | some a =>
    (services.modify a fun svc => { svc with state := svc.state &&& ~~~kIOService20State },
      kIOReturnSuccess)

/-- `LPNUIOServiceProbe`, which reads neither of its arguments. -/
def lpnuIOServiceProbe (_service _probeScore : Option ℕ) : IOReturn := kIOReturnSuccess

/-- `LPNUIOServiceMatch`. -/
def lpnuIOServiceMatch (_service : Option ℕ) : IOReturn := kIOReturnSuccess

/-- `LPNUIOServiceGetProvider`. -/
def lpnuIOServiceGetProvider (service : Option ℕ) : Option ℕ :=
  service.bind (follow services LPNUIOService.provider)

/-- `LPNUIOServiceAddProvider`. -/
def lpnuIOServiceAddProvider (service provider : Option ℕ) : Heap LPNUIOService × IOReturn :=
  match service with
  | none => (services, kIOReturnBadArgument)
  | some a => (services.modify a fun svc => { svc with provider := provider }, kIOReturnSuccess)

/-- `LPNUIOServiceRemoveProvider`. Which provider is to be removed is not
looked at. -/
def lpnuIOServiceRemoveProvider (service _provider : Option ℕ) :
    Heap LPNUIOService × IOReturn :=
  match service with
  | none => (services, kIOReturnBadArgument)
  | some a => (services.modify a fun svc => { svc with provider := none }, kIOReturnSuccess)

/-- `LPNUIOServiceMatching`. -/
def lpnuIOServiceMatching (service : Bool) (name : Option CString) (calloc : Bool) :
    Heap LPNUIOService × Service.Out :=
  lpnuIOServiceCreate services service name calloc

namespace Service

/-! ## The component -/

/-- What a call gives back, a provider among it. -/
structure AnyOut extends Out where
  provider : Option ℕ := none

/-- The calls on services, without those that read and write none:
`GetMatchingService(s)`, `AddMatchingDictionary`, `GetPropertyTable` and
the parent and child iterators, which answer that there is nothing. -/
inductive AnyCall
  | bare (call : Call)
  | matching (service : Bool) (name : Option CString) (calloc : Bool)
  | start (service : Option ℕ)
  | stop (service : Option ℕ)
  | probe (service probeScore : Option ℕ)
  | matchService (service : Option ℕ)
  | addProvider (service provider : Option ℕ)
  | removeProvider (service provider : Option ℕ)
  | getProvider (service : Option ℕ)

/-- One call. -/
def anyStep (s : State) : AnyCall → State × AnyOut
  | .bare call => ((step s call).1, { toOut := (step s call).2 })
  | .matching service name calloc =>
    let r := lpnuIOServiceMatching s.services service name calloc
    ({ s with services := r.1 }, { toOut := r.2 })
  | .start service =>
    let r := lpnuIOServiceStart s.services service
    ({ s with services := r.1 }, { ret := some r.2 })
  | .stop service =>
    let r := lpnuIOServiceStop s.services service
    ({ s with services := r.1 }, { ret := some r.2 })
  | .probe service probeScore => (s, { ret := some (lpnuIOServiceProbe service probeScore) })
  | .matchService service => (s, { ret := some (lpnuIOServiceMatch service) })
  | .addProvider service provider =>
    let r := lpnuIOServiceAddProvider s.services service provider
    ({ s with services := r.1 }, { ret := some r.2 })
  | .removeProvider service provider =>
    let r := lpnuIOServiceRemoveProvider s.services service provider
    ({ s with services := r.1 }, { ret := some r.2 })
  | .getProvider service => (s, { provider := lpnuIOServiceGetProvider s.services service })

/-! ## The tree alone -/

/-- A service, its state and provider as it was created with. -/
def bareService (svc : LPNUIOService) : LPNUIOService :=
  { svc with state := kIOServiceReady, provider := none }

/-- The state of the component, of each service all but its state and
provider. -/
def bareState (s : State) : State := { s with services := s.services.map bareService }

/-- The call on the tree, the list or the lifetime that a call is. -/
def bareCall : AnyCall → Option Call
  | .bare call => some call
  | .matching service name calloc => some (.tree (.create service name calloc))
  | _ => none

/-- **The other calls of a run do not show in the tree**: the links, the
counts, the live services and the global list are at every moment what the
rest of the run makes them, whatever is said of them, and the rest of the
run is answered alike. -/
structure TreeUnaffected (run : List AnyCall) : Prop where
  ends : bareState (after anyStep State.init run) =
    after step State.init (run.filterMap bareCall)
  throughout : ∀ P : State → Prop, Throughout anyStep State.init (fun s => P (bareState s)) run ↔
    Throughout step State.init P (run.filterMap bareCall)
  answers : answered anyStep bareCall AnyOut.toOut State.init run =
    outputs step State.init (run.filterMap bareCall)

variable {services} {s : State} {service : Option ℕ}

@[simp] theorem follow_child_map {a : ℕ} :
    follow (services.map bareService) LPNUIOService.child a =
      follow services LPNUIOService.child a := by
  unfold follow
  rw [Heap.cells_map, Option.bind_map]
  rfl

section Assignments

variable {a : ℕ} {q : Option ℕ}

theorem map_setParent : (setParent services a q).map bareService =
    setParent (services.map bareService) a q :=
  Heap.map_modify fun _ => rfl

theorem map_setSibling : (setSibling services a q).map bareService =
    setSibling (services.map bareService) a q :=
  Heap.map_modify fun _ => rfl

theorem map_setChild : (setChild services a q).map bareService =
    setChild (services.map bareService) a q :=
  Heap.map_modify fun _ => rfl

end Assignments

/-- **The calls on the tree** do not read the state or the provider of a
service. -/
theorem bare_treeStep (services : Heap LPNUIOService) (call : TreeCall) :
    (treeStep services call).1.map bareService = (treeStep (services.map bareService) call).1 ∧
      (treeStep services call).2 = (treeStep (services.map bareService) call).2 := by
  cases call with
  | create service name calloc =>
    cases service <;> cases calloc
    · exact ⟨rfl, rfl⟩
    · exact ⟨rfl, rfl⟩
    · exact ⟨rfl, rfl⟩
    · exact ⟨Heap.map_alloc, rfl⟩
  | addChild parent child =>
    rcases parent with _ | p <;> rcases child with _ | c
    · exact ⟨rfl, rfl⟩
    · exact ⟨rfl, rfl⟩
    · exact ⟨rfl, rfl⟩
    · refine ⟨?_, rfl⟩
      simp only [treeStep, lpnuIOServiceAddChild]
      -- the head of the parent's list is read after the first assignment
      rw [map_setChild, map_setSibling, map_setParent, ← map_setParent, follow_child_map]
  | removeChild parent child =>
    rcases parent with _ | p <;> rcases child with _ | c
    · exact ⟨rfl, rfl⟩
    · exact ⟨rfl, rfl⟩
    · exact ⟨rfl, rfl⟩
    · exact ⟨map_setParent, rfl⟩

/-- **Nor does `Destroy`.** -/
theorem bare_destroy (services : Heap LPNUIOService) (service : Option ℕ) :
    (lpnuIOServiceDestroy services service).1.map bareService =
        (lpnuIOServiceDestroy (services.map bareService) service).1 ∧
      (lpnuIOServiceDestroy services service).2 =
        (lpnuIOServiceDestroy (services.map bareService) service).2 := by
  cases service with
  | none => exact ⟨rfl, rfl⟩
  | some a =>
    have hdropped : (services.modify a fun svc =>
        if svc.refCount > 0 then { svc with refCount := svc.refCount - 1 } else svc).map
          bareService =
        (services.map bareService).modify a fun svc =>
          if svc.refCount > 0 then { svc with refCount := svc.refCount - 1 } else svc := by
      refine Heap.map_modify fun svc => ?_
      show _ = if svc.refCount > 0 then _ else bareService svc
      split <;> rfl
    have hcount : (((services.map bareService).modify a fun svc =>
        if svc.refCount > 0 then { svc with refCount := svc.refCount - 1 } else svc).cells a).map
          LPNUIOService.refCount =
        ((services.modify a fun svc =>
          if svc.refCount > 0 then { svc with refCount := svc.refCount - 1 } else svc).cells a).map
            LPNUIOService.refCount := by
      rw [← hdropped, Heap.cells_map, Option.map_map]
      rfl
    simp only [lpnuIOServiceDestroy]
    rw [hcount]
    split
    · exact ⟨by rw [Heap.map_free, hdropped], rfl⟩
    · exact ⟨hdropped, rfl⟩

theorem bare_step (s : State) (call : Call) :
    bareState (step s call).1 = (step (bareState s) call).1 ∧
      (step s call).2 = (step (bareState s) call).2 := by
  cases call with
  | tree call =>
    obtain ⟨hservices, hout⟩ := bare_treeStep s.services call
    exact ⟨congrArg (fun h => { s with services := h }) hservices, hout⟩
  | registerService service => exact ⟨rfl, rfl⟩
  | destroy service =>
    obtain ⟨hservices, hout⟩ := bare_destroy s.services service
    exact ⟨congrArg (fun h => { s with services := h }) hservices, hout⟩

/-- A rewriting of a service's state or provider. -/
theorem bareState_modify {a : ℕ} {f : LPNUIOService → LPNUIOService}
    (hf : ∀ svc, bareService (f svc) = bareService svc) :
    bareState { s with services := s.services.modify a f } = bareState s :=
  congrArg (fun h => { s with services := h }) (Heap.map_modify_of_eq hf)

theorem bare_other {call : AnyCall} (hcall : bareCall call = none) :
    bareState (anyStep s call).1 = bareState s := by
  cases call with
  | bare call => cases hcall
  | matching service name calloc => cases hcall
  | start service | stop service =>
    cases service with
    | none => rfl
    | some a => exact bareState_modify fun _ => rfl
  | addProvider service provider | removeProvider service provider =>
    cases service with
    | none => rfl
    | some a => exact bareState_modify fun _ => rfl
  | probe service probeScore => rfl
  | matchService service => rfl
  | getProvider service => rfl

/-- **The whole component projects to the tree, the list and the
lifetime.** -/
theorem projects : Projects anyStep step bareState bareCall AnyOut.toOut where
  leaves _ _ hcall := bare_other hcall
  makes s call b hcall := by
    cases call with
    | bare call =>
      obtain rfl := Option.some.inj hcall
      exact (bare_step s call).1
    | matching service name calloc =>
      obtain rfl := Option.some.inj hcall
      exact (bare_step s (.tree (.create service name calloc))).1
    | _ => cases hcall
  answers s call b hcall := by
    cases call with
    | bare call =>
      obtain rfl := Option.some.inj hcall
      exact (bare_step s call).2
    | matching service name calloc =>
      obtain rfl := Option.some.inj hcall
      exact (bare_step s (.tree (.create service name calloc))).2
    | _ => cases hcall

/-- **No run of calls on services shows in the tree what it does
besides.** -/
theorem treeUnaffected_after (run : List AnyCall) : TreeUnaffected run where
  ends := projects.after_eq run State.init
  throughout _ := projects.throughout_iff
  answers := projects.answered_eq run State.init

/-! ## The state and the provider -/

/-- A recorded call. -/
abbrev Past := List (Entry State AnyCall AnyOut)

/-- **Whether a service is started**, by the calls made so far, the newest
first: of those that started, stopped or made it, the last started it. -/
def started : Past → ℕ → Bool
  | [], _ => false
  | e :: past, a =>
    match e.call with
    | .start service => if service = some a then true else started past a
    | .stop service => if service = some a then false else started past a
    | .bare _ | .matching _ _ _ => if e.out.service = some a then false else started past a
    | _ => started past a

/-- **The provider of a service**, by the calls made so far: the last one
added, if none was removed since. -/
def providerOf : Past → ℕ → Option ℕ
  | [], _ => none
  | e :: past, a =>
    match e.call with
    | .addProvider service provider => if service = some a then provider else providerOf past a
    | .removeProvider service _ => if service = some a then none else providerOf past a
    | .bare _ | .matching _ _ _ => if e.out.service = some a then none else providerOf past a
    | _ => providerOf past a

/-- The state of a service, by whether it is started. -/
def stateWord (started : Bool) : UInt32 :=
  if started then kIOServiceReady ||| kIOService20State else kIOServiceReady

/-- What a service was set to. -/
def settings (svc : LPNUIOService) : UInt32 × Option ℕ := (svc.state, svc.provider)

/-- What the calls made so far set it to. -/
def settingsOf (past : Past) (a : ℕ) : UInt32 × Option ℕ :=
  (stateWord (started past a), providerOf past a)

/-- **Every live service is as the calls of the run set it**, and its
provider reads so. -/
structure AsSet (c : Recorded State AnyCall AnyOut) : Prop where
  settings : Tracks c.now.services settings (settingsOf c.past)
  getProvider : ∀ a, c.now.services.IsLive a →
    lpnuIOServiceGetProvider c.now.services (some a) = providerOf c.past a

variable {recorded : ℕ → UInt32 × Option ℕ} {c : Recorded State AnyCall AnyOut}

/-- A service made, recorded under the name it gets. -/
theorem tracks_create {create calloc : Bool} {name : Option CString}
    (h : Tracks services settings recorded) :
    Tracks (lpnuIOServiceCreate services create name calloc).1 settings fun a =>
      if (lpnuIOServiceCreate services create name calloc).2.service = some a
        then (stateWord false, none) else recorded a := by
  unfold lpnuIOServiceCreate
  split
  · split
    · refine h.alloc (if_pos rfl) fun a ha => if_neg fun heq => ha (Option.some.inj heq).symm
    · exact h.congr fun a _ => if_neg (by simp)
  · exact h.congr fun a _ => if_neg (by simp)

/-- A service rewritten in other fields. -/
theorem tracks_rewrite {a : ℕ} {f : LPNUIOService → LPNUIOService}
    (h : Tracks services settings recorded) (hf : ∀ svc, settings (f svc) = settings svc) :
    Tracks (services.modify a f) settings recorded :=
  h.modify (fun svc hsvc => (hf svc).trans hsvc) fun _ _ => rfl

/-- A call that makes none. -/
theorem tracks_none (h : Tracks services settings recorded) :
    Tracks services settings fun a =>
      if (none : Option ℕ) = some a then (stateWord false, none) else recorded a :=
  h.congr fun a _ => if_neg (by simp)

/-- **The calls on the tree, the list and the lifetime** set no service but
one they make. -/
theorem tracks_step (h : Tracks s.services settings recorded) (call : Call) :
    Tracks (step s call).1.services settings fun a =>
      if (step s call).2.service = some a then (stateWord false, none) else recorded a := by
  cases call with
  | tree call =>
    cases call with
    | create service name calloc => exact tracks_create h
    | addChild parent child =>
      rcases parent with _ | p <;> rcases child with _ | c
      · exact tracks_none h
      · exact tracks_none h
      · exact tracks_none h
      · -- the three assignments write to links only
        have hadopted := tracks_rewrite (a := c) (f := fun svc => { svc with parent := some p }) h
          fun _ => rfl
        have hlinked := tracks_rewrite (a := c) (f := fun svc => { svc with
          sibling := follow (setParent s.services c (some p)) LPNUIOService.child p }) hadopted
          fun _ => rfl
        exact tracks_none (tracks_rewrite hlinked fun _ => rfl)
    | removeChild parent child =>
      rcases parent with _ | p <;> rcases child with _ | c
      · exact tracks_none h
      · exact tracks_none h
      · exact tracks_none h
      · exact tracks_none (tracks_rewrite h fun _ => rfl)
  | registerService service =>
    cases service with
    | none => exact tracks_none h
    | some a =>
      simp only [step, lpnuIOServiceRegisterService]
      split <;> exact tracks_none h
  | destroy service =>
    cases service with
    | none => exact tracks_none h
    | some a =>
      have hdropped : Tracks (s.services.modify a fun svc =>
          if svc.refCount > 0 then { svc with refCount := svc.refCount - 1 } else svc)
          settings recorded := by
        refine tracks_rewrite h fun svc => ?_
        split <;> rfl
      simp only [step, lpnuIOServiceDestroy]
      split
      · exact tracks_none hdropped.free
      · exact tracks_none hdropped

/-- A setting written to a service. -/
theorem tracks_set {f : LPNUIOService → LPNUIOService}
    {g : UInt32 × Option ℕ → UInt32 × Option ℕ} {a : ℕ} (h : Tracks services settings recorded)
    (hf : ∀ svc, settings (f svc) = g (settings svc)) :
    Tracks (services.modify a f) settings fun b =>
      if some a = some b then g (recorded b) else recorded b := by
  refine h.modify (fun svc hsvc => ?_) fun b hb => if_neg fun heq => hb (Option.some.inj heq).symm
  rw [hf, hsvc]
  exact (if_pos rfl).symm

/-- Setting the bit and clearing it. -/
theorem stateWord_start (b : Bool) : stateWord b ||| kIOService20State = stateWord true := by
  cases b <;> rfl

theorem stateWord_stop (b : Bool) : stateWord b &&& ~~~kIOService20State = stateWord false := by
  cases b <;> rfl

/-- **One call** sets the services it is told to. -/
theorem tracks_anyStep (h : Tracks c.now.services settings (settingsOf c.past))
    (call : AnyCall) :
    Tracks (anyStep c.now call).1.services settings
      (settingsOf (record anyStep c call).1.past) := by
  cases call with
  | bare call =>
    refine (tracks_step h call).congr fun a _ => ?_
    simp only [settingsOf, record_past, started, providerOf, anyStep]
    split <;> rfl
  | matching service name calloc =>
    refine (tracks_step h (.tree (.create service name calloc))).congr fun a _ => ?_
    show settingsOf (⟨c.now, .matching service name calloc,
      { toOut := (step c.now (.tree (.create service name calloc))).2 }⟩ :: c.past) a = _
    simp only [settingsOf, started, providerOf]
    split <;> rfl
  | start service =>
    cases service with
    | none => exact h.congr fun a _ => by simp [settingsOf, started, providerOf]
    | some a =>
      refine (tracks_set (g := fun v => (v.1 ||| kIOService20State, v.2)) h
        fun _ => rfl).congr fun b _ => ?_
      simp only [settingsOf, record_past, started, providerOf, stateWord_start]
      split <;> rfl
  | stop service =>
    cases service with
    | none => exact h.congr fun a _ => by simp [settingsOf, started, providerOf]
    | some a =>
      refine (tracks_set (g := fun v => (v.1 &&& ~~~kIOService20State, v.2)) h
        fun _ => rfl).congr fun b _ => ?_
      simp only [settingsOf, record_past, started, providerOf, stateWord_stop]
      split <;> rfl
  | probe service probeScore => exact h
  | matchService service => exact h
  | getProvider service => exact h
  | addProvider service provider =>
    cases service with
    | none => exact h.congr fun a _ => by simp [settingsOf, started, providerOf]
    | some a =>
      refine (tracks_set (g := fun v => (v.1, provider)) h
        fun _ => rfl).congr fun b _ => ?_
      simp only [settingsOf, record_past, started, providerOf]
      split <;> rfl
  | removeProvider service provider =>
    cases service with
    | none => exact h.congr fun a _ => by simp [settingsOf, started, providerOf]
    | some a =>
      refine (tracks_set (g := fun v => (v.1, none)) h
        fun _ => rfl).congr fun b _ => ?_
      simp only [settingsOf, record_past, started, providerOf]
      split <;> rfl

/-- A service's provider is read off it. -/
theorem getProvider_of_tracks {a : ℕ} (h : Tracks services settings recorded)
    (ha : services.IsLive a) : lpnuIOServiceGetProvider services (some a) = (recorded a).2 := by
  obtain ⟨svc, hsvc⟩ := Heap.isLive_iff.1 ha
  rw [← h a svc hsvc]
  simp only [lpnuIOServiceGetProvider, follow, Option.bind_some, hsvc]
  rfl

/-- **After every run each live service is as the calls of the run set
it**: its state is ready, and started if the last call that started or
stopped it started it; its provider is the one last added and not removed
since, and reads so. -/
theorem asSet_after (run : List AnyCall) :
    AsSet (after (record anyStep) ⟨State.init, []⟩ run) := by
  have hstep : ∀ (c : Recorded State AnyCall AnyOut) (call : AnyCall),
      Tracks c.now.services settings (settingsOf c.past) →
        Tracks (record anyStep c call).1.now.services settings
          (settingsOf (record anyStep c call).1.past) := fun c call h => tracks_anyStep h call
  have h0 : Tracks State.init.services settings (settingsOf []) := tracks_empty
  have htracks := after_of_inv (s := ⟨State.init, []⟩) hstep h0 run
  exact ⟨htracks, fun a ha => getProvider_of_tracks htracks ha⟩

/-- A service made, started, given a provider, stopped and started. -/
example : (after anyStep State.init
    [.matching true none true, .start (some 0), .addProvider (some 0) (some 7), .stop (some 0),
      .start (some 0)]).services.cells 0 =
    some { createdService none with state := 0x60, provider := some 7 } := rfl

end Service

end IOKit

end Lpnu
