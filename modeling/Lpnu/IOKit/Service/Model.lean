import Lpnu.Common.CArray
import Lpnu.Common.Heap
import Lpnu.Common.Run
import Lpnu.Common.Table
import Lpnu.IOKit.Basic
/-!
# IOService — the model

The services of `lpnu_iokit.c`: blocks of the heap linked into a tree by
the `parent`, `child` and `sibling` fields, with `g_serviceList` and
`g_serviceCount` a pointer table of 256 slots beside it. A parent points
to the head of its child list, and the list is threaded through the
children's `sibling` fields. Whether `calloc` finds memory is an argument
of the call.
-/

namespace Lpnu

namespace IOKit

open IOReturn

/-- `struct LPNUIOService`. -/
structure LPNUIOService where
  name : Option CString
  className : CString
  state : UInt32
  refCount : UInt32
  parent : Option ℕ := none
  child : Option ℕ := none
  sibling : Option ℕ := none
  provider : Option ℕ := none
  userClient : Option ℕ := none

/-- `kIOServiceReady`. -/
def kIOServiceReady : UInt32 := 0x40

/-- The bytes of `"IOService"`. -/
def ioServiceClassName : CString := ⟨[73, 79, 83, 101, 114, 118, 105, 99, 101], by decide⟩

/-- A service as it is created, over zeroed memory. -/
def createdService (name : Option CString) : LPNUIOService where
  name := name
  className := ioServiceClassName
  state := kIOServiceReady
  refCount := 1

namespace Service

/-- What a call gives back: its return value, if it has one, and the
pointer it stores through its out-parameter. -/
structure Out where
  ret : Option IOReturn := none
  service : Option ℕ := none
  deriving DecidableEq

end Service

open Service

variable (services : Heap LPNUIOService)

/-- Where a pointer field of a service leads. -/
def follow (field : LPNUIOService → Option ℕ) (a : ℕ) : Option ℕ :=
  (services.cells a).bind field

/-- `a->parent = q`. -/
def setParent (a : ℕ) (q : Option ℕ) : Heap LPNUIOService :=
  services.modify a fun svc => { svc with parent := q }

/-- `a->sibling = q`. -/
def setSibling (a : ℕ) (q : Option ℕ) : Heap LPNUIOService :=
  services.modify a fun svc => { svc with sibling := q }

/-- `a->child = q`. -/
def setChild (a : ℕ) (q : Option ℕ) : Heap LPNUIOService :=
  services.modify a fun svc => { svc with child := q }

/-- `LPNUIOServiceCreate`. The out-parameter `service` is given by whether
it is non-null. -/
def lpnuIOServiceCreate (service : Bool) (name : Option CString) (calloc : Bool) :
    Heap LPNUIOService × Out :=
  if service then
    if calloc then
      (services.alloc (createdService name),
        { ret := some kIOReturnSuccess, service := some services.fresh })
    else (services, { ret := some kIOReturnNoMemory })
  else (services, { ret := some kIOReturnBadArgument })

/-- `LPNUIOServiceAddChild`: the three assignments, in order. -/
def lpnuIOServiceAddChild (parent child : Option ℕ) : Heap LPNUIOService × Out :=
  match parent, child with
  | some p, some c =>
    -- a list `c` stands in already is not looked for
    let adopted := setParent services c (some p)
    let linked := setSibling adopted c (follow adopted LPNUIOService.child p)
    (setChild linked p (some c), { ret := some kIOReturnSuccess })
  | _, _ => (services, { ret := some kIOReturnBadArgument })

/-- `LPNUIOServiceRemoveChild`. -/
def lpnuIOServiceRemoveChild (parent child : Option ℕ) : Heap LPNUIOService × Out :=
  match parent, child with
  | some _, some c =>
    -- the parent's list still leads through `c`
    (setParent services c none, { ret := some kIOReturnSuccess })
  | _, _ => (services, { ret := some kIOReturnBadArgument })

/-- `LPNUIOServiceDestroy`. -/
def lpnuIOServiceDestroy (service : Option ℕ) : Heap LPNUIOService × Out :=
  match service with
  | none => (services, {})
  | some a =>
    let dropped := services.modify a fun svc =>
      if svc.refCount > 0 then { svc with refCount := svc.refCount - 1 } else svc
    if (dropped.cells a).map LPNUIOService.refCount = some 0 then (dropped.free a, {})
    else (dropped, {})

/-- `LPNUIOServiceRegisterService`: past 256 services it drops the one
given, and succeeds all the same. -/
def lpnuIOServiceRegisterService (serviceList : Table ℕ) (service : Option ℕ) :
    Table ℕ × Out :=
  match service with
  | none => (serviceList, { ret := some kIOReturnBadArgument })
  | some a =>
    if serviceList.count < 256 then
      ((serviceList.push a).1, { ret := some kIOReturnSuccess })
    else (serviceList, { ret := some kIOReturnSuccess })

namespace Service

/-! ## The component -/

/-- The calls on the tree. -/
inductive TreeCall
  | create (service : Bool) (name : Option CString) (calloc : Bool)
  | addChild (parent child : Option ℕ)
  | removeChild (parent child : Option ℕ)

/-- One call on the tree. -/
def treeStep : TreeCall → Heap LPNUIOService × Out
  | .create service name calloc => lpnuIOServiceCreate services service name calloc
  | .addChild parent child => lpnuIOServiceAddChild services parent child
  | .removeChild parent child => lpnuIOServiceRemoveChild services parent child

/-- A call on the tree under the protocol: the services passed are live. -/
def TreeLegal : TreeCall → Prop
  | .create _ _ _ => True
  | .addChild parent child | .removeChild parent child =>
    (∀ p, parent = some p → services.IsLive p) ∧ (∀ c, child = some c → services.IsLive c)

/-- The services and the global list of those registered. -/
structure State where
  services : Heap LPNUIOService
  serviceList : Table ℕ

/-- No service yet. -/
def State.init : State := ⟨Heap.empty, Table.empty⟩

/-- The calls on services. -/
inductive Call
  | tree (call : TreeCall)
  | registerService (service : Option ℕ)
  | destroy (service : Option ℕ)

/-- One call. -/
def step (s : State) : Call → State × Out
  | .tree call =>
    let r := treeStep s.services call
    ({ s with services := r.1 }, r.2)
  | .registerService service =>
    let r := lpnuIOServiceRegisterService s.serviceList service
    ({ s with serviceList := r.1 }, r.2)
  | .destroy service =>
    let r := lpnuIOServiceDestroy s.services service
    ({ s with services := r.1 }, r.2)

/-- A call under the protocol: the services passed are live. -/
def Legal (s : State) : Call → Prop
  | .tree call => TreeLegal s.services call
  | .registerService service | .destroy service =>
    ∀ a, service = some a → s.services.IsLive a

end Service

end IOKit

end Lpnu
