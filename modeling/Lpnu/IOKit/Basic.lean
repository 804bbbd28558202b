import Mathlib.Tactic.Common
/-!
# IOKit — return codes and faults

What `lpnu_iokit.h` has every function return, and the two ways in which
one of the functions modelled here can leave defined behaviour.
-/

namespace Lpnu

namespace IOKit

/-- `IOReturn`, by the names of its codes. -/
inductive IOReturn
  | kIOReturnSuccess
  | kIOReturnError
  | kIOReturnNoMemory
  | kIOReturnNoResource
  | kIOReturnIPCError
  | kIOReturnNoDevice
  | kIOReturnNotPrivileged
  | kIOReturnBadArgument
  | kIOReturnLockedState
  | kIOReturnNotOpen
  | kIOReturnStateError
  | kIOReturnOffline
  | kIOReturnNoData
  deriving DecidableEq, Repr

/-- Undefined behaviour a call can run into: an array accessed through a
null pointer, or the modulus by zero. -/
inductive Fault
  | nullArray
  | divisionByZero
  deriving DecidableEq, Repr

end IOKit

end Lpnu
