import Lpnu.IOKit.Basic
import Mathlib.Algebra.Group.Nat.Defs
/-!
# IOMemoryDescriptor

A descriptor of `lpnu_iokit.c` is a region of memory, by its address and
its length, and a mapping of it is the address so many bytes into it. The
offset is added to the address and compared with nothing:
`mapsInside_iff` says which offsets stay in the region. An address is a
64-bit word, and the addition is the one of such words.
-/

namespace Lpnu

namespace IOKit

open IOReturn

/-- `struct LPNUIOMemoryDescriptor`. -/
structure LPNUIOMemoryDescriptor where
  address : UInt64
  length : UInt64
  direction : UInt32

/-- `LPNUIOMemoryDescriptorCreate`: what it stores through its
out-parameter and what it returns. -/
def lpnuIOMemoryDescriptorCreate (desc : Bool) (address length : UInt64) (direction : UInt32)
    (calloc : Bool) : Option LPNUIOMemoryDescriptor × IOReturn :=
  if desc then
    if calloc then (some ⟨address, length, direction⟩, kIOReturnSuccess)
    else (none, kIOReturnNoMemory)
  else (none, kIOReturnBadArgument)

/-- `LPNUIOMemoryDescriptorMap`: what it stores through `map`, if it does,
and what it returns. -/
def lpnuIOMemoryDescriptorMap (desc : Option LPNUIOMemoryDescriptor) (map : Bool)
    (offset : UInt64) : Option UInt64 × IOReturn :=
  match desc, map with
  | some desc, true => (some (desc.address + offset), kIOReturnSuccess)
  | _, _ => (none, kIOReturnBadArgument)

namespace MemoryDescriptor

/-- **A mapping is inside the region it was asked of.** It succeeds on an
offset of at most the length only, and then maps the byte at that offset,
counted without wrapping around, which lies in the region or just behind
it; on any other offset it fails and stores nothing. -/
structure MapsInside (desc : LPNUIOMemoryDescriptor) (address length : UInt64) (map : Bool)
    (offset : UInt64) : Prop where
  inside : (lpnuIOMemoryDescriptorMap (some desc) map offset).2 = kIOReturnSuccess →
    offset ≤ length ∧ ∃ mapped, (lpnuIOMemoryDescriptorMap (some desc) map offset).1 = some mapped ∧
      mapped.toNat = address.toNat + offset.toNat ∧ address ≤ mapped ∧
      mapped.toNat ≤ address.toNat + length.toNat
  outside : ¬ offset ≤ length →
    (lpnuIOMemoryDescriptorMap (some desc) map offset).2 ≠ kIOReturnSuccess ∧
      (lpnuIOMemoryDescriptorMap (some desc) map offset).1 = none

variable {desc : LPNUIOMemoryDescriptor} {address length : UInt64} {direction : UInt32}

/-- The sum of two words is their sum where it fits. -/
theorem toNat_add_eq_iff {a b : UInt64} :
    (a + b).toNat = a.toNat + b.toNat ↔ a.toNat + b.toNat < 2 ^ 64 := by
  have hlt := (a + b).toNat_lt
  constructor
  · intro h
    omega
  · intro h
    rw [UInt64.toNat_add, Nat.mod_eq_of_lt h]

/-- **Which mappings are inside their region**: those of an offset of at
most the length that does not reach the end of the address space. -/
theorem mapsInside_iff
    (hcreate : lpnuIOMemoryDescriptorCreate true address length direction true =
      (some desc, kIOReturnSuccess)) (map : Bool) (offset : UInt64) :
    MapsInside desc address length map offset ↔
      (map = true → offset ≤ length ∧ address.toNat + offset.toNat < 2 ^ 64) := by
  obtain rfl : ⟨address, length, direction⟩ = desc := Option.some.inj (Prod.mk.inj hcreate).1
  rcases map with _ | _
  · -- without a place for the result nothing is mapped
    have hfails : lpnuIOMemoryDescriptorMap (some ⟨address, length, direction⟩) false offset =
        (none, kIOReturnBadArgument) := rfl
    refine iff_of_true ⟨fun h => ?_, fun _ => ?_⟩ (by simp)
    · rw [hfails] at h
      cases h
    · rw [hfails]
      exact ⟨by simp, rfl⟩
  · constructor
    · intro h _
      obtain ⟨hle, mapped, hmapped, hsum, -⟩ := h.inside rfl
      obtain rfl : address + offset = mapped := Option.some.inj hmapped
      exact ⟨hle, toNat_add_eq_iff.1 hsum⟩
    · intro h
      obtain ⟨hle, hfits⟩ := h rfl
      have hsum := toNat_add_eq_iff.2 hfits
      have hlen := UInt64.le_iff_toNat_le.1 hle
      refine ⟨fun _ => ⟨hle, address + offset, rfl, hsum, ?_, ?_⟩, fun hnot => absurd hle hnot⟩
      · rw [UInt64.le_iff_toNat_le]
        omega
      · omega

/-- A page, mapped half-way. -/
theorem mapsInside_half : MapsInside ⟨4096, 4096, 0⟩ 4096 4096 true 2048 := by
  have hcreate : lpnuIOMemoryDescriptorCreate true 4096 4096 0 true =
      (some ⟨4096, 4096, 0⟩, kIOReturnSuccess) := rfl
  exact (mapsInside_iff hcreate true 2048).2 fun _ => by decide

/-- The same, mapped past its end. -/
theorem not_mapsInside_beyond :
    lpnuIOMemoryDescriptorCreate true 4096 4096 0 true =
        (some ⟨4096, 4096, 0⟩, kIOReturnSuccess) ∧
      ¬ MapsInside ⟨4096, 4096, 0⟩ 4096 4096 true 8192 := by
  refine ⟨rfl, fun h => ?_⟩
  exact absurd (h.inside rfl).1 (by decide)

end MemoryDescriptor

end IOKit

end Lpnu
