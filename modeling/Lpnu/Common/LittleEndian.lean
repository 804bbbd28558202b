import Lpnu.Common.CArray
/-!
# Little-endian words

An unsigned word as a little-endian host reads it from memory, least
significant byte first, with the reads it takes.
-/

namespace Lpnu

/-- The number a list of bytes spells, least significant first. -/
def leNat : List UInt8 → ℕ
  | [] => 0
  | b :: bs => b.toNat + 256 * leNat bs

/-- **As many bytes spell one number in one way.** -/
theorem leNat_inj : ∀ {bs cs : List UInt8}, bs.length = cs.length → leNat bs = leNat cs →
    bs = cs
  | [], [], _, _ => rfl
  | [], _ :: _, hlen, _ => absurd hlen (by simp)
  | _ :: _, [], hlen, _ => absurd hlen (by simp)
  | b :: bs, c :: cs, hlen, h => by
    have hb := b.toNat_lt
    have hc := c.toNat_lt
    simp only [leNat] at h
    have hhead : b = c := UInt8.toNat_inj.1 (by omega)
    have htail : bs = cs := leNat_inj (by simpa using hlen) (by omega)
    rw [hhead, htail]

namespace Memory

/-- `*(u32 *)(m + off)`. -/
def u32 (m : Memory) (off : ℕ) : ℕ × List Access :=
  (leNat ((List.range' off 4).map m), (List.range' off 4).map .read)

/-- A word is what a list of four bytes spells exactly if these are the
bytes there. -/
theorem u32_eq_iff {m : Memory} {off : ℕ} {bs : List UInt8} (hlen : bs.length = 4) :
    (m.u32 off).1 = leNat bs ↔ (List.range' off 4).map m = bs := by
  constructor
  · intro h
    refine leNat_inj ?_ h
    simp [hlen]
  · intro h
    rw [u32, h]

end Memory

end Lpnu
