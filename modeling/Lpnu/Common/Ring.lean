import Mathlib.Data.Nat.ModEq
import Mathlib.Tactic.Common
/-!
# Ring buffers

A ring of `n` places takes a stream of any length: item `k` goes to place
`k % n`, over the item that stood there before. What the ring holds is the
end of the stream, of at most `n` items (`Holds`), and it keeps holding it
when a further piece is written around it (`Holds.append`).
-/

namespace Lpnu

namespace Ring

variable {α : Type*}

/-- **The ring holds the end of the stream**: each of its last `n` items
stands in its place. -/
def Holds (buf : ℕ → α) (n : ℕ) (stream : List α) : Prop :=
  ∀ k < stream.length, stream.length ≤ k + n → stream[k]? = some (buf (k % n))

/-- **A piece is written around the ring**, from a place on: every item
arrives, and the other places stay. -/
structure Written (buf buf' : ℕ → α) (n start : ℕ) (piece : List α) : Prop where
  arrives : ∀ i < piece.length, piece[i]? = some (buf' ((start + i) % n))
  others : ∀ j < n, (∀ i < piece.length, j ≠ (start + i) % n) → buf' j = buf j

variable {buf buf' : ℕ → α} {n start : ℕ} {stream piece : List α}

theorem holds_nil : Holds buf n [] := fun _ hk => absurd hk (Nat.not_lt_zero _)

/-- Two positions of one place are a whole round apart. -/
theorem add_le_of_mod_eq {a b : ℕ} (hlt : a < b) (hmod : a % n = b % n) : a + n ≤ b := by
  have hdvd : n ∣ b - a := (Nat.modEq_iff_dvd' hlt.le).1 hmod
  have hle : n ≤ b - a := Nat.le_of_dvd (by omega) hdvd
  omega

/-- **A piece copied straight on** is written around the ring if it ends
before the ring does. -/
theorem written_of_straight (hends : start + piece.length ≤ n)
    (hin : ∀ i < piece.length, piece[i]? = some (buf' (start + i)))
    (hout : ∀ j, ¬ (start ≤ j ∧ j < start + piece.length) → buf' j = buf j) :
    Written buf buf' n start piece := by
  have hplace : ∀ i < piece.length, (start + i) % n = start + i :=
    fun i hi => Nat.mod_eq_of_lt (by omega)
  refine ⟨fun i hi => ?_, fun j hj hother => hout j fun hcopied => ?_⟩
  · rw [hplace i hi]
    exact hin i hi
  · have hi : j - start < piece.length := by omega
    refine hother (j - start) hi ?_
    rw [hplace _ hi]
    omega

/-- **The ring holds the longer stream** once a piece is written around it
from where the stream ends. -/
theorem Holds.append (h : Holds buf n stream)
    (hwritten : Written buf buf' n (stream.length % n) piece) :
    Holds buf' n (stream ++ piece) := by
  intro k hk hlast
  rw [List.length_append] at hk hlast
  by_cases hold : k < stream.length
  · -- the item was in the ring already, and no item of the piece has its place
    rw [List.getElem?_append_left hold, h k hold (by omega)]
    have hn : 0 < n := by omega
    refine congrArg some (hwritten.others (k % n) (Nat.mod_lt k hn) fun i hi hplace => ?_).symm
    rw [Nat.mod_add_mod] at hplace
    have hround : k + n ≤ stream.length + i := add_le_of_mod_eq (by omega) hplace
    omega
  · have hi : k - stream.length < piece.length := by omega
    have harrives := hwritten.arrives (k - stream.length) hi
    rw [Nat.mod_add_mod, show stream.length + (k - stream.length) = k by omega] at harrives
    rw [List.getElem?_append_right (by omega), harrives]

end Ring

end Lpnu
