import Lpnu.Common.Accounts
/-!
# Programs that allocate

A program that asks an allocator for blocks and gives them back, read off
the requests it makes. `Owns` says of an allocator that the blocks in
use are those of a list, each once, with no block freed that was not
allocated. A specification names the blocks a program takes over and the
ones it leaves behind (`Spec`); what else is in use is not touched, so
specifications compose along a program (`Spec.bind`) and hold beside
other blocks (`Spec.frame`).
-/

namespace Lpnu

namespace Blocks

open Accounts (Settled Effect acquired released)

/-- What an allocator is asked for. -/
inductive Event
  | calloc (block : ℕ)
  | free (block : ℕ)
  deriving DecidableEq, Repr

/-- A block is acquired and released. -/
def effect : Event → Effect ℕ
  | .calloc block => .acquire block
  | .free block => .release block

/-- An allocator: the next block it hands out, and what it was asked for
so far, in order. -/
structure Allocator where
  fresh : ℕ
  trace : List Event

/-- Nothing asked for yet. -/
def Allocator.init : Allocator := ⟨0, []⟩

/-- A program that allocates. -/
abbrev Program (α : Type) := StateM Allocator α

/-- `calloc`, which finds memory or does not. -/
def calloc (found : Bool) : Program (Option ℕ) := fun m =>
  if found then (some m.fresh, ⟨m.fresh + 1, m.trace ++ [.calloc m.fresh]⟩) else (none, m)

/-- `free(block);` -/
def free (block : ℕ) : Program Unit := fun m =>
  ((), { m with trace := m.trace ++ [.free block] })

/-- `if (p) free(p);` -/
def freeIf : Option ℕ → Program Unit
  | some block => free block
  | none => pure ()

/-- **The blocks in use** are those of the list, each once: every block
was allocated at most once and freed at most as often, and what was
allocated and not freed is on the list. -/
structure Owns (m : Allocator) (blocks : List ℕ) : Prop where
  settled : Settled effect m.trace blocks.toFinset some
  nodup : blocks.Nodup
  unused : ∀ b, m.fresh ≤ b → acquired effect b m.trace = 0
  once : ∀ b, acquired effect b m.trace ≤ 1

/-- **A specification**: the program takes the blocks `P` over and leaves
the blocks of its result, whatever else is in use. -/
def Spec {α : Type} (P : List ℕ) (prog : Program α) (Q : α → List ℕ) : Prop :=
  ∀ m F, Owns m (P ++ F) → Owns (prog m).2 (Q (prog m).1 ++ F)

variable {m : Allocator} {blocks blocks' P F : List ℕ} {b : ℕ}

theorem owns_init : Owns Allocator.init [] where
  settled := Accounts.settled_nil
  nodup := List.nodup_nil
  unused _ _ := rfl
  once _ := Nat.zero_le 1

namespace Owns

/-- In what order the blocks are listed does not matter. -/
theorem perm (h : Owns m blocks) (hp : blocks.Perm blocks') : Owns m blocks' where
  settled := by
    rw [← List.toFinset_eq_of_perm _ _ hp]
    exact h.settled
  nodup := hp.nodup_iff.1 h.nodup
  unused := h.unused
  once := h.once

/-- A block in use was allocated. -/
theorem acquired_pos (h : Owns m blocks) (hb : b ∈ blocks) :
    released effect b m.trace < acquired effect b m.trace :=
  h.settled.released_lt (List.mem_toFinset.2 hb) rfl

/-- The next block is not in use. -/
theorem fresh_notMem (h : Owns m blocks) : m.fresh ∉ blocks := by
  intro hmem
  have hlt := h.acquired_pos hmem
  have hzero := h.unused m.fresh (Nat.le_refl _)
  omega

/-- **One block more.** -/
theorem calloc (h : Owns m blocks) :
    Owns ⟨m.fresh + 1, m.trace ++ [.calloc m.fresh]⟩ (m.fresh :: blocks) where
  settled := by
    rw [List.toFinset_cons]
    exact h.settled.acquire rfl (by rw [List.mem_toFinset]; exact h.fresh_notMem) rfl
      fun _ _ => rfl
  nodup := List.nodup_cons.2 ⟨h.fresh_notMem, h.nodup⟩
  unused b hb := by
    have hle : m.fresh + 1 ≤ b := hb
    have hzero := h.unused b (by omega)
    have hne : m.fresh ≠ b := by omega
    simp [Accounts.acquired_append, Accounts.acquired_singleton, effect, hzero, hne]
  once b := by
    have hone := h.once b
    rw [Accounts.acquired_append, Accounts.acquired_singleton]
    by_cases hb : m.fresh = b
    · -- the block was not handed out before
      have hzero := h.unused b (Nat.le_of_eq hb)
      split <;> omega
    · simpa [effect, hb] using hone

/-- **One block fewer.** -/
theorem free (h : Owns m (b :: blocks)) :
    Owns { m with trace := m.trace ++ [.free b] } blocks := by
  obtain ⟨hb, hnodup⟩ := List.nodup_cons.1 h.nodup
  have hacquired : ∀ b', acquired effect b' (m.trace ++ [.free b]) =
      acquired effect b' m.trace := by
    intro b'
    rw [Accounts.acquired_append, Accounts.acquired_singleton]
    simp [effect]
  refine ⟨?_, hnodup, fun b' hb' => ?_, fun b' => ?_⟩
  · have hreleased := h.settled.release (e := Event.free b) rfl (List.mem_toFinset.2
      List.mem_cons_self) rfl
    rw [List.toFinset_cons, Finset.erase_insert (by rw [List.mem_toFinset]; exact hb)]
      at hreleased
    exact hreleased
  · rw [hacquired]
    exact h.unused b' hb'
  · rw [hacquired]
    exact h.once b'

end Owns

/-! ## Specifications -/

namespace Spec

variable {α β : Type} {prog : Program α} {Q : α → List ℕ}

/-- What a program leaves is in the blocks of what it returns. -/
theorem pure (a : α) (Q : α → List ℕ) : Spec (Q a) (pure a) Q := fun _ _ h => h

/-- **One program after another.** -/
theorem bind {R : β → List ℕ} {next : α → Program β} (h : Spec P prog Q)
    (hnext : ∀ a, Spec (Q a) (next a) R) : Spec P (prog >>= next) R := by
  intro m F hm
  exact hnext (prog m).1 (prog m).2 F (h m F hm)

/-- **The frame rule.** -/
theorem frame (h : Spec P prog Q) (B : List ℕ) : Spec (P ++ B) prog fun a => Q a ++ B := by
  intro m F hm
  rw [List.append_assoc] at hm ⊢
  exact h m (B ++ F) hm

/-- Blocks may be listed otherwise, before and after. -/
theorem perm {P' : List ℕ} {Q' : α → List ℕ} (h : Spec P prog Q) (hP : P'.Perm P)
    (hQ : ∀ a, (Q a).Perm (Q' a)) : Spec P' prog Q' := by
  intro m F hm
  have hbefore : Owns m (P ++ F) := hm.perm (hP.append_right F)
  exact (h m F hbefore).perm ((hQ (prog m).1).append_right F)

/-- Memory found is one block, and none is none. -/
theorem calloc (found : Bool) : Spec [] (calloc found) Option.toList := by
  intro m F hm
  cases found with
  | false => exact hm
  | true => exact hm.calloc

theorem free (b : ℕ) : Spec [b] (free b) fun _ => [] := fun _ _ hm => hm.free

theorem freeIf (p : Option ℕ) : Spec p.toList (freeIf p) fun _ => [] := by
  cases p with
  | none => exact Spec.pure () fun _ => []
  | some b => exact Spec.free b

end Spec

/-! ## One block at a time -/

/-- Blocks asked for and given back, each before the next. -/
def inTurn (first n : ℕ) : List Event :=
  (List.range' first n).flatMap fun b => [.calloc b, .free b]

theorem inTurn_append (first n k : ℕ) :
    inTurn first n ++ inTurn (first + n) k = inTurn first (n + k) := by
  rw [inTurn, inTurn, inTurn, ← List.flatMap_append, List.range'_append_1]

/-- **A program that holds one block at a time** and comes to a result
that is not up to the allocator: it gives each block back before it asks
for the next, and the last one before it ends. -/
def OneAtATime {α : Type} (prog : Program α) (a : α) : Prop :=
  ∀ m, ∃ n, prog m = (a, ⟨m.fresh + n, m.trace ++ inTurn m.fresh n⟩)

namespace OneAtATime

variable {α β : Type} {prog next : Program α} {a : α} {c : β}

theorem pure (a : α) : OneAtATime (pure a) a := by
  intro m
  refine ⟨0, ?_⟩
  show (a, m) = (a, (⟨m.fresh + 0, m.trace ++ inTurn m.fresh 0⟩ : Allocator))
  simp [inTurn]

theorem bind {next : α → Program β} (h : OneAtATime prog a) (hnext : OneAtATime (next a) c) :
    OneAtATime (prog >>= next) c := by
  intro m
  obtain ⟨n, hn⟩ := h m
  obtain ⟨k, hk⟩ := hnext ⟨m.fresh + n, m.trace ++ inTurn m.fresh n⟩
  refine ⟨n + k, ?_⟩
  show next (prog m).1 (prog m).2 = _
  rw [hn, hk]
  simp only [List.append_assoc, inTurn_append, Nat.add_assoc]

/-- A block given back before the rest of the program. -/
theorem scratch {rest : Option ℕ → Program α}
    (hrest : ∀ b, rest (some b) = (Blocks.free b >>= fun _ => next)) (h : OneAtATime next a) :
    OneAtATime (Blocks.calloc true >>= rest) a := by
  intro m
  obtain ⟨n, hn⟩ := h ⟨m.fresh + 1, m.trace ++ [.calloc m.fresh] ++ [.free m.fresh]⟩
  refine ⟨1 + n, ?_⟩
  show rest (some m.fresh) ⟨m.fresh + 1, m.trace ++ [.calloc m.fresh]⟩ = _
  rw [hrest]
  show next ⟨m.fresh + 1, m.trace ++ [.calloc m.fresh] ++ [.free m.fresh]⟩ = _
  rw [hn, ← inTurn_append]
  simp [inTurn, Nat.add_assoc]

/-- **What is in use is not touched.** -/
theorem owns (h : OneAtATime prog a) (hm : Owns m blocks) : Owns (prog m).2 blocks := by
  obtain ⟨n, hn⟩ := h m
  rw [hn]
  clear hn
  induction n with
  | zero => simpa [inTurn] using hm
  | succ n ih =>
    have hlast := ih.calloc.free
    rw [← inTurn_append]
    simpa [inTurn, List.append_assoc, Nat.add_assoc] using hlast

end OneAtATime

end Blocks

end Lpnu
