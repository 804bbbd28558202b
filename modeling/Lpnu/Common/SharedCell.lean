import Mathlib.Logic.Function.Basic
import Mathlib.Data.Int.Notation
import Mathlib.Tactic.Common
/-!
# One cell of memory, many clients

Concurrent code over one shared cell, access by access. A function is
given by what it does at each of its program points: one read of the cell
or one write of it, and where it goes from there. Each access is one
atomic step, and any client may make the next one.
-/

namespace Lpnu

namespace SharedCell

/-- Where an access leads: to another point of the function, or out of it
with a result. -/
inductive Next (Pc R : Type)
  | goto (pc : Pc)
  | ret (result : R)
  deriving DecidableEq

/-- One access of the cell. -/
inductive Instr (Pc R : Type)
  | read (resume : ℤ → Next Pc R)
  | write (value : ℤ) (resume : Next Pc R)

/-- What the access leaves in the cell, and where it leads. -/
def Instr.run {Pc R : Type} (cell : ℤ) : Instr Pc R → ℤ × Next Pc R
  | .read resume => (cell, resume cell)
  | .write value resume => (value, resume)

/-- An access of the cell, by who makes it. -/
inductive CellAccess (Client : Type)
  | read (c : Client)
  | write (c : Client) (value : ℤ)

/-- An access, as its client makes it. -/
def Instr.access {Pc R Client : Type} (c : Client) : Instr Pc R → CellAccess Client
  | .read _ => .read c
  | .write value _ => .write c value

/-- The cell, and how far each client is. -/
structure State (Client Phase : Type) where
  cell : ℤ
  phase : Client → Phase

variable {Client Phase : Type} [DecidableEq Client]

/-- A client's access: the cell as it leaves it, and the client's new
phase. -/
def State.access (s : State Client Phase) (c : Client) (cell : ℤ) (phase : Phase) :
    State Client Phase :=
  ⟨cell, Function.update s.phase c phase⟩

variable {s : State Client Phase} {c c' : Client} {cell : ℤ} {phase : Phase}

@[simp] theorem access_cell : (s.access c cell phase).cell = cell := rfl

@[simp] theorem access_phase_self : (s.access c cell phase).phase c = phase := by
  simp [State.access]

/-- An access moves no other client. -/
theorem access_phase_of_ne (h : c' ≠ c) : (s.access c cell phase).phase c' = s.phase c' := by
  simp only [State.access]
  rw [Function.update_of_ne h]

end SharedCell

end Lpnu
