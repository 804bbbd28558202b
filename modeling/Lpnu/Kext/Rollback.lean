import Lpnu.Kext.Load
/-!
# The kext runtime — loads that fail

A load that returns an error should leave everything as it found it. Of
its five ways to fail, four come before anything is written; the fifth,
a `start` that fails, comes after the record was cleared and refilled, and
takes back the module alone. So a load undoes what it did as long as its
`start` does not fail, and otherwise only by accident, on a record that
read as it leaves it: `undoes_of_starts`.
-/

namespace Lpnu

namespace Kext

open Run

/-- **A load undoes what it did where it fails**: it leaves its record and
the table, with its count, as they were. -/
def Undoes (s : State) (path : Option Path) (info : Option ℕ) (env : LoadEnv) : Prop :=
  (lpnuKextLoad s path info env).2.ret ≠ 0 →
    (∀ r, info = some r → (lpnuKextLoad s path info env).1.records r = s.records r) ∧
      (lpnuKextLoad s path info env).1.loadedKexts = s.loadedKexts

/-- **The condition on a load**: if the host opens the module, the kext has
no `start` or its `start` returns 0. -/
def StartsIfOpened (s : State) (path : Option Path) (env : LoadEnv) : Prop :=
  Opens s path env → Starts env

/-- **The record names the module already**, under this handle and with
this size, as one that was not started. Its strings may be any. -/
structure NamesUnstarted (info : LPnuKextInfo) (handle : ℕ) (size : UInt64) : Prop where
  address_eq : info.address = UInt64.ofNat handle
  size_eq : info.size = size
  module_eq : info.module = some handle
  version_eq : info.version = 0
  refs_eq : info.refs = 0
  start_eq : info.start = none
  stop_eq : info.stop = none

variable {s : State} {path : Option Path} {info : Option ℕ} {env : LoadEnv}

theorem namesUnstarted_filledInfo {p : CString} {handle : ℕ} {size : UInt64} :
    NamesUnstarted (filledInfo p handle size) handle size := by
  constructor
  all_goals simp only [filledInfo, LPnuKextInfo.zero]

/-- A load that stops short of `start`, or whose `start` does not fail,
leaves everything alone where it fails. -/
theorem undoes_of_startsIfOpened (hstarts : StartsIfOpened s path env) :
    Undoes s path info env := by
  intro hret
  rcases info with _ | r
  · rw [lpnuKextLoad_none]
    exact ⟨fun _ _ => rfl, rfl⟩
  rcases lpnuKextLoad_cases s path r env with
    ⟨-, ret, -, heq⟩ | ⟨p, handle, size, -, -, -, hopens, ⟨hno, -⟩ | ⟨-, heq⟩⟩
  · -- it stops before it touches the record
    rw [heq]
    exact ⟨fun _ _ => rfl, rfl⟩
  · exact absurd (hstarts hopens) hno
  · -- it goes through, and returns 0
    rw [heq] at hret
    exact absurd registerKext_ret hret

/-- A failing `start` leaves the record naming the module. -/
theorem namesUnstarted_of_undoes {r handle : ℕ} {size : UInt64} (hopens : Opens s path env)
    (hstarts : ¬ Starts env) (hdlopen : env.dlopen = some handle) (hstat : env.stat = some size)
    (hundoes : Undoes s path (some r) env) : NamesUnstarted (s.records r) handle size := by
  rcases lpnuKextLoad_cases s path r env with
    ⟨hno, -⟩ | ⟨p, handle', size', -, hdlopen', hstat', -, ⟨-, heq⟩ | ⟨hyes, -⟩⟩
  · exact absurd hopens hno
  · obtain rfl := Option.some.inj (hdlopen.symm.trans hdlopen')
    obtain rfl := Option.some.inj (hstat.symm.trans hstat')
    have hret : (lpnuKextLoad s path (some r) env).2.ret ≠ 0 := by
      rw [heq]
      exact Int.neg_ne_zero.2 (by decide)
    rw [← (hundoes hret).1 r rfl, heq, setRecord_self]
    exact namesUnstarted_filledInfo
  · exact absurd hyes hstarts

/-- **When a load undoes what it did**, in any state, of any path, into any
record: if its `start` does not fail, and only then, unless the record
named that very module before, as one that was not started. -/
theorem undoes_of_starts (s : State) (path : Option Path) (info : Option ℕ) (env : LoadEnv) :
    (StartsIfOpened s path env → Undoes s path info env) ∧
      ∀ r handle size, info = some r → env.dlopen = some handle → env.stat = some size →
        ¬ NamesUnstarted (s.records r) handle size →
          (Undoes s path info env ↔ StartsIfOpened s path env) := by
  refine ⟨undoes_of_startsIfOpened, ?_⟩
  rintro r handle size rfl hdlopen hstat hnot
  refine ⟨fun hundoes hopens => ?_, undoes_of_startsIfOpened⟩
  by_contra hstarts
  exact hnot (namesUnstarted_of_undoes hopens hstarts hdlopen hstat hundoes)

/-- A host that finds a kext in the file whose `start` returns 1. -/
def failingHost : LoadEnv := ⟨some 1, some 1, fun _ => some ⟨some 7, none⟩, 1⟩

/-- A load that finds no module leaves its record, and one that is failed
by its `start` does not. -/
theorem undoes_of_starts_failingHost :
    Undoes (after step State.init [.setRuntime 1]) (some (.apart CString.a)) (some 0)
        { failingHost with dlopen := none } ∧
      ¬ Undoes (after step State.init [.setRuntime 1]) (some .within) (some 0) failingHost := by
  have hopens : Opens (after step State.init [.setRuntime 1]) (some .within) failingHost :=
    ⟨rfl, by decide, rfl, rfl⟩
  have hstarts : ¬ Starts failingHost := by simp [Starts, failingHost, LoadEnv.startEntry,
    LoadEnv.kextMain]
  have hnot : ¬ NamesUnstarted ((after step State.init [.setRuntime 1]).records 0) 1 1 :=
    fun h => absurd h.module_eq (by decide)
  have hnone : StartsIfOpened (after step State.init [.setRuntime 1])
      (some (.apart CString.a)) { failingHost with dlopen := none } :=
    fun h => absurd h.2.2.2 (by decide)
  refine ⟨(undoes_of_starts _ _ _ _).1 hnone, fun hundoes => hstarts ?_⟩
  exact ((undoes_of_starts _ _ _ _).2 0 1 1 rfl rfl rfl hnot).1 hundoes hopens

/-- The record of a load that fails is left filled. -/
theorem not_undoes_failingHost :
    ¬ Undoes (after step State.init [.setRuntime 1]) (some (.apart CString.a)) (some 0)
      failingHost := by
  intro h
  have hret : (lpnuKextLoad (after step State.init [.setRuntime 1]) (some (.apart CString.a))
      (some 0) failingHost).2.ret ≠ 0 := by decide
  have hmodule := congrArg LPnuKextInfo.module ((h hret).1 0 rfl)
  exact absurd hmodule (by decide)

end Kext

end Lpnu
