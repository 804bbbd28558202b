import Lpnu.Common.Run
import Lpnu.Common.SharedCell
/-!
# IOLock and IOSimpleLock

The two spinning locks of `lpnu_iokit.c`, for any number of clients and
every interleaving of their accesses to `l->locked`. To acquire, the
source reads the flag until it is clear and then sets it: two accesses,
with room for another client in between. `mutualExclusion_iff` says which
interleavings are safe: those in which nobody sets the flag after another
has set it in that room and kept it set.
-/

namespace Lpnu

namespace IOKit

open SharedCell

/-- The two accesses of an acquiring function: the test of `l->locked`
and the assignment to it. -/
inductive AcquirePc
  | test
  | set
  deriving DecidableEq

/-- What the acquiring functions have in common. They differ in what they
do where the flag is found set. -/
def testThenSet (busy : Next AcquirePc Bool) : AcquirePc → Instr AcquirePc Bool
  | .test => .read fun locked => if locked ≠ 0 then busy else .goto .set
  | .set => .write 1 (.ret true)

/-- `LPNUIOLockAcquire`: it tests again. -/
def lpnuIOLockAcquire : AcquirePc → Instr AcquirePc Bool :=
  testThenSet (.goto .test)

/-- `LPNUIOLockTryAcquire`: it gives up. -/
def lpnuIOLockTryAcquire : AcquirePc → Instr AcquirePc Bool :=
  testThenSet (.ret false)

/-- `LPNUIOLockRelease`. -/
def lpnuIOLockRelease : Instr AcquirePc Unit :=
  .write 0 (.ret ())

/-- `LPNUIOSimpleLockAcquire`. -/
def lpnuIOSimpleLockAcquire : AcquirePc → Instr AcquirePc Bool :=
  testThenSet (.goto .test)

/-- `LPNUIOSimpleLockRelease`. -/
def lpnuIOSimpleLockRelease : Instr AcquirePc Unit :=
  .write 0 (.ret ())

namespace Lock

open Run

/-- A lock, by its acquiring functions and its release. Each of the former
tests and then sets, and where it finds the flag set it tests again or
gives up. -/
structure Interface where
  Fn : Type
  acquire : Fn → AcquirePc → Instr AcquirePc Bool
  release : Instr AcquirePc Unit
  acquire_eq : ∀ f, ∃ busy, (busy = .goto .test ∨ busy = .ret false) ∧
    acquire f = testThenSet busy
  release_eq : release = .write 0 (.ret ())

/-- The acquiring functions of IOLock. -/
inductive LockFn
  | acquire
  | tryAcquire
  deriving DecidableEq

/-- IOLock. -/
def lpnuIOLock : Interface where
  Fn := LockFn
  acquire
    | .acquire => lpnuIOLockAcquire
    | .tryAcquire => lpnuIOLockTryAcquire
  release := lpnuIOLockRelease
  acquire_eq
    | .acquire => ⟨.goto .test, Or.inl rfl, rfl⟩
    | .tryAcquire => ⟨.ret false, Or.inr rfl, rfl⟩
  release_eq := rfl

/-- IOSimpleLock, which has one acquiring function. -/
def lpnuIOSimpleLock : Interface where
  Fn := Unit
  acquire := fun _ => lpnuIOSimpleLockAcquire
  release := lpnuIOSimpleLockRelease
  acquire_eq := fun _ => ⟨.goto .test, Or.inl rfl, rfl⟩
  release_eq := rfl

/-- How far a client is: it holds nothing and is in no call, it is about
to make an access of an acquiring function, or its acquire has succeeded
and it has not released since. -/
inductive Phase (Fn : Type)
  | outside
  | acquiring (f : Fn) (pc : AcquirePc)
  | holding

/-- The accesses a client can make: the first one of an acquiring
function, the next one of the function it is in, or that of a release. -/
inductive Action (Fn Client : Type)
  | enter (c : Client) (f : Fn)
  | resume (c : Client)
  | release (c : Client)

variable {Client : Type} [DecidableEq Client] {I : Interface}

/-- The phase an access of `f` leads to. -/
def phaseAfter {Fn : Type} (f : Fn) : Next AcquirePc Bool → Phase Fn
  | .goto pc => .acquiring f pc
  | .ret true => .holding
  | .ret false => .outside

/-- An access of an acquiring function. -/
def accessAcquire (I : Interface) (s : State Client (Phase I.Fn)) (c : Client) (f : I.Fn)
    (pc : AcquirePc) : State Client (Phase I.Fn) :=
  let result := (I.acquire f pc).run s.cell
  s.access c result.1 (phaseAfter f result.2)

/-- The access of a release. -/
def accessRelease (I : Interface) (s : State Client (Phase I.Fn)) (c : Client) :
    State Client (Phase I.Fn) :=
  s.access c (I.release.run s.cell).1 .outside

/-- One step of one client. A client that is not where the action starts
from does nothing: it enters no second call, and it releases only what it
holds. -/
def step (I : Interface) (s : State Client (Phase I.Fn)) :
    Action I.Fn Client → State Client (Phase I.Fn) × Unit
  | .enter c f =>
    match s.phase c with
    | .outside => (accessAcquire I s c f .test, ())
    | _ => (s, ())
  | .resume c =>
    match s.phase c with
    | .acquiring f pc => (accessAcquire I s c f pc, ())
    | _ => (s, ())
  | .release c =>
    match s.phase c with
    | .holding => (accessRelease I s c, ())
    | _ => (s, ())

/-- A lock as it is created: its flag is clear, and nobody has called. -/
def created (Fn Client : Type) : State Client (Phase Fn) where
  cell := 0
  phase := fun _ => .outside

/-- **Mutual exclusion**: no two clients hold the lock. -/
def MutualExclusion {Fn : Type} (s : State Client (Phase Fn)) : Prop :=
  ∀ c c', s.phase c = .holding → s.phase c' = .holding → c = c'

/-! ## The schedule -/

/-- The accesses a step makes: one, or none where its client is not where
the action starts from. -/
def accesses (I : Interface) (s : State Client (Phase I.Fn)) :
    Action I.Fn Client → List (CellAccess Client)
  | .enter c f =>
    match s.phase c with
    | .outside => [(I.acquire f .test).access c]
    | _ => []
  | .resume c =>
    match s.phase c with
    | .acquiring f pc => [(I.acquire f pc).access c]
    | _ => []
  | .release c =>
    match s.phase c with
    | .holding => [I.release.access c]
    | _ => []

/-- The accesses a run has made, the newest first. -/
def schedule (I : Interface) :
    List (Entry (State Client (Phase I.Fn)) (Action I.Fn Client) Unit) → List (CellAccess Client)
  | [] => []
  | e :: past => accesses I e.before e.call ++ schedule I past

/-- **One client overtakes another**: by the accesses made so far, the
newest first, it has written the flag since the other last read it, and
did not clear it last. -/
def Overtakes (d c : Client) : List (CellAccess Client) → Prop
  | [] => False
  | .read x :: past => x ≠ c ∧ Overtakes d c past
  | .write x value :: past => if x = d then value ≠ 0 else Overtakes d c past

/-- **The condition on a step**: where its client sets `l->locked`, no
other client has set it since this one read it, or it has cleared it
again. -/
def SetsUnovertaken (I : Interface)
    (c : Recorded (State Client (Phase I.Fn)) (Action I.Fn Client) Unit)
    (a : Action I.Fn Client) : Prop :=
  ∀ x value, .write x value ∈ accesses I c.now a → value ≠ 0 →
    ∀ d, d ≠ x → ¬ Overtakes d x (schedule I c.past)

/-- The beginning of a recorded run. -/
def start (I : Interface) (Client : Type) :
    Recorded (State Client (Phase I.Fn)) (Action I.Fn Client) Unit :=
  ⟨created I.Fn Client, []⟩

variable {s : State Client (Phase I.Fn)} {c d x : Client}

/-! ## What a step does -/

/-- The test of an acquiring function leaves the flag. Its client does not
hold the lock after it, and goes on to set the flag only if it found it
clear. -/
theorem accessAcquire_test (f : I.Fn) :
    ∃ phase, phase ≠ .holding ∧ (∀ f', phase = .acquiring f' .set → s.cell = 0) ∧
      accessAcquire I s c f .test = s.access c s.cell phase := by
  obtain ⟨busy, hbusy, hf⟩ := I.acquire_eq f
  refine ⟨phaseAfter f (if s.cell ≠ 0 then busy else .goto .set), ?_, ?_, ?_⟩
  · split
    · rcases hbusy with rfl | rfl <;> simp [phaseAfter]
    · simp [phaseAfter]
  · intro f' hset
    by_contra hcell
    rw [if_pos hcell] at hset
    rcases hbusy with rfl | rfl <;> simp [phaseAfter] at hset
  · simp only [accessAcquire, hf, testThenSet, Instr.run]

/-- The assignment sets the flag, and its client holds the lock. -/
theorem accessAcquire_set (f : I.Fn) :
    accessAcquire I s c f .set = s.access c 1 .holding := by
  obtain ⟨busy, -, hf⟩ := I.acquire_eq f
  simp only [accessAcquire, hf, testThenSet, Instr.run, phaseAfter]

theorem accessRelease_eq : accessRelease I s c = s.access c 0 .outside := by
  simp only [accessRelease, I.release_eq, Instr.run]

omit [DecidableEq Client] in
/-- The test reads, and the assignment writes. -/
theorem access_acquire (f : I.Fn) :
    (I.acquire f .test).access c = .read c ∧ (I.acquire f .set).access c = .write c 1 := by
  obtain ⟨busy, -, hf⟩ := I.acquire_eq f
  simp only [hf, testThenSet, Instr.access, and_self]

omit [DecidableEq Client] in
theorem access_release : I.release.access c = .write c 0 := by
  rw [I.release_eq, Instr.access]

/-- **What a step can do**: nothing, a test, the assignment that acquires,
or the one that releases. -/
theorem step_cases (I : Interface) (s : State Client (Phase I.Fn)) (a : Action I.Fn Client) :
    (step I s a).1 = s ∧ accesses I s a = [] ∨
      (∃ c phase, s.phase c ≠ .holding ∧ phase ≠ .holding ∧
        (∀ f, phase = .acquiring f .set → s.cell = 0) ∧
        (step I s a).1 = s.access c s.cell phase ∧ accesses I s a = [.read c]) ∨
      (∃ c f, s.phase c = .acquiring f .set ∧ (step I s a).1 = s.access c 1 .holding ∧
        accesses I s a = [.write c 1]) ∨
      ∃ c, s.phase c = .holding ∧ (step I s a).1 = s.access c 0 .outside ∧
        accesses I s a = [.write c 0] := by
  cases a with
  | enter c f =>
    simp only [step, accesses]
    split
    · rename_i hc
      obtain ⟨phase, hphase, hset, h⟩ := accessAcquire_test (s := s) (c := c) f
      rw [(access_acquire f).1]
      exact Or.inr (Or.inl ⟨c, phase, by simp [hc], hphase, hset, h, rfl⟩)
    · exact Or.inl ⟨rfl, rfl⟩
  | resume c =>
    simp only [step, accesses]
    split
    · rename_i f pc hc
      cases pc with
      | test =>
        obtain ⟨phase, hphase, hset, h⟩ := accessAcquire_test (s := s) (c := c) f
        rw [(access_acquire f).1]
        exact Or.inr (Or.inl ⟨c, phase, by simp [hc], hphase, hset, h, rfl⟩)
      | set =>
        rw [(access_acquire f).2]
        exact Or.inr (Or.inr (Or.inl ⟨c, f, hc, accessAcquire_set f, rfl⟩))
    · exact Or.inl ⟨rfl, rfl⟩
  | release c =>
    simp only [step, accesses]
    split
    · rename_i hc
      rw [access_release]
      exact Or.inr (Or.inr (Or.inr ⟨c, hc, accessRelease_eq, rfl⟩))
    · exact Or.inl ⟨rfl, rfl⟩

/-! ## Mutual exclusion -/

/-- **The flag is exact**: it is clear exactly if nobody holds the lock. -/
def FlagExact {Fn : Type} (s : State Client (Phase Fn)) : Prop :=
  s.cell = 0 ↔ ∀ c, s.phase c ≠ .holding

omit [DecidableEq Client] in
theorem flagExact_created {Fn : Type} : FlagExact (created Fn Client) := by
  simp [FlagExact, created]

omit [DecidableEq Client] in
theorem mutualExclusion_created {Fn : Type} : MutualExclusion (created Fn Client) := by
  intro c c' hc
  simp [created] at hc

/-- Who holds the lock after an access that does not acquire it. -/
theorem holding_access {cell : ℤ} {phase : Phase I.Fn} (hphase : phase ≠ .holding)
    {c' : Client} :
    (s.access c cell phase).phase c' = .holding ↔ c' ≠ c ∧ s.phase c' = .holding := by
  rcases eq_or_ne c' c with rfl | hne
  · rw [access_phase_self]
    simp [hphase]
  · rw [access_phase_of_ne hne]
    simp [hne]

/-- Such an access leaves at most one holder. -/
theorem mutualExclusion_access {cell : ℤ} {phase : Phase I.Fn} (hphase : phase ≠ .holding)
    (h : MutualExclusion s) : MutualExclusion (s.access c cell phase) := by
  intro c₁ c₂ h₁ h₂
  exact h c₁ c₂ ((holding_access hphase).1 h₁).2 ((holding_access hphase).1 h₂).2

/-- Out of a state with at most one holder, every step keeps the flag
exact. A release clears it, and its client was the only holder. -/
theorem flagExact_step (hflag : FlagExact s) (hmutex : MutualExclusion s)
    (a : Action I.Fn Client) : FlagExact (step I s a).1 := by
  rcases step_cases I s a with ⟨h, -⟩ | ⟨c, phase, hc, hphase, -, h, -⟩ | ⟨c, f, -, h, -⟩ |
      ⟨c, hc, h, -⟩
  · rw [h]
    exact hflag
  · rw [h, FlagExact, access_cell]
    refine hflag.trans ?_
    simp only [ne_eq, holding_access hphase, not_and]
    constructor
    · intro hall c' _
      exact hall c'
    · intro hall c'
      rcases eq_or_ne c' c with rfl | hne
      · exact hc
      · exact hall c' hne
  · rw [h, FlagExact, access_cell]
    have hheld : (s.access c 1 (.holding : Phase I.Fn)).phase c = .holding := access_phase_self
    constructor
    · intro h10
      omega
    · intro hall
      exact absurd hheld (hall c)
  · rw [h, FlagExact, access_cell]
    refine iff_of_true rfl fun c' hc' => ?_
    obtain ⟨hne, hc'⟩ := (holding_access (by simp)).1 hc'
    exact hne (hmutex c' c hc' hc)

/-! ## Who is overtaken -/

/-- **Those about to set the flag have been overtaken by the holders**,
and by nobody else. A client that set the flag before it was read and kept
it would have been found out by the test. -/
def OvertakenByHolders (I : Interface)
    (c : Recorded (State Client (Phase I.Fn)) (Action I.Fn Client) Unit) : Prop :=
  ∀ x f, c.now.phase x = .acquiring f .set → ∀ d, d ≠ x →
    (Overtakes d x (schedule I c.past) ↔ c.now.phase d = .holding)

theorem overtakes_read {past : List (CellAccess Client)} :
    Overtakes d x (.read c :: past) ↔ c ≠ x ∧ Overtakes d x past := Iff.rfl

theorem overtakes_write_self {value : ℤ} {past : List (CellAccess Client)} :
    Overtakes d x (.write d value :: past) ↔ value ≠ 0 := by
  simp [Overtakes]

theorem overtakes_write_of_ne {value : ℤ} {past : List (CellAccess Client)} (h : c ≠ d) :
    Overtakes d x (.write c value :: past) ↔ Overtakes d x past := by
  simp [Overtakes, h]

variable {r : Recorded (State Client (Phase I.Fn)) (Action I.Fn Client) Unit}
  {a : Action I.Fn Client}

theorem schedule_record :
    schedule I (record (step I) r a).1.past = accesses I r.now a ++ schedule I r.past := rfl

/-- A client's write of the flag: it overtakes the others exactly if it
sets the flag, which is to say if it holds the lock then. -/
theorem overtakenByHolders_write (h : OvertakenByHolders I r) {value : ℤ}
    {phase : Phase I.Fn} (hset : ∀ f, phase ≠ .acquiring f .set)
    (hvalue : value ≠ 0 ↔ phase = .holding)
    (hnow : (step I r.now a).1 = r.now.access c value phase)
    (hacc : accesses I r.now a = [.write c value]) :
    OvertakenByHolders I (record (step I) r a).1 := by
  intro x f hx d hd
  rw [record_now, hnow] at hx ⊢
  rw [schedule_record, hacc, List.singleton_append]
  have hxc : x ≠ c := by
    rintro rfl
    rw [access_phase_self] at hx
    exact hset f hx
  rw [access_phase_of_ne hxc] at hx
  rcases eq_or_ne d c with rfl | hdc
  · rw [overtakes_write_self, access_phase_self, hvalue]
  · rw [overtakes_write_of_ne (Ne.symm hdc), access_phase_of_ne hdc]
    exact h x f hx d hd

/-- **One step keeps track of who is overtaken.** A client that comes to
the assignment has just found the flag clear, so nobody holds the lock. -/
theorem overtakenByHolders_step (hflag : FlagExact r.now) (h : OvertakenByHolders I r)
    (a : Action I.Fn Client) : OvertakenByHolders I (record (step I) r a).1 := by
  rcases step_cases I r.now a with ⟨hnow, hacc⟩ | ⟨c, phase, hc, hphase, hclear, hnow, hacc⟩ |
      ⟨c, f, -, hnow, hacc⟩ | ⟨c, -, hnow, hacc⟩
  · intro x f hx d hd
    rw [record_now, hnow] at hx ⊢
    rw [schedule_record, hacc]
    exact h x f hx d hd
  · intro x f hx d hd
    rw [record_now, hnow] at hx ⊢
    rw [schedule_record, hacc, List.singleton_append, overtakes_read, holding_access hphase]
    rcases eq_or_ne x c with rfl | hxc
    · -- the test was its own
      rw [access_phase_self] at hx
      have hnone : r.now.phase d ≠ .holding := hflag.1 (hclear f hx) d
      simp [hnone]
    · rw [access_phase_of_ne hxc] at hx
      have hiff := h x f hx d hd
      rw [hiff]
      constructor
      · rintro ⟨-, hd'⟩
        refine ⟨?_, hd'⟩
        rintro rfl
        exact hc hd'
      · exact fun hd' => ⟨Ne.symm hxc, hd'.2⟩
  · exact overtakenByHolders_write h (by simp) (by simp) hnow hacc
  · exact overtakenByHolders_write h (by simp) (by simp) hnow hacc

/-! ## The exact condition -/

/-- Out of a state with at most one holder and an exact flag, a step leads
to at most one holder exactly if it overtakes nobody who has overtaken
it. -/
theorem mutualExclusion_step_iff (hover : OvertakenByHolders I r)
    (hmutex : MutualExclusion r.now) (a : Action I.Fn Client) :
    MutualExclusion (step I r.now a).1 ↔ SetsUnovertaken I r a := by
  rcases step_cases I r.now a with ⟨hnow, hacc⟩ | ⟨c, phase, -, hphase, -, hnow, hacc⟩ |
      ⟨c, f, hc, hnow, hacc⟩ | ⟨c, -, hnow, hacc⟩
  · rw [hnow]
    exact iff_of_true hmutex fun x value hx => by simp [hacc] at hx
  · rw [hnow]
    refine iff_of_true (mutualExclusion_access hphase hmutex) fun x value hx => ?_
    simp [hacc] at hx
  · have hcond : SetsUnovertaken I r a ↔ ∀ d, d ≠ c → r.now.phase d ≠ .holding := by
      simp only [SetsUnovertaken, hacc, List.mem_singleton, CellAccess.write.injEq]
      constructor
      · intro h d hd hheld
        exact h c 1 ⟨rfl, rfl⟩ (by decide) d hd ((hover c f hc d hd).2 hheld)
      · rintro h x value ⟨rfl, rfl⟩ - d hd hovertakes
        exact h d hd ((hover x f hc d hd).1 hovertakes)
    rw [hnow, hcond]
    constructor
    · intro hone d hd hheld
      refine hd (hone d c ?_ access_phase_self)
      rw [access_phase_of_ne hd]
      exact hheld
    · intro hnone c₁ c₂ h₁ h₂
      have honly : ∀ {c'}, (r.now.access c 1 (.holding : Phase I.Fn)).phase c' = .holding →
          c' = c := by
        intro c' h'
        by_contra hne
        rw [access_phase_of_ne hne] at h'
        exact hnone c' hne h'
      rw [honly h₁, honly h₂]
  · rw [hnow]
    refine iff_of_true (mutualExclusion_access (by simp) hmutex) fun x value hx hne => ?_
    simp only [hacc, List.mem_singleton, CellAccess.write.injEq] at hx
    exact absurd hx.2 hne

/-- The exact condition for a lock of either kind. -/
theorem throughout_mutualExclusion_iff (run : List (Action I.Fn Client)) :
    Throughout (step I) (created I.Fn Client) MutualExclusion run ↔
      EachStep (record (step I)) (start I Client) (SetsUnovertaken I) run := by
  have hrecorded : Throughout (record (step I)) (start I Client)
      (fun r => MutualExclusion r.now) run ↔
        Throughout (step I) (created I.Fn Client) MutualExclusion run := throughout_record
  have hstart : FlagExact (start I Client).now ∧ OvertakenByHolders I (start I Client) := by
    refine ⟨flagExact_created, fun x f hx => ?_⟩
    simp [start, created] at hx
  have hinv : ∀ (r : Recorded (State Client (Phase I.Fn)) (Action I.Fn Client) Unit) a,
      FlagExact r.now ∧ OvertakenByHolders I r → MutualExclusion r.now →
        FlagExact (record (step I) r a).1.now ∧ OvertakenByHolders I (record (step I) r a).1 :=
    fun r a h hmutex => ⟨flagExact_step h.1 hmutex a, overtakenByHolders_step h.1 h.2 a⟩
  rw [← hrecorded]
  exact throughout_iff_eachStep' hinv (fun r a h hmutex => mutualExclusion_step_iff h.2 hmutex a)
    hstart mutualExclusion_created

/-- **Mutual exclusion of IOLock and of IOSimpleLock.** In any
interleaving of any clients, at most one of them at a time holds the lock
exactly if every assignment `l->locked = 1` is made when no other client
has set the flag since this one read it, or each that has cleared it
again. -/
theorem mutualExclusion_iff :
    (∀ run : List (Action lpnuIOLock.Fn Client),
      Throughout (step lpnuIOLock) (created lpnuIOLock.Fn Client) MutualExclusion run ↔
        EachStep (record (step lpnuIOLock)) (start lpnuIOLock Client)
          (SetsUnovertaken lpnuIOLock) run) ∧
    ∀ run : List (Action lpnuIOSimpleLock.Fn Client),
      Throughout (step lpnuIOSimpleLock) (created lpnuIOSimpleLock.Fn Client)
          MutualExclusion run ↔
        EachStep (record (step lpnuIOSimpleLock)) (start lpnuIOSimpleLock Client)
          (SetsUnovertaken lpnuIOSimpleLock) run :=
  ⟨throughout_mutualExclusion_iff, throughout_mutualExclusion_iff⟩

/-- Two clients find the flag clear, one after the other, and then both
set it. -/
def bothAcquire {Fn : Type} (f : Fn) : List (Action Fn Bool) :=
  [.enter true f, .enter false f, .resume true, .resume false]

theorem both_clients_hold :
    ¬ Throughout (step lpnuIOLock) (created lpnuIOLock.Fn Bool) MutualExclusion
        (bothAcquire LockFn.acquire) ∧
      ¬ Throughout (step lpnuIOSimpleLock) (created lpnuIOSimpleLock.Fn Bool) MutualExclusion
        (bothAcquire ()) := by
  constructor
  · intro h
    exact absurd (h.last true false rfl rfl) (by decide)
  · intro h
    exact absurd (h.last true false rfl rfl) (by decide)

end Lock

end IOKit

end Lpnu
