import Lpnu.IOKit.Lock
/-!
# IOLock and IOSimpleLock — nobody is locked out

The race between test and assignment lets two clients in
(`mutualExclusion_iff`), but it keeps nobody out: whatever the clients
did before, the flag is set only while one of them holds the lock, so
that a client that is left alone with a lock nobody holds gets it
(`progress_after`). And `LPNUIOLockTryAcquire` is over after its client's
second access at the latest, whatever the others do meanwhile
(`tryAcquire_returns`).
-/

namespace Lpnu

namespace IOKit

namespace Lock

open Run SharedCell

variable {Client : Type} [DecidableEq Client] {I : Interface}

/-- The client that makes an access. -/
def Action.client {Fn : Type} : Action Fn Client → Client
  | .enter c _ | .resume c | .release c => c

/-- **The flag is no lockout**: it is set only while somebody holds the
lock. -/
def SetWhileHeld {Fn : Type} (s : State Client (Phase Fn)) : Prop :=
  s.cell ≠ 0 → ∃ c, s.phase c = .holding

/-- Nobody holds the lock. -/
def Free {Fn : Type} (s : State Client (Phase Fn)) : Prop := ∀ c, s.phase c ≠ .holding

/-- **A client left alone with a free lock gets it**, from outside or from
where it is in an acquiring function, by any of them. -/
structure Progress (I : Interface) (s : State Client (Phase I.Fn)) : Prop where
  setWhileHeld : SetWhileHeld s
  enters : Free s → ∀ c f, s.phase c = .outside →
    (after (step I) s [.enter c f, .resume c]).phase c = .holding
  goesOn : Free s → ∀ c f pc, s.phase c = .acquiring f pc →
    (after (step I) s [.resume c, .resume c]).phase c = .holding

variable {s : State Client (Phase I.Fn)} {c : Client} {f : I.Fn}

/-! ## The accesses of one client -/

/-- The test of a clear flag leads on to the assignment. -/
theorem accessAcquire_test_clear (hclear : s.cell = 0) :
    accessAcquire I s c f .test = s.access c 0 (.acquiring f .set) := by
  obtain ⟨busy, -, hf⟩ := I.acquire_eq f
  simp only [accessAcquire, hf, testThenSet, Instr.run, hclear, ne_eq, not_true_eq_false,
    if_false, phaseAfter]

theorem step_enter (hc : s.phase c = .outside) :
    (step I s (.enter c f)).1 = accessAcquire I s c f .test := by
  simp only [step, hc]

theorem step_resume {pc : AcquirePc} (hc : s.phase c = .acquiring f pc) :
    (step I s (.resume c)).1 = accessAcquire I s c f pc := by
  simp only [step, hc]

/-- A client about to assign holds the lock after its next access. -/
theorem holding_of_set (hc : s.phase c = .acquiring f .set) :
    ((step I s (.resume c)).1.phase c) = .holding := by
  rw [step_resume hc, accessAcquire_set, access_phase_self]

/-- A client in no acquiring function has nothing to resume. -/
theorem step_resume_of_not_acquiring (hc : ∀ f pc, s.phase c ≠ .acquiring f pc) :
    (step I s (.resume c)).1 = s := by
  simp only [step]

/-- **No client moves another.** -/
theorem phase_step_of_ne {a : Action I.Fn Client} (ha : a.client ≠ c) :
    (step I s a).1.phase c = s.phase c := by
  cases a with
  | enter c' f =>
    simp only [step]
    split
    · exact access_phase_of_ne (Ne.symm ha)
    · rfl
  | resume c' =>
    simp only [step]
    split
    · exact access_phase_of_ne (Ne.symm ha)
    · rfl
  | release c' =>
    simp only [step]
    split
    · exact access_phase_of_ne (Ne.symm ha)
    · rfl

/-- Nor do several of them. -/
theorem phase_after_of_ne {others : List (Action I.Fn Client)}
    (hothers : ∀ a ∈ others, a.client ≠ c) :
    (after (step I) s others).phase c = s.phase c := by
  induction others generalizing s with
  | nil => rfl
  | cons a others ih =>
    rw [List.forall_mem_cons] at hothers
    rw [after_cons, ih hothers.2, phase_step_of_ne hothers.1]

/-! ## The flag -/

/-- **Every step leaves the flag clear or somebody holding**, also one
that lets a second client in. -/
theorem setWhileHeld_step (h : SetWhileHeld s) (a : Action I.Fn Client) :
    SetWhileHeld (step I s a).1 := by
  rcases step_cases I s a with ⟨heq, -⟩ | ⟨c, phase, hc, hphase, -, heq, -⟩ |
      ⟨c, f, -, heq, -⟩ | ⟨c, -, heq, -⟩
  · rw [heq]
    exact h
  · rw [heq]
    intro hset
    obtain ⟨c', hc'⟩ := h hset
    refine ⟨c', (holding_access hphase).2 ⟨?_, hc'⟩⟩
    rintro rfl
    exact hc hc'
  · rw [heq]
    exact fun _ => ⟨c, access_phase_self⟩
  · rw [heq]
    exact fun hset => absurd rfl hset

omit [DecidableEq Client] in
theorem cell_of_free (h : SetWhileHeld s) (hfree : Free s) : s.cell = 0 := by
  by_contra hset
  obtain ⟨c, hc⟩ := h hset
  exact hfree c hc

theorem progress_of_setWhileHeld (h : SetWhileHeld s) : Progress I s := by
  refine ⟨h, fun hfree c f hc => ?_, fun hfree c f pc hc => ?_⟩
  · have hclear := cell_of_free h hfree
    rw [after_cons, after_cons, after_nil, step_enter hc, accessAcquire_test_clear hclear]
    exact holding_of_set (f := f) access_phase_self
  · have hclear := cell_of_free h hfree
    rw [after_cons, after_cons, after_nil]
    cases pc with
    | test =>
      rw [step_resume hc, accessAcquire_test_clear hclear]
      exact holding_of_set (f := f) access_phase_self
    | set =>
      -- one access is enough, and the other does nothing
      have hheld := holding_of_set hc
      rw [step_resume_of_not_acquiring fun f pc => by rw [hheld]; simp]
      exact hheld

theorem progress_throughout (run : List (Action I.Fn Client)) :
    Progress I (after (step I) (created I.Fn Client) run) := by
  have hcreated : SetWhileHeld (created I.Fn Client) := fun hset => absurd rfl hset
  have hstep : ∀ (s : State Client (Phase I.Fn)) (a : Action I.Fn Client), SetWhileHeld s →
      SetWhileHeld (step I s a).1 := fun s a h => setWhileHeld_step h a
  exact progress_of_setWhileHeld (after_of_inv hstep hcreated run)

/-- **Nobody is locked out of IOLock or of IOSimpleLock.** Whatever the
clients have done, in any interleaving and with or without mutual
exclusion, the flag is set only while one of them holds the lock, and a
client left alone with a lock nobody holds gets it by two accesses. -/
theorem progress_after :
    (∀ run : List (Action lpnuIOLock.Fn Client),
      Progress lpnuIOLock (after (step lpnuIOLock) (created lpnuIOLock.Fn Client) run)) ∧
    ∀ run : List (Action lpnuIOSimpleLock.Fn Client),
      Progress lpnuIOSimpleLock
        (after (step lpnuIOSimpleLock) (created lpnuIOSimpleLock.Fn Client) run) :=
  ⟨progress_throughout, progress_throughout⟩

/-! ## Trying -/

/-- `LPNUIOLockTryAcquire`, among the functions of the lock. -/
def tryAcquire : lpnuIOLock.Fn := LockFn.tryAcquire

/-- The test of a set flag gives up. -/
theorem tryAcquire_gives_up {s : State Client (Phase lpnuIOLock.Fn)} (hset : s.cell ≠ 0) :
    accessAcquire lpnuIOLock s c tryAcquire .test = s.access c s.cell .outside := by
  have hfn : lpnuIOLock.acquire tryAcquire = testThenSet (.ret false) := rfl
  simp only [accessAcquire, hfn, testThenSet, Instr.run, hset, ne_eq, not_false_eq_true, if_true,
    phaseAfter]

/-- **`LPNUIOLockTryAcquire` returns** by its client's second access,
whatever the others do between the two: with the lock if its test found
the flag clear, and without it otherwise. -/
theorem tryAcquire_returns (s : State Client (Phase lpnuIOLock.Fn)) (c : Client)
    (others : List (Action lpnuIOLock.Fn Client)) (hc : s.phase c = .outside)
    (hothers : ∀ a ∈ others, a.client ≠ c) :
    (after (step lpnuIOLock) s (.enter c tryAcquire :: (others ++ [.resume c]))).phase c =
      if s.cell = 0 then .holding else .outside := by
  rw [after_cons, after_concat, step_enter hc]
  by_cases hclear : s.cell = 0
  · rw [if_pos hclear, accessAcquire_test_clear hclear]
    have hset : (after (step lpnuIOLock) (s.access c 0 (.acquiring tryAcquire .set))
        others).phase c = .acquiring tryAcquire .set := by
      rw [phase_after_of_ne hothers, access_phase_self]
    exact holding_of_set hset
  · rw [if_neg hclear, tryAcquire_gives_up hclear]
    have hout : (after (step lpnuIOLock) (s.access c s.cell .outside) others).phase c =
        .outside := by
      rw [phase_after_of_ne hothers, access_phase_self]
    rw [step_resume_of_not_acquiring fun f pc => by rw [hout]; simp]
    exact hout

/-- One client tries while another acquires and holds. -/
def besideRun : List (Action lpnuIOLock.Fn Bool) :=
  [.enter false LockFn.acquire, .resume false]

theorem tryAcquire_returns_beside :
    (after (step lpnuIOLock) (created lpnuIOLock.Fn Bool)
      (.enter true tryAcquire :: (besideRun ++ [.resume true]))).phase true = .holding := by
  have hreturns := tryAcquire_returns (created lpnuIOLock.Fn Bool) true besideRun rfl
    (by simp [besideRun, Action.client])
  rw [hreturns]
  exact if_pos rfl

end Lock

end IOKit

end Lpnu
