import Lpnu.Kext.Load
/-!
# The kext runtime — the switch

The header's promise, "disabled by default for safety": nothing is loaded
while the runtime is off, and it is off until a call turns it on.
`gated_throughout` states it over runs, of the switch itself and of every
call made while it is off.
-/

namespace Lpnu

namespace Kext

open Run

/-- The argument of the last `SetRuntime` that returned 0, by the calls
made so far, the newest first; 0 if there was none. -/
def lastAccepted : List (Entry State Call Out) → ℤ
  | [] => 0
  | e :: past =>
    match e.call with
    | .setRuntime enabled => if e.out.ret = 0 then enabled else lastAccepted past
    | _ => lastAccepted past

/-- **Nothing is loaded by a call**: it asks the host nothing, opens no
module, starts no kext, leaves every record as it is and lists none that
was not listed. -/
structure LoadsNothing (s : State) (call : Call) : Prop where
  asksNothing : ∀ path info env, call = .load path info env →
    ∀ env', step s (.load path info env') = step s (.load path info env)
  noDlopen : ∀ handle, .dlopen handle ∉ (step s call).2.events
  noStart : ∀ code, .start code ∉ (step s call).2.events
  records_eq : (step s call).1.records = s.records
  live_sublist : (step s call).1.loadedKexts.live.Sublist s.loadedKexts.live

/-- **The switch gates the runtime**: it is 0 or 1, it is what was last
accepted, and no call made while it was 0 loaded anything. -/
structure Gated (c : Recorded State Call Out) : Prop where
  isSwitch : c.now.runtimeEnabled = 0 ∨ c.now.runtimeEnabled = 1
  last : c.now.runtimeEnabled = lastAccepted c.past
  shut : ∀ e ∈ c.past, e.before.runtimeEnabled = 0 → LoadsNothing e.before e.call

variable {s : State} {c : Recorded State Call Out} {l : List ℕ}

/-! ## The switch -/

/-- **`SetRuntime` accepts 0 and 1**, and rejects any other argument. -/
theorem setRuntime_cases (s : State) (enabled : ℤ) :
    ((enabled = 0 ∨ enabled = 1) ∧ (lpnuKextSetRuntime s enabled).2.ret = 0 ∧
        (lpnuKextSetRuntime s enabled).1.runtimeEnabled = enabled) ∨
      ((lpnuKextSetRuntime s enabled).2.ret ≠ 0 ∧ (lpnuKextSetRuntime s enabled).1 = s) := by
  unfold lpnuKextSetRuntime lpnuKextDisabled lpnuKextEnabled
  by_cases h : enabled ≠ 0 ∧ enabled ≠ 1
  · rw [if_pos h]
    exact Or.inr ⟨by simp, rfl⟩
  · rw [if_neg h]
    exact Or.inl ⟨by omega, rfl, rfl⟩

theorem registerKext_runtimeEnabled {r : ℕ} {events : List Event} :
    (registerKext s r events).1.runtimeEnabled = s.runtimeEnabled := by
  unfold registerKext
  split <;> rfl

/-- No load moves the switch. -/
theorem load_runtimeEnabled (path : Option Path) (info : Option ℕ) (env : LoadEnv) :
    (lpnuKextLoad s path info env).1.runtimeEnabled = s.runtimeEnabled := by
  cases info with
  | none => rw [lpnuKextLoad_none]
  | some r =>
    rcases lpnuKextLoad_cases s path r env with ⟨-, ret, -, heq⟩ | ⟨p, handle, size, -, -, -, -, hway⟩
    · rw [heq]
    · rcases hway with ⟨-, heq⟩ | ⟨-, heq⟩
      · rw [heq]
        rfl
      · rw [heq, registerKext_runtimeEnabled]
        rfl

/-- No call but `SetRuntime` moves the switch. -/
theorem runtimeEnabled_step {call : Call} (h : ∀ enabled, call ≠ .setRuntime enabled) :
    (step s call).1.runtimeEnabled = s.runtimeEnabled := by
  cases call with
  | setRuntime enabled => exact absurd rfl (h enabled)
  | load path info env => exact load_runtimeEnabled path info env
  | unload info => cases info <;> rfl
  | loadBootKexts => rw [step, loadBootKexts_eq]

/-! ## While it is off -/

/-- A load is refused before anything is asked of the host. -/
theorem load_of_disabled (h : s.runtimeEnabled = 0) (path : Option Path) (info : Option ℕ) :
    ∃ ret, ∀ env, lpnuKextLoad s path info env = (s, { ret := ret }) := by
  have hoff : s.runtimeEnabled = lpnuKextDisabled := h
  rcases path with _ | p <;> rcases info with _ | r
  · exact ⟨-1, fun env => rfl⟩
  · exact ⟨-1, fun env => rfl⟩
  · exact ⟨-1, fun env => rfl⟩
  · refine ⟨-2, fun env => ?_⟩
    simp only [lpnuKextLoad]
    rw [if_pos hoff]

/-- A call that asks, calls and changes nothing loads nothing. -/
theorem loadsNothing_of_eq {call : Call}
    (hasks : ∀ path info env, call = .load path info env →
      ∀ env', step s (.load path info env') = step s (.load path info env))
    (hevents : (step s call).2.events = []) (hrecords : (step s call).1.records = s.records)
    (htable : (step s call).1.loadedKexts = s.loadedKexts) : LoadsNothing s call := by
  refine ⟨hasks, fun handle => ?_, fun code => ?_, hrecords, ?_⟩
  · rw [hevents]
    exact List.not_mem_nil
  · rw [hevents]
    exact List.not_mem_nil
  · rw [htable]

/-- While the switch is off, a load loads nothing. -/
theorem loadsNothing_load (h : s.runtimeEnabled = 0) (path : Option Path)
    (info : Option ℕ) (env : LoadEnv) : LoadsNothing s (.load path info env) := by
  obtain ⟨ret, heq⟩ := load_of_disabled h path info
  have hstep : ∀ env, step s (.load path info env) = (s, { ret := ret }) := heq
  refine loadsNothing_of_eq (fun path' info' env₁ he env₂ => ?_) ?_ ?_ ?_
  · cases he
    rw [hstep, hstep]
  · rw [hstep]
  · rw [hstep]
  · rw [hstep]

/-- An unload makes no call but `stop` and `dlclose`, and only takes off
the list. -/
theorem loadsNothing_unload (hl : Listed s.loadedKexts l) (r : ℕ) :
    LoadsNothing s (.unload (some r)) := by
  have hevents : ∀ e ∈ (step s (.unload (some r))).2.events,
      (∃ entry, e = .stop entry) ∨ ∃ handle, e = .dlclose handle := by
    intro e he
    simp only [step, lpnuKextUnload, unloadEvents, List.mem_append, Option.mem_toList,
      Option.map_eq_some_iff] at he
    rcases he with ⟨entry, -, rfl⟩ | ⟨handle, -, rfl⟩
    · exact Or.inl ⟨entry, rfl⟩
    · exact Or.inr ⟨handle, rfl⟩
  refine ⟨fun path info env he => ?_, fun handle he => ?_, fun code he => ?_, rfl, ?_⟩
  · cases he
  · rcases hevents _ he with ⟨entry, h⟩ | ⟨handle', h⟩ <;> cases h
  · rcases hevents _ he with ⟨entry, h⟩ | ⟨handle', h⟩ <;> cases h
  · have hl' : Listed (step s (.unload (some r))).1.loadedKexts (l.erase r) := listed_unload hl r
    rw [hl'.holds.live_eq, hl.holds.live_eq]
    exact List.erase_sublist.map some

/-- **While the switch is 0, no call loads anything.** -/
theorem loadsNothing_of_disabled (hl : Listed s.loadedKexts l) (h : s.runtimeEnabled = 0)
    (call : Call) : LoadsNothing s call := by
  cases call with
  | setRuntime enabled =>
    obtain ⟨htable, hrecords, hevents⟩ := setRuntime_frame s enabled
    exact loadsNothing_of_eq (by simp) hevents hrecords htable
  | load path info env => exact loadsNothing_load h path info env
  | unload info =>
    cases info with
    | none => exact loadsNothing_of_eq (by simp) rfl rfl rfl
    | some r => exact loadsNothing_unload hl r
  | loadBootKexts =>
    refine loadsNothing_of_eq (by simp) ?_ ?_ ?_
    · rw [step, loadBootKexts_eq]
    · rw [step, loadBootKexts_eq]
    · rw [step, loadBootKexts_eq]

/-! ## Over a run -/

/-- One call keeps the switch what was last accepted. -/
theorem gated_step (hl : ∃ l, Listed c.now.loadedKexts l) (h : Gated c) (call : Call) :
    Gated (record step c call).1 := by
  have hshut : ∀ e ∈ (record step c call).1.past, e.before.runtimeEnabled = 0 →
      LoadsNothing e.before e.call := by
    obtain ⟨l, hl⟩ := hl
    refine forall_mem_record_past.2 ⟨fun hoff => ?_, h.shut⟩
    exact loadsNothing_of_disabled hl hoff call
  by_cases hset : ∃ enabled, call = .setRuntime enabled
  · obtain ⟨enabled, rfl⟩ := hset
    rcases setRuntime_cases c.now enabled with ⟨hen, hret, hnow⟩ | ⟨hret, hnow⟩
    · have hnow' : (record step c (.setRuntime enabled)).1.now.runtimeEnabled = enabled := hnow
      refine ⟨by rw [hnow']; exact hen, ?_, hshut⟩
      rw [hnow', record_past, lastAccepted]
      exact (if_pos hret).symm
    · have hnow' : (record step c (.setRuntime enabled)).1.now = c.now := hnow
      refine ⟨by rw [hnow']; exact h.isSwitch, ?_, hshut⟩
      rw [hnow', record_past, lastAccepted]
      exact h.last.trans (if_neg hret).symm
  · have hother : ∀ enabled, call ≠ .setRuntime enabled := fun enabled he => hset ⟨enabled, he⟩
    have hnow : (record step c call).1.now.runtimeEnabled = c.now.runtimeEnabled :=
      runtimeEnabled_step hother
    have hlast : lastAccepted (record step c call).1.past = lastAccepted c.past := by
      rw [record_past, lastAccepted]
      split
      · rename_i enabled he
        exact absurd he (hother enabled)
      · rfl
    exact ⟨by rw [hnow]; exact h.isSwitch, by rw [hnow, hlast]; exact h.last, hshut⟩

/-- **The switch gates every run** from the start. -/
theorem gated_throughout (records : ℕ → LPnuKextInfo) (run : List Call) :
    Throughout (record step) (startWith records) Gated run := by
  have hstep : ∀ (c : Recorded State Call Out) call,
      ((∃ l, Listed c.now.loadedKexts l) ∧ Gated c) →
        (∃ l, Listed (record step c call).1.now.loadedKexts l) ∧ Gated (record step c call).1 :=
    fun c call ⟨hl, hg⟩ => ⟨listed_step hl call, gated_step hl hg call⟩
  have hstart : Gated (startWith records) :=
    ⟨Or.inl rfl, rfl, fun e he => absurd he List.not_mem_nil⟩
  have hboth : Throughout (record step) (startWith records)
      (fun c => (∃ l, Listed c.now.loadedKexts l) ∧ Gated c) run :=
    throughout_of_inv' hstep ⟨⟨[], Table.fits_empty⟩, hstart⟩
  exact fun pre hpre => (hboth pre hpre).2

end Kext

end Lpnu
