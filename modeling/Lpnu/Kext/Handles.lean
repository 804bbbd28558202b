import Lpnu.Common.Accounts
import Lpnu.Kext.Load
/-!
# The kext runtime — modules are closed as often as they are opened

Each `dlclose` should answer a `dlopen` of the same handle, and a kext's
`stop` should run while its module is open. A record owns its module from
the load that went through until its unload; the runtime does not write
that down, so a record that has been unloaded, or whose load failed in
`start`, still names a module it no longer owns. `sound_of_unloadsHeld`
is the balance of every run that unloads owned modules only. The proof
keeps an account of the modules: it covers the records that own one,
which are never more than its opens less its closes.
-/

namespace Lpnu

namespace Kext

open Accounts (Sound Covered Effect)
open Run

/-- What a call out does to a module: a `dlopen` opens it and a `dlclose`
closes it, and a `stop` needs it open. -/
def moduleEffect : Event → Effect ℕ
  | .dlopen handle => .acquire handle
  | .start _ => .other
  | .stop entry => .use entry.handle
  | .dlclose handle => .release handle

/-- **The record owns the module it names**: of the calls made so far, the
newest first, the last load to fill it went through and no unload of it
came after. -/
def HoldsModule : List (Entry State Call Out) → ℕ → Prop
  | [], _ => False
  | e :: past, r =>
    match e.call with
    | .load path (some r') env =>
      (r' = r ∧ Opens e.before path env ∧ Starts env) ∨
        (¬ (r' = r ∧ Opens e.before path env) ∧ HoldsModule past r)
    | .unload (some r') => r' ≠ r ∧ HoldsModule past r
    | _ => HoldsModule past r

/-- **The condition on a call**: an unload is made on a record that names
no module, or owns the one it names. -/
def UnloadsHeld (c : Recorded State Call Out) : Call → Prop
  | .unload (some r) => (c.now.records r).module = none ∨ HoldsModule c.past r
  | _ => True

/-- The calls out that a run has made. -/
def trace (c : Recorded State Call Out) : List Event := c.outs.flatMap Out.events

/-- The module a record names. -/
def moduleOf (s : State) (r : ℕ) : Option ℕ := (s.records r).module

variable {c : Recorded State Call Out} {s : State} {info : LPnuKextInfo} {h r : ℕ}
  {e : StopEntry} {O : Finset ℕ}

@[simp] theorem trace_record {call : Call} :
    trace (record step c call).1 = trace c ++ (step c.now call).2.events := by
  simp [trace]

theorem startEvents_other (env : LoadEnv) :
    ∀ ev ∈ startEvents env, moduleEffect ev = .other := by
  intro ev hev
  unfold startEvents at hev
  split at hev
  · exact absurd hev List.not_mem_nil
  · rw [List.mem_singleton.1 hev]
    rfl

theorem moduleOf_setRecord_self : moduleOf (s.setRecord r info) r = info.module := by
  rw [moduleOf, setRecord_self]

theorem moduleOf_setRecord_of_ne {x : ℕ} (hx : x ≠ r) :
    moduleOf (s.setRecord r info) x = moduleOf s x := by
  rw [moduleOf, setRecord_of_ne hx, moduleOf]

/-- What the modules are is up to the records. -/
theorem moduleOf_congr {s' : State} (hrecords : s'.records = s.records) :
    moduleOf s' = moduleOf s := by
  funext x
  rw [moduleOf, hrecords, moduleOf]

/-! ## The invariant -/

/-- A `stop` entry is that of the module beside it. -/
def StopsOwn (s : State) : Prop :=
  ∀ r e, (s.records r).stop = some e → moduleOf s r = some e.handle

/-- **What every run that unloads owned modules keeps**: the account of
the modules covers the records that own one, and each `stop` entry is that
of the module beside it. -/
structure Owned (c : Recorded State Call Out) (O : Finset ℕ) : Prop where
  covered : Covered moduleEffect (trace c) O (moduleOf c.now)
  mem_iff : ∀ r, r ∈ O ↔ HoldsModule c.past r
  stopsOwn : StopsOwn c.now

theorem stopsOwn_init : StopsOwn State.init := by
  intro r e he
  simp [State.init, LPnuKextInfo.zero] at he

theorem owned_start : Owned start ∅ where
  covered := Accounts.covered_nil
  mem_iff r := by simp [start, HoldsModule]
  stopsOwn := stopsOwn_init

theorem startedInfo_module {p : CString} {size : UInt64} {env : LoadEnv} :
    (startedInfo p h size env).module = some h := by
  unfold startedInfo
  split <;> rfl

theorem startedInfo_stop {p : CString} {size : UInt64} {env : LoadEnv}
    (he : (startedInfo p h size env).stop = some e) : e.handle = h := by
  unfold startedInfo at he
  split at he
  · cases he
  · obtain ⟨code, -, rfl⟩ := Option.map_eq_some_iff.1 he
    rfl

theorem StopsOwn.of_eq {s' : State} (hs : StopsOwn s) (hrecords : s'.records = s.records) :
    StopsOwn s' := by
  intro r e he
  rw [hrecords] at he
  rw [moduleOf_congr hrecords]
  exact hs r e he

/-- A record written over with one whose `stop` is that of its module. -/
theorem StopsOwn.setRecord {s' : State} (hs : StopsOwn s)
    (hrecords : s'.records = (s.setRecord r info).records)
    (hstop : ∀ e, info.stop = some e → info.module = some e.handle) : StopsOwn s' := by
  intro x e he
  rw [hrecords] at he
  rw [moduleOf_congr hrecords]
  by_cases hx : x = r
  · rw [hx, setRecord_self] at he
    rw [hx, moduleOf_setRecord_self]
    exact hstop e he
  · rw [setRecord_of_ne hx] at he
    rw [moduleOf_setRecord_of_ne hx]
    exact hs x e he

/-- A record that names no module has no `stop` either. -/
theorem StopsOwn.unloadEvents_eq_nil (hs : StopsOwn s) (hmodule : moduleOf s r = none) :
    unloadEvents (s.records r) = [] := by
  have hstop : (s.records r).stop = none := by
    rcases hentry : (s.records r).stop with _ | e
    · rfl
    · have hhandle := hs r e hentry
      rw [hmodule] at hhandle
      cases hhandle
  rw [moduleOf] at hmodule
  rw [unloadEvents, hmodule, hstop]
  rfl

/-- A call that calls nothing out and changes neither the records nor the
owners. -/
theorem Owned.of_eq (hO : Owned c O) {call : Call} (hevents : (step c.now call).2.events = [])
    (hrecords : (step c.now call).1.records = c.now.records)
    (hpast : ∀ r, HoldsModule (record step c call).1.past r ↔ HoldsModule c.past r) :
    Owned (record step c call).1 O where
  covered := by
    rw [trace_record, hevents, List.append_nil, record_now, moduleOf_congr hrecords]
    exact hO.covered
  mem_iff r := by rw [hpast r]; exact hO.mem_iff r
  stopsOwn := hO.stopsOwn.of_eq hrecords

section Load

variable {path : Option Path} {env : LoadEnv}

/-- A load that `start` fails: the module is opened and closed again, and
the record owns none. -/
theorem Owned.load_failed (hO : Owned c O) (hopens : Opens c.now path env)
    (hstarts : ¬ Starts env) (hstop : info.stop = none)
    (hrecords : (step c.now (.load path (some r) env)).1.records =
      (c.now.setRecord r info).records)
    (hevents : (step c.now (.load path (some r) env)).2.events =
      .dlopen h :: (startEvents env ++ [.dlclose h])) :
    Owned (record step c (.load path (some r) env)).1 (O.erase r) := by
  refine ⟨?_, fun x => ?_, hO.stopsOwn.setRecord hrecords fun e he => ?_⟩
  · have hborrow := hO.covered.borrow (a := .dlopen h) (b := .dlclose h) rfl
      (startEvents_other env) rfl
    have hothers : ∀ x ∈ O, x ≠ r →
        moduleOf (c.now.setRecord r info) x = moduleOf c.now x :=
      fun x _ hx => moduleOf_setRecord_of_ne hx
    have hforget := hborrow.forget hothers
    rw [trace_record, hevents, record_now, moduleOf_congr hrecords]
    simpa using hforget
  · rw [Finset.mem_erase, hO.mem_iff x, record_past]
    simp only [HoldsModule, hopens, hstarts, and_false, and_true, false_or]
    exact and_congr ne_comm Iff.rfl
  · rw [hstop] at he
    cases he

/-- A load that goes through: the module is opened, and the record owns
it. -/
theorem Owned.load_through (hO : Owned c O) (hopens : Opens c.now path env)
    (hstarts : Starts env) (hmodule : info.module = some h)
    (hstop : ∀ e, info.stop = some e → e.handle = h)
    (hrecords : (step c.now (.load path (some r) env)).1.records =
      (c.now.setRecord r info).records)
    (hevents : (step c.now (.load path (some r) env)).2.events =
      .dlopen h :: startEvents env) :
    Owned (record step c (.load path (some r) env)).1 (insert r O) := by
  refine ⟨?_, fun x => ?_, hO.stopsOwn.setRecord hrecords fun e he => ?_⟩
  · have hself : moduleOf (c.now.setRecord r info) r = some h :=
      moduleOf_setRecord_self.trans hmodule
    have hopened := hO.covered.acquire (e := .dlopen h) rfl hself fun x _ hx =>
      moduleOf_setRecord_of_ne hx
    have hstarted := hopened.append_others (startEvents_other env)
    rw [trace_record, hevents, record_now, moduleOf_congr hrecords]
    simpa using hstarted
  · rw [Finset.mem_insert, hO.mem_iff x, record_past]
    simp only [HoldsModule, hopens, hstarts, and_true, eq_comm]
    by_cases hx : x = r
    · simp [hx]
    · simp [Ne.symm hx]
  · rw [hmodule, hstop e he]

end Load

/-- An unload of an owned module: the record's `stop`, if it has one, then
its `dlclose`. -/
theorem covered_unload {tr : List Event} (hs : StopsOwn s)
    (hc : Covered moduleEffect tr O (moduleOf s)) (hr : r ∈ O) (hmodule : moduleOf s r = some h) :
    Covered moduleEffect (tr ++ unloadEvents (s.records r)) (O.erase r) (moduleOf s) := by
  have hrecord : (s.records r).module = some h := hmodule
  rw [unloadEvents, hrecord]
  rcases hentry : (s.records r).stop with _ | e
  · exact hc.release rfl hr hmodule
  · have hstopped := hc.use (e := .stop e) rfl hr (hs r e hentry)
    have hclosed := hstopped.release (e := .dlclose h) rfl hr hmodule
    rw [List.append_assoc] at hclosed
    exact hclosed

/-- An unload of an owned module, or of a record that names none. -/
theorem Owned.unload (hO : Owned c O) (hheld : UnloadsHeld c (.unload (some r))) :
    Owned (record step c (.unload (some r))).1 (O.erase r) := by
  have hevents : (step c.now (.unload (some r))).2.events =
      unloadEvents (c.now.records r) := rfl
  have hmodules : moduleOf (step c.now (.unload (some r))).1 = moduleOf c.now := rfl
  refine ⟨?_, fun x => ?_, hO.stopsOwn⟩
  · rw [trace_record, hevents, record_now, hmodules]
    rcases hmodule : moduleOf c.now r with _ | h
    · rw [hO.stopsOwn.unloadEvents_eq_nil hmodule, List.append_nil]
      exact hO.covered.forget fun _ _ _ => rfl
    · have hr : r ∈ O := by
        rw [hO.mem_iff r]
        refine hheld.resolve_left fun hnone => ?_
        rw [moduleOf, hnone] at hmodule
        cases hmodule
      exact covered_unload hO.stopsOwn hO.covered hr hmodule
  · rw [Finset.mem_erase, hO.mem_iff x]
    exact and_congr ne_comm Iff.rfl

/-- **One call that unloads owned modules only keeps the balance.** -/
theorem owned_step (hO : ∃ O, Owned c O) (call : Call) (hheld : UnloadsHeld c call) :
    ∃ O, Owned (record step c call).1 O := by
  obtain ⟨O, hO⟩ := hO
  cases call with
  | setRuntime enabled =>
    obtain ⟨-, hrecords, hevents⟩ := setRuntime_frame c.now enabled
    exact ⟨O, hO.of_eq hevents hrecords fun _ => Iff.rfl⟩
  | loadBootKexts =>
    exact ⟨O, hO.of_eq (by rw [step, loadBootKexts_eq]) (by rw [step, loadBootKexts_eq])
      fun _ => Iff.rfl⟩
  | unload info =>
    cases info with
    | none => exact ⟨O, hO.of_eq rfl rfl fun _ => Iff.rfl⟩
    | some r => exact ⟨_, hO.unload hheld⟩
  | load path info env =>
    cases info with
    | none =>
      exact ⟨O, hO.of_eq (by rw [step, lpnuKextLoad_none]) (by rw [step, lpnuKextLoad_none])
        fun _ => Iff.rfl⟩
    | some r =>
      rcases lpnuKextLoad_cases c.now path r env with
        ⟨hno, ret, -, heq⟩ | ⟨p, handle, size, -, -, -, hopens, hway⟩
      · refine ⟨O, hO.of_eq (by rw [step, heq]) (by rw [step, heq]) fun x => ?_⟩
        rw [record_past]
        simp [HoldsModule, hno]
      · rcases hway with ⟨hstarts, heq⟩ | ⟨hstarts, heq⟩
        · have hstop : (filledInfo p.afterClear handle size).stop = none := rfl
          have hrecords : (step c.now (.load path (some r) env)).1.records =
              (c.now.setRecord r (filledInfo p.afterClear handle size)).records := by rw [step, heq]
          have hevents : (step c.now (.load path (some r) env)).2.events =
              .dlopen handle :: (startEvents env ++ [.dlclose handle]) := by rw [step, heq]
          exact ⟨_, hO.load_failed hopens hstarts hstop hrecords hevents⟩
        · have hrecords : (step c.now (.load path (some r) env)).1.records =
              (c.now.setRecord r (startedInfo p.afterClear handle size env)).records := by
            rw [step, heq, registerKext_records]
          have hevents : (step c.now (.load path (some r) env)).2.events =
              .dlopen handle :: startEvents env := by
            rw [step, heq, registerKext_events]
          exact ⟨_, hO.load_through hopens hstarts startedInfo_module
            (fun e he => startedInfo_stop he) hrecords hevents⟩

/-- **Every run that unloads owned modules only is sound.** -/
theorem sound_of_unloadsHeld {run : List Call}
    (hheld : EachStep (record step) start UnloadsHeld run) :
    Sound moduleEffect ((outputs step State.init run).flatMap Out.events) := by
  have hthroughout : Throughout (record step) start (fun c => ∃ O, Owned c O) run :=
    throughout_of_inv (fun c call hO hheld => owned_step hO call hheld) ⟨∅, owned_start⟩ hheld
  obtain ⟨O, hO⟩ := hthroughout.last
  have hsound := hO.covered.sound
  rw [trace, outs_after_record] at hsound
  exact hsound

/-- A host whose kext has both entries; its `start` returns `ret`. -/
def kextHost (ret : ℤ) : LoadEnv := ⟨some 1, some 1, fun _ => some ⟨some 2, some 3⟩, ret⟩

/-- A kext loaded and unloaded. -/
def orderlyRun : List Call :=
  [.setRuntime 1, .load (some (.apart CString.a)) (some 0) (kextHost 0), .unload (some 0)]

/-- A kext whose `start` fails, and an unload of its record. -/
def failedRun : List Call :=
  [.setRuntime 1, .load (some (.apart CString.a)) (some 0) (kextHost 1), .unload (some 0)]

theorem sound_orderlyRun :
    Sound moduleEffect ((outputs step State.init orderlyRun).flatMap Out.events) := by
  have hheld : EachStep (record step) start UnloadsHeld orderlyRun := by
    refine ⟨trivial, trivial, Or.inr (Or.inl ⟨rfl, ?_, Or.inr rfl⟩), trivial⟩
    exact ⟨rfl, by decide, rfl, rfl⟩
  exact sound_of_unloadsHeld hheld

/-- The module is closed by the failing load and again by the unload. -/
theorem not_sound_failedRun :
    ¬ Sound moduleEffect ((outputs step State.init failedRun).flatMap Out.events) := by
  intro hsound
  have hle := hsound.balanced _ List.prefix_rfl 1
  exact absurd hle (by decide)

end Kext

end Lpnu
