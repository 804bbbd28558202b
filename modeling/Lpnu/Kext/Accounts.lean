import Lpnu.Common.Accounts
import Lpnu.Kext.Handles
import Lpnu.Kext.Lookup
/-!
# The kext runtime — no module is lost

The balance of `sound_of_unloadsHeld` says that no module is closed too
often. Here each is also closed often enough, in the runtime together
with `LPnuKextGetInfo`, which fills a caller's record as a load does and
gives it no module to own. Over the runs that unload owned modules only,
the modules open are at every moment those of the owning records exactly
if no load and no lookup writes over one
(`modulesSettled_throughout_iff`).
-/

namespace Lpnu

namespace Kext

open Accounts (Settled Effect acquired released)
open Run

/-- The calls on the runtime, with the lookup of a name. -/
inductive LookupCall
  | base (call : Call)
  | getInfo (name : Option CString) (info : Option ℕ)

/-- One call. -/
def lookupStep (s : State) : LookupCall → State × Out
  | .base call => step s call
  | .getInfo name info =>
    let r := lpnuKextGetInfo s name info
    (r.1, { ret := r.2 })

/-- The beginning of a recorded run. -/
def lookupStart : Recorded State LookupCall Out := ⟨State.init, []⟩

instance (s : State) (path : Option Path) (env : LoadEnv) :
    Decidable (GoesThrough s path env) :=
  inferInstanceAs (Decidable ((_ ∧ _) ∧ (_ ∨ _)))

/-- **The abstract owners.** One call on the records that own the module
they name: a load that goes through makes its record one, an unload ends
it, and so does a call that makes the record name another module. -/
def ownersStep (O : Finset ℕ) (s : State) (call : LookupCall) : Finset ℕ :=
  let kept := O.filter fun r => moduleOf (lookupStep s call).1 r = moduleOf s r
  match call with
  | .base (.load path (some r) env) => if GoesThrough s path env then insert r O else kept
  | .base (.unload (some r)) => O.erase r
  | _ => kept

/-- The owners after the calls made so far, the newest first. -/
def owners : List (Entry State LookupCall Out) → Finset ℕ
  | [] => ∅
  | e :: past => ownersStep (owners past) e.before e.call

/-- The calls out that a run has made. -/
def callsOut (c : Recorded State LookupCall Out) : List Event := c.outs.flatMap Out.events

/-- **The modules are settled with their owners.** -/
def ModulesSettled (c : Recorded State LookupCall Out) : Prop :=
  Settled moduleEffect (callsOut c) (owners c.past) (moduleOf c.now)

/-- A call under the protocol: an unload is made on a record that names no
module, or owns the one it names. -/
def UnloadsOwned (c : Recorded State LookupCall Out) : LookupCall → Prop
  | .base (.unload (some r)) => moduleOf c.now r = none ∨ r ∈ owners c.past
  | _ => True

/-- **The condition on a call**: no module is loaded into a record that
owns one, unless the load fails and found the same; and no record of
another module is copied there. -/
def SparesOwners (c : Recorded State LookupCall Out) : LookupCall → Prop
  | .base (.load path (some r) env) =>
    Opens c.now path env → Starts env ∨ env.dlopen ≠ moduleOf c.now r → r ∉ owners c.past
  | .getInfo (some name) (some r) =>
    ∀ x, findKext c.now name = some x → moduleOf c.now x ≠ moduleOf c.now r → r ∉ owners c.past
  | _ => True

/-- What the argument uses of a recorded state: an owner names a module,
and a `stop` entry is that of the module beside it. -/
structure Named (c : Recorded State LookupCall Out) : Prop where
  owner_module : ∀ r ∈ owners c.past, ∃ h, moduleOf c.now r = some h
  stopsOwn : StopsOwn c.now

variable {c : Recorded State LookupCall Out} {s : State} {r h : ℕ} {info : LPnuKextInfo}
  {call : LookupCall}

@[simp] theorem callsOut_record :
    callsOut (record lookupStep c call).1 = callsOut c ++ (lookupStep c.now call).2.events := by
  simp [callsOut]

@[simp] theorem owners_record :
    owners (record lookupStep c call).1.past = ownersStep (owners c.past) c.now call := rfl

theorem ownersStep_getInfo {O : Finset ℕ} {name : Option CString} {out : Option ℕ} :
    ownersStep O s (.getInfo name out) =
      O.filter fun x => moduleOf (lookupStep s (.getInfo name out)).1 x = moduleOf s x := rfl

theorem mem_ownersStep_load {O : Finset ℕ} {path : Option Path} {env : LoadEnv}
    (hgo : GoesThrough s path env) : r ∈ ownersStep O s (.base (.load path (some r) env)) := by
  rw [ownersStep, if_pos hgo]
  exact Finset.mem_insert_self r O

/-- **The ways of a lookup**: it finds nothing, or copies a record. -/
theorem lpnuKextGetInfo_cases (s : State) (name : Option CString) (info : Option ℕ) :
    ((∀ n, name = some n → info.isSome → findKext s n = none) ∧
      ∃ ret, lpnuKextGetInfo s name info = (s, ret)) ∨
      ∃ n out x, name = some n ∧ info = some out ∧ findKext s n = some x ∧
        lpnuKextGetInfo s name info = (s.setRecord out (s.records x), 0) := by
  rcases name with _ | n
  · exact Or.inl ⟨(fun n hn => by cases hn), -1, rfl⟩
  rcases info with _ | out
  · exact Or.inl ⟨(fun n _ hout => by cases hout), -1, rfl⟩
  rcases hfind : findKext s n with _ | x
  · refine Or.inl ⟨fun m hm _ => ?_, -2, by simp [lpnuKextGetInfo, hfind]⟩
    rw [← Option.some.inj hm]
    exact hfind
  · exact Or.inr ⟨n, out, x, rfl, rfl, hfind, by simp [lpnuKextGetInfo, hfind]⟩

/-- A lookup leaves the owners other than the record it fills. -/
theorem mem_ownersStep_getInfo {O : Finset ℕ} {name : Option CString} {out x : ℕ} (hx : x ∈ O)
    (hne : x ≠ out) : x ∈ ownersStep O s (.getInfo name (some out)) := by
  rw [ownersStep_getInfo, Finset.mem_filter]
  refine ⟨hx, ?_⟩
  rcases lpnuKextGetInfo_cases s name (some out) with ⟨-, ret, heq⟩ | ⟨n, r, y, -, hr, -, heq⟩
  · simp only [lookupStep, heq]
  · cases hr
    simp only [lookupStep, heq]
    exact moduleOf_setRecord_of_ne hne

/-- The owners that are left where one record was rewritten. -/
theorem filter_setRecord (O : Finset ℕ) :
    (O.filter fun x => moduleOf (s.setRecord r info) x = moduleOf s x) =
      if info.module = moduleOf s r then O else O.erase r := by
  ext x
  by_cases hx : x = r
  · rw [Finset.mem_filter, hx, moduleOf_setRecord_self]
    split <;> simp [*]
  · rw [Finset.mem_filter, moduleOf_setRecord_of_ne hx]
    split <;> simp [hx]

/-- The owners that are left where no record was. -/
theorem filter_of_records {s' : State} (hrecords : s'.records = s.records) (O : Finset ℕ) :
    (O.filter fun x => moduleOf s' x = moduleOf s x) = O := by
  rw [moduleOf_congr hrecords]
  exact Finset.filter_true_of_mem fun _ _ => rfl

/-! ## What records name -/

/-- A call that leaves the records and makes no owner. -/
theorem Named.of_eq (hn : Named c) (hrecords : (lookupStep c.now call).1.records = c.now.records)
    (howners : ownersStep (owners c.past) c.now call ⊆ owners c.past) :
    Named (record lookupStep c call).1 := by
  refine ⟨fun r hr => ?_, hn.stopsOwn.of_eq hrecords⟩
  rw [record_now, moduleOf_congr hrecords]
  exact hn.owner_module r (howners hr)

/-- A call that rewrites one record, which then names a module if it is an
owner. -/
theorem Named.of_setRecord (hn : Named c)
    (hrecords : (lookupStep c.now call).1.records = (c.now.setRecord r info).records)
    (howners : ∀ x ∈ ownersStep (owners c.past) c.now call,
      x = r ∧ (∃ h, info.module = some h) ∨ x ≠ r ∧ x ∈ owners c.past)
    (hstop : ∀ e, info.stop = some e → info.module = some e.handle) :
    Named (record lookupStep c call).1 := by
  refine ⟨fun x hx => ?_, hn.stopsOwn.setRecord hrecords hstop⟩
  rw [record_now, moduleOf_congr hrecords]
  rcases howners x hx with ⟨rfl, hmodule⟩ | ⟨hne, hx⟩
  · rw [moduleOf_setRecord_self]
    exact hmodule
  · rw [moduleOf_setRecord_of_ne hne]
    exact hn.owner_module x hx

/-- A call that rewrites a record and makes no owner. -/
theorem Named.rewrite (hn : Named c)
    (hrecords : (lookupStep c.now call).1.records = (c.now.setRecord r info).records)
    (howners : ownersStep (owners c.past) c.now call =
      if info.module = moduleOf c.now r then owners c.past else (owners c.past).erase r)
    (hstop : ∀ e, info.stop = some e → info.module = some e.handle) :
    Named (record lookupStep c call).1 := by
  refine hn.of_setRecord hrecords (fun x hx => ?_) hstop
  rw [howners] at hx
  split at hx
  · rename_i hmodule
    by_cases hxr : x = r
    · rw [hxr] at hx
      rw [hmodule]
      exact Or.inl ⟨hxr, hn.owner_module r hx⟩
    · exact Or.inr ⟨hxr, hx⟩
  · exact Or.inr (Finset.mem_erase.1 hx)

/-! ## The modules after one call -/

/-- A call that leaves records, owners and modules. -/
theorem ModulesSettled.of_eq (hs : ModulesSettled c)
    (hrecords : (lookupStep c.now call).1.records = c.now.records)
    (hevents : (lookupStep c.now call).2.events = [])
    (howners : ownersStep (owners c.past) c.now call = owners c.past) :
    ModulesSettled (record lookupStep c call).1 := by
  rw [ModulesSettled, callsOut_record, owners_record, howners, hevents, List.append_nil,
    record_now, moduleOf_congr hrecords]
  exact hs

/-- **An owner written over is a module lost**: the owners that are left,
with what was acquired meanwhile, fall short by one. -/
theorem not_settled_of_lost {O O' : Finset ℕ} {module module' : ℕ → Option ℕ}
    {tr tr' : List Event} {n : ℕ} (hs : Settled moduleEffect tr O module)
    (hs' : Settled moduleEffect (tr ++ tr') O' module') (hr : r ∈ O) (hm : module r = some h)
    (hheld : Accounts.held O' module' h = Accounts.held (O.erase r) module h + n)
    (hnet : acquired moduleEffect h tr' = released moduleEffect h tr' + n) : False := by
  have hconserved := hs.conservation hs' h
  have herase := Accounts.held_erase hr module h
  rw [if_pos hm] at herase
  omega

/-- **A call that rewrites a record** and leaves no module more or less
open loses one exactly if the record owned one that it no longer names. -/
theorem modulesSettled_rewrite_iff (hn : Named c)
    (hs : Settled moduleEffect (callsOut (record lookupStep c call).1) (owners c.past)
      (moduleOf c.now))
    (hrecords : (lookupStep c.now call).1.records = (c.now.setRecord r info).records)
    (howners : ownersStep (owners c.past) c.now call =
      if info.module = moduleOf c.now r then owners c.past else (owners c.past).erase r) :
    ModulesSettled (record lookupStep c call).1 ↔
      (info.module ≠ moduleOf c.now r → r ∉ owners c.past) := by
  have hothers : ∀ x ∈ (owners c.past).erase r,
      moduleOf (c.now.setRecord r info) x = moduleOf c.now x :=
    fun x hx => moduleOf_setRecord_of_ne (Finset.ne_of_mem_erase hx)
  rw [ModulesSettled, owners_record, howners, record_now, moduleOf_congr hrecords]
  by_cases hmodule : info.module = moduleOf c.now r
  · have hsame : ∀ x ∈ owners c.past,
        moduleOf (c.now.setRecord r info) x = moduleOf c.now x := by
      intro x _
      by_cases hx : x = r
      · rw [hx, moduleOf_setRecord_self, hmodule]
      · exact moduleOf_setRecord_of_ne hx
    rw [if_pos hmodule]
    exact iff_of_true (hs.congr hsame) fun hne => absurd hmodule hne
  · rw [if_neg hmodule]
    constructor
    · intro hs' _ hr
      obtain ⟨h, hr'⟩ := hn.owner_module r hr
      rw [← List.append_nil (callsOut _)] at hs'
      exact not_settled_of_lost hs hs' hr hr' (n := 0) (Accounts.held_congr hothers h) rfl
    · intro hr
      rw [Finset.erase_eq_of_notMem (hr hmodule)] at hothers ⊢
      exact hs.congr hothers

/-- **A load that goes through** loses a module exactly if its record
owned one. -/
theorem modulesSettled_through_iff (hn : Named c) (hs : ModulesSettled c) {env : LoadEnv}
    (hmodule : info.module = some h)
    (hrecords : (lookupStep c.now call).1.records = (c.now.setRecord r info).records)
    (hevents : (lookupStep c.now call).2.events = .dlopen h :: startEvents env)
    (howners : ownersStep (owners c.past) c.now call = insert r (owners c.past)) :
    ModulesSettled (record lookupStep c call).1 ↔ r ∉ owners c.past := by
  have hself : moduleOf (c.now.setRecord r info) r = some h := by
    rw [moduleOf_setRecord_self, hmodule]
  rw [ModulesSettled, callsOut_record, owners_record, howners, hevents, record_now,
    moduleOf_congr hrecords]
  constructor
  · intro hs' hr
    obtain ⟨h₀, hr₀⟩ := hn.owner_module r hr
    have hheld : Accounts.held (insert r (owners c.past)) (moduleOf (c.now.setRecord r info)) h₀ =
        Accounts.held ((owners c.past).erase r) (moduleOf c.now) h₀ +
          if some h = some h₀ then 1 else 0 := by
      have hinsert : Accounts.held (insert r ((owners c.past).erase r))
          (moduleOf (c.now.setRecord r info)) h₀ = _ :=
        Accounts.held_insert (Finset.notMem_erase r (owners c.past))
          (fun x hx => moduleOf_setRecord_of_ne (Finset.ne_of_mem_erase hx)) h₀
      rw [Finset.insert_erase hr, hself] at hinsert
      rw [Finset.insert_eq_of_mem hr]
      exact hinsert
    -- the record counts for the module it now names, and not for its own
    refine not_settled_of_lost hs hs' hr hr₀ hheld ?_
    rw [← List.singleton_append, Accounts.acquired_append, Accounts.released_append,
      Accounts.acquired_others (startEvents_other env),
      Accounts.released_others (startEvents_other env), Accounts.acquired_singleton,
      Accounts.released_singleton]
    simp [moduleEffect]
  · intro hr
    have hopened : Settled moduleEffect (callsOut c ++ [.dlopen h]) (insert r (owners c.past))
        (moduleOf (c.now.setRecord r info)) := by
      refine Settled.acquire hs rfl hr hself fun x hx => ?_
      exact moduleOf_setRecord_of_ne (ne_of_mem_of_not_mem hx hr)
    have hstarted := hopened.append_others (startEvents_other env)
    rw [List.append_assoc, List.singleton_append] at hstarted
    exact hstarted

/-- **An unload of an owned module**, or of a record that names none. -/
theorem ModulesSettled.unload (hn : Named c) (hs : ModulesSettled c)
    (howned : moduleOf c.now r = none ∨ r ∈ owners c.past) :
    ModulesSettled (record lookupStep c (.base (.unload (some r)))).1 := by
  have hevents : (lookupStep c.now (.base (.unload (some r)))).2.events =
      unloadEvents (c.now.records r) := rfl
  rcases hmodule : moduleOf c.now r with _ | h
  · -- a record that names no module is no owner, and has no `stop` entry
    have hr : r ∉ owners c.past := by
      intro hr
      obtain ⟨h, hh⟩ := hn.owner_module r hr
      rw [hmodule] at hh
      cases hh
    have hnil := hn.stopsOwn.unloadEvents_eq_nil hmodule
    exact hs.of_eq rfl (hevents.trans hnil) (Finset.erase_eq_of_notMem hr)
  · have hr : r ∈ owners c.past := howned.resolve_left (by rw [hmodule]; simp)
    have hclose : ∀ {tr : List Event}, Settled moduleEffect tr (owners c.past) (moduleOf c.now) →
        Settled moduleEffect (tr ++ [.dlclose h]) ((owners c.past).erase r) (moduleOf c.now) :=
      fun ht => ht.release rfl hr hmodule
    have hrecord : (c.now.records r).module = some h := hmodule
    rw [ModulesSettled, callsOut_record, hevents, unloadEvents, hrecord]
    rcases hentry : (c.now.records r).stop with _ | e
    · exact hclose hs
    · have hhandle : moduleOf c.now r = some e.handle := hn.stopsOwn r e hentry
      have hstopped : Settled moduleEffect (callsOut c ++ [.stop e]) (owners c.past)
          (moduleOf c.now) := Settled.use hs rfl hr hhandle
      have hclosed := hclose hstopped
      rw [List.append_assoc] at hclosed
      exact hclosed

/-! ## One call -/

/-- A call that leaves the records, and so the owners. -/
theorem still_step (hn : Named c) (hs : ModulesSettled c)
    (hrecords : (lookupStep c.now call).1.records = c.now.records)
    (hevents : (lookupStep c.now call).2.events = [])
    (howners : ownersStep (owners c.past) c.now call = owners c.past)
    (hspares : SparesOwners c call) :
    Named (record lookupStep c call).1 ∧
      (ModulesSettled (record lookupStep c call).1 ↔ SparesOwners c call) :=
  ⟨hn.of_eq hrecords howners.le, iff_of_true (hs.of_eq hrecords hevents howners) hspares⟩

theorem load_step (hn : Named c) (hs : ModulesSettled c) (path : Option Path) (r : ℕ)
    (env : LoadEnv) :
    Named (record lookupStep c (.base (.load path (some r) env))).1 ∧
      (ModulesSettled (record lookupStep c (.base (.load path (some r) env))).1 ↔
        SparesOwners c (.base (.load path (some r) env))) := by
  rcases lpnuKextLoad_cases c.now path r env with
    ⟨hno, ret, -, heq⟩ | ⟨p, h, size, -, hdlopen, -, hopens, ⟨hstarts, heq⟩ | ⟨hstarts, heq⟩⟩
  · have hstep : lookupStep c.now (.base (.load path (some r) env)) = (c.now, { ret := ret }) :=
      heq
    refine still_step hn hs (by rw [hstep]) (by rw [hstep]) ?_ fun hopens => absurd hopens hno
    rw [ownersStep, if_neg fun hgo => hno hgo.1]
    exact filter_of_records (by rw [hstep]) _
  · have hstep : lookupStep c.now (.base (.load path (some r) env)) =
        (c.now.setRecord r (filledInfo p.afterClear h size), { ret := -5, events := _ }) := heq
    have hrecords : (lookupStep c.now (.base (.load path (some r) env))).1.records =
        (c.now.setRecord r (filledInfo p.afterClear h size)).records := by rw [hstep]
    have howners : ownersStep (owners c.past) c.now (.base (.load path (some r) env)) =
        if (filledInfo p.afterClear h size).module = moduleOf c.now r then owners c.past
        else (owners c.past).erase r := by
      rw [ownersStep, if_neg fun hgo => hstarts hgo.2, hstep]
      exact filter_setRecord _
    have hborrow := Settled.borrow hs (a := .dlopen h) (b := .dlclose h) rfl
      (startEvents_other env) rfl
    refine ⟨hn.rewrite hrecords howners (fun e he => by cases he), ?_⟩
    rw [modulesSettled_rewrite_iff hn ?_ hrecords howners]
    · simp only [SparesOwners, hopens, hstarts, hdlopen, filledInfo, false_or, forall_const]
    · rw [callsOut_record, hstep]
      simpa using hborrow
  · have hrecords : (lookupStep c.now (.base (.load path (some r) env))).1.records =
        (c.now.setRecord r (startedInfo p.afterClear h size env)).records := by
      rw [lookupStep, step, heq, registerKext_records]
    have hevents : (lookupStep c.now (.base (.load path (some r) env))).2.events =
        .dlopen h :: startEvents env := by
      rw [lookupStep, step, heq, registerKext_events]
    have howners : ownersStep (owners c.past) c.now (.base (.load path (some r) env)) =
        insert r (owners c.past) := if_pos ⟨hopens, hstarts⟩
    refine ⟨hn.of_setRecord hrecords (fun x hx => ?_) fun e he => ?_, ?_⟩
    · rw [howners, Finset.mem_insert] at hx
      by_cases hxr : x = r
      · exact Or.inl ⟨hxr, h, startedInfo_module⟩
      · exact Or.inr ⟨hxr, hx.resolve_left hxr⟩
    · rw [startedInfo_stop he, startedInfo_module]
    · rw [modulesSettled_through_iff hn hs startedInfo_module hrecords hevents howners]
      simp only [SparesOwners, hopens, hstarts, true_or, forall_const]

theorem getInfo_step (hn : Named c) (hs : ModulesSettled c) (name : Option CString)
    (info : Option ℕ) :
    Named (record lookupStep c (.getInfo name info)).1 ∧
      (ModulesSettled (record lookupStep c (.getInfo name info)).1 ↔
        SparesOwners c (.getInfo name info)) := by
  rcases lpnuKextGetInfo_cases c.now name info with
    ⟨hnone, ret, heq⟩ | ⟨n, out, x, rfl, rfl, hfind, heq⟩
  · have hstep : lookupStep c.now (.getInfo name info) = (c.now, { ret := ret }) := by
      rw [lookupStep, heq]
    have hspares : SparesOwners c (.getInfo name info) := by
      rcases name with _ | n
      · trivial
      rcases info with _ | out
      · trivial
      intro x hx
      rw [hnone n rfl rfl] at hx
      cases hx
    exact still_step hn hs (by rw [hstep]) (by rw [hstep])
      (filter_of_records (by rw [hstep]) _) hspares
  · have hstep : lookupStep c.now (.getInfo (some n) (some out)) =
        (c.now.setRecord out (c.now.records x), { ret := 0 }) := by
      rw [lookupStep, heq]
    have hrecords : (lookupStep c.now (.getInfo (some n) (some out))).1.records =
        (c.now.setRecord out (c.now.records x)).records := by rw [hstep]
    have howners : ownersStep (owners c.past) c.now (.getInfo (some n) (some out)) =
        if (c.now.records x).module = moduleOf c.now out then owners c.past
        else (owners c.past).erase out := by
      rw [ownersStep_getInfo, hstep]
      exact filter_setRecord _
    refine ⟨hn.rewrite hrecords howners (hn.stopsOwn x), ?_⟩
    rw [modulesSettled_rewrite_iff hn ?_ hrecords howners]
    · simp only [SparesOwners, hfind, Option.some.injEq, forall_eq', moduleOf]
    · rw [callsOut_record, hstep, List.append_nil]
      exact hs

/-- **One call keeps the modules settled exactly if it spares the
owners**, and what records name either way. -/
theorem modulesSettled_step (hn : Named c) (hs : ModulesSettled c) (call : LookupCall)
    (howned : UnloadsOwned c call) :
    Named (record lookupStep c call).1 ∧
      (ModulesSettled (record lookupStep c call).1 ↔ SparesOwners c call) := by
  cases call with
  | base call =>
    cases call with
    | setRuntime enabled =>
      obtain ⟨-, hrecords, hevents⟩ := setRuntime_frame c.now enabled
      exact still_step hn hs hrecords hevents (filter_of_records hrecords _) trivial
    | loadBootKexts =>
      have hstep : lookupStep c.now (.base .loadBootKexts) = (c.now, { ret := 0 }) :=
        loadBootKexts_eq
      exact still_step hn hs (by rw [hstep]) (by rw [hstep])
        (filter_of_records (by rw [hstep]) _) trivial
    | unload info =>
      cases info with
      | none => exact still_step hn hs rfl rfl (filter_of_records rfl _) trivial
      | some r =>
        exact ⟨hn.of_eq rfl (Finset.erase_subset r _), iff_of_true (hs.unload hn howned) trivial⟩
    | load path info env =>
      cases info with
      | none =>
        have hstep : lookupStep c.now (.base (.load path none env)) = (c.now, { ret := -1 }) :=
          lpnuKextLoad_none
        exact still_step hn hs (by rw [hstep]) (by rw [hstep])
          (filter_of_records (by rw [hstep]) _) trivial
      | some r => exact load_step hn hs path r env
  | getInfo name info => exact getInfo_step hn hs name info

/-- **Over the runs that unload owned modules only, the modules open are
those of the owners throughout exactly if every call spares the owners**:
no handle is then closed once too often or used when it is closed, and
each has as many opens left to close as there are records owning it. -/
theorem modulesSettled_throughout_iff {run : List LookupCall}
    (howned : EachStep (record lookupStep) lookupStart UnloadsOwned run) :
    Throughout (record lookupStep) lookupStart ModulesSettled run ↔
      EachStep (record lookupStep) lookupStart SparesOwners run := by
  have hnamed : Named lookupStart :=
    ⟨fun r hr => absurd hr (Finset.notMem_empty r), stopsOwn_init⟩
  exact throughout_iff_eachStep (fun c call hn hs ho => (modulesSettled_step hn hs call ho).1)
    (fun c call hn hs ho => (modulesSettled_step hn hs call ho).2) hnamed
    Accounts.settled_nil howned

/-- A kext loaded, looked up and unloaded. -/
def lookedUpRun : List LookupCall :=
  [.base (.setRuntime 1), .base (.load (some (.apart CString.a)) (some 0) (kextHost 0)),
    .getInfo (some CString.a) (some 1), .base (.unload (some 0))]

theorem modulesSettled_lookedUpRun :
    Throughout (record lookupStep) lookupStart ModulesSettled lookedUpRun := by
  have hgo : GoesThrough (step State.init (.setRuntime 1)).1 (some (.apart CString.a))
      (kextHost 0) := ⟨⟨rfl, by decide, rfl, rfl⟩, Or.inr rfl⟩
  have howned : EachStep (record lookupStep) lookupStart UnloadsOwned lookedUpRun := by
    refine ⟨trivial, trivial, trivial, Or.inr ?_, trivial⟩
    exact mem_ownersStep_getInfo (mem_ownersStep_load hgo) zero_ne_one
  refine (modulesSettled_throughout_iff howned).2 ⟨trivial, ?_, ?_, trivial, trivial⟩
  · exact fun _ _ => Finset.notMem_empty 0
  · intro x _ _
    decide

end Kext

end Lpnu
