import Lpnu.IOKit.Dictionary.Refinement
import Lpnu.IOKit.RegistryEntry
import Lpnu.IOKit.Service.Lifetime
import Lpnu.Kext.Load
/-!
# The bounded stores

Four stores of the repository hold at most so many items: a dictionary 16
keys, a registry entry eight values, the list of services and the table of
kexts 256 pointers each. An insertion that finds its store full drops the
item and reports success, where the image registry of `lpnu_dyld.c`
returns an error. `inserts_kept_iff` says when an item inserted with
success is held.
-/

namespace Lpnu

open Run

/-! ## Dictionary -/

namespace IOKit

open IOReturn AssocList

namespace Dictionary

/-- **A value set with success is what `Copy` gives.** -/
def SetKept (s : State) (dict : Bool) (key value : Option ℕ) : Prop :=
  (∃ out, (step s (.set dict key value)).2 = .ok out ∧ out.ret = some kIOReturnSuccess) →
    ∃ out, (step (step s (.set dict key value)).1 (.copy dict key)).2 = .ok out ∧
      out.value = value

/-- The dictionary has the key: a slot in use reads as it does. -/
def HasKey (s : State) (key : ℕ) : Prop :=
  ∃ slots, s.dict.keys = some slots ∧
    ∃ i < s.dict.count.toNat, isKey s.strings (slots i) key = true

/-- **The condition on a `Set`**: there is room, or the key is there
already, or the value is null, as `Copy` gives for a key it does not
find. -/
def RoomOrKey (s : State) (dict : Bool) (key value : Option ℕ) : Prop :=
  ∀ k, dict = true → key = some k → s.dict.count < 16 ∨ HasKey s k ∨ value = none

/-- A dictionary without one of its arrays, into which nothing goes. -/
def Arrayless (d : LPNUIODictionary) : Prop :=
  (d.keys = none ∨ d.values = none) ∧ d.count = 0 ∧ d.capacity = 16

/-- What every dictionary is: a map, however its strings read, or one
without arrays. -/
def WellFormed (s : State) : Prop :=
  (∃ l, Represents s.strings s.dict l) ∨ Arrayless s.dict

variable {s : State} {l : List (CString × Option ℕ)}

theorem hasKey_iff (h : Represents s.strings s.dict l) (key : ℕ) :
    HasKey s key ↔ s.strings key ∈ AssocList.keys l := by
  obtain ⟨slots, hslots, hkey⟩ := h.keys
  constructor
  · rintro ⟨slots', hslots', i, hi, his⟩
    obtain rfl := Option.some.inj (hslots.symm.trans hslots')
    rw [h.count_eq] at hi
    rw [isKey_iff, hkey i hi] at his
    exact List.mem_of_getElem? his
  · intro hmem
    obtain ⟨i, hi⟩ := List.mem_iff_getElem?.1 hmem
    have hlt : i < l.length := by
      rw [← length_keys]
      exact (List.getElem?_eq_some_iff.1 hi).1
    refine ⟨slots, hslots, i, by rw [h.count_eq]; exact hlt, ?_⟩
    rw [isKey_iff, hkey i hlt]
    exact hi

/-- Whatever its callers write into their strings, a map stays a map. -/
theorem exists_represents (h : Represents s.strings s.dict l) (strings : ℕ → CString) :
    ∃ m, Represents strings s.dict m := by
  obtain ⟨slots, hslots, hkey⟩ := h.keys
  obtain ⟨vslots, hvslots, -⟩ := h.values
  -- the entries, read off the slots anew
  refine ⟨(List.range l.length).map fun i => (strings ((slots i).getD 0), vslots i), ?_⟩
  refine ⟨⟨slots, hslots, fun i hi => ?_⟩, ⟨vslots, hvslots, fun i hi => ?_⟩, ?_,
    h.capacity_eq, ?_⟩
  · have hlt : i < l.length := by simpa using hi
    have hsome : ∃ a, slots i = some a := by
      have hk := hkey i hlt
      rw [List.getElem?_eq_getElem (by simpa using hlt)] at hk
      obtain ⟨a, ha, -⟩ := Option.map_eq_some_iff.1 hk
      exact ⟨a, ha⟩
    obtain ⟨a, ha⟩ := hsome
    simp [AssocList.keys, hlt, ha]
  · have hlt : i < l.length := by simpa using hi
    simp [hlt]
  · rw [h.count_eq]
    simp
  · simpa using h.length_le

/-- Nothing goes into a dictionary without its arrays. -/
theorem set_of_arrayless {d : LPNUIODictionary} (h : Arrayless d) (strings : ℕ → CString)
    (key : ℕ) (value : Option ℕ) :
    (∃ fault, (lpnuIODictionarySet strings d true (some key) value).2 = .error fault) ∧
      Arrayless (lpnuIODictionarySet strings d true (some key) value).1 := by
  obtain ⟨harrays, hcount, hcap⟩ := h
  have hfind : findKey strings d key = .ok (none, []) := by
    unfold findKey
    split
    · rw [hcount]
      rfl
    · rw [if_pos hcount]
  have hroom : d.count < d.capacity := by rw [hcount, hcap]; decide
  simp only [lpnuIODictionarySet, hfind, addKey, if_pos hroom]
  rcases hkeys : d.keys with _ | keys
  · exact ⟨⟨_, rfl⟩, Or.inl hkeys, hcount, hcap⟩
  · rcases hvalues : d.values with _ | values
    · exact ⟨⟨_, rfl⟩, Or.inr rfl, hcount, hcap⟩
    · rcases harrays with h | h
      · rw [hkeys] at h
        cases h
      · rw [hvalues] at h
        cases h

/-- A `Set` with a null argument does nothing. -/
theorem set_of_null {strings : ℕ → CString} {d : LPNUIODictionary} {dict : Bool}
    {key value : Option ℕ} (h : dict = false ∨ key = none) :
    lpnuIODictionarySet strings d dict key value =
      (d, .ok { ret := some kIOReturnBadArgument }) := by
  rcases dict with _ | _ <;> rcases key with _ | key
  · rfl
  · rfl
  · rfl
  · rcases h with h | h <;> cases h

theorem wellFormed_step (h : WellFormed s) (call : Call) : WellFormed (step s call).1 := by
  cases call with
  | copy dict key => exact h
  | overwrite addr string =>
    rcases h with ⟨l, hl⟩ | h
    · exact Or.inl (exists_represents hl _)
    · exact Or.inr h
  | set dict key value =>
    by_cases hnull : dict = false ∨ key = none
    · rw [step, set_of_null hnull]
      exact h
    · simp only [not_or, Bool.not_eq_false] at hnull
      obtain ⟨rfl, hkey⟩ := hnull
      obtain ⟨k, rfl⟩ := Option.ne_none_iff_exists'.1 hkey
      rcases h with ⟨l, hl⟩ | h
      · obtain ⟨-, -, -, hl'⟩ := set_refines hl k value
        exact Or.inl ⟨_, hl'⟩
      · exact Or.inr (set_of_arrayless h s.strings k value).2

/-- **When a value set is what `Copy` gives.** -/
theorem setKept_iff (h : WellFormed s) (dict : Bool) (key value : Option ℕ) :
    SetKept s dict key value ↔ RoomOrKey s dict key value := by
  by_cases hnull : dict = false ∨ key = none
  · refine iff_of_true ?_ ?_
    · rintro ⟨out, hout, hret⟩
      rw [step, set_of_null hnull] at hout
      rw [← Except.ok.inj hout] at hret
      cases hret
    · intro k hdict hk
      rw [hdict, hk] at hnull
      rcases hnull with h | h <;> cases h
  simp only [not_or, Bool.not_eq_false] at hnull
  obtain ⟨rfl, hkey⟩ := hnull
  obtain ⟨k, rfl⟩ := Option.ne_none_iff_exists'.1 hkey
  have hcond : RoomOrKey s true (some k) value ↔
      s.dict.count < 16 ∨ HasKey s k ∨ value = none := by
    simp [RoomOrKey]
  rw [hcond]
  rcases h with ⟨l, hl⟩ | harrayless
  · obtain ⟨out, hout, hret, hl'⟩ := set_refines hl k value
    obtain ⟨out', hout', hvalue⟩ := copy_refines hl' k
    have hroom : s.dict.count < 16 ↔ l.length < 16 := by
      rw [UInt32.lt_iff_toNat_lt, hl.count_eq]
      exact Iff.rfl
    have hkept : SetKept s true (some k) value ↔ out'.value = value := by
      constructor
      · intro h
        obtain ⟨out'', hout'', hvalue'⟩ := h ⟨out, hout, hret⟩
        obtain rfl := Except.ok.inj (hout'.symm.trans hout'')
        exact hvalue'
      · intro hvalue' _
        exact ⟨out', hout', hvalue'⟩
    rw [hkept, hvalue, lookup_upsert, hroom, hasKey_iff hl]
    by_cases hmem : s.strings k ∈ AssocList.keys l
    · simp [hmem]
    · by_cases hlt : l.length < 16
      · simp [hlt]
      · -- dropped: `Copy` finds no such key
        simp [hmem, hlt, lookup_of_notMem hmem, eq_comm]
  · refine iff_of_true ?_ (Or.inl ?_)
    · rintro ⟨out, hout, -⟩
      obtain ⟨fault, hfault⟩ := (set_of_arrayless harrayless s.strings k value).1
      have herror : (step s (.set true (some k) value)).2 = .error fault := hfault
      rw [herror] at hout
      cases hout
    · rw [harrayless.2.1]
      decide

/-- A dictionary as it is created, whichever of its arrays there was
memory for. -/
theorem wellFormed_create {strings : ℕ → CString} {d : LPNUIODictionary}
    {callocKeys callocValues : Bool}
    (h : lpnuIODictionaryCreate true true callocKeys callocValues =
      (some d, kIOReturnSuccess)) : WellFormed ⟨strings, d⟩ := by
  by_cases hboth : callocKeys = true ∧ callocValues = true
  · obtain ⟨rfl, rfl⟩ := hboth
    exact Or.inl ⟨[], represents_create h⟩
  · obtain rfl := Option.some.inj (Prod.mk.inj h).1
    refine Or.inr ⟨?_, rfl, rfl⟩
    cases callocKeys
    · exact Or.inl rfl
    · cases callocValues
      · exact Or.inr rfl
      · exact absurd ⟨rfl, rfl⟩ hboth

theorem wellFormed_after (h : WellFormed s) (run : List Call) :
    WellFormed (after step s run) := by
  have hstep : ∀ s call, WellFormed s → WellFormed (step s call).1 :=
    fun s call hs => wellFormed_step hs call
  exact after_of_inv hstep h run

end Dictionary

/-! ## The list of services -/

namespace Service

/-- **A service registered with success is listed.** -/
def RegisterKept (s : State) (service : Option ℕ) : Prop :=
  (step s (.registerService service)).2.ret = some kIOReturnSuccess →
    ∀ a, service = some a →
      some a ∈ (step s (.registerService service)).1.serviceList.live

/-- **The condition on a `RegisterService`**: there is room, or the
service is listed already. -/
def RoomOrListed (s : State) (service : Option ℕ) : Prop :=
  ∀ a, service = some a → s.serviceList.count < 256 ∨ some a ∈ s.serviceList.live

variable {s : State} {l : List ℕ}

/-- **When a service registered is listed.** -/
theorem registerKept_iff (hl : Table.Fits 256 s.serviceList l) (service : Option ℕ) :
    RegisterKept s service ↔ RoomOrListed s service := by
  cases service with
  | none => exact iff_of_true (fun _ a ha => by cases ha) (fun a ha => by cases ha)
  | some a =>
    simp only [RegisterKept, RoomOrListed, step, lpnuIOServiceRegisterService, Option.some.injEq,
      forall_eq']
    by_cases hroom : s.serviceList.count < 256
    · rw [if_pos hroom]
      refine iff_of_true (fun _ => ?_) (Or.inl hroom)
      rw [(hl.push (hl.count_lt_iff.1 hroom)).holds.mem_live]
      simp
    · rw [if_neg hroom]
      simp [hroom]

/-- The list of services fits its array, whatever the calls. -/
theorem fits_step (h : ∃ l, Table.Fits 256 s.serviceList l) (call : Call) :
    ∃ l, Table.Fits 256 (step s call).1.serviceList l := by
  obtain ⟨l, hl⟩ := h
  cases call with
  | tree call => exact ⟨l, hl⟩
  | destroy service => exact ⟨l, hl⟩
  | registerService service =>
    obtain ⟨m, hm, -⟩ := fits_registerService hl service
    exact ⟨m, hm⟩

theorem fits_after (run : List Call) :
    ∃ l, Table.Fits 256 (after step State.init run).serviceList l := by
  have hstep : ∀ s call, (∃ l, Table.Fits 256 s.serviceList l) →
      ∃ l, Table.Fits 256 (step s call).1.serviceList l := fun s call hs => fits_step hs call
  exact after_of_inv hstep ⟨[], Table.fits_empty⟩ run

end Service

end IOKit

/-! ## The table of kexts -/

namespace Kext

/-- **A record loaded with success is listed.** -/
def LoadKept (s : State) (path : Option Path) (info : Option ℕ) (env : LoadEnv) : Prop :=
  (lpnuKextLoad s path info env).2.ret = 0 →
    ∀ r, info = some r → some r ∈ (lpnuKextLoad s path info env).1.loadedKexts.live

/-- **The condition on a load**: if it goes through there is room, or its
record is listed already. -/
def RoomOrListed (s : State) (path : Option Path) (info : Option ℕ) (env : LoadEnv) :
    Prop :=
  GoesThrough s path env → ∀ r, info = some r →
    s.loadedKexts.count < 256 ∨ some r ∈ s.loadedKexts.live

variable {s : State} {l : List ℕ}

/-- **When a record loaded is listed.** -/
theorem loadKept_iff (hl : Listed s.loadedKexts l) (path : Option Path) (info : Option ℕ)
    (env : LoadEnv) : LoadKept s path info env ↔ RoomOrListed s path info env := by
  cases info with
  | none => exact iff_of_true (fun _ r hr => by cases hr) (fun _ r hr => by cases hr)
  | some r =>
    by_cases hgo : GoesThrough s path env
    · obtain ⟨hret, hl'⟩ := load_of_goesThrough (r := r) hl hgo
      have hroom : s.loadedKexts.count < 256 ↔ l.length < 256 := hl.count_lt_iff
      simp only [LoadKept, RoomOrListed, hret, hgo, forall_const, Option.some.injEq, forall_eq',
        hl'.holds.mem_live, hl.holds.mem_live, hroom, listLoad]
      by_cases hlt : l.length < 256
      · rw [if_pos hlt]
        simp [hlt]
      · rw [if_neg hlt]
        simp [hlt]
    · refine iff_of_true (fun hret => ?_) (fun h => absurd h hgo)
      exact absurd hret (load_of_not_goesThrough hgo).1

theorem listed_after (records : ℕ → LPnuKextInfo) (run : List Call) :
    ∃ l, Listed (after step { State.init with records := records } run).loadedKexts l := by
  have hstep : ∀ s call, (∃ l, Listed s.loadedKexts l) →
      ∃ l, Listed (step s call).1.loadedKexts l := fun s call hs => listed_step hs call
  exact after_of_inv hstep ⟨[], Table.fits_empty⟩ run

end Kext

/-! ## All four -/

/-- **When the stores hold what was inserted with success**, whatever they
begin with and in every state any run of their calls reaches: a dictionary
if and only if it had room or the key, or the value is null; a registry
entry, the list of services and the table of kexts if and only if they had
room or the item already. -/
theorem inserts_kept_iff (strings : ℕ → CString) (callocKeys callocValues : Bool)
    (name : Option CString) (records : ℕ → Kext.LPnuKextInfo) :
    (∃ d, IOKit.lpnuIODictionaryCreate true true callocKeys callocValues =
          (some d, .kIOReturnSuccess) ∧
        ∀ run dict key value,
          IOKit.Dictionary.SetKept (after IOKit.Dictionary.step ⟨strings, d⟩ run) dict key value ↔
            IOKit.Dictionary.RoomOrKey (after IOKit.Dictionary.step ⟨strings, d⟩ run) dict key
              value) ∧
    (∃ e, IOKit.lpnuIORegistryEntryCreate true name true = (some e, .kIOReturnSuccess) ∧
        ∀ run entry key value,
          IOKit.RegistryEntry.PropertyKept (after IOKit.RegistryEntry.step e run) entry key
              value ↔
            IOKit.RegistryEntry.SlotOrAmong (after IOKit.RegistryEntry.step e run) entry key
              value) ∧
    (∀ run service,
        IOKit.Service.RegisterKept (after IOKit.Service.step IOKit.Service.State.init run)
            service ↔
          IOKit.Service.RoomOrListed (after IOKit.Service.step IOKit.Service.State.init run)
            service) ∧
    ∀ run path info env,
      Kext.LoadKept (after Kext.step { Kext.State.init with records := records } run) path info
          env ↔
        Kext.RoomOrListed (after Kext.step { Kext.State.init with records := records } run) path
          info env := by
  refine ⟨⟨_, rfl, ?_⟩, ⟨_, rfl, ?_⟩, ?_, ?_⟩
  · intro run dict key value
    have hcreated : IOKit.Dictionary.WellFormed ⟨strings,
        ⟨IOKit.callocArray callocKeys, IOKit.callocArray callocValues, 0, 16⟩⟩ :=
      IOKit.Dictionary.wellFormed_create rfl
    exact IOKit.Dictionary.setKept_iff (IOKit.Dictionary.wellFormed_after hcreated run) dict key
      value
  · intro run entry key value
    exact IOKit.RegistryEntry.propertyKept_iff _ entry key value
  · intro run service
    obtain ⟨l, hl⟩ := IOKit.Service.fits_after run
    exact IOKit.Service.registerKept_iff hl service
  · intro run path info env
    obtain ⟨l, hl⟩ := Kext.listed_after records run
    exact Kext.loadKept_iff hl path info env

end Lpnu
