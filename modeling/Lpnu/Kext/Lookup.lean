import Lpnu.Kext.Names
/-!
# The kext runtime — finding a kext by its name

`LPnuKextGetInfo` scans the table for a name and copies the first record
that has it; `LPnuKextList` copies the whole table. Over a table that is a
list of records the two agree (`answersFromList_after`), and two records
of one name are told apart by their place only (`allFound_after`).
-/

namespace Lpnu

namespace Kext

open CharArray Parts Run

/-- The loop of `LPnuKextGetInfo`: the first record of the name. -/
def findKext (s : State) (name : CString) : Option ℕ :=
  s.loadedKexts.live.findSome? fun slot =>
    slot.filter fun r => strcmp (s.records r).name.str name.bytes = 0

/-- `LPnuKextGetInfo`: what is found is copied to the record at `info`. -/
def lpnuKextGetInfo (s : State) (name : Option CString) (info : Option ℕ) : State × ℤ :=
  match name, info with
  | some name, some out =>
    match findKext s name with
    | some r => (s.setRecord out (s.records r), 0)
    | none => (s, -2)
  | _, _ => (s, -1)

/-- What `LPnuKextList` returns, and what it writes to `*list` and
`*count`: the copies, or null where there was no memory. -/
structure ListOut where
  ret : ℤ
  list : Option (Option (List LPnuKextInfo)) := none
  count : Option ℤ := none

/-- `LPnuKextList`, of the two pointers whether they are there and of the
allocation whether it succeeds. The copies are made in zeroed memory. -/
def lpnuKextList (s : State) (list count calloc : Bool) : ListOut :=
  if !list || !count then { ret := -1 }
  else if !calloc then { ret := -2, list := some none }
  else
    { ret := 0
      list := some (some (s.loadedKexts.live.map fun slot =>
        (slot.map s.records).getD LPnuKextInfo.zero))
      count := some s.loadedKexts.count }

variable {s : State} {l : List ℕ} {name : CString} {r out : ℕ}

theorem strcmp_name_iff :
    strcmp (s.records r).name.str name.bytes = 0 ↔ (s.records r).name.str = name.bytes :=
  strcmp_eq_zero_of_no_nul (no_nul_str _) name.no_nul

/-- The scan, over a table that is a list. -/
theorem findKext_eq (hl : Listed s.loadedKexts l) :
    findKext s name = l.find? fun r => (s.records r).name.str = name.bytes := by
  have htest : (fun r => decide (strcmp (s.records r).name.str name.bytes = 0)) =
      fun r => decide ((s.records r).name.str = name.bytes) := by
    funext r
    exact decide_eq_decide.2 strcmp_name_iff
  rw [findKext, hl.holds.live_eq, List.findSome?_map, htest, ← List.findSome?_guard]
  rfl

/-- The snapshot, of a table that is a list. -/
theorem lpnuKextList_eq (hl : Listed s.loadedKexts l) :
    lpnuKextList s true true true =
      { ret := 0, list := some (some (l.map s.records)), count := some l.length } := by
  simp [lpnuKextList, hl.holds.live_eq, hl.holds.count_eq, Function.comp_def]

/-- A name that is found: the first record of it is copied. -/
theorem lpnuKextGetInfo_of_find (hl : Listed s.loadedKexts l)
    (hfind : l.find? (fun r => (s.records r).name.str = name.bytes) = some r) (out : ℕ) :
    lpnuKextGetInfo s (some name) (some out) = (s.setRecord out (s.records r), 0) := by
  simp only [lpnuKextGetInfo, findKext_eq hl, hfind]

/-- A name that is not. -/
theorem lpnuKextGetInfo_of_find_none (hl : Listed s.loadedKexts l)
    (hfind : l.find? (fun r => (s.records r).name.str = name.bytes) = none) (out : ℕ) :
    lpnuKextGetInfo s (some name) (some out) = (s, -2) := by
  simp only [lpnuKextGetInfo, findKext_eq hl, hfind]

/-! ## The names that are compared

The scan reads the name of a listed record up to its terminator; a load
puts one there before the record is listed. -/

/-- The table is a list of records whose strings a load left. -/
def Readable (s : State) : Prop :=
  ∃ l, Listed s.loadedKexts l ∧ ∀ r ∈ l, ∃ path, WellNamed path (s.records r)

/-- A record is listed by the load that returns 0 on it. -/
theorem mem_listStep {call : Call} {ret : ℤ} (h : r ∈ listStep l call ret) :
    r ∈ l ∨ ret = 0 ∧ ∃ path env, call = .load path (some r) env := by
  unfold listStep at h
  split at h
  · rename_i path x env
    split at h
    · rename_i hret
      unfold listLoad at h
      split at h
      · rcases List.mem_append.1 h with h | h
        · exact Or.inl h
        · rw [List.mem_singleton.1 h]
          exact Or.inr ⟨hret, path, env, rfl⟩
      · exact Or.inl h
    · exact Or.inl h
  · exact Or.inl (List.mem_of_mem_erase h)
  · exact Or.inl h

/-- A record is written by the load that gets its module, and by nothing
else. -/
theorem records_step (s : State) (call : Call) (r : ℕ) :
    (step s call).1.records r = s.records r ∨
      ∃ path env, call = .load (some path) (some r) env ∧ Opens s (some path) env := by
  cases call with
  | setRuntime enabled => exact Or.inl (by rw [step, (setRuntime_frame s enabled).2.1])
  | load path info env =>
    cases info with
    | none => exact Or.inl (by rw [step, lpnuKextLoad_none])
    | some x =>
      rcases lpnuKextLoad_cases s path x env with
        ⟨-, ret, -, heq⟩ | ⟨path, handle, size, rfl, -, -, hopens, hway⟩
      · exact Or.inl (by rw [step, heq])
      · by_cases hx : r = x
        · subst hx
          exact Or.inr ⟨path, env, rfl, hopens⟩
        · refine Or.inl ?_
          rcases hway with ⟨-, heq⟩ | ⟨-, heq⟩
          · rw [step, heq, setRecord_of_ne hx]
          · rw [step, heq, registerKext_records, setRecord_of_ne hx]
  | unload info => cases info <;> exact Or.inl rfl
  | loadBootKexts => exact Or.inl (by rw [step, loadBootKexts_eq])

theorem readable_step (call : Call) (h : Readable s) : Readable (step s call).1 := by
  obtain ⟨l, hl, hnamed⟩ := h
  refine ⟨_, listed_listStep hl call, fun r hr => ?_⟩
  rcases records_step s call r with heq | ⟨path, env, rfl, hopens⟩
  · rcases mem_listStep hr with hmem | ⟨hret, path, env, rfl⟩
    · rw [heq]
      exact hnamed r hmem
    · cases path with
      | none => exact absurd hret (by simp [step, lpnuKextLoad])
      | some path => exact ⟨path.afterClear, wellNamed_of_opens (opens_of_ret hret)⟩
  · exact ⟨path.afterClear, wellNamed_of_opens hopens⟩

/-- **Every listed record holds its strings**, after every run. -/
theorem readable_after (records : ℕ → LPnuKextInfo) (run : List Call) :
    Readable (after step { State.init with records := records } run) := by
  have hstep : ∀ (s : State) (call : Call), Readable s → Readable (step s call).1 :=
    fun s call h => readable_step call h
  have hinit : Readable { State.init with records := records } :=
    ⟨[], Table.fits_empty, fun r hr => absurd hr List.not_mem_nil⟩
  exact after_of_inv hstep hinit run

/-! ## The snapshot and the scan -/

/-- **`LPnuKextGetInfo` answers from the snapshot of `LPnuKextList`**: it
finds a name the snapshot has, copies the first record of that name, and
leaves everything alone where there is none. -/
def AnswersFromList (s : State) (name : CString) (out : ℕ) : Prop :=
  ∃ snapshot, lpnuKextList s true true true =
      { ret := 0, list := some (some snapshot), count := some snapshot.length } ∧
    ((lpnuKextGetInfo s (some name) (some out)).2 = 0 ↔
      ∃ info ∈ snapshot, info.name.str = name.bytes) ∧
    (∀ info, snapshot.find? (fun info => info.name.str = name.bytes) = some info →
      (lpnuKextGetInfo s (some name) (some out)).1 = s.setRecord out info) ∧
    ((¬ ∃ info ∈ snapshot, info.name.str = name.bytes) →
      lpnuKextGetInfo s (some name) (some out) = (s, -2))

theorem answersFromList_of_listed (hl : Listed s.loadedKexts l) (name : CString) (out : ℕ) :
    AnswersFromList s name out := by
  have hcopy : (l.map s.records).find? (fun info => info.name.str = name.bytes) =
      (l.find? fun r => (s.records r).name.str = name.bytes).map s.records := List.find?_map
  refine ⟨l.map s.records, by rw [lpnuKextList_eq hl, List.length_map], ?_⟩
  rw [hcopy]
  cases hfind : l.find? fun r => (s.records r).name.str = name.bytes with
  | none =>
    have hnone : ¬ ∃ info ∈ l.map s.records, info.name.str = name.bytes := by
      rintro ⟨info, hmem, hinfo⟩
      obtain ⟨r, hr, rfl⟩ := List.mem_map.1 hmem
      have hr' := List.find?_eq_none.1 hfind r hr
      exact hr' (by simpa using hinfo)
    rw [lpnuKextGetInfo_of_find_none hl hfind]
    exact ⟨⟨fun h => absurd h (by simp), fun h => absurd h hnone⟩, by simp, fun _ => rfl⟩
  | some r =>
    have hr : (s.records r).name.str = name.bytes := by simpa using List.find?_some hfind
    have hsome : ∃ info ∈ l.map s.records, info.name.str = name.bytes :=
      ⟨s.records r, List.mem_map_of_mem (List.mem_of_find?_eq_some hfind), hr⟩
    rw [lpnuKextGetInfo_of_find hl hfind]
    refine ⟨⟨fun _ => hsome, fun _ => rfl⟩, fun info h => ?_, fun h => absurd hsome h⟩
    obtain rfl : s.records r = info := Option.some.inj h
    rfl

/-- **In every state of every run, for every name.** -/
theorem answersFromList_after (records : ℕ → LPnuKextInfo) (run : List Call) (name : CString)
    (out : ℕ) :
    AnswersFromList (after step { State.init with records := records } run) name out := by
  obtain ⟨l, hl, -⟩ := readable_after records run
  exact answersFromList_of_listed hl name out

/-! ## One name, two records -/

/-- The record of the name that stands first is the one copied. -/
theorem lpnuKextGetInfo_of_first {before later : List (Option ℕ)}
    (hlive : s.loadedKexts.live = before ++ some r :: later)
    (hr : (s.records r).name.str = name.bytes)
    (hbefore : ∀ x, some x ∈ before → (s.records x).name.str ≠ name.bytes) (out : ℕ) :
    lpnuKextGetInfo s (some name) (some out) = (s.setRecord out (s.records r), 0) := by
  have hnone : before.findSome? (fun slot =>
      slot.filter fun x => strcmp (s.records x).name.str name.bytes = 0) = none := by
    rw [List.findSome?_eq_none_iff]
    intro slot hslot
    cases slot with
    | none => rfl
    | some x =>
      rw [Option.filter_some, if_neg]
      simpa [strcmp_name_iff] using hbefore x hslot
  have hfind : findKext s name = some r := by
    rw [findKext, hlive, List.findSome?_append, hnone, Option.none_or, List.findSome?_cons,
      Option.filter_some, if_pos (by simpa [strcmp_name_iff] using hr)]
  simp only [lpnuKextGetInfo, hfind]

/-- **Asked for the name of `r`, `LPnuKextGetInfo` copies the first listed
record of that name**, which is `r` where no other stands before it. -/
def FoundFirst (s : State) (r out : ℕ) : Prop :=
  (∃ first before later, s.loadedKexts.live = before ++ some first :: later ∧
    (s.records first).name.str = (s.records r).name.str ∧
    (∀ x, some x ∈ before → (s.records x).name.str ≠ (s.records r).name.str) ∧
    lpnuKextGetInfo s (some (s.records r).name.cstr) (some out) =
      (s.setRecord out (s.records first), 0)) ∧
  ∀ before later, s.loadedKexts.live = before ++ some r :: later →
    (∀ x, some x ∈ before → (s.records x).name.str ≠ (s.records r).name.str) →
      lpnuKextGetInfo s (some (s.records r).name.cstr) (some out) =
        (s.setRecord out (s.records r), 0)

theorem foundFirst_of_listed (hl : Listed s.loadedKexts l) (hr : r ∈ l) (out : ℕ) :
    FoundFirst s r out := by
  have hsome : (l.find? fun x => (s.records x).name.str = (s.records r).name.str).isSome := by
    rw [List.find?_isSome]
    exact ⟨r, hr, by simp⟩
  obtain ⟨first, hfind⟩ := Option.isSome_iff_exists.1 hsome
  obtain ⟨hname, before, later, rfl, hbefore⟩ := List.find?_eq_some_iff_append.1 hfind
  have hlive : s.loadedKexts.live = before.map some ++ some first :: later.map some := by
    rw [hl.holds.live_eq, List.map_append, List.map_cons]
  have hfirst : ∀ x, some x ∈ before.map some →
      (s.records x).name.str ≠ (s.records r).name.str := by
    intro x hx
    obtain ⟨y, hy, heq⟩ := List.mem_map.1 hx
    obtain rfl : y = x := Option.some.inj heq
    simpa using hbefore y hy
  refine ⟨⟨first, before.map some, later.map some, hlive, by simpa using hname, hfirst, ?_⟩,
    fun before later h halone => lpnuKextGetInfo_of_first h rfl halone out⟩
  exact lpnuKextGetInfo_of_first hlive (of_decide_eq_true hname) hfirst out

/-- Every listed record is found, itself or by another of its name. -/
def AllFound (s : State) (out : ℕ) : Prop :=
  ∀ r, some r ∈ s.loadedKexts.live → FoundFirst s r out

/-- **In every state of every run.** -/
theorem allFound_after (records : ℕ → LPnuKextInfo) (run : List Call) (out : ℕ) :
    AllFound (after step { State.init with records := records } run) out := by
  obtain ⟨l, hl, -⟩ := readable_after records run
  exact fun r hr => foundFirst_of_listed hl (hl.holds.mem_live.1 hr) out

/-- A record of the name before `r`, if it is another one, hides it. -/
theorem hidden_of_first {x : ℕ} {later : List (Option ℕ)}
    (hlive : s.loadedKexts.live = some x :: later)
    (hname : (s.records x).name.str = (s.records r).name.str)
    (hne : (s.records x).address ≠ (s.records r).address) :
    lpnuKextGetInfo s (some (s.records r).name.cstr) (some out) ≠
      (s.setRecord out (s.records r), 0) := by
  have hfirst : s.loadedKexts.live = [] ++ some x :: later := hlive
  rw [lpnuKextGetInfo_of_first hfirst hname (by simp)]
  intro heq
  have hout := congrArg (fun s => (s.records out).address) (Prod.ext_iff.1 heq).1
  simp only [setRecord_self] at hout
  exact hne hout

/-- The paths `"/a/k"` and `"/b/k"`. -/
def twins : CString × CString := (⟨[47, 97, 47, 107], by decide⟩, ⟨[47, 98, 47, 107], by decide⟩)

/-- Two kexts of one name loaded from two places. -/
def twinsRun : List Call :=
  [.setRuntime 1, .load (some (.apart twins.1)) (some 0) plainHost,
    .load (some (.apart twins.2)) (some 1) { plainHost with dlopen := some 2 }]

/-- Their records. -/
theorem records_twinsRun :
    (after step State.init twinsRun).records 0 = filledInfo twins.1 1 1 ∧
      (after step State.init twinsRun).records 1 = filledInfo twins.2 2 1 :=
  ⟨rfl, rfl⟩

/-- The second of them is not found: the first is copied in its place. -/
theorem not_found_twin :
    some 1 ∈ (after step State.init twinsRun).loadedKexts.live ∧
      lpnuKextGetInfo (after step State.init twinsRun)
          (some ((after step State.init twinsRun).records 1).name.cstr) (some 2) ≠
        ((after step State.init twinsRun).setRecord 2
          ((after step State.init twinsRun).records 1), 0) := by
  obtain ⟨hfst, hsnd⟩ := records_twinsRun
  have hlive : (after step State.init twinsRun).loadedKexts.live = [some 0, some 1] := by decide
  refine ⟨by rw [hlive]; simp, hidden_of_first hlive ?_ ?_⟩
  · rw [hfst, hsnd, filledInfo_strings.1, filledInfo_strings.1, str_kextName, str_kextName]
    decide
  · rw [hfst, hsnd]
    decide

end Kext

end Lpnu
