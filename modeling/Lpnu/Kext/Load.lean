import Lpnu.Kext.Model
/-!
# The kext runtime — what a load does

A load reads the host's answers and goes one of three ways: it stops
before it touches the record, it fills the record and takes the module
back because `start` failed, or it goes through. `lpnuKextLoad_cases` is
that inversion, and everything said of a load is read off it. The table
is read as a list throughout: `Listed`.
-/

namespace Lpnu

namespace Kext

variable {s : State} {path : Option Path} {env : LoadEnv} {r : ℕ} {l : List ℕ}

/-- The load gets a module from the host, and so touches its record. -/
def Opens (s : State) (path : Option Path) (env : LoadEnv) : Prop :=
  path.isSome ∧ s.runtimeEnabled ≠ lpnuKextDisabled ∧ env.stat.isSome ∧ env.dlopen.isSome

/-- The kext has no `start` entry, or it succeeds. -/
def Starts (env : LoadEnv) : Prop := env.startEntry = none ∨ env.start = 0

/-- The load goes through. -/
def GoesThrough (s : State) (path : Option Path) (env : LoadEnv) : Prop :=
  Opens s path env ∧ Starts env

/-- The record a load that goes through leaves. -/
def startedInfo (path : CString) (handle : ℕ) (size : UInt64) (env : LoadEnv) : LPnuKextInfo :=
  match env.startEntry with
  | none => filledInfo path handle size
  | some (start, stop) =>
    { filledInfo path handle size with
      start := some start, stop := stop.map (StopEntry.mk handle) }

/-- The call of the kext's `start`, if it has one. -/
def startEvents (env : LoadEnv) : List Event :=
  match env.startEntry with
  | none => []
  | some (start, _) => [.start start]

/-- **The three ways of a load.** -/
theorem lpnuKextLoad_cases (s : State) (path : Option Path) (r : ℕ) (env : LoadEnv) :
    (¬ Opens s path env ∧ ∃ ret, ret ≠ 0 ∧
      lpnuKextLoad s path (some r) env = (s, { ret := ret })) ∨
    ∃ p handle size, path = some p ∧ env.dlopen = some handle ∧ env.stat = some size ∧
      Opens s path env ∧
      ((¬ Starts env ∧ lpnuKextLoad s path (some r) env =
          (s.setRecord r (filledInfo p.afterClear handle size),
            { ret := -5
              events := .dlopen handle :: (startEvents env ++ [.dlclose handle]) })) ∨
        (Starts env ∧ lpnuKextLoad s path (some r) env =
          registerKext (s.setRecord r (startedInfo p.afterClear handle size env)) r
            (.dlopen handle :: startEvents env))) := by
  rcases path with _ | p
  · exact Or.inl ⟨by simp [Opens], -1, by decide, rfl⟩
  by_cases hen : s.runtimeEnabled = lpnuKextDisabled
  · exact Or.inl ⟨by simp [Opens, hen], -2, by decide, by simp [lpnuKextLoad, hen]⟩
  rcases hstat : env.stat with _ | size
  · exact Or.inl ⟨by simp [Opens, hstat], -3, by decide, by simp [lpnuKextLoad, hen, hstat]⟩
  rcases hopen : env.dlopen with _ | handle
  · exact Or.inl ⟨by simp [Opens, hopen], -4, by decide,
      by simp [lpnuKextLoad, hen, hstat, hopen]⟩
  refine Or.inr ⟨p, handle, size, rfl, rfl, rfl, by simp [Opens, hen, hstat, hopen], ?_⟩
  rcases hentry : env.startEntry with _ | ⟨start, stop⟩
  · exact Or.inr ⟨Or.inl hentry,
      by simp [lpnuKextLoad, hen, hstat, hopen, hentry, startedInfo, startEvents]⟩
  · by_cases hret : env.start = 0
    · exact Or.inr ⟨Or.inr hret,
        by simp [lpnuKextLoad, hen, hstat, hopen, hentry, hret, startedInfo, startEvents]⟩
    · exact Or.inl ⟨by simp [Starts, hentry, hret],
        by simp [lpnuKextLoad, hen, hstat, hopen, hentry, hret, startEvents]⟩

/-- A load into no record does nothing. -/
theorem lpnuKextLoad_none : lpnuKextLoad s path none env = (s, { ret := -1 }) := by
  cases path <;> rfl

theorem setRecord_self {info : LPnuKextInfo} : (s.setRecord r info).records r = info :=
  Function.update_self _ _ _

theorem setRecord_of_ne {info : LPnuKextInfo} {x : ℕ} (hx : x ≠ r) :
    (s.setRecord r info).records x = s.records x :=
  Function.update_of_ne hx _ _

/-! ## The table -/

/-- The table is a list that fits the array. -/
abbrev Listed (t : Table ℕ) (l : List ℕ) : Prop := Table.Fits 256 t l

/-- What a load that goes through does to the list: it appends, unless
the array is full. -/
def listLoad (l : List ℕ) (r : ℕ) : List ℕ := if l.length < 256 then l ++ [r] else l

theorem registerKext_ret {events : List Event} : (registerKext s r events).2.ret = 0 := by
  unfold registerKext
  split <;> rfl

theorem registerKext_events {events : List Event} :
    (registerKext s r events).2.events = events := by
  unfold registerKext
  split <;> rfl

@[simp] theorem registerKext_records {events : List Event} :
    (registerKext s r events).1.records = s.records := by
  unfold registerKext
  split <;> rfl

theorem listed_registerKext {events : List Event} (h : Listed s.loadedKexts l) :
    Listed (registerKext s r events).1.loadedKexts (listLoad l r) := by
  have hcount : s.loadedKexts.count < 256 ↔ l.length < 256 := h.count_lt_iff
  unfold registerKext listLoad
  by_cases hroom : l.length < 256
  · rw [if_pos (hcount.2 hroom), if_pos hroom]
    exact h.push hroom
  · rw [if_neg (mt hcount.1 hroom), if_neg hroom]
    exact h

/-- **A load that goes through returns 0 and lists its record** where
there is room. -/
theorem load_of_goesThrough (h : Listed s.loadedKexts l) (hgo : GoesThrough s path env) :
    (lpnuKextLoad s path (some r) env).2.ret = 0 ∧
      Listed (lpnuKextLoad s path (some r) env).1.loadedKexts (listLoad l r) := by
  rcases lpnuKextLoad_cases s path r env with ⟨hno, -⟩ | ⟨p, handle, size, -, -, -, -, hway⟩
  · exact absurd hgo.1 hno
  · rcases hway with ⟨hno, -⟩ | ⟨-, heq⟩
    · exact absurd hgo.2 hno
    · rw [heq]
      refine ⟨registerKext_ret, ?_⟩
      exact listed_registerKext (s := s.setRecord r _) h

/-- **Any other returns an error and leaves the table alone.** -/
theorem load_of_not_goesThrough (hgo : ¬ GoesThrough s path env) :
    (lpnuKextLoad s path (some r) env).2.ret ≠ 0 ∧
      (lpnuKextLoad s path (some r) env).1.loadedKexts = s.loadedKexts := by
  rcases lpnuKextLoad_cases s path r env with
    ⟨-, ret, hret, heq⟩ | ⟨p, handle, size, -, -, -, hopens, hway⟩
  · rw [heq]
    exact ⟨hret, rfl⟩
  · rcases hway with ⟨-, heq⟩ | ⟨hstarts, -⟩
    · rw [heq]
      exact ⟨by simp, rfl⟩
    · exact absurd ⟨hopens, hstarts⟩ hgo

/-- An unload takes the first occurrence of its record off the list. -/
theorem listed_unload (h : Listed s.loadedKexts l) (r : ℕ) :
    Listed (lpnuKextUnload s (some r)).1.loadedKexts (l.erase r) :=
  h.removeFirst

/-- The switch is no matter of the table or of the records. -/
theorem setRuntime_frame (s : State) (enabled : ℤ) :
    (lpnuKextSetRuntime s enabled).1.loadedKexts = s.loadedKexts ∧
      (lpnuKextSetRuntime s enabled).1.records = s.records ∧
      (lpnuKextSetRuntime s enabled).2.events = [] := by
  unfold lpnuKextSetRuntime
  split <;> exact ⟨rfl, rfl, rfl⟩

/-- Loading the boot kexts loads none. -/
theorem loadBootKexts_eq : lpnuKextLoadBootKexts s = (s, { ret := 0 }) := by
  unfold lpnuKextLoadBootKexts
  split <;> rfl

/-- **The abstract table.** One call on the list, given what the call
returned. -/
def listStep (l : List ℕ) (call : Call) (ret : ℤ) : List ℕ :=
  match call with
  | .load _ (some r) _ => if ret = 0 then listLoad l r else l
  | .unload (some r) => l.erase r
  | _ => l

/-- **One call on the table is one step of the list.** -/
theorem listed_listStep (h : Listed s.loadedKexts l) (call : Call) :
    Listed (step s call).1.loadedKexts (listStep l call (step s call).2.ret) := by
  cases call with
  | setRuntime enabled =>
    rw [step, (setRuntime_frame s enabled).1]
    exact h
  | load path info env =>
    cases info with
    | none =>
      rw [step, lpnuKextLoad_none]
      exact h
    | some r =>
      by_cases hgo : GoesThrough s path env
      · obtain ⟨hret, hl⟩ := load_of_goesThrough (r := r) h hgo
        rw [listStep, step, if_pos hret]
        exact hl
      · obtain ⟨hret, htable⟩ := load_of_not_goesThrough (r := r) hgo
        rw [listStep, step, if_neg hret, htable]
        exact h
  | unload info =>
    cases info with
    | none => exact h
    | some r => exact listed_unload h r
  | loadBootKexts =>
    rw [step, loadBootKexts_eq]
    exact h

/-- Whatever the call, the table stays a list. -/
theorem listed_step (h : ∃ l, Listed s.loadedKexts l) (call : Call) :
    ∃ l, Listed (step s call).1.loadedKexts l := by
  obtain ⟨l, hl⟩ := h
  exact ⟨_, listed_listStep hl call⟩

end Kext

end Lpnu
