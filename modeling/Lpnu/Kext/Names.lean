import Lpnu.Kext.Registry
/-!
# The kext runtime — names

A kext is known by the last component of its path, without the extension.
A load finds it in the first 255 bytes of the path, and cuts it at the
first `".kext"` in it: `kextName_spec`. The arrays it leaves hold strings
and its moves stay inside them (`wellNamed_load`); the name is the one
meant where nothing was cut off before or inside it
(`namedByPath_iff`).
-/

namespace Lpnu

namespace Kext

open Parts CharArray

/-- The separator of paths. -/
def slash : UInt8 := 47

/-! ## The derivation, step by step -/

/-- The name before it is cut: the first 255 bytes of the path, what
follows their last slash moved to the front. -/
def movedName (path : CString) : CharArray 256 × List Access :=
  let name : CharArray 256 := CharArray.zero.strncpy path 255
  match strrchr slash name.str with
  | none => (name, [])
  | some basename => name.memmove 0 (basename + 1) (name.str.length - basename)

/-- The cut at the first `".kext"`. -/
def cutName (moved : CharArray 256 × List Access) : CharArray 256 × List Access :=
  match strstr kextExtension moved.1.str with
  | none => moved
  | some ext => (moved.1.blit ext [0], moved.2 ++ [.write ext])

theorem kextName_eq (path : CString) : kextName path = cutName (movedName path) := by
  unfold kextName cutName movedName slash
  -- the array stays a variable, so that it is not unfolded
  generalize (CharArray.zero.strncpy path 255 : CharArray 256) = name
  rfl

/-- The part of a path a name is taken from. -/
def nameSource (path : CString) : List UInt8 := afterLast slash (path.bytes.take 255)

variable {path : CString} {s rest : List UInt8} {moved : CharArray 256 × List Access}

theorem no_nul_nameSource (path : CString) : 0 ∉ nameSource path := fun h =>
  path.no_nul (List.mem_of_mem_take ((List.rtakeWhile_suffix _ _).mem h))

/-- **The move leaves the last component**, and stays inside the array. -/
theorem movedName_spec (path : CString) :
    (∃ rest, (movedName path).1.toList = nameSource path ++ 0 :: rest) ∧
      ∀ acc ∈ (movedName path).2, acc.index < 256 := by
  have hk : 255 < 256 := by decide
  obtain ⟨rest, hname⟩ := exists_toList_strncpy path hk
  have hle : (path.bytes.take 255).length ≤ 255 := by
    rw [List.length_take]
    omega
  unfold movedName nameSource
  simp only [str_zero_strncpy path hk]
  rcases eq_append_afterLast slash (path.bytes.take 255) with ⟨hnot, heq⟩ | ⟨dir, heq⟩
  · rw [strrchr_of_notMem hnot, heq]
    exact ⟨⟨rest, hname⟩, by simp⟩
  · generalize hbase : afterLast slash (path.bytes.take 255) = base at heq
    have hlast : strrchr slash (path.bytes.take 255) = some dir.length := by
      rw [heq]
      exact strrchr_append_cons (hbase ▸ notMem_afterLast)
    have hlen : (path.bytes.take 255).length = dir.length + 1 + base.length := by
      rw [heq, List.length_append, List.length_cons]
      omega
    -- what is moved is the component and the NUL behind it
    have hmoved : (path.bytes.take 255).length - dir.length = base.length + 1 := by omega
    have hdir : dir.length + 1 = (dir ++ [slash]).length := by simp
    have hsplit : ((zero : CharArray 256).strncpy path 255).toList =
        (dir ++ [slash]) ++ (base ++ 0 :: rest) := by
      rw [hname, heq]
      simp
    rw [hlast]
    simp only [hmoved]
    refine ⟨?_, memmove_accesses (by omega) (by omega)⟩
    rw [hdir]
    exact exists_toList_memmove hsplit

/-- **The cut leaves what precedes the first extension.** -/
theorem cutName_spec (hmoved : moved.1.toList = s ++ 0 :: rest) (hs : 0 ∉ s) :
    (∃ rest', (cutName moved).1.toList = beforeFirst kextExtension s ++ 0 :: rest') ∧
      ((∀ acc ∈ moved.2, acc.index < 256) → ∀ acc ∈ (cutName moved).2, acc.index < 256) := by
  unfold cutName
  rw [str_eq hmoved hs]
  by_cases hinfix : kextExtension <:+: s
  · obtain ⟨after, hafter⟩ := exists_eq_beforeFirst_append hinfix
    have hsplit : moved.1.toList =
        beforeFirst kextExtension s ++ (kextExtension ++ after ++ 0 :: rest) := by
      rw [hmoved]
      conv_lhs => rw [hafter]
      simp
    have hlt : (beforeFirst kextExtension s).length < 256 := by
      have hlen : moved.1.toList.length = 256 := by simp
      rw [hsplit] at hlen
      simp only [List.length_append, List.length_cons] at hlen
      omega
    rw [strstr_of_present hinfix]
    refine ⟨exists_toList_cut hsplit hlt, fun h acc hacc => ?_⟩
    rcases List.mem_append.1 hacc with hacc | hacc
    · exact h acc hacc
    · rw [List.mem_singleton.1 hacc]
      exact hlt
  · rw [strstr_of_absent hinfix, beforeFirst_of_absent hinfix]
    exact ⟨⟨rest, hmoved⟩, fun h => h⟩

/-- **The name a load derives**, as the string the array holds, and the
bytes touched on the way. -/
theorem kextName_spec (path : CString) :
    (∃ rest, (kextName path).1.toList =
        beforeFirst kextExtension (nameSource path) ++ 0 :: rest) ∧
      ∀ acc ∈ (kextName path).2, acc.index < 256 := by
  obtain ⟨⟨rest, hmoved⟩, hinside⟩ := movedName_spec path
  obtain ⟨hcut, hacc⟩ := cutName_spec hmoved (no_nul_nameSource path)
  rw [kextName_eq]
  exact ⟨hcut, hacc hinside⟩

theorem kextName_terminated (path : CString) : (kextName path).1.Terminated := by
  obtain ⟨⟨rest, hname⟩, -⟩ := kextName_spec path
  exact terminated_of_toList hname

theorem str_kextName (path : CString) :
    (kextName path).1.str = beforeFirst kextExtension (nameSource path) := by
  obtain ⟨⟨rest, hname⟩, -⟩ := kextName_spec path
  exact str_eq hname fun h => no_nul_nameSource path (beforeFirst_prefix_self.mem h)

/-! ## The record of a load -/

variable {st : State} {p : CString} {r : ℕ} {env : LoadEnv}

theorem filledInfo_strings {handle : ℕ} {size : UInt64} :
    (filledInfo p handle size).name = (kextName p).1 ∧
      (filledInfo p handle size).path = CharArray.zero.strncpy p 511 := by
  simp only [filledInfo, and_self]

theorem startedInfo_strings {handle : ℕ} {size : UInt64} :
    (startedInfo p handle size env).name = (kextName p).1 ∧
      (startedInfo p handle size env).path = CharArray.zero.strncpy p 511 := by
  unfold startedInfo
  split
  · exact filledInfo_strings
  · dsimp only
    exact filledInfo_strings

/-- A load that gets a module leaves the name and the path, whether the
kext starts or not. -/
theorem records_load {path : Path} (h : Opens st (some path) env) :
    ((lpnuKextLoad st (some path) (some r) env).1.records r).name = (kextName path.afterClear).1 ∧
      ((lpnuKextLoad st (some path) (some r) env).1.records r).path =
        CharArray.zero.strncpy path.afterClear 511 := by
  rcases lpnuKextLoad_cases st (some path) r env with
    ⟨hno, -⟩ | ⟨path', handle, size, hpath, -, -, -, hway⟩
  · exact absurd h hno
  · obtain rfl : path = path' := Option.some.inj hpath
    rcases hway with ⟨-, heq⟩ | ⟨-, heq⟩
    · rw [heq, setRecord_self]
      exact filledInfo_strings
    · rw [heq, registerKext_records, setRecord_self]
      exact startedInfo_strings

/-- Only a load that gets a module returns 0. -/
theorem opens_of_ret {path : Path} (hret : (lpnuKextLoad st (some path) (some r) env).2.ret = 0) :
    Opens st (some path) env := by
  by_contra hno
  exact (load_of_not_goesThrough fun hgo => hno hgo.1).1 hret

/-- **What a load leaves in the strings of a record**: both end inside
their arrays, and the name is free of what the code looks for; up to 255
bytes of path it is what precedes the first extension in the last
component. -/
structure WellNamed (path : CString) (info : LPnuKextInfo) : Prop where
  path_terminated : info.path.Terminated
  name_terminated : info.name.Terminated
  no_slash : slash ∉ info.name.str
  no_extension : ¬ kextExtension <:+: info.name.str
  name_eq : path.bytes.length ≤ 255 →
    info.name.str = beforeFirst kextExtension (afterLast slash path.bytes)

/-- What the path reads once the record is cleared is what it is named
by. -/
theorem wellNamed_of_opens {path : Path} (h : Opens st (some path) env) :
    WellNamed path.afterClear ((lpnuKextLoad st (some path) (some r) env).1.records r) := by
  obtain ⟨hname, hpath⟩ := records_load (r := r) h
  have hstr : ((lpnuKextLoad st (some path) (some r) env).1.records r).name.str =
      beforeFirst kextExtension (nameSource path.afterClear) := by
    rw [hname]
    exact str_kextName path.afterClear
  refine ⟨?_, ?_, ?_, ?_, fun hlen => ?_⟩
  · obtain ⟨rest, hrest⟩ :=
      exists_toList_strncpy (n := 512) path.afterClear (by decide : 511 < 512)
    rw [hpath]
    exact terminated_of_toList hrest
  · rw [hname]
    exact kextName_terminated path.afterClear
  · rw [hstr]
    exact fun hmem => notMem_afterLast (beforeFirst_prefix_self.mem hmem)
  · rw [hstr]
    exact not_infix_beforeFirst (by decide)
  · rw [hstr, nameSource, List.take_of_length_le hlen]

/-- **A load that gets a module leaves a record well named**, and moves
only bytes of the name to do so. -/
theorem wellNamed_load (h : Opens st (some (.apart p)) env) :
    WellNamed p ((lpnuKextLoad st (some (.apart p)) (some r) env).1.records r) ∧
      ∀ acc ∈ (kextName p).2, acc.index < 256 :=
  ⟨wellNamed_of_opens h, (kextName_spec p).2⟩

/-- The path `"/a.kext"`. -/
def bundled : CString := ⟨[47, 97, 46, 107, 101, 120, 116], by decide⟩

/-- The runtime, switched on. -/
def switchedOn : State := { State.init with runtimeEnabled := lpnuKextEnabled }

theorem opens_switchedOn (path : CString) : Opens switchedOn (some (.apart path)) plainHost := by
  refine ⟨rfl, ?_, rfl, rfl⟩
  show lpnuKextEnabled ≠ lpnuKextDisabled
  decide

theorem ret_load_switchedOn (path : CString) (r : ℕ) :
    (lpnuKextLoad switchedOn (some (.apart path)) (some r) plainHost).2.ret = 0 :=
  (load_of_goesThrough Table.fits_empty ⟨opens_switchedOn path, Or.inl rfl⟩).1

theorem wellNamed_bundled :
    WellNamed bundled
        ((lpnuKextLoad switchedOn (some (.apart bundled)) (some 0) plainHost).1.records 0) ∧
      ∀ acc ∈ (kextName bundled).2, acc.index < 256 :=
  wellNamed_load (opens_switchedOn bundled)

/-! ## The name that is meant -/

/-- The last component of a path, without the extension it may end in. -/
def wantedName (path : CString) : List UInt8 :=
  withoutSuffix kextExtension (afterLast slash path.bytes)

/-- **The record has the name its path gives it**, and the whole path. -/
def NamedByPath (path : CString) (info : LPnuKextInfo) : Prop :=
  info.name.str = wantedName path ∧ info.path.str = path.bytes

/-- The first 255 bytes of the path end in the wanted name, alone or with
what starts as an extension behind it. -/
def StandsLast (path : CString) : Prop :=
  ∃ dir rest, IsDir slash dir ∧ slash ∉ rest ∧ (rest = [] ∨ kextExtension <+: rest) ∧
    path.bytes.take 255 = dir ++ (wantedName path ++ rest)

/-- **The condition on a path**: the wanted name has no extension inside
it, and the path is not cut off, or cut off where the wanted name stands
last. -/
def LastsWhole (path : CString) : Prop :=
  ¬ kextExtension <:+: wantedName path ∧ (path.bytes.length ≤ 255 ∨ StandsLast path)

theorem standsLast_of_short (hlen : p.bytes.length ≤ 255) : StandsLast p := by
  obtain ⟨-, dir, hdir, hpath⟩ := afterLast_eq_iff.1 (rfl : afterLast slash p.bytes = _)
  obtain ⟨rest, hrest, heq⟩ :=
    exists_eq_withoutSuffix_append kextExtension (afterLast slash p.bytes)
  have hbase : afterLast slash p.bytes = wantedName p ++ rest := heq
  refine ⟨dir, rest, hdir, ?_, ?_, ?_⟩
  · rcases hrest with rfl | rfl
    · simp
    · decide
  · rcases hrest with rfl | rfl
    · exact Or.inl rfl
    · exact Or.inr List.prefix_rfl
  · rw [List.take_of_length_le hlen, ← hbase]
    exact hpath

theorem slash_notMem_wantedName (path : CString) : slash ∉ wantedName path := by
  obtain ⟨rest, -, heq⟩ :=
    exists_eq_withoutSuffix_append kextExtension (afterLast slash path.bytes)
  have hnot : slash ∉ afterLast slash path.bytes := notMem_afterLast
  rw [heq] at hnot
  exact fun hmem => hnot (List.mem_append_left _ hmem)

/-- **A load gives a record the name its path gives it exactly where the
path lasts whole.** -/
theorem namedByPath_iff (hret : (lpnuKextLoad st (some (.apart p)) (some r) env).2.ret = 0)
    (hlen : p.bytes.length ≤ 511) :
    NamedByPath p ((lpnuKextLoad st (some (.apart p)) (some r) env).1.records r) ↔ LastsWhole p := by
  obtain ⟨hname, hpath⟩ := records_load (r := r) (opens_of_ret hret)
  rw [Path.afterClear] at hname hpath
  have hwhole : ((CharArray.zero : CharArray 512).strncpy p 511).str = p.bytes := by
    rw [str_zero_strncpy p (by decide), List.take_of_length_le hlen]
  rw [NamedByPath, hname, hpath, hwhole, str_kextName, kextExtension,
    beforeFirst_eq_iff (by decide)]
  simp only [and_true]
  rw [LastsWhole]
  refine and_congr Iff.rfl ⟨?_, ?_⟩
  · rintro ⟨rest, hrest, heq⟩
    obtain ⟨hnot, dir, hdir, hpath⟩ := afterLast_eq_iff.1 heq
    exact Or.inr ⟨dir, rest, hdir, fun h => hnot (List.mem_append_right _ h), hrest, hpath⟩
  · intro h
    obtain ⟨dir, rest, hdir, hnot, hrest, heq⟩ := h.elim standsLast_of_short id
    refine ⟨rest, hrest, afterLast_eq_iff.2 ⟨fun hmem => ?_, dir, hdir, heq⟩⟩
    rcases List.mem_append.1 hmem with hmem | hmem
    · exact slash_notMem_wantedName p hmem
    · exact hnot hmem

/-- It does of `"/a.kext"`, whose name is `"a"`. -/
theorem namedByPath_bundled :
    (lpnuKextLoad switchedOn (some (.apart bundled)) (some 0) plainHost).2.ret = 0 ∧
      NamedByPath bundled
        ((lpnuKextLoad switchedOn (some (.apart bundled)) (some 0) plainHost).1.records 0) := by
  have hret := ret_load_switchedOn bundled 0
  exact ⟨hret, (namedByPath_iff hret (by decide)).2 ⟨by decide, Or.inl (by decide)⟩⟩

/-- The path `"a.kext.b"`. -/
def dotted : CString := ⟨[97, 46, 107, 101, 120, 116, 46, 98], by decide⟩

/-- It does not of `"a.kext.b"`, which is no extension and is cut to `"a"`
all the same. -/
theorem not_namedByPath_dotted :
    (lpnuKextLoad switchedOn (some (.apart dotted)) (some 0) plainHost).2.ret = 0 ∧
      (afterLast slash dotted.bytes).length = 8 ∧
      ¬ NamedByPath dotted
        ((lpnuKextLoad switchedOn (some (.apart dotted)) (some 0) plainHost).1.records 0) := by
  refine ⟨ret_load_switchedOn dotted 0, by decide, ?_⟩
  rintro ⟨hname, -⟩
  rw [(records_load (r := 0) (opens_switchedOn dotted)).1, str_kextName] at hname
  exact absurd hname (by decide)

end Kext

end Lpnu
