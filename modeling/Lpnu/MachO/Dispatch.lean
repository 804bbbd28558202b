import Lpnu.MachO.Model
/-!
# Mach-O — dispatching an exec

`search_binary_handler` asks each registered format in turn, and the
Mach-O handler, where it accepts a file, asks `search_binary_handler`
again. Nothing it asks with has changed but the interpreter, so unless a
format before it takes the file, it is asked again as well, and again:
`dispatchedOnce_iff`.
-/

namespace Lpnu

namespace MachO

variable {σ : Type*} {dispatch : Exec σ → Option (ℤ × Exec σ)} {env : ℕ → KernelEnv}
variable {loads before after : List (LinuxBinprm σ → ℤ × LinuxBinprm σ)}
variable {rest fmts : List (LinuxBinfmt σ)} {x x' : Exec σ} {b : LinuxBinprm σ} {ret : ℤ}

/-- The formats registered, in order: `lpnu_mach_o_format` once, between
the others. -/
def registered (before after : List (LinuxBinprm σ → ℤ × LinuxBinprm σ)) :
    List (LinuxBinfmt σ) :=
  before.map .other ++ .lpnuMachOFormat :: after.map .other

/-- What other formats make of a `bprm`: the result of the one that takes
it, if one does, and the `bprm` as it leaves it. -/
def askOthers : List (LinuxBinprm σ → ℤ × LinuxBinprm σ) → LinuxBinprm σ →
    Option ℤ × LinuxBinprm σ
  | [], b => (none, b)
  | load :: loads, b =>
    if (load b).1 ≠ -ENOEXEC then (some (load b).1, (load b).2) else askOthers loads (load b).2

/-- **Dispatching an exec ends**, and the handler is entered at most once
for it. -/
def DispatchedOnce (env : ℕ → KernelEnv) (formats : List (LinuxBinfmt σ))
    (b : LinuxBinprm σ) : Prop :=
  ∃ depth ret x, searchBinaryHandler env formats depth ⟨b, 0⟩ = some (ret, x) ∧ x.entered ≤ 1

/-- **The condition on an exec**: a format before the handler takes the
file, or the handler declines it, or a format before the handler takes it
when it comes round again without an interpreter. -/
def TakenOrDeclined (env : ℕ → KernelEnv)
    (before : List (LinuxBinprm σ → ℤ × LinuxBinprm σ)) (b : LinuxBinprm σ) : Prop :=
  (askOthers before b).1.isSome ∨ ¬ Accepts (env 0) (askOthers before b).2 ∨
    (askOthers before (askOthers before b).2.withoutInterp).1.isSome

/-! ## The scan -/

/-- What a format that takes the file returns. -/
theorem ne_of_taken (h : (askOthers loads b).1 = some ret) : ret ≠ -ENOEXEC := by
  induction loads generalizing b with
  | nil => cases h
  | cons load loads ih =>
    rw [askOthers] at h
    split at h
    · rename_i htakes
      rw [← Option.some.inj h]
      exact htakes
    · exact ih h

/-- **A scan over other formats asks them in order**, and goes on to those
behind them if none takes the file. -/
theorem scan_others :
    scanFormats dispatch env (loads.map .other ++ rest) x =
      (askOthers loads x.bprm).1.elim
        (scanFormats dispatch env rest { x with bprm := (askOthers loads x.bprm).2 })
        fun ret => some (ret, { x with bprm := (askOthers loads x.bprm).2 }) := by
  induction loads generalizing x with
  | nil => rfl
  | cons load loads ih =>
    rw [askOthers]
    simp only [List.map_cons, List.cons_append, scanFormats, LinuxBinfmt.loadBinary]
    by_cases htakes : (load x.bprm).1 ≠ -ENOEXEC
    · rw [if_pos htakes, if_pos htakes]
      rfl
    · rw [if_neg htakes, if_neg htakes]
      exact ih (x := { x with bprm := (load x.bprm).2 })

/-- A format that takes the file ends the scan. -/
theorem scan_of_taken (h : (askOthers loads x.bprm).1 = some ret) :
    scanFormats dispatch env (loads.map .other ++ rest) x =
      some (ret, { x with bprm := (askOthers loads x.bprm).2 }) := by
  rw [scan_others, h]
  rfl

/-- Formats that do not leave the scan to those after them. -/
theorem scan_of_passed (h : (askOthers loads x.bprm).1 = none) :
    scanFormats dispatch env (loads.map .other ++ rest) x =
      scanFormats dispatch env rest { x with bprm := (askOthers loads x.bprm).2 } := by
  rw [scan_others, h]
  rfl

/-- A scan of other formats ends, and enters no handler. -/
theorem exists_scan_others (loads : List (LinuxBinprm σ → ℤ × LinuxBinprm σ)) (x : Exec σ) :
    ∃ ret x', scanFormats dispatch env (loads.map .other) x = some (ret, x') ∧
      x'.entered = x.entered := by
  rw [← List.append_nil (loads.map LinuxBinfmt.other)]
  rcases h : (askOthers loads x.bprm).1 with _ | ret
  · rw [scan_of_passed h]
    exact ⟨_, _, rfl, rfl⟩
  · rw [scan_of_taken h]
    exact ⟨_, _, rfl, rfl⟩

/-- The handler declines, and the scan goes on or ends with its code. -/
theorem exists_scan_of_not_accepts (h : ¬ Accepts (env x.entered) x.bprm) :
    ∃ ret x', scanFormats dispatch env (.lpnuMachOFormat :: after.map .other) x =
      some (ret, x') ∧ x'.entered = x.entered + 1 := by
  obtain ⟨code, hcode⟩ := lpnuLoadMachOBinary_of_not_accepts
    (x := { x with entered := x.entered + 1 }) h
  simp only [scanFormats, LinuxBinfmt.loadBinary, hcode]
  split
  · exact ⟨_, _, rfl, rfl⟩
  · exact exists_scan_others after _

/-- Where the handler accepts, what comes of the next round decides: if it
has no result, neither has the scan. -/
theorem scan_of_accepts_none (h : Accepts (env x.entered) x.bprm)
    (hagain : dispatch ⟨x.bprm.withoutInterp, x.entered + 1⟩ = none) :
    scanFormats dispatch env (.lpnuMachOFormat :: rest) x = none := by
  have hhandler : lpnuLoadMachOBinary dispatch (env x.entered)
      { x with entered := x.entered + 1 } = none :=
    (lpnuLoadMachOBinary_of_accepts (x := { x with entered := x.entered + 1 }) h).trans hagain
  simp only [scanFormats, LinuxBinfmt.loadBinary, hhandler]

/-- If it has one, the scan ends with it or goes on from there. -/
theorem scan_of_accepts_some (h : Accepts (env x.entered) x.bprm)
    (hagain : dispatch ⟨x.bprm.withoutInterp, x.entered + 1⟩ = some (ret, x')) :
    scanFormats dispatch env (.lpnuMachOFormat :: rest) x =
      if ret ≠ -ENOEXEC then some (ret, x') else scanFormats dispatch env rest x' := by
  have hhandler : lpnuLoadMachOBinary dispatch (env x.entered)
      { x with entered := x.entered + 1 } = some (ret, x') :=
    (lpnuLoadMachOBinary_of_accepts (x := { x with entered := x.entered + 1 }) h).trans hagain
  simp only [scanFormats, LinuxBinfmt.loadBinary, hhandler]

/-! ## How often the handler is entered -/

/-- No format takes an entry back. -/
theorem entered_le_loadBinary
    (hdispatch : ∀ x ret x', dispatch x = some (ret, x') → x.entered ≤ x'.entered)
    (fmt : LinuxBinfmt σ) (h : fmt.loadBinary dispatch env x = some (ret, x')) :
    x.entered ≤ x'.entered := by
  cases fmt with
  | other load =>
    obtain ⟨-, rfl⟩ := Prod.mk.inj (Option.some.inj h)
    exact Nat.le_refl x.entered
  | lpnuMachOFormat =>
    by_cases hacc : Accepts (env x.entered) x.bprm
    · rw [LinuxBinfmt.loadBinary,
        lpnuLoadMachOBinary_of_accepts (x := { x with entered := x.entered + 1 }) hacc] at h
      have hle : x.entered + 1 ≤ x'.entered := hdispatch _ ret x' h
      omega
    · obtain ⟨code, hcode⟩ := lpnuLoadMachOBinary_of_not_accepts
        (x := { x with entered := x.entered + 1 }) hacc
      rw [LinuxBinfmt.loadBinary, hcode] at h
      obtain ⟨-, rfl⟩ := Prod.mk.inj (Option.some.inj h)
      exact Nat.le_succ x.entered

/-- Nor does a scan of several. -/
theorem entered_le_scan
    (hdispatch : ∀ x ret x', dispatch x = some (ret, x') → x.entered ≤ x'.entered) :
    ∀ (fmts : List (LinuxBinfmt σ)) (x : Exec σ),
      scanFormats dispatch env fmts x = some (ret, x') → x.entered ≤ x'.entered
  | [], x, h => by
    obtain ⟨-, rfl⟩ := Prod.mk.inj (Option.some.inj h)
    exact Nat.le_refl x.entered
  | fmt :: fmts, x, h => by
    rw [scanFormats] at h
    split at h
    · cases h
    · rename_i code y hy
      have hle : x.entered ≤ y.entered := entered_le_loadBinary hdispatch fmt hy
      split at h
      · obtain ⟨-, rfl⟩ := Prod.mk.inj (Option.some.inj h)
        exact hle
      · exact Nat.le_trans hle (entered_le_scan hdispatch fmts y h)

theorem entered_le (formats : List (LinuxBinfmt σ)) : ∀ (depth : ℕ) (x : Exec σ) (ret : ℤ)
    (x' : Exec σ), searchBinaryHandler env formats depth x = some (ret, x') →
      x.entered ≤ x'.entered
  | 0, _, _, _, h => by cases h
  | depth + 1, x, _, _, h => entered_le_scan (entered_le formats depth) formats x h

/-! ## One round -/

/-- The exec with which the handler calls `search_binary_handler`, where
it accepts what the formats before it made of the file. -/
def nextRound (before : List (LinuxBinprm σ → ℤ × LinuxBinprm σ)) (x : Exec σ) : Exec σ :=
  ⟨(askOthers before x.bprm).2.withoutInterp, x.entered + 1⟩

section Round

variable {depth : ℕ}

/-- A file taken before the handler does not reach it. -/
theorem round_of_taken (h : (askOthers before x.bprm).1 = some ret) :
    searchBinaryHandler env (registered before after) (depth + 1) x =
      some (ret, { x with bprm := (askOthers before x.bprm).2 }) := by
  rw [searchBinaryHandler, registered]
  exact scan_of_taken h

variable (hpass : (askOthers before x.bprm).1 = none)

include hpass

/-- A file it declines goes to the formats after it. -/
theorem round_of_declined (hdecline : ¬ Accepts (env x.entered) (askOthers before x.bprm).2)
    (depth : ℕ) : ∃ ret x', searchBinaryHandler env (registered before after) (depth + 1) x =
      some (ret, x') ∧ x'.entered = x.entered + 1 := by
  rw [searchBinaryHandler, registered, scan_of_passed hpass]
  exact exists_scan_of_not_accepts (x := { x with bprm := (askOthers before x.bprm).2 }) hdecline

variable (hacc : Accepts (env x.entered) (askOthers before x.bprm).2)

include hacc

/-- A file it accepts has no result if its next round has none. -/
theorem round_of_accepts_none
    (hagain : searchBinaryHandler env (registered before after) depth (nextRound before x) =
      none) : searchBinaryHandler env (registered before after) (depth + 1) x = none := by
  rw [searchBinaryHandler, registered, scan_of_passed hpass]
  exact scan_of_accepts_none (x := { x with bprm := (askOthers before x.bprm).2 }) hacc hagain

/-- Otherwise it has that result, or goes on to the formats after the
handler. -/
theorem round_of_accepts_some
    (hagain : searchBinaryHandler env (registered before after) depth (nextRound before x) =
      some (ret, x')) :
    searchBinaryHandler env (registered before after) (depth + 1) x =
      if ret ≠ -ENOEXEC then some (ret, x')
      else scanFormats (searchBinaryHandler env (registered before after) depth) env
        (after.map .other) x' := by
  rw [searchBinaryHandler, registered, scan_of_passed hpass]
  exact scan_of_accepts_some (x := { x with bprm := (askOthers before x.bprm).2 }) hacc hagain

/-- **Where the handler accepts the file, whatever comes of it comes of
its next round.** -/
theorem exists_next_round
    (h : searchBinaryHandler env (registered before after) depth x = some (ret, x')) :
    ∃ depth' code y, searchBinaryHandler env (registered before after) depth'
        (nextRound before x) = some (code, y) ∧ y.entered ≤ x'.entered := by
  cases depth with
  | zero => cases h
  | succ depth =>
    rcases hagain : searchBinaryHandler env (registered before after) depth
        (nextRound before x) with _ | ⟨code, y⟩
    · rw [round_of_accepts_none hpass hacc hagain] at h
      cases h
    · rw [round_of_accepts_some hpass hacc hagain] at h
      refine ⟨depth, code, y, hagain, ?_⟩
      split at h
      · obtain ⟨-, rfl⟩ := Prod.mk.inj (Option.some.inj h)
        exact Nat.le_refl _
      · exact entered_le_scan (entered_le _ depth) _ y h

end Round

/-- **Where no format before the handler takes the file, it is entered.** -/
theorem entered_lt_of_passed (hpass : (askOthers before x.bprm).1 = none) {depth : ℕ}
    (h : searchBinaryHandler env (registered before after) depth x = some (ret, x')) :
    x.entered + 1 ≤ x'.entered := by
  by_cases hacc : Accepts (env x.entered) (askOthers before x.bprm).2
  · obtain ⟨depth', code, y, hy, hle⟩ := exists_next_round hpass hacc h
    have hnext : x.entered + 1 ≤ y.entered := entered_le _ depth' _ code y hy
    exact Nat.le_trans hnext hle
  · cases depth with
    | zero => cases h
    | succ depth =>
      obtain ⟨code, y, hy, hentered⟩ := round_of_declined hpass hacc depth
      rw [hy] at h
      obtain ⟨-, rfl⟩ := Prod.mk.inj (Option.some.inj h)
      exact Nat.le_of_eq hentered.symm

/-! ## Once -/

/-- A file taken before the handler is dispatched without it. -/
theorem dispatchedOnce_of_taken (h : (askOthers before b).1.isSome) :
    DispatchedOnce env (registered before after) b := by
  obtain ⟨ret, hret⟩ := Option.isSome_iff_exists.1 h
  exact ⟨1, ret, _, round_of_taken (x := ⟨b, 0⟩) hret, Nat.zero_le 1⟩

/-- A file the handler declines is dispatched with one entry. -/
theorem dispatchedOnce_of_declined (hpass : (askOthers before b).1 = none)
    (hdecline : ¬ Accepts (env 0) (askOthers before b).2) :
    DispatchedOnce env (registered before after) b := by
  obtain ⟨ret, y, hy, hentered⟩ := round_of_declined (x := ⟨b, 0⟩) hpass hdecline 0
  exact ⟨1, ret, y, hy, Nat.le_of_eq hentered⟩

/-- A file taken on its second round leaves the handler with what came of
that. -/
theorem dispatchedOnce_of_taken_again (hpass : (askOthers before b).1 = none)
    (hacc : Accepts (env 0) (askOthers before b).2)
    (h : (askOthers before (askOthers before b).2.withoutInterp).1.isSome) :
    DispatchedOnce env (registered before after) b := by
  obtain ⟨ret, hret⟩ := Option.isSome_iff_exists.1 h
  have hagain : searchBinaryHandler env (registered before after) 1
      (nextRound before ⟨b, 0⟩) =
        some (ret, ⟨(askOthers before (askOthers before b).2.withoutInterp).2, 1⟩) :=
    round_of_taken (x := nextRound before ⟨b, 0⟩) hret
  refine ⟨2, ret, ⟨(askOthers before (askOthers before b).2.withoutInterp).2, 1⟩, ?_,
    Nat.le_refl 1⟩
  rw [round_of_accepts_some (x := ⟨b, 0⟩) hpass hacc hagain]
  exact if_pos (ne_of_taken hret)

/-- **Where nothing else takes a file the handler accepts, its dispatch
does not end**, at any depth. -/
theorem searchBinaryHandler_eq_none
    (hpass : ∀ interp, askOthers before { b with interp := interp } =
      (none, { b with interp := interp })) (hacc : ∀ n, Accepts (env n) b) :
    ∀ (depth : ℕ) (interp : Option CString) (n : ℕ),
      searchBinaryHandler env (registered before after) depth
        ⟨{ b with interp := interp }, n⟩ = none
  | 0, _, _ => rfl
  | depth + 1, interp, n => by
    have hfst : (askOthers before { b with interp := interp }).1 = none := by rw [hpass]
    have hsnd : (askOthers before { b with interp := interp }).2 =
        { b with interp := interp } := by rw [hpass]
    refine round_of_accepts_none (x := ⟨{ b with interp := interp }, n⟩) hfst ?_ ?_
    · rw [hsnd]
      exact hacc n
    · -- the next round differs in the interpreter alone
      rw [nextRound, hsnd]
      exact searchBinaryHandler_eq_none hpass hacc depth none (n + 1)

/-- **When an exec is dispatched, and the handler entered at most once**:
if and only if the handler is passed over, declines the file, or is passed
over when the file comes round again. -/
theorem dispatchedOnce_iff (env : ℕ → KernelEnv)
    (before after : List (LinuxBinprm σ → ℤ × LinuxBinprm σ)) (b : LinuxBinprm σ) :
    DispatchedOnce env (registered before after) b ↔ TakenOrDeclined env before b := by
  constructor
  · rintro ⟨depth, ret, x, hx, hentered⟩
    by_contra hnone
    simp only [TakenOrDeclined, not_or, not_not, Option.not_isSome_iff_eq_none] at hnone
    obtain ⟨hpass, hacc, hpass'⟩ := hnone
    -- the second round enters the handler once more
    obtain ⟨depth', code, y, hy, hle⟩ := exists_next_round (x := ⟨b, 0⟩) hpass hacc hx
    have htwice : 1 + 1 ≤ y.entered := entered_lt_of_passed hpass' hy
    omega
  · intro h
    rcases hpass : (askOthers before b).1 with _ | ret
    · by_cases hacc : Accepts (env 0) (askOthers before b).2
      · rcases h with htaken | hdecline | hagain
        · rw [hpass] at htaken
          cases htaken
        · exact absurd hacc hdecline
        · exact dispatchedOnce_of_taken_again hpass hacc hagain
      · exact dispatchedOnce_of_declined hpass hacc
    · exact dispatchedOnce_of_taken (by rw [hpass]; rfl)

/-- A 64-bit Mach-O file, for the handler alone to take. -/
def plainMachO : LinuxBinprm Unit := ⟨some [0xcf, 0xfa, 0xed, 0xfe], none, ()⟩

/-- Its dispatch does not end. -/
theorem not_dispatchedOnce_plainMachO :
    (∀ depth, searchBinaryHandler (fun _ => KernelEnv.succeeds) (registered [] []) depth
        ⟨plainMachO, 0⟩ = none) ∧
      ¬ DispatchedOnce (fun _ => KernelEnv.succeeds) (registered [] []) plainMachO := by
  have hacc : Accepts KernelEnv.succeeds plainMachO := ⟨rfl, rfl, _, rfl, by decide⟩
  have hnever : ∀ depth, searchBinaryHandler (fun _ => KernelEnv.succeeds) (registered [] [])
      depth ⟨plainMachO, 0⟩ = none :=
    fun depth => searchBinaryHandler_eq_none (fun _ => rfl) (fun _ => hacc) depth none 0
  refine ⟨hnever, ?_⟩
  rintro ⟨depth, ret, x, hx, -⟩
  rw [hnever depth] at hx
  cases hx

end MachO

end Lpnu
