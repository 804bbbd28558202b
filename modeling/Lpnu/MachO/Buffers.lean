import Lpnu.Common.Blocks
import Lpnu.MachO.Model
/-!
# Mach-O — the page a file is read into

Both recognisers read a file into a page they ask the kernel for. Here
the functions of the model are read once more, with the requests for the
page written out. They come to the results they came to without, and they
hold one page at a time: the handler has given its page back before it
calls `search_binary_handler`, so that however often a file comes round,
no page is in use when the next is asked for (`serve_inTurn`).
-/

namespace Lpnu

namespace MachO

namespace Buffers

open Blocks

variable {σ : Type}

/-- `lpnu_load_mach_o_binary`. -/
def lpnuLoadMachOBinary (searchBinaryHandler : Exec σ → Program (Option (ℤ × Exec σ)))
    (env : KernelEnv) (x : Exec σ) : Program (Option (ℤ × Exec σ)) :=
  match x.bprm.file with
  | none => pure (some (-ENOEXEC, x))
  | some content => do
    match ← calloc env.kzalloc with
    | none => pure (some (-ENOMEM, x))
    | some buf =>
      let read := kernelRead env content (fun _ => 0) 4096
      if read.1 < 0 then do
        free buf
        pure (some (read.1, x))
      else if recognises (read.2.u32 0).1 then do
        free buf
        searchBinaryHandler { x with bprm := { x.bprm with interp := none } }
      else do
        free buf
        pure (some (-ENOEXEC, x))

/-- `fmt->load_binary(bprm)`. -/
def loadBinary (searchBinaryHandler : Exec σ → Program (Option (ℤ × Exec σ)))
    (env : ℕ → KernelEnv) (x : Exec σ) : LinuxBinfmt σ → Program (Option (ℤ × Exec σ))
  | .lpnuMachOFormat =>
    lpnuLoadMachOBinary searchBinaryHandler (env x.entered) { x with entered := x.entered + 1 }
  | .other loadBinary =>
    pure (some ((loadBinary x.bprm).1, { x with bprm := (loadBinary x.bprm).2 }))

/-- The loop of `search_binary_handler`. -/
def scanFormats (searchBinaryHandler : Exec σ → Program (Option (ℤ × Exec σ)))
    (env : ℕ → KernelEnv) : List (LinuxBinfmt σ) → Exec σ → Program (Option (ℤ × Exec σ))
  | [], x => pure (some (-ENOEXEC, x))
  | fmt :: fmts, x => do
    match ← loadBinary searchBinaryHandler env x fmt with
    | none => pure none
    | some (ret, x') =>
      if ret ≠ -ENOEXEC then pure (some (ret, x')) else scanFormats searchBinaryHandler env fmts x'

/-- `search_binary_handler`, called at most `depth` deep. -/
def searchBinaryHandler (env : ℕ → KernelEnv) (formats : List (LinuxBinfmt σ)) :
    ℕ → Exec σ → Program (Option (ℤ × Exec σ))
  | 0, _ => pure none
  | depth + 1, x => scanFormats (searchBinaryHandler env formats depth) env formats x

/-- `lpnu_load_mach_o`. -/
def lpnuLoadMachO (env : KernelEnv) (content : List UInt8) : Program ℤ := do
  match ← calloc env.kzalloc with
  | none => pure (-ENOMEM)
  | some data =>
    let read := kernelRead env content (fun _ => 0) pageSize
    if read.1 < 0 then do
      free data
      pure read.1
    else do
      let ret := (lpnuParseMachOHeaders read.2 read.1.toNat).1
      free data
      pure ret

variable {dispatch : Exec σ → Option (ℤ × Exec σ)}
  {search : Exec σ → Program (Option (ℤ × Exec σ))} {env : ℕ → KernelEnv}

/-- **The handler** holds one page, and none when it calls
`search_binary_handler`. -/
theorem oneAtATime_lpnuLoadMachOBinary (hsearch : ∀ x, OneAtATime (search x) (dispatch x))
    (env : KernelEnv) (x : Exec σ) : OneAtATime (lpnuLoadMachOBinary search env x)
      (MachO.lpnuLoadMachOBinary dispatch env x) := by
  unfold lpnuLoadMachOBinary MachO.lpnuLoadMachOBinary
  rcases x.bprm.file with _ | content
  · exact OneAtATime.pure _
  rcases env.kzalloc with _ | _
  · exact (OneAtATime.pure none).bind (OneAtATime.pure _)
  -- the page is given back in each of the three branches
  by_cases hread : (kernelRead env content (fun _ => 0) 4096).1 < 0
  · simp only [hread, if_true]
    exact OneAtATime.scratch (fun _ => rfl) (OneAtATime.pure _)
  by_cases hmagic : recognises ((kernelRead env content (fun _ => 0) 4096).2.u32 0).1 = true
  · simp only [hread, hmagic, if_true, if_false]
    exact OneAtATime.scratch (fun _ => rfl) (hsearch _)
  · simp only [hread, hmagic, if_true, if_false]
    exact OneAtATime.scratch (fun _ => rfl) (OneAtATime.pure _)

theorem oneAtATime_loadBinary (hsearch : ∀ x, OneAtATime (search x) (dispatch x))
    (fmt : LinuxBinfmt σ) (x : Exec σ) :
    OneAtATime (loadBinary search env x fmt) (fmt.loadBinary dispatch env x) := by
  cases fmt with
  | lpnuMachOFormat => exact oneAtATime_lpnuLoadMachOBinary hsearch _ _
  | other load => exact OneAtATime.pure _

/-- **A scan** holds one page at a time if what the handler calls does. -/
theorem oneAtATime_scanFormats (hsearch : ∀ x, OneAtATime (search x) (dispatch x))
    (formats : List (LinuxBinfmt σ)) (x : Exec σ) :
    OneAtATime (scanFormats search env formats x) (MachO.scanFormats dispatch env formats x) := by
  induction formats generalizing x with
  | nil => exact OneAtATime.pure _
  | cons fmt formats ih =>
    rw [scanFormats, MachO.scanFormats]
    refine (oneAtATime_loadBinary hsearch fmt x).bind ?_
    rcases fmt.loadBinary dispatch env x with _ | ⟨ret, x'⟩
    · exact OneAtATime.pure none
    · by_cases htakes : ret ≠ -ENOEXEC
      · simp only [if_pos htakes]
        exact OneAtATime.pure _
      · simp only [if_neg htakes]
        exact ih x'

/-- **However deep `search_binary_handler` goes, and whether it comes back
or not, it comes to what the model without pages comes to, and holds one
page at a time**: each is given back before the next is asked for. -/
theorem oneAtATime_searchBinaryHandler (env : ℕ → KernelEnv) (formats : List (LinuxBinfmt σ))
    (depth : ℕ) (x : Exec σ) : OneAtATime (searchBinaryHandler env formats depth x)
      (MachO.searchBinaryHandler env formats depth x) := by
  induction depth generalizing x with
  | zero => exact OneAtATime.pure none
  | succ depth ih => exact oneAtATime_scanFormats ih formats x

/-- The loader holds one page, and gives it back on every path. -/
theorem oneAtATime_lpnuLoadMachO (env : KernelEnv) (content : List UInt8) :
    OneAtATime (lpnuLoadMachO env content) (MachO.lpnuLoadMachO env content) := by
  unfold lpnuLoadMachO MachO.lpnuLoadMachO
  rcases env.kzalloc with _ | _
  · exact (OneAtATime.pure none).bind (OneAtATime.pure _)
  by_cases hread : (kernelRead env content (fun _ => 0) pageSize).1 < 0
  · simp only [hread, if_true]
    exact OneAtATime.scratch (fun _ => rfl) (OneAtATime.pure _)
  · simp only [hread, if_true, if_false]
    exact OneAtATime.scratch (fun _ => rfl) (OneAtATime.pure _)

/-! ## Runs -/

/-- What the kernel is asked: to execute a file, or to load one. -/
inductive Request (σ : Type)
  | exec (env : ℕ → KernelEnv) (formats : List (LinuxBinfmt σ)) (depth : ℕ) (bprm : LinuxBinprm σ)
  | load (env : KernelEnv) (content : List UInt8)

/-- What comes of it. -/
abbrev Answer (σ : Type) := Option (ℤ × Exec σ) ⊕ ℤ

/-- The answer of the model without pages. -/
def answer : Request σ → Answer σ
  | .exec env formats depth bprm => .inl (MachO.searchBinaryHandler env formats depth ⟨bprm, 0⟩)
  | .load env content => .inr (MachO.lpnuLoadMachO env content)

/-- One request, and several in order. -/
def serveOne : Request σ → Program (Answer σ)
  | .exec env formats depth bprm => do
    let r ← searchBinaryHandler env formats depth ⟨bprm, 0⟩
    pure (.inl r)
  | .load env content => do
    let r ← lpnuLoadMachO env content
    pure (.inr r)

def serve : List (Request σ) → Program (List (Answer σ))
  | [] => pure []
  | request :: requests => do
    let a ← serveOne request
    let as ← serve requests
    pure (a :: as)

theorem oneAtATime_serve (requests : List (Request σ)) :
    OneAtATime (serve requests) (requests.map answer) := by
  induction requests with
  | nil => exact OneAtATime.pure []
  | cons request requests ih =>
    have hone : OneAtATime (serveOne request) (answer request) := by
      cases request with
      | exec env formats depth bprm =>
        exact (oneAtATime_searchBinaryHandler env formats depth _).bind (OneAtATime.pure _)
      | load env content => exact (oneAtATime_lpnuLoadMachO env content).bind (OneAtATime.pure _)
    exact hone.bind (ih.bind (OneAtATime.pure _))

/-- **Whatever is executed and loaded, however deep the handlers go and
whatever the kernel answers**, the pages asked for are given back in
turn, each before the next, so that none is in use in the end; and the
answers are those of the model without pages. -/
theorem serve_inTurn (requests : List (Request σ)) :
    ∃ n, serve requests Allocator.init = (requests.map answer, ⟨n, inTurn 0 n⟩) ∧
      Owns ⟨n, inTurn 0 n⟩ [] := by
  have hserve := oneAtATime_serve requests
  obtain ⟨n, hn⟩ := hserve Allocator.init
  have howns := hserve.owns owns_init
  simp only [Allocator.init, Nat.zero_add, List.nil_append] at hn howns
  rw [hn] at howns
  exact ⟨n, hn, howns⟩

end Buffers

end MachO

end Lpnu
