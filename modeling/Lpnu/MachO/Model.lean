import Lpnu.Common.LittleEndian
/-!
# Mach-O — the model

The two recognisers of Mach-O files: the binary format handler of
`binfmt_mach_o.c`, which looks at the magic number and hands the file back
to the kernel's `search_binary_handler`, and the loader of
`lpnu_mach_o.c`, which looks at the headers. A file is its content, byte
for byte, on a little-endian host; whether the kernel finds memory and
whether its read fails are arguments of the call. The messages printed are
left out, but not the bytes read for them.
-/

namespace Lpnu

namespace MachO

/-! ## The kernel -/

/-- `ENOEXEC`. -/
def ENOEXEC : ℤ := 8

/-- `ENOMEM`. -/
def ENOMEM : ℤ := 12

/-- `EINVAL`. -/
def EINVAL : ℤ := 22

/-- `PAGE_SIZE`. -/
def pageSize : ℕ := 4096

/-- What the kernel answers a recogniser: whether `kzalloc` finds memory,
and the code of `kernel_read`, less one, where it fails. -/
structure KernelEnv where
  kzalloc : Bool
  readError : Option ℕ

/-- A kernel that has memory and reads the file. -/
def KernelEnv.succeeds : KernelEnv := ⟨true, none⟩

/-- `kernel_read` of up to `n` bytes of a file from its start into `buf`:
the number of bytes read or a negative code, and the buffer. -/
def kernelRead (env : KernelEnv) (content : List UInt8) (buf : Memory) (n : ℕ) : ℤ × Memory :=
  match env.readError with
  | some code => (Int.negSucc code, buf)
  | none =>
    let count := min content.length n
    (count, (buf.memcpy 0 (fun i => content.getD i 0) count).1)

/-! ## The format handler -/

/-- `LPNU_MACH_O_MAGIC_32`, and `LPNU_MACH_O_MAGIC` of the loader. -/
def lpnuMachOMagic32 : ℕ := 0xfeedface

/-- `LPNU_MACH_O_MAGIC_64`, and `LPNU_MACH_O_64_MAGIC` of the loader. -/
def lpnuMachOMagic64 : ℕ := 0xfeedfacf

/-- `LPNU_MACH_O_MAGIC_FAT`. -/
def lpnuMachOMagicFat : ℕ := 0xcafebabe

/-- `LPNU_MACH_O_CIGAM`. -/
def lpnuMachOCigam : ℕ := 0xcefaedfe

/-- `LPNU_MACH_O_CIGAM64`, which the source uses and does not define: the
64-bit magic number, byte-swapped. -/
def lpnuMachOCigam64 : ℕ := 0xcffaedfe

/-- `struct linux_binprm`: the file to execute, if there is one, its
interpreter, and the rest of what a format's loader may read and write. -/
structure LinuxBinprm (σ : Type*) where
  file : Option (List UInt8)
  interp : Option CString
  rest : σ

/-- An exec under way: its `bprm`, and how often the Mach-O handler was
entered for it. -/
structure Exec (σ : Type*) where
  bprm : LinuxBinprm σ
  entered : ℕ

variable {σ : Type*}

/-- The chain of tests on the magic number. -/
def recognises (magic : ℕ) : Bool :=
  if magic = lpnuMachOMagic32 ∨ magic = lpnuMachOCigam then true
  else if magic = lpnuMachOMagic64 ∨ magic = lpnuMachOCigam64 then true
  else if magic = lpnuMachOMagicFat then true
  else false

/-- `lpnu_load_mach_o_binary`. It is given `search_binary_handler`, which
it ends in calling, and which may not come back. -/
def lpnuLoadMachOBinary (searchBinaryHandler : Exec σ → Option (ℤ × Exec σ)) (env : KernelEnv)
    (x : Exec σ) : Option (ℤ × Exec σ) :=
  match x.bprm.file with
  | none => some (-ENOEXEC, x)
  | some content =>
    if env.kzalloc then
      let read := kernelRead env content (fun _ => 0) 4096
      if read.1 < 0 then some (read.1, x)
      else if recognises (read.2.u32 0).1 then
        -- nothing but `interp` changes before the file goes round again
        searchBinaryHandler { x with bprm := { x.bprm with interp := none } }
      else some (-ENOEXEC, x)
    else some (-ENOMEM, x)

/-- A registered `struct linux_binfmt`: `lpnu_mach_o_format`, or another,
given by what its `load_binary` returns and makes of the `bprm`: it does
not call `search_binary_handler` itself. -/
inductive LinuxBinfmt (σ : Type*)
  | lpnuMachOFormat
  | other (loadBinary : LinuxBinprm σ → ℤ × LinuxBinprm σ)

/-- `fmt->load_binary(bprm)`. The handler asks the kernel once each time
it is entered. -/
def LinuxBinfmt.loadBinary (searchBinaryHandler : Exec σ → Option (ℤ × Exec σ))
    (env : ℕ → KernelEnv) (x : Exec σ) : LinuxBinfmt σ → Option (ℤ × Exec σ)
  | .lpnuMachOFormat =>
    lpnuLoadMachOBinary searchBinaryHandler (env x.entered) { x with entered := x.entered + 1 }
  | .other loadBinary => some ((loadBinary x.bprm).1, { x with bprm := (loadBinary x.bprm).2 })

/-- The loop of `search_binary_handler`: the formats in order, up to the
first whose result is not `-ENOEXEC`. -/
def scanFormats (searchBinaryHandler : Exec σ → Option (ℤ × Exec σ)) (env : ℕ → KernelEnv) :
    List (LinuxBinfmt σ) → Exec σ → Option (ℤ × Exec σ)
  | [], x => some (-ENOEXEC, x)
  | fmt :: fmts, x =>
    match fmt.loadBinary searchBinaryHandler env x with
    | none => none
    | some (ret, x') =>
      if ret ≠ -ENOEXEC then some (ret, x') else scanFormats searchBinaryHandler env fmts x'

/-- `search_binary_handler`, called at most `depth` deep; no result means
that the calls went deeper. -/
def searchBinaryHandler (env : ℕ → KernelEnv) (formats : List (LinuxBinfmt σ)) :
    ℕ → Exec σ → Option (ℤ × Exec σ)
  | 0, _ => none
  | depth + 1, x => scanFormats (searchBinaryHandler env formats depth) env formats x

/-! ## The loader -/

/-- `lpnu_parse_mach_o_headers`, with the bytes it reads. The last four
are the header's `cputype`, for the message. -/
def lpnuParseMachOHeaders (data : Memory) (size : ℕ) : ℤ × List Access :=
  if size < 4 then (-EINVAL, [])
  else
    let magic := data.u32 0
    if magic.1 = lpnuMachOMagic32 then (0, magic.2 ++ (data.u32 4).2)
    else if magic.1 = lpnuMachOMagic64 then (0, magic.2 ++ (data.u32 4).2)
    else (-ENOEXEC, magic.2)

/-- `lpnu_load_mach_o`. -/
def lpnuLoadMachO (env : KernelEnv) (content : List UInt8) : ℤ :=
  if env.kzalloc then
    let read := kernelRead env content (fun _ => 0) pageSize
    if read.1 < 0 then read.1 else (lpnuParseMachOHeaders read.2 read.1.toNat).1
  else -ENOMEM

/-! ## What the handler does with a file -/

/-- What a read that succeeds leaves in a zeroed buffer. -/
def fileBuffer (content : List UInt8) (n : ℕ) : Memory :=
  (Memory.memcpy (fun _ => 0) 0 (fun i => content.getD i 0) (min content.length n)).1

/-- The word the recognisers look at. -/
def fileMagic (content : List UInt8) (n : ℕ) : ℕ := ((fileBuffer content n).u32 0).1

/-- **The handler accepts a file**: there is memory, the read succeeds and
the magic number is one of the five. -/
def Accepts (env : KernelEnv) (b : LinuxBinprm σ) : Prop :=
  env.kzalloc = true ∧ env.readError = none ∧
    ∃ content, b.file = some content ∧ recognises (fileMagic content 4096) = true

/-- The `bprm` of an exec, its interpreter taken away. -/
def LinuxBinprm.withoutInterp (b : LinuxBinprm σ) : LinuxBinprm σ := { b with interp := none }

theorem kernelRead_of_success {env : KernelEnv} (h : env.readError = none)
    (content : List UInt8) (n : ℕ) :
    kernelRead env content (fun _ => 0) n =
      (((min content.length n : ℕ) : ℤ), fileBuffer content n) := by
  simp only [kernelRead, h, fileBuffer]

variable {search : Exec σ → Option (ℤ × Exec σ)} {env : KernelEnv} {x : Exec σ}

/-- **A file it accepts goes back to `search_binary_handler`.** -/
theorem lpnuLoadMachOBinary_of_accepts (h : Accepts env x.bprm) :
    lpnuLoadMachOBinary search env x = search { x with bprm := x.bprm.withoutInterp } := by
  obtain ⟨hmem, hread, content, hfile, hmagic⟩ := h
  simp only [lpnuLoadMachOBinary, LinuxBinprm.withoutInterp, hfile, hmem, if_true,
    kernelRead_of_success hread]
  rw [if_neg (by omega)]
  exact if_pos hmagic

/-- **Any other is declined** with a code of its own. -/
theorem lpnuLoadMachOBinary_of_not_accepts (h : ¬ Accepts env x.bprm) :
    ∃ ret, ∀ search, lpnuLoadMachOBinary search env x = some (ret, x) := by
  rcases hfile : x.bprm.file with _ | content
  · exact ⟨-ENOEXEC, fun search => by simp only [lpnuLoadMachOBinary, hfile]⟩
  rcases hmem : env.kzalloc with _ | _
  · refine ⟨-ENOMEM, fun search => ?_⟩
    simp [lpnuLoadMachOBinary, hfile, hmem]
  rcases hread : env.readError with _ | code
  · refine ⟨-ENOEXEC, fun search => ?_⟩
    simp only [lpnuLoadMachOBinary, hfile, hmem, if_true, kernelRead_of_success hread]
    rw [if_neg (by omega)]
    refine if_neg fun hmagic => ?_
    exact h ⟨hmem, hread, content, hfile, hmagic⟩
  · refine ⟨Int.negSucc code, fun search => ?_⟩
    simp only [lpnuLoadMachOBinary, hfile, hmem, if_true, kernelRead, hread]
    rw [if_pos (Int.negSucc_lt_zero code)]

end MachO

end Lpnu
