import Lpnu.Common.Run
import Lpnu.Common.Table
/-!
# The kext runtime — the model

`lpnu_kext_runtime.c`: the switch, the table of loaded kexts and the
records the callers own. A record is named by its address and the records
together are a map from addresses; `g_loaded_kexts` and `g_kext_count`
are a pointer table of 256 slots. What the host answers a load (`stat`,
`dlopen`, `dlsym` and the kext's own `start`) is an argument of the call.
The diagnostics on stderr are left out; and line 94 of the source, which
does not parse, is read as the call of `info->stop(NULL)` it is meant to
be.
-/

namespace Lpnu

namespace Kext

/-- `LPNU_KEXT_DISABLED`. -/
def lpnuKextDisabled : ℤ := 0

/-- `LPNU_KEXT_ENABLED`. -/
def lpnuKextEnabled : ℤ := 1

/-- The `stop` entry kept in a record: its code, and the handle whose
`kext_main` it was read from. The source keeps the code alone. -/
structure StopEntry where
  handle : ℕ
  code : ℕ
  deriving DecidableEq, Repr

/-- `LPnuKextInfo`. -/
structure LPnuKextInfo where
  name : CharArray 256
  path : CharArray 512
  address : UInt64
  size : UInt64
  version : Int32
  refs : Int32
  module : Option ℕ
  start : Option ℕ
  stop : Option StopEntry

/-- A record of zero bytes. -/
def LPnuKextInfo.zero : LPnuKextInfo where
  name := CharArray.zero
  path := CharArray.zero
  address := 0
  size := 0
  version := 0
  refs := 0
  module := none
  start := none
  stop := none

/-- `LPnuKextMain`, the two entries a kext exports. -/
structure LPnuKextMain where
  start : Option ℕ
  stop : Option ℕ

/-- A call out of the runtime that has an effect on a loaded module. -/
inductive Event
  | dlopen (handle : ℕ)
  | start (code : ℕ)
  | stop (entry : StopEntry)
  | dlclose (handle : ℕ)
  deriving DecidableEq, Repr

/-- The path a load is given: a string apart from the record it is loaded
into, or a pointer into that record, as `info->path` is. What a pointer
into the record holds at the call is told by what the host answers. -/
inductive Path
  | apart (string : CString)
  | within

/-- What the path reads once the record is cleared. -/
def Path.afterClear : Path → CString
  | .apart string => string
  | .within => ⟨[], by decide⟩

/-- What the host answers a load: the size `stat` finds, if it finds the
file, the handle `dlopen` returns, what each symbol of that handle is,
and what the kext's `start` returns. -/
structure LoadEnv where
  stat : Option UInt64
  dlopen : Option ℕ
  dlsym : String → Option LPnuKextMain
  start : ℤ

/-- `kext_main`, under either of its names. -/
def LoadEnv.kextMain (env : LoadEnv) : Option LPnuKextMain :=
  match env.dlsym "kext_main" with
  | some kextMain => some kextMain
  | none => env.dlsym "_kext_main"

/-- The entry a load starts the kext by, with its companion, if it has
one. -/
def LoadEnv.startEntry (env : LoadEnv) : Option (ℕ × Option ℕ) :=
  match env.kextMain with
  | some ⟨some start, stop⟩ => some (start, stop)
  | _ => none

/-- The globals and the callers' records. -/
structure State where
  runtimeEnabled : ℤ
  loadedKexts : Table ℕ
  records : ℕ → LPnuKextInfo

/-- The runtime as it is linked, its callers' records zeroed. -/
def State.init : State := ⟨lpnuKextDisabled, Table.empty, fun _ => LPnuKextInfo.zero⟩

/-- What a call gives back: its return value, the calls out it makes and
its accesses to `g_loaded_kexts`. -/
structure Out where
  ret : ℤ
  events : List Event := []
  accesses : List Access := []

/-- `LPnuKextSetRuntime`. -/
def lpnuKextSetRuntime (s : State) (enabled : ℤ) : State × Out :=
  if enabled ≠ lpnuKextDisabled ∧ enabled ≠ lpnuKextEnabled then (s, { ret := -1 })
  else ({ s with runtimeEnabled := enabled }, { ret := 0 })

/-! ## Loading -/

/-- The bytes of `".kext"`. -/
def kextExtension : List UInt8 := [46, 107, 101, 120, 116]

/-- The name a load derives from a path: the first 255 bytes, what follows
their last slash moved to the front, cut at the first `".kext"`. The
accesses are those of the move and of the cut. -/
def kextName (path : CString) : CharArray 256 × List Access :=
  let name : CharArray 256 := CharArray.zero.strncpy path 255
  let moved : CharArray 256 × List Access :=
    match strrchr 47 name.str with
    | none => (name, [])
    | some basename => name.memmove 0 (basename + 1) (name.str.length - basename)
  match strstr kextExtension moved.1.str with
  | none => moved
  | some ext => (moved.1.blit ext [0], moved.2 ++ [.write ext])

/-- The record as a load fills it, before the kext is started. -/
def filledInfo (path : CString) (handle : ℕ) (size : UInt64) : LPnuKextInfo :=
  { LPnuKextInfo.zero with
    path := CharArray.zero.strncpy path 511
    name := (kextName path).1
    address := UInt64.ofNat handle
    size := size
    module := some handle }

/-- The record, rewritten. -/
def State.setRecord (s : State) (r : ℕ) (info : LPnuKextInfo) : State :=
  { s with records := Function.update s.records r info }

/-- The end of a load: the record goes into the table if there is room,
and the load succeeds either way. -/
def registerKext (s : State) (r : ℕ) (events : List Event) : State × Out :=
  if s.loadedKexts.count < 256 then
    ({ s with loadedKexts := (s.loadedKexts.push r).1 },
      { ret := 0, events := events, accesses := (s.loadedKexts.push r).2 })
  else (s, { ret := 0, events := events })

/-- `LPnuKextLoad`. -/
def lpnuKextLoad (s : State) (path : Option Path) (info : Option ℕ) (env : LoadEnv) :
    State × Out :=
  match path, info with
  | some path, some r =>
    if s.runtimeEnabled = lpnuKextDisabled then (s, { ret := -2 })
    else
      match env.stat, env.dlopen with
      | none, _ => (s, { ret := -3 })
      | some _, none => (s, { ret := -4 })
      | some size, some handle =>
        -- from here on every exit leaves the caller's record filled anew
        let filled := filledInfo path.afterClear handle size
        match env.startEntry with
        | none => registerKext (s.setRecord r filled) r [.dlopen handle]
        | some (start, stop) =>
          if env.start ≠ 0 then
            (s.setRecord r filled,
              { ret := -5, events := [.dlopen handle, .start start, .dlclose handle] })
          else
            let started :=
              { filled with start := some start, stop := stop.map (StopEntry.mk handle) }
            registerKext (s.setRecord r started) r [.dlopen handle, .start start]
  | _, _ => (s, { ret := -1 })

/-! ## Unloading -/

/-- What an unload does with a record's module: its `stop`, then its
`dlclose`. -/
def unloadEvents (info : LPnuKextInfo) : List Event :=
  (info.stop.map Event.stop).toList ++ (info.module.map Event.dlclose).toList

/-- `LPnuKextUnload`. -/
def lpnuKextUnload (s : State) (info : Option ℕ) : State × Out :=
  match info with
  | none => (s, { ret := -1 })
  | some r =>
    ({ s with loadedKexts := (s.loadedKexts.removeFirst r).1 },
      { ret := 0, events := unloadEvents (s.records r),
        accesses := (s.loadedKexts.removeFirst r).2 })

/-- `LPnuKextLoadBootKexts`: nothing is loaded, whether the runtime is
enabled or not. -/
def lpnuKextLoadBootKexts (s : State) : State × Out :=
  if s.runtimeEnabled = lpnuKextDisabled then (s, { ret := 0 }) else (s, { ret := 0 })

/-! ## The component -/

/-- The calls that may change the runtime's state. -/
inductive Call
  | setRuntime (enabled : ℤ)
  | load (path : Option Path) (info : Option ℕ) (env : LoadEnv)
  | unload (info : Option ℕ)
  | loadBootKexts

/-- One call. -/
def step (s : State) : Call → State × Out
  | .setRuntime enabled => lpnuKextSetRuntime s enabled
  | .load path info env => lpnuKextLoad s path info env
  | .unload info => lpnuKextUnload s info
  | .loadBootKexts => lpnuKextLoadBootKexts s

/-- The beginning of a recorded run. -/
def start : Run.Recorded State Call Out := ⟨State.init, []⟩

/-- The same, whatever the callers' records hold. -/
def startWith (records : ℕ → LPnuKextInfo) : Run.Recorded State Call Out :=
  ⟨{ State.init with records := records }, []⟩

end Kext

end Lpnu
