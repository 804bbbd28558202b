import Lpnu.Common.CArray
import Lpnu.Common.Run
import Lpnu.IOKit.Basic
import Mathlib.Logic.Function.Basic
/-!
# IODictionary — the model

The dictionary of `lpnu_iokit.c`: two arrays of 16 pointers, one for keys
and one for values, and a count of the slots in use. A key is kept by its
address, so that what it reads as is up to the store of strings its
caller owns; the store is part of the state, and the caller may overwrite
a string between calls. Whether each `calloc` finds memory is an argument
of the call.
-/

namespace Lpnu

namespace IOKit

open IOReturn

/-- `struct LPNUIODictionary`. An array is null or given from its first
slot on; 16 of the slots belong to it. -/
structure LPNUIODictionary where
  keys : Option (ℕ → Option ℕ)
  values : Option (ℕ → Option ℕ)
  count : UInt32
  capacity : UInt32

namespace Dictionary

/-- What a call gives back: the code or the value it returns, and its
accesses to the two arrays. -/
structure Out where
  ret : Option IOReturn := none
  value : Option ℕ := none
  keyAccesses : List Access := []
  valueAccesses : List Access := []

end Dictionary

open Dictionary

/-- What `calloc(16, sizeof(void*))` returns. -/
def callocArray (found : Bool) : Option (ℕ → Option ℕ) :=
  if found then some fun _ => none else none

/-- `LPNUIODictionaryCreate`: what it stores through its out-parameter and
what it returns. The three `calloc`s are for the dictionary and for its
two arrays. -/
def lpnuIODictionaryCreate (dict callocDict callocKeys callocValues : Bool) :
    Option LPNUIODictionary × IOReturn :=
  if dict then
    if callocDict then
      -- neither array is tested before the dictionary is handed out
      (some ⟨callocArray callocKeys, callocArray callocValues, 0, 16⟩, kIOReturnSuccess)
    else (none, kIOReturnNoMemory)
  else (none, kIOReturnBadArgument)

/-- `slot && strcmp(slot, key) == 0`. -/
def isKey (strings : ℕ → CString) (slot : Option ℕ) (key : ℕ) : Bool :=
  slot.any fun k => strcmp (strings k).bytes (strings key).bytes = 0

/-- The loop of `Set` and of `Copy`: the first slot in use that holds the
key. The array is first touched in the loop's body. -/
def findKey (strings : ℕ → CString) (d : LPNUIODictionary) (key : ℕ) :
    Except Fault (Option ℕ × List Access) :=
  match d.keys with
  | some slots => .ok (search (fun i => isKey strings (slots i) key) (List.range d.count.toNat))
  | none => if d.count = 0 then .ok (none, []) else .error .nullArray

/-- The end of `Set`: a key that is not there goes into the next slot, if
there is one, and the call succeeds either way. -/
def addKey (d : LPNUIODictionary) (key : ℕ) (value : Option ℕ) (reads : List Access) :
    LPNUIODictionary × Except Fault Out :=
  if d.count < d.capacity then
    match d.keys, d.values with
    | none, _ => (d, .error .nullArray)
    | some keys, none =>
      ({ d with keys := some (Function.update keys d.count.toNat (some key)) },
        .error .nullArray)
    | some keys, some values =>
      ({ d with
          keys := some (Function.update keys d.count.toNat (some key))
          values := some (Function.update values d.count.toNat value)
          count := d.count + 1 },
        .ok { ret := some kIOReturnSuccess
              keyAccesses := reads ++ [.write d.count.toNat]
              valueAccesses := [.write d.count.toNat] })
  else (d, .ok { ret := some kIOReturnSuccess, keyAccesses := reads })

/-- `LPNUIODictionarySet`. -/
def lpnuIODictionarySet (strings : ℕ → CString) (d : LPNUIODictionary) (dict : Bool)
    (key : Option ℕ) (value : Option ℕ) : LPNUIODictionary × Except Fault Out :=
  match dict, key with
  | true, some key =>
    match findKey strings d key with
    | .error fault => (d, .error fault)
    | .ok (none, reads) => addKey d key value reads
    | .ok (some i, reads) =>
      match d.values with
      | none => (d, .error .nullArray)
      | some values =>
        ({ d with values := some (Function.update values i value) },
          .ok { ret := some kIOReturnSuccess, keyAccesses := reads,
                valueAccesses := [.write i] })
  | _, _ => (d, .ok { ret := some kIOReturnBadArgument })

/-- `LPNUIODictionaryCopy`. -/
def lpnuIODictionaryCopy (strings : ℕ → CString) (d : LPNUIODictionary) (dict : Bool)
    (key : Option ℕ) : Except Fault Out :=
  match dict, key with
  | true, some key =>
    match findKey strings d key with
    | .error fault => .error fault
    | .ok (none, reads) => .ok { keyAccesses := reads }
    | .ok (some i, reads) =>
      match d.values with
      | none => .error .nullArray
      | some values =>
        .ok { value := values i, keyAccesses := reads, valueAccesses := [.read i] }
  | _, _ => .ok {}

namespace Dictionary

/-! ## The component -/

/-- The dictionary, and the strings its callers own. -/
structure State where
  strings : ℕ → CString
  dict : LPNUIODictionary

/-- The calls on a dictionary, and a caller's writing of a string. -/
inductive Call
  | set (dict : Bool) (key value : Option ℕ)
  | copy (dict : Bool) (key : Option ℕ)
  | overwrite (addr : ℕ) (string : CString)

/-- One call. -/
def step (s : State) : Call → State × Except Fault Out
  | .set dict key value =>
    let r := lpnuIODictionarySet s.strings s.dict dict key value
    ({ s with dict := r.1 }, r.2)
  | .copy dict key => (s, lpnuIODictionaryCopy s.strings s.dict dict key)
  | .overwrite addr string =>
    ({ s with strings := Function.update s.strings addr string }, .ok {})

/-- A key set to a value. -/
def setCall (kv : ℕ × Option ℕ) : Call := .set true (some kv.1) kv.2

end Dictionary

end IOKit

end Lpnu
