import Lpnu.IOKit.Dictionary.Refinement
/-!
# IODictionary — keys in memory their callers own

The dictionary keeps the address of a key and reads the string there at
every call, so that whoever writes the string renames the entry. While the
strings it holds are left as they are it is the map of what its keys read
when they were set, `copy_after_keeping`; a key's memory written over is
`not_copy_after_reuse`.
-/

namespace Lpnu

namespace IOKit

open IOReturn Run AssocList

namespace Dictionary

/-- What a call sets: the string its key reads, and the value. -/
def setRead (s : State) : Call → Option (CString × Option ℕ)
  | .set true (some key) value => some (s.strings key, value)
  | _ => none

/-- What a run sets, in order, each key as it reads at the time. -/
def setsRead (s : State) : List Call → List (CString × Option ℕ)
  | [] => []
  | call :: run => (setRead s call).toList ++ setsRead (step s call).1 run

/-- The dictionary holds the address in a slot in use. -/
def HoldsKey (d : LPNUIODictionary) (addr : ℕ) : Prop :=
  ∃ slots i, d.keys = some slots ∧ i < d.count.toNat ∧ slots i = some addr

/-- **The condition on a call**: a string whose address the dictionary
holds is not given another text. -/
def KeepsKeys (s : State) : Call → Prop
  | .overwrite addr string => HoldsKey s.dict addr → string = s.strings addr
  | _ => True

/-- **`Copy` gives the value of the last `Set` whose key read as this one
reads**, by what the run so far set; null if there is none. -/
def CopiesLast (s : State) (sets : List (CString × Option ℕ)) : Prop :=
  ∀ key, ∃ out, lpnuIODictionaryCopy s.strings s.dict true (some key) = .ok out ∧
    out.value = (sets.reverse.lookup (s.strings key)).join

variable {s : State} {d : LPNUIODictionary} {strings : ℕ → CString} {call : Call}
variable {l : List (CString × Option ℕ)} {run : List Call}

/-- What is represented does not depend on strings the dictionary does not
hold. -/
theorem Represents.congr {strings' : ℕ → CString} (h : Represents strings d l)
    (heq : ∀ addr, HoldsKey d addr → strings' addr = strings addr) : Represents strings' d l := by
  obtain ⟨slots, hslots, hkey⟩ := h.keys
  refine ⟨⟨slots, hslots, fun i hi => ?_⟩, h.values, h.count_eq, h.capacity_eq, h.length_le⟩
  rw [← hkey i hi]
  cases hslot : slots i with
  | none => rfl
  | some addr =>
    have hheld : HoldsKey d addr := ⟨slots, i, hslots, by rw [h.count_eq]; exact hi, hslot⟩
    rw [Option.map_some, Option.map_some, heq addr hheld]

/-- **One call on the dictionary is the upsert of what it sets.** -/
theorem represents_step {sets : List (CString × Option ℕ)}
    (h : Represents s.strings s.dict (upserts 16 sets)) (hkeeps : KeepsKeys s call) :
    Represents (step s call).1.strings (step s call).1.dict
      (upserts 16 (sets ++ (setRead s call).toList)) := by
  have hnil : Represents s.strings s.dict (upserts 16 (sets ++ [])) := by
    rw [List.append_nil]
    exact h
  cases call with
  | set dict key value =>
    rcases dict with _ | _
    · exact hnil
    rcases key with _ | key
    · exact hnil
    obtain ⟨-, -, -, hset⟩ := set_refines h key value
    rw [setRead, Option.toList_some, upserts_concat]
    exact hset
  | copy dict key => exact hnil
  | overwrite addr string =>
    refine hnil.congr fun a ha => ?_
    show Function.update s.strings addr string a = s.strings a
    by_cases haddr : a = addr
    · subst haddr
      rw [Function.update_self]
      exact hkeeps ha
    · exact Function.update_of_ne haddr _ _

theorem represents_after : ∀ {run : List Call} {s : State} {sets : List (CString × Option ℕ)},
    Represents s.strings s.dict (upserts 16 sets) → EachStep step s KeepsKeys run →
      Represents (after step s run).strings (after step s run).dict
        (upserts 16 (sets ++ setsRead s run))
  | [], s, sets, h, _ => by
    rw [setsRead, List.append_nil]
    exact h
  | call :: run, s, sets, h, hkeeps => by
    rw [after_cons, setsRead, ← List.append_assoc]
    exact represents_after (represents_step h hkeeps.1) hkeeps.2

/-- Of at most 16 keys all stay. -/
theorem lookup_upserts_of_few {sets : List (CString × Option ℕ)}
    (hfew : (AssocList.keys sets).eraseDups.length ≤ 16) (key : CString) :
    (upserts 16 sets).lookup key = sets.reverse.lookup key := by
  rw [lookup_upserts, List.take_of_length_le hfew]
  split
  · rfl
  · rename_i hkey
    refine (lookup_of_notMem fun hmem => hkey (List.mem_eraseDups.2 ?_)).symm
    rw [AssocList.keys, List.map_reverse, List.mem_reverse] at hmem
    exact hmem

/-- **A run that keeps the strings the dictionary holds, and sets at most
16 distinct keys, leaves the map of what it set.** -/
theorem copy_after_keeping
    (hcreate : lpnuIODictionaryCreate true true true true = (some d, kIOReturnSuccess))
    (hkeeps : EachStep step ⟨strings, d⟩ KeepsKeys run)
    (hfew : (AssocList.keys (setsRead ⟨strings, d⟩ run)).eraseDups.length ≤ 16) :
    CopiesLast (after step ⟨strings, d⟩ run) (setsRead ⟨strings, d⟩ run) := by
  intro key
  have hempty : Represents strings d (upserts 16 []) := represents_create hcreate
  have hafter := represents_after (s := ⟨strings, d⟩) hempty hkeeps
  rw [List.nil_append] at hafter
  obtain ⟨out, hout, hvalue⟩ := copy_refines hafter key
  rw [lookup_upserts_of_few hfew] at hvalue
  exact ⟨out, hout, hvalue⟩

/-- A dictionary just created. -/
def created : LPNUIODictionary := ⟨some fun _ => none, some fun _ => none, 0, 16⟩

/-- The string `"b"`. -/
def stringB : CString := ⟨[98], by decide⟩

/-- A key set, a string the dictionary does not hold written over, and the
key set again. -/
def keeping : List Call :=
  [.set true (some 0) (some 5), .overwrite 1 stringB, .set true (some 0) (some 6)]

theorem copy_after_keeping_created :
    CopiesLast (after step ⟨fun _ => CString.a, created⟩ keeping)
      (setsRead ⟨fun _ => CString.a, created⟩ keeping) := by
  refine copy_after_keeping rfl ⟨trivial, ?_, trivial, trivial⟩ (by decide)
  rintro ⟨slots, i, hslots, hi, hslot⟩
  obtain rfl := Option.some.inj hslots
  obtain rfl : i = 0 := by
    have hi' : i < 1 := hi
    omega
  exact absurd hslot (by decide)

/-- A key set, and its memory given another text. -/
def reuse : List Call := [.set true (some 0) (some 5), .overwrite 0 stringB]

/-- `Copy` finds the entry under a key that was never set. -/
theorem not_copy_after_reuse :
    lpnuIODictionaryCreate true true true true = (some created, kIOReturnSuccess) ∧
      (AssocList.keys (setsRead ⟨fun _ => CString.a, created⟩ reuse)).eraseDups.length ≤ 16 ∧
      ¬ CopiesLast (after step ⟨fun _ => CString.a, created⟩ reuse)
        (setsRead ⟨fun _ => CString.a, created⟩ reuse) := by
  refine ⟨rfl, by decide, fun h => ?_⟩
  obtain ⟨out, hout, hvalue⟩ := h 0
  cases hout
  exact absurd hvalue (by decide)

end Dictionary

end IOKit

end Lpnu
