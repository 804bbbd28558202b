import Lpnu.Common.AssocList
import Lpnu.IOKit.Dictionary.Model
/-!
# IODictionary — the map it is

As long as its callers leave their strings alone, a dictionary is a map
from strings to values, kept in the order its keys came in and of at most
16 of them: `Represents` relates the two, `set_refines` and
`copy_refines` are the simulation of its calls, and
`dictionary_after_sets` is what they give for any sequence of `Set`s.
-/

namespace Lpnu

namespace IOKit

open IOReturn Run AssocList

namespace Dictionary

/-- **A dictionary stands for a list of entries**: the slots in use hold
the keys and the values, in order. -/
structure Represents (strings : ℕ → CString) (d : LPNUIODictionary)
    (l : List (CString × Option ℕ)) : Prop where
  keys : ∃ slots, d.keys = some slots ∧
    ∀ i, i < l.length → (slots i).map strings = (AssocList.keys l)[i]?
  values : ∃ slots, d.values = some slots ∧
    ∀ i, i < l.length → some (slots i) = (l.map Prod.snd)[i]?
  count_eq : d.count.toNat = l.length
  capacity_eq : d.capacity = 16
  length_le : l.length ≤ 16

variable {strings : ℕ → CString} {d : LPNUIODictionary} {l : List (CString × Option ℕ)}
variable {kvs : List (ℕ × Option ℕ)}

/-- A created dictionary is the empty map. -/
theorem represents_create
    (h : lpnuIODictionaryCreate true true true true = (some d, kIOReturnSuccess)) :
    Represents strings d [] := by
  obtain rfl : d = ⟨some fun _ => none, some fun _ => none, 0, 16⟩ :=
    (Option.some.inj (Prod.mk.inj h).1).symm
  exact ⟨⟨_, rfl, by simp⟩, ⟨_, rfl, by simp⟩, rfl, rfl, by simp⟩

/-- The test of a slot, in terms of the map. -/
theorem isKey_iff {slot : Option ℕ} {key : ℕ} :
    isKey strings slot key ↔ slot.map strings = some (strings key) := by
  cases slot with
  | none => simp [isKey]
  | some k => simp [isKey, strcmp_eq_zero_iff]

/-- **The loop finds the first slot of a key**, where the map has it. -/
theorem findKey_eq (h : Represents strings d l) (key : ℕ) :
    ∃ reads, findKey strings d key = .ok
      (if strings key ∈ AssocList.keys l then some ((AssocList.keys l).idxOf (strings key))
        else none, reads) := by
  obtain ⟨slots, hslots, hkey⟩ := h.keys
  have htest : ∀ i, i < (AssocList.keys l).length →
      (isKey strings (slots i) key ↔ (AssocList.keys l)[i]? = some (strings key)) := by
    intro i hi
    rw [isKey_iff, hkey i (by simpa using hi)]
  have hfound := search_range htest
  rw [length_keys, ← h.count_eq] at hfound
  refine ⟨(search (fun i => isKey strings (slots i) key) (List.range d.count.toNat)).2, ?_⟩
  rw [findKey, hslots, ← hfound]

/-- Giving a key that is there a value rewrites one slot. -/
theorem Represents.update (h : Represents strings d l) {key : ℕ} {value : Option ℕ}
    {slots : ℕ → Option ℕ} (hslots : d.values = some slots)
    (hmem : strings key ∈ AssocList.keys l) :
    Represents strings
      { d with
        values := some (Function.update slots ((AssocList.keys l).idxOf (strings key)) value) }
      (upsert 16 l (strings key) value) := by
  have hkeys : AssocList.keys (upsert 16 l (strings key) value) = AssocList.keys l := by
    rw [keys_upsert, if_pos hmem]
  have hlen : (upsert 16 l (strings key) value).length = l.length := by
    rw [← length_keys, hkeys, length_keys]
  refine ⟨?_, ⟨_, rfl, fun i hi => ?_⟩, ?_, h.capacity_eq, ?_⟩
  · rw [hkeys, hlen]
    exact h.keys
  · obtain ⟨slots', hslots', hvalue⟩ := h.values
    obtain rfl : slots = slots' := Option.some.inj (hslots.symm.trans hslots')
    rw [hlen] at hi
    rw [upsert, if_pos hmem, List.map_set, List.getElem?_set, Function.update_apply]
    by_cases hidx : i = (AssocList.keys l).idxOf (strings key)
    · rw [if_pos hidx, if_pos hidx.symm, if_pos (by simpa using hidx ▸ hi)]
    · rw [if_neg hidx, if_neg (Ne.symm hidx), hvalue i hi]
  · rw [hlen]; exact h.count_eq
  · rw [hlen]; exact h.length_le

/-- A new key goes into the next slot, with its value. -/
theorem Represents.add (h : Represents strings d l) {key : ℕ} {value : Option ℕ}
    {reads : List Access} (hnew : strings key ∉ AssocList.keys l) :
    ∃ out, (addKey d key value reads).2 = .ok out ∧ out.ret = some kIOReturnSuccess ∧
      Represents strings (addKey d key value reads).1 (upsert 16 l (strings key) value) := by
  obtain ⟨kslots, hkslots, hkey⟩ := h.keys
  obtain ⟨vslots, hvslots, hvalue⟩ := h.values
  have hroom : d.count < d.capacity ↔ l.length < 16 := by
    rw [UInt32.lt_iff_toNat_lt, h.count_eq, h.capacity_eq]
    exact Iff.rfl
  unfold addKey
  by_cases hlt : l.length < 16
  · rw [if_pos (hroom.2 hlt), hkslots, hvslots]
    refine ⟨_, rfl, rfl, ?_⟩
    rw [upsert, if_neg hnew, if_pos hlt]
    refine ⟨⟨_, rfl, fun i hi => ?_⟩, ⟨_, rfl, fun i hi => ?_⟩, ?_, h.capacity_eq, ?_⟩
    · rw [h.count_eq, keys_append, Function.update_apply]
      simp only [List.length_append, List.length_singleton] at hi
      rcases Nat.lt_succ_iff_lt_or_eq.1 hi with hi | rfl
      · rw [if_neg (by omega), hkey i hi, List.getElem?_append_left (by simpa using hi)]
      · rw [if_pos rfl, List.getElem?_append_right (by simp)]
        simp [AssocList.keys]
    · rw [h.count_eq, List.map_append, Function.update_apply]
      simp only [List.length_append, List.length_singleton] at hi
      rcases Nat.lt_succ_iff_lt_or_eq.1 hi with hi | rfl
      · rw [if_neg (by omega), hvalue i hi, List.getElem?_append_left (by simpa using hi)]
      · rw [if_pos rfl, List.getElem?_append_right (by simp)]
        simp
    · -- the count is far from its 32 bits
      rw [UInt32.toNat_add, h.count_eq, List.length_append]
      simp only [UInt32.toNat_one, List.length_singleton]
      omega
    · simp only [List.length_append, List.length_singleton]
      omega
  · rw [if_neg (mt hroom.1 hlt)]
    refine ⟨_, rfl, rfl, ?_⟩
    rw [upsert, if_neg hnew, if_neg hlt]
    exact h

/-- **`Set` is the upsert**, and succeeds. -/
theorem set_refines (h : Represents strings d l) (key : ℕ) (value : Option ℕ) :
    ∃ out, (lpnuIODictionarySet strings d true (some key) value).2 = .ok out ∧
      out.ret = some kIOReturnSuccess ∧
      Represents strings (lpnuIODictionarySet strings d true (some key) value).1
        (upsert 16 l (strings key) value) := by
  obtain ⟨reads, hfound⟩ := findKey_eq h key
  obtain ⟨vslots, hvslots, -⟩ := h.values
  unfold lpnuIODictionarySet
  simp only [hfound]
  by_cases hmem : strings key ∈ AssocList.keys l
  · simp only [if_pos hmem, hvslots]
    exact ⟨_, rfl, rfl, h.update hvslots hmem⟩
  · simp only [if_neg hmem]
    exact h.add hmem

/-- **`Copy` is the lookup**, null where the map has no such key. -/
theorem copy_refines (h : Represents strings d l) (key : ℕ) :
    ∃ out, lpnuIODictionaryCopy strings d true (some key) = .ok out ∧
      out.value = (l.lookup (strings key)).join := by
  obtain ⟨reads, hfound⟩ := findKey_eq h key
  obtain ⟨vslots, hvslots, hvalue⟩ := h.values
  unfold lpnuIODictionaryCopy
  simp only [hfound]
  by_cases hmem : strings key ∈ AssocList.keys l
  · simp only [if_pos hmem, hvslots]
    refine ⟨_, rfl, ?_⟩
    have hlt : (AssocList.keys l).idxOf (strings key) < l.length := by
      rw [← length_keys]
      exact List.idxOf_lt_length_of_mem hmem
    rw [lookup_of_mem hmem, ← hvalue _ hlt]
    rfl
  · simp only [if_neg hmem]
    exact ⟨_, rfl, by rw [lookup_of_notMem hmem]; rfl⟩

/-- A sequence of `Set`s is the sequence of upserts. -/
theorem represents_after_sets (h : Represents strings d []) (kvs : List (ℕ × Option ℕ)) :
    (after step ⟨strings, d⟩ (kvs.map setCall)).strings = strings ∧
      Represents strings (after step ⟨strings, d⟩ (kvs.map setCall)).dict
        (upserts 16 (kvs.map fun kv => (strings kv.1, kv.2))) := by
  induction kvs using List.reverseRecOn with
  | nil => exact ⟨rfl, h⟩
  | append_singleton kvs kv ih =>
    obtain ⟨hstrings, hdict⟩ := ih
    rw [List.map_append, List.map_singleton, after_concat, List.map_append, List.map_singleton,
      upserts_concat]
    refine ⟨hstrings, ?_⟩
    obtain ⟨-, -, -, hset⟩ := set_refines hdict kv.1 kv.2
    simp only [step, setCall, hstrings]
    exact hset

/-- The distinct keys of a sequence of `Set`s, in the order they first
appear. -/
def distinctKeys (strings : ℕ → CString) (kvs : List (ℕ × Option ℕ)) : List CString :=
  (kvs.map fun kv => strings kv.1).eraseDups

/-- The value of the last `Set` of a key, null if there is none. -/
def lastValue (strings : ℕ → CString) (kvs : List (ℕ × Option ℕ)) (key : CString) : Option ℕ :=
  (kvs.reverse.find? fun kv => strings kv.1 = key).bind Prod.snd

theorem lookup_map_eq_find? (key : CString) :
    (kvs.map fun kv => (strings kv.1, kv.2)).lookup key =
      (kvs.find? fun kv => strings kv.1 = key).map Prod.snd := by
  induction kvs with
  | nil => rfl
  | cons kv kvs ih =>
    rw [List.map_cons, lookup_cons, List.find?_cons]
    by_cases hk : key = strings kv.1
    · simp [hk]
    · simp [hk, Ne.symm hk, ih]

theorem lookup_upserts_join (key : CString) :
    ((upserts 16 (kvs.map fun kv => (strings kv.1, kv.2))).lookup key).join =
      if key ∈ (distinctKeys strings kvs).take 16 then lastValue strings kvs key else none := by
  have hkeys : AssocList.keys (kvs.map fun kv => (strings kv.1, kv.2)) =
      kvs.map fun kv => strings kv.1 := List.map_map
  rw [lookup_upserts, hkeys, ← distinctKeys]
  split
  · rw [← List.map_reverse, lookup_map_eq_find?, lastValue, ← Option.bind_id_eq_join,
      Option.bind_map, Function.id_comp]
  · rfl

/-- **A created dictionary is the map of its `Set`s.** After any sequence
of them `Copy` gives the last value of a key among the first 16 to appear
and null for any other, the count is the number of those keys, and the
slots in use hold them, each once and in order. -/
theorem dictionary_after_sets :
    ∃ d, lpnuIODictionaryCreate true true true true = (some d, kIOReturnSuccess) ∧
      ∀ (strings : ℕ → CString) (kvs : List (ℕ × Option ℕ)),
        let s := after step ⟨strings, d⟩ (kvs.map setCall)
        (∀ key, ∃ out, lpnuIODictionaryCopy s.strings s.dict true (some key) = .ok out ∧
          out.value = if strings key ∈ (distinctKeys strings kvs).take 16
            then lastValue strings kvs (strings key) else none) ∧
        s.dict.count.toNat = min 16 (distinctKeys strings kvs).length ∧
        ((distinctKeys strings kvs).take 16).Nodup ∧
        ∃ slots, s.dict.keys = some slots ∧ ∀ i, i < s.dict.count.toNat →
          (slots i).map strings = ((distinctKeys strings kvs).take 16)[i]? := by
  obtain ⟨d, hd⟩ : ∃ d, lpnuIODictionaryCreate true true true true =
      (some d, kIOReturnSuccess) := ⟨_, rfl⟩
  refine ⟨d, hd, ?_⟩
  intro strings kvs s
  obtain ⟨hstrings, hs⟩ := represents_after_sets (represents_create hd) kvs
  have hkeys : AssocList.keys (upserts 16 (kvs.map fun kv => (strings kv.1, kv.2))) =
      (distinctKeys strings kvs).take 16 := by
    rw [keys_upserts, distinctKeys, AssocList.keys, List.map_map]
    rfl
  have hlen : s.dict.count.toNat = min 16 (distinctKeys strings kvs).length := by
    rw [hs.count_eq, ← length_keys, hkeys, List.length_take]
  refine ⟨fun key => ?_, hlen, hkeys ▸ nodup_keys_upserts, ?_⟩
  · obtain ⟨out, hout, hvalue⟩ := copy_refines hs key
    rw [lookup_upserts_join] at hvalue
    exact ⟨out, hstrings ▸ hout, hvalue⟩
  · obtain ⟨slots, hslots, hslot⟩ := hs.keys
    refine ⟨slots, hslots, fun i hi => ?_⟩
    rw [hslot i (hs.count_eq ▸ hi), hkeys]

end Dictionary

end IOKit

end Lpnu
