import Mathlib.Data.List.Induction
import Mathlib.Data.List.Nodup
import Mathlib.Data.Nat.Notation
import Mathlib.Tactic.Common
/-!
# Bounded association lists

A map kept as a list of entries, in the order its keys came in, and of at
most so many of them: an `upsert` rewrites the entry of a key that is
there, appends one for a key that is not while there is room, and drops
it afterwards. `keys_upserts` and `lookup_upserts` say what a sequence of
them leaves: the first keys to come in, each with the last value it was
given.
-/

namespace Lpnu

namespace AssocList

variable {κ ν : Type*} {cap : ℕ} {l : List (κ × ν)} {kvs : List (κ × ν)} {k k' : κ} {v : ν}

/-- The keys, in the order they came in. -/
def keys (l : List (κ × ν)) : List κ := l.map Prod.fst

@[simp] theorem keys_cons {e : κ × ν} : keys (e :: l) = e.1 :: keys l := rfl

@[simp] theorem keys_append {m : List (κ × ν)} : keys (l ++ m) = keys l ++ keys m :=
  List.map_append

@[simp] theorem length_keys : (keys l).length = l.length := List.length_map _

variable [DecidableEq κ]

/-- Give a key a value, in a map of at most `cap` keys. -/
def upsert (cap : ℕ) (l : List (κ × ν)) (k : κ) (v : ν) : List (κ × ν) :=
  if k ∈ keys l then l.set ((keys l).idxOf k) (k, v)
  else if l.length < cap then l ++ [(k, v)]
  else l

/-- Give keys values, one after the other, from the empty map on. -/
def upserts (cap : ℕ) (kvs : List (κ × ν)) : List (κ × ν) :=
  kvs.foldl (fun l kv => upsert cap l kv.1 kv.2) []

theorem lookup_cons {e : κ × ν} :
    (e :: l).lookup k = if k = e.1 then some e.2 else l.lookup k := by
  rw [List.lookup_cons]
  by_cases hk : k = e.1
  · simp [hk]
  · rw [if_neg hk, beq_false_of_ne hk]

theorem lookup_of_notMem (h : k ∉ keys l) : l.lookup k = none := by
  induction l with
  | nil => rfl
  | cons e l ih =>
    rw [keys_cons, List.mem_cons, not_or] at h
    rw [lookup_cons, if_neg h.1, ih h.2]

/-- What is found under a key is its first value. -/
theorem lookup_of_mem (h : k ∈ keys l) : l.lookup k = (l.map Prod.snd)[(keys l).idxOf k]? := by
  induction l with
  | nil => exact absurd h List.not_mem_nil
  | cons e l ih =>
    rw [lookup_cons, keys_cons]
    by_cases hk : k = e.1
    · rw [if_pos hk, hk, List.idxOf_cons_self]
      rfl
    · have hmem : k ∈ keys l := (List.mem_cons.1 h).resolve_left hk
      rw [if_neg hk, ih hmem, List.idxOf_cons_ne _ (Ne.symm hk)]
      rfl

/-! ## One upsert -/

theorem keys_upsert :
    keys (upsert cap l k v) =
      if k ∈ keys l then keys l else if l.length < cap then keys l ++ [k] else keys l := by
  unfold upsert
  split
  · rename_i hk
    have hlt : (keys l).idxOf k < (keys l).length := List.idxOf_lt_length_of_mem hk
    rw [keys, List.map_set]
    change (keys l).set ((keys l).idxOf k) k = keys l
    conv_rhs => rw [← List.set_getElem_self hlt]
    rw [List.getElem_idxOf hlt]
  · split
    · simp [keys]
    · rfl

theorem nodup_keys_upsert (h : (keys l).Nodup) : (keys (upsert cap l k v)).Nodup := by
  rw [keys_upsert]
  split
  · exact h
  · rename_i hk
    split
    · refine List.nodup_append.2 ⟨h, List.nodup_singleton k, fun a ha b hb hab => ?_⟩
      rw [List.mem_singleton.1 hb] at hab
      exact hk (hab ▸ ha)
    · exact h

/-- Rewriting the entry of a key rewrites what is found under it. -/
theorem lookup_set (hk : k ∈ keys l) :
    (l.set ((keys l).idxOf k) (k, v)).lookup k' = if k' = k then some v else l.lookup k' := by
  induction l with
  | nil => exact absurd hk List.not_mem_nil
  | cons e l ih =>
    by_cases he : e.1 = k
    · -- the entry stands first
      have hidx : (keys (e :: l)).idxOf k = 0 := by rw [keys_cons, he, List.idxOf_cons_self]
      rw [hidx, List.set_cons_zero, lookup_cons, lookup_cons, he]
      split <;> rfl
    · have hmem : k ∈ keys l := (List.mem_cons.1 hk).resolve_left (Ne.symm he)
      have hidx : (keys (e :: l)).idxOf k = (keys l).idxOf k + 1 := List.idxOf_cons_ne _ he
      rw [hidx, List.set_cons_succ, lookup_cons, lookup_cons, ih hmem]
      by_cases hek : k' = e.1
      · rw [if_pos hek, if_pos hek, if_neg (hek ▸ he)]
      · rw [if_neg hek, if_neg hek]

theorem lookup_upsert :
    (upsert cap l k v).lookup k' =
      if k' = k ∧ (k ∈ keys l ∨ l.length < cap) then some v else l.lookup k' := by
  unfold upsert
  split
  · rename_i hk
    rw [lookup_set hk]
    simp [hk]
  · rename_i hk
    split
    · rename_i hroom
      rw [List.lookup_append, lookup_cons]
      by_cases hk' : k' = k
      · rw [hk', lookup_of_notMem hk]
        simp [hroom]
      · simp [hk']
    · rename_i hfull
      rw [if_neg]
      rintro ⟨-, h | h⟩
      · exact hk h
      · exact hfull h

/-! ## A sequence of upserts -/

theorem upserts_concat (kv : κ × ν) :
    upserts cap (kvs ++ [kv]) = upsert cap (upserts cap kvs) kv.1 kv.2 := by
  simp [upserts]

theorem eraseDups_concat (ks : List κ) (k : κ) :
    (ks ++ [k]).eraseDups = if k ∈ ks then ks.eraseDups else ks.eraseDups ++ [k] := by
  rw [List.eraseDups_append]
  by_cases hk : k ∈ ks <;> simp [List.removeAll, hk, List.eraseDups_cons]

/-- **The keys that stay are the first to come in.** -/
theorem keys_upserts : keys (upserts cap kvs) = (keys kvs).eraseDups.take cap := by
  induction kvs using List.reverseRecOn with
  | nil => simp [upserts, keys]
  | append_singleton kvs kv ih =>
    -- the map is as long as the part of the keys it keeps
    have hlen : (upserts cap kvs).length = min cap (keys kvs).eraseDups.length := by
      rw [← length_keys, ih, List.length_take]
    have hone : keys [kv] = [kv.1] := rfl
    rw [upserts_concat, keys_upsert, keys_append, hone, eraseDups_concat, hlen, ih]
    by_cases hroom : (keys kvs).eraseDups.length < cap
    · -- nothing has been dropped yet
      rw [List.take_of_length_le (by omega), if_pos (by omega : min cap _ < cap)]
      by_cases hk : kv.1 ∈ keys kvs
      · rw [if_pos (List.mem_eraseDups.2 hk), if_pos hk, List.take_of_length_le (by omega)]
      · rw [if_neg (fun h => hk (List.mem_eraseDups.1 h)), if_neg hk,
          List.take_of_length_le (by simp; omega)]
    · rw [if_neg (by omega : ¬ min cap _ < cap), ite_self]
      by_cases hk : kv.1 ∈ keys kvs
      · rw [if_pos hk]
      · rw [if_neg hk, List.take_append_of_le_length (by omega)]

theorem nodup_keys_upserts : (keys (upserts cap kvs)).Nodup := by
  induction kvs using List.reverseRecOn with
  | nil => exact List.nodup_nil
  | append_singleton kvs kv ih => rw [upserts_concat]; exact nodup_keys_upsert ih

/-- **A key that stays has the last value it was given.** -/
theorem lookup_upserts :
    (upserts cap kvs).lookup k =
      if k ∈ (keys kvs).eraseDups.take cap then kvs.reverse.lookup k else none := by
  rw [← keys_upserts]
  induction kvs using List.reverseRecOn with
  | nil => rfl
  | append_singleton kvs kv ih =>
    rw [upserts_concat, lookup_upsert, keys_upsert, List.reverse_append, List.reverse_singleton,
      List.singleton_append, lookup_cons, ih]
    by_cases hk : k = kv.1
    · subst hk
      by_cases hmem : kv.1 ∈ keys (upserts cap kvs)
      · simp [hmem]
      · by_cases hroom : (upserts cap kvs).length < cap <;> simp [hmem, hroom]
    · by_cases hmem : kv.1 ∈ keys (upserts cap kvs)
      · simp [hk, hmem]
      · by_cases hroom : (upserts cap kvs).length < cap <;> simp [hk, hmem, hroom]

end AssocList

end Lpnu
