import Lpnu.Common.Parts
import Mathlib.Data.List.Basic
import Mathlib.Data.Nat.Notation
import Mathlib.Data.Int.Notation
import Mathlib.Tactic.Common
/-!
# C arrays and C strings

The linear search the code runs over its arrays, the `char` arrays of its
records, and the library functions it calls on them. A `CString` is the
bytes before the terminating NUL, none of them zero; a `CharArray n` is the
`n` bytes of an array, and `str` the string it holds. Writes past the end
of an array fall away, and a function that moves bytes gives the accesses
it makes beside its result, so that staying inside is a statement about
those.
-/

namespace Lpnu

/-- One access to a slot of an array. -/
inductive Access
  | read (i : ℕ)
  | write (i : ℕ)
  deriving DecidableEq, Repr

/-- The slot accessed. -/
def Access.index : Access → ℕ
  | .read i => i
  | .write i => i

/-- `for (i = ...) if (test(i)) ...; break;`: the first of the given slots
that passes, and the slots read on the way to it. -/
def search (test : ℕ → Bool) : List ℕ → Option ℕ × List Access
  | [] => (none, [])
  | i :: is =>
    if test i then (some i, [.read i])
    else
      let r := search test is
      (r.1, .read i :: r.2)

section Search

variable {α : Type*} [DecidableEq α] {test : ℕ → Bool} {l : List α} {x : α}

/-- The search finds the first place of `x` in the part of the list it is
run over. -/
theorem search_range' (htest : ∀ i, i < l.length → (test i ↔ l[i]? = some x)) :
    ∀ n k, k + n = l.length → (search test (List.range' k n)).1 =
      if x ∈ l.drop k then some (k + (l.drop k).idxOf x) else none := by
  intro n
  induction n with
  | zero =>
    intro k hk
    simp [search, List.drop_eq_nil_of_le (show l.length ≤ k by omega)]
  | succ n ih =>
    intro k hk
    have hlt : k < l.length := by omega
    have hk' := htest k hlt
    rw [List.getElem?_eq_getElem hlt, Option.some_inj] at hk'
    rw [List.range'_succ, search, List.drop_eq_getElem_cons hlt]
    by_cases hx : l[k] = x
    · rw [if_pos (hk'.2 hx), hx]
      simp
    · rw [if_neg (fun h => hx (hk'.1 h)), ih (k + 1) (by omega)]
      simp only [List.mem_cons, Ne.symm hx, false_or]
      by_cases hmem : x ∈ l.drop (k + 1)
      · rw [if_pos hmem, if_pos hmem, List.idxOf_cons_ne _ hx]
        congr 1
        omega
      · rw [if_neg hmem, if_neg hmem]

/-- **A search over a list's places finds the first one.** -/
theorem search_range (htest : ∀ i, i < l.length → (test i ↔ l[i]? = some x)) :
    (search test (List.range l.length)).1 = if x ∈ l then some (l.idxOf x) else none := by
  rw [List.range_eq_range', search_range' htest l.length 0 (by omega)]
  simp

/-- What is found is one of the slots searched. -/
theorem search_mem {is : List ℕ} {i : ℕ} (h : (search test is).1 = some i) : i ∈ is := by
  induction is with
  | nil => cases h
  | cons j is ih =>
    rw [search] at h
    split at h
    · obtain rfl : j = i := Option.some.inj h
      exact List.mem_cons_self
    · exact List.mem_cons_of_mem j (ih h)

theorem search_reads (is : List ℕ) :
    ∀ acc ∈ (search test is).2, ∃ i ∈ is, acc = .read i := by
  induction is with
  | nil => simp [search]
  | cons i is ih =>
    intro acc hacc
    rw [search] at hacc
    split at hacc
    · exact ⟨i, List.mem_cons_self, by simpa using hacc⟩
    · rcases List.mem_cons.1 hacc with rfl | hacc
      · exact ⟨i, List.mem_cons_self, rfl⟩
      · obtain ⟨j, hj, rfl⟩ := ih acc hacc
        exact ⟨j, List.mem_cons_of_mem i hj, rfl⟩

end Search

/-- A NUL-terminated string, by the bytes before its terminator. -/
structure CString where
  bytes : List UInt8
  no_nul : 0 ∉ bytes
  deriving DecidableEq

/-- The string `"a"`. -/
def CString.a : CString := ⟨[97], by decide⟩

/-- An array of `n` bytes. -/
abbrev CharArray (n : ℕ) := Vector UInt8 n

/-- `strcmp`: the difference of the first bytes that differ, the
terminator counting as zero. -/
def strcmp : List UInt8 → List UInt8 → ℤ
  | [], [] => 0
  | [], b :: _ => -b.toNat
  | a :: _, [] => a.toNat
  | a :: as, b :: bs => if a = b then strcmp as bs else a.toNat - b.toNat

/-- `strrchr`: where the last `c` of a string stands. -/
def strrchr (c : UInt8) (s : List UInt8) : Option ℕ :=
  (s.reverse.idxOf? c).map fun i => s.length - 1 - i

/-- `strstr`: where a string first occurs in another. -/
def strstr (needle : List UInt8) : List UInt8 → Option ℕ
  | [] => if needle = [] then some 0 else none
  | b :: s =>
    if needle.isPrefixOf (b :: s) then some 0 else (strstr needle s).map (· + 1)

namespace CharArray

variable {n : ℕ}

/-- The array filled with zero bytes. -/
def zero : CharArray n := Vector.replicate n 0

/-- The string an array holds: the bytes before its first zero. -/
def str (b : CharArray n) : List UInt8 := b.toList.takeWhile (· ≠ 0)

/-- The array with `src` written from `off` on. -/
def blit (b : CharArray n) (off : ℕ) (src : List UInt8) : CharArray n :=
  Vector.ofFn fun i =>
    if off ≤ i ∧ i < off + src.length then src.getD (i - off) 0 else b.get i

/-- The `len` bytes from `off` on. -/
def slice (b : CharArray n) (off len : ℕ) : List UInt8 :=
  (List.range' off len).map fun i => b.toList.getD i 0

/-- `strncpy`: the first `k` bytes of a string, padded with zeros. -/
def strncpy (b : CharArray n) (src : CString) (k : ℕ) : CharArray n :=
  b.blit 0 (src.bytes.take k ++ List.replicate (k - src.bytes.length) 0)

/-- `memmove` inside one array: the bytes are read before any is
written. -/
def memmove (b : CharArray n) (dst src len : ℕ) : CharArray n × List Access :=
  (b.blit dst (b.slice src len),
    (List.range' src len).map .read ++ (List.range' dst len).map .write)

/-- The string ends inside the array. -/
def Terminated (b : CharArray n) : Prop := 0 ∈ b.toList

variable {b : CharArray n} {s src rest : List UInt8} {off len k : ℕ}

theorem no_nul_str (b : CharArray n) : 0 ∉ b.str := by
  intro hmem
  have hne : decide ((0 : UInt8) ≠ 0) = true := List.all_eq_true.1 List.all_takeWhile 0 hmem
  simp at hne

/-- The string in an array, passed on. -/
def cstr (b : CharArray n) : CString := ⟨b.str, no_nul_str b⟩

theorem terminated_of_toList (h : b.toList = s ++ 0 :: rest) : b.Terminated := by
  rw [Terminated, h]
  simp

/-- The string in an array that holds one. -/
theorem str_eq (h : b.toList = s ++ 0 :: rest) (hs : 0 ∉ s) : b.str = s := by
  have hall : ∀ a ∈ s, decide (a ≠ 0) = true := by
    intro a ha
    have hne : a ≠ 0 := fun heq => hs (heq ▸ ha)
    simpa using hne
  rw [str, h, List.takeWhile_append_of_pos hall]
  simp

/-- A write inside the array replaces what stood there. -/
theorem toList_blit (h : off + src.length ≤ n) :
    (b.blit off src).toList = b.toList.take off ++ src ++ b.toList.drop (off + src.length) := by
  have hlen : b.toList.length = n := by simp
  refine List.ext_getElem (by simp; omega) fun i h1 h2 => ?_
  have hi : i < n := by simpa using h1
  simp only [blit, Vector.toList_ofFn, List.getElem_ofFn]
  by_cases hlt : i < off
  · rw [if_neg (by omega), List.getElem_append_left (by simp; omega),
      List.getElem_append_left (by simp; omega), List.getElem_take]
    rfl
  · by_cases hsrc : i < off + src.length
    · rw [if_pos (by omega), List.getElem_append_left (by simp; omega),
        List.getElem_append_right (by simp; omega), List.getD_eq_getElem?_getD,
        List.getElem?_eq_getElem (by omega), Option.getD_some]
      congr 1
      simp
      omega
    · have hidx : off + src.length + (i - (b.toList.take off ++ src).length) = i := by
        simp
        omega
      rw [if_neg (by omega), List.getElem_append_right (by simp; omega), List.getElem_drop]
      simp only [hidx]
      rfl

theorem slice_eq (h : off + len ≤ n) : b.slice off len = (b.toList.drop off).take len := by
  refine List.ext_getElem (by simp [slice]; omega) fun i h1 h2 => ?_
  have hi : i < len := by simpa [slice] using h1
  have hlt : off + i < b.toList.length := by simp; omega
  rw [List.getElem_take, List.getElem_drop]
  simp only [slice, List.getElem_map, List.getElem_range', Nat.one_mul]
  rw [List.getD_eq_getElem?_getD, List.getElem?_eq_getElem hlt, Option.getD_some]

/-- `strncpy` into zeroed memory leaves zeros behind the string. -/
theorem toList_zero_strncpy (src : CString) (hk : k ≤ n) :
    ((zero : CharArray n).strncpy src k).toList =
      src.bytes.take k ++ List.replicate (n - (src.bytes.take k).length) 0 := by
  have hlen : (src.bytes.take k ++ List.replicate (k - src.bytes.length) 0).length = k := by
    simp
    omega
  rw [strncpy, toList_blit (by rw [hlen]; omega), hlen]
  simp only [List.take_zero, List.nil_append, Nat.zero_add, zero, Vector.toList_replicate,
    List.drop_replicate, List.append_assoc, List.replicate_append_replicate]
  congr 2
  simp
  omega

/-- So the string stands there, where there is room for its end. -/
theorem exists_toList_strncpy (src : CString) (hk : k < n) :
    ∃ rest, ((zero : CharArray n).strncpy src k).toList = src.bytes.take k ++ 0 :: rest := by
  have hle : (src.bytes.take k).length ≤ k := by
    rw [List.length_take]
    omega
  have hpad : n - (src.bytes.take k).length = n - (src.bytes.take k).length - 1 + 1 := by omega
  refine ⟨List.replicate (n - (src.bytes.take k).length - 1) 0, ?_⟩
  rw [toList_zero_strncpy src (by omega), ← List.replicate_succ, ← hpad]

theorem str_zero_strncpy (src : CString) (hk : k < n) :
    ((zero : CharArray n).strncpy src k).str = src.bytes.take k := by
  obtain ⟨rest, hrest⟩ := exists_toList_strncpy src hk
  exact str_eq hrest fun hmem => src.no_nul (List.mem_of_mem_take hmem)

/-- A string moved to the front with its terminator stands there. -/
theorem exists_toList_memmove {dir : List UInt8} (h : b.toList = dir ++ (s ++ 0 :: rest)) :
    ∃ rest', (b.memmove 0 dir.length (s.length + 1)).1.toList = s ++ 0 :: rest' := by
  have hlen : b.toList.length = n := by simp
  rw [h] at hlen
  simp only [List.length_append, List.length_cons] at hlen
  have hslice : b.slice dir.length (s.length + 1) = s ++ [0] := by
    rw [slice_eq (by omega), h]
    simp [List.take_append]
  refine ⟨b.toList.drop (s.length + 1), ?_⟩
  rw [memmove, hslice, toList_blit (by simp; omega)]
  simp

/-- A move of `len` bytes reaches `len` bytes from either place. -/
theorem memmove_accesses {dst m : ℕ} (hdst : dst + len ≤ m) (hoff : off + len ≤ m) :
    ∀ acc ∈ (b.memmove dst off len).2, acc.index < m := by
  intro acc hacc
  rcases List.mem_append.1 hacc with hacc | hacc
  · obtain ⟨i, hi, rfl⟩ := List.mem_map.1 hacc
    rw [List.mem_range'_1] at hi
    show i < m
    omega
  · obtain ⟨i, hi, rfl⟩ := List.mem_map.1 hacc
    rw [List.mem_range'_1] at hi
    show i < m
    omega

/-- A terminator written into the array ends the string there. -/
theorem exists_toList_cut (h : b.toList = s ++ rest) (hlt : s.length < n) :
    ∃ rest', (b.blit s.length [0]).toList = s ++ 0 :: rest' := by
  refine ⟨b.toList.drop (s.length + 1), ?_⟩
  rw [toList_blit (by simp; omega), h]
  simp

end CharArray

/-! ## Memory at a pointer -/

/-- The bytes from a pointer on, as many as the code may touch. -/
abbrev Memory := ℕ → UInt8

namespace Memory

/-- The first `n` bytes. -/
def bytes (m : Memory) (n : ℕ) : List UInt8 := (List.range n).map m

/-- `memcpy(dst + off, src, n)`, with its writes. -/
def memcpy (dst : Memory) (off : ℕ) (src : Memory) (n : ℕ) : Memory × List Access :=
  (fun i => if off ≤ i ∧ i < off + n then src (i - off) else dst i,
    (List.range' off n).map .write)

theorem bytes_eq_nil_iff {m : Memory} {n : ℕ} : m.bytes n = [] ↔ n = 0 := by
  simp [bytes]

theorem length_bytes {m : Memory} {n : ℕ} : (m.bytes n).length = n := by
  simp [bytes]

section Memcpy

variable {dst src : Memory} {off n i : ℕ}

/-- The bytes a copy reaches are those of its source. -/
theorem memcpy_of_mem (h : off ≤ i ∧ i < off + n) : (dst.memcpy off src n).1 i = src (i - off) :=
  if_pos h

/-- It leaves the others. -/
theorem memcpy_of_notMem (h : ¬ (off ≤ i ∧ i < off + n)) : (dst.memcpy off src n).1 i = dst i :=
  if_neg h

theorem memcpy_zero : (dst.memcpy off src 0).1 = dst :=
  funext fun _ => memcpy_of_notMem (by omega)

theorem write_mem_memcpy_iff : .write i ∈ (dst.memcpy off src n).2 ↔ off ≤ i ∧ i < off + n := by
  simp [memcpy]

end Memcpy

end Memory

/-! ## Searching a string -/

section Searching

open Parts

variable {c : UInt8} {s t needle : List UInt8}

theorem strrchr_of_notMem (h : c ∉ s) : strrchr c s = none := by
  have hidx : s.reverse.idxOf? c = none := List.idxOf?_eq_none_iff.2 (by simpa using h)
  rw [strrchr, hidx]
  rfl

/-- `strrchr` finds the last place. -/
theorem strrchr_append_cons (h : c ∉ t) : strrchr c (s ++ c :: t) = some s.length := by
  have hidx : (s ++ c :: t).reverse.idxOf? c = some t.length := by
    have hnot : c ∉ t.reverse := by simpa using h
    rw [List.reverse_append, List.reverse_cons, List.append_assoc, List.idxOf?_eq_some_iff]
    refine ⟨by simp, by simp, fun j hj => ?_⟩
    have hj' : j < t.reverse.length := by simpa using hj
    rw [List.getElem_append_left hj']
    exact fun heq => hnot (heq ▸ List.getElem_mem hj')
  rw [strrchr, hidx, Option.map_some, List.length_append, List.length_cons]
  congr 1
  omega

theorem strstr_of_absent : ∀ {s : List UInt8}, ¬ needle <:+: s → strstr needle s = none
  | [], h => by
    rw [strstr, if_neg]
    rintro rfl
    exact h List.nil_infix
  | b :: s, h => by
    rw [List.infix_cons_iff, not_or] at h
    rw [strstr, if_neg (by simpa using h.1), strstr_of_absent h.2]
    rfl

/-- **`strstr` finds where the part before the first occurrence ends.** -/
theorem strstr_of_present : ∀ {s : List UInt8}, needle <:+: s →
    strstr needle s = some (beforeFirst needle s).length
  | [], h => by
    rw [strstr, if_pos (List.infix_nil.1 h)]
    rfl
  | b :: s, h => by
    rw [strstr, beforeFirst]
    by_cases hprefix : needle <+: b :: s
    · rw [if_pos (by simpa using hprefix), if_pos hprefix]
      rfl
    · have hinfix : needle <:+: s := (List.infix_cons_iff.1 h).resolve_left hprefix
      rw [if_neg (by simpa using hprefix), if_neg hprefix, strstr_of_present hinfix]
      rfl

end Searching

/-! ## Comparison

Two strings compare equal exactly when they are the same bytes: no
byte of a string is the terminator. -/

theorem strcmp_eq_zero_of_no_nul : ∀ {s t : List UInt8}, 0 ∉ s → 0 ∉ t →
    (strcmp s t = 0 ↔ s = t)
  | [], [], _, _ => by simp [strcmp]
  | [], b :: t, _, ht => by
    have hb : b.toNat ≠ 0 := fun h => ht (by
      rw [show b = 0 from UInt8.toNat_inj.1 h]; exact List.mem_cons_self)
    simp only [strcmp, reduceCtorEq, iff_false]
    omega
  | a :: s, [], hs, _ => by
    have ha : a.toNat ≠ 0 := fun h => hs (by
      rw [show a = 0 from UInt8.toNat_inj.1 h]; exact List.mem_cons_self)
    simp only [strcmp, reduceCtorEq, iff_false]
    omega
  | a :: s, b :: t, hs, ht => by
    rw [strcmp]
    by_cases hab : a = b
    · have ih := strcmp_eq_zero_of_no_nul (s := s) (t := t)
        (fun h => hs (List.mem_cons_of_mem a h)) (fun h => ht (List.mem_cons_of_mem b h))
      rw [if_pos hab, ih, hab]
      simp
    · have hne : a.toNat ≠ b.toNat := fun h => hab (UInt8.toNat_inj.1 h)
      rw [if_neg hab]
      simp only [List.cons.injEq, hab, false_and, iff_false]
      omega

/-- **`strcmp` decides equality of strings.** -/
theorem strcmp_eq_zero_iff {s t : CString} : strcmp s.bytes t.bytes = 0 ↔ s = t := by
  rw [strcmp_eq_zero_of_no_nul s.no_nul t.no_nul]
  constructor
  · intro h
    cases s; cases t
    simpa using h
  · rintro rfl; rfl

end Lpnu
