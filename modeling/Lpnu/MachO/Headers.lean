import Lpnu.MachO.Model
/-!
# Mach-O — the reads of the header parser

The parser asks for the four bytes of the magic number and then reads the
header it announces up to `cputype`, the bytes 4 to 7. So it stays inside
the buffer, and answers 0 for whole headers only, exactly where the buffer
is too short for a magic number or holds what the number announces:
`staysInside_iff`. Inside the loader's page it always does,
`reads_lt_pageSize`.
-/

namespace Lpnu

namespace MachO

/-- `sizeof(struct lpnu_mach_header)`: seven words. -/
def sizeofMachHeader : ℕ := 7 * 4

/-- `sizeof(struct lpnu_mach_header_64)`: one word more. -/
def sizeofMachHeader64 : ℕ := 8 * 4

/-- The size of the header a magic number announces, if it announces
one. -/
def announcedSize (magic : ℕ) : Option ℕ :=
  if magic = lpnuMachOMagic32 then some sizeofMachHeader
  else if magic = lpnuMachOMagic64 then some sizeofMachHeader64
  else none

/-- **The parser stays inside the buffer** and returns 0 only where it
holds the whole header. -/
structure StaysInside (data : Memory) (size : ℕ) : Prop where
  reads : ∀ acc ∈ (lpnuParseMachOHeaders data size).2, acc.index < size
  whole : (lpnuParseMachOHeaders data size).1 = 0 →
    ∃ n, announcedSize (data.u32 0).1 = some n ∧ n ≤ size

/-- **The condition on a buffer**: it is shorter than a magic number, or
as long as the header its magic number announces. -/
def HoldsHeader (data : Memory) (size : ℕ) : Prop :=
  size < 4 ∨ ∀ n, announcedSize (data.u32 0).1 = some n → n ≤ size

variable {data : Memory} {size k n : ℕ}

/-- Reading the first `k` bytes stays below any bound of `k`. -/
theorem index_lt_of_mem_reads (hk : k ≤ n) :
    ∀ acc ∈ (List.range' 0 k).map Access.read, acc.index < n := by
  intro acc hacc
  obtain ⟨i, hi, rfl⟩ := List.mem_map.1 hacc
  rw [List.mem_range'_1] at hi
  show i < n
  omega

/-- A header is longer than its first two words. -/
theorem eight_lt_of_announcedSize {magic : ℕ} (h : announcedSize magic = some n) : 8 < n := by
  unfold announcedSize at h
  split at h
  · obtain rfl : sizeofMachHeader = n := Option.some.inj h
    decide
  · split at h
    · obtain rfl : sizeofMachHeader64 = n := Option.some.inj h
      decide
    · exact absurd h (by simp)

/-- **The three ways of the parser**, with the bytes it reads in each. -/
theorem lpnuParseMachOHeaders_cases (data : Memory) (size : ℕ) :
    (size < 4 ∧ lpnuParseMachOHeaders data size = (-EINVAL, [])) ∨
    (4 ≤ size ∧ announcedSize (data.u32 0).1 = none ∧
      lpnuParseMachOHeaders data size = (-ENOEXEC, (List.range' 0 4).map .read)) ∨
    (4 ≤ size ∧ (∃ n, announcedSize (data.u32 0).1 = some n) ∧
      lpnuParseMachOHeaders data size = (0, (List.range' 0 8).map .read)) := by
  have hreads : (data.u32 0).2 ++ (data.u32 4).2 = (List.range' 0 8).map .read := rfl
  by_cases hsize : size < 4
  · exact Or.inl ⟨hsize, if_pos hsize⟩
  · have hle : 4 ≤ size := by omega
    by_cases h32 : (data.u32 0).1 = lpnuMachOMagic32
    · refine Or.inr (Or.inr ⟨hle, ⟨sizeofMachHeader, if_pos h32⟩, ?_⟩)
      simp only [lpnuParseMachOHeaders, if_neg hsize, if_pos h32, hreads]
    · by_cases h64 : (data.u32 0).1 = lpnuMachOMagic64
      · refine Or.inr (Or.inr ⟨hle, ⟨sizeofMachHeader64, ?_⟩, ?_⟩)
        · rw [announcedSize, if_neg h32, if_pos h64]
        · simp only [lpnuParseMachOHeaders, if_neg hsize, if_neg h32, if_pos h64, hreads]
      · refine Or.inr (Or.inl ⟨hle, ?_, ?_⟩)
        · rw [announcedSize, if_neg h32, if_neg h64]
        · simp only [lpnuParseMachOHeaders, if_neg hsize, if_neg h32, if_neg h64]
          rfl

/-- **The parser stays inside the buffer exactly where the buffer holds
the header.** -/
theorem staysInside_iff (data : Memory) (size : ℕ) :
    StaysInside data size ↔ HoldsHeader data size := by
  have hcode : (-EINVAL : ℤ) ≠ 0 ∧ (-ENOEXEC : ℤ) ≠ 0 := by decide
  rcases lpnuParseMachOHeaders_cases data size with
    ⟨hsize, heq⟩ | ⟨hsize, hnone, heq⟩ | ⟨hsize, ⟨n, hn⟩, heq⟩
  · refine iff_of_true ⟨?_, ?_⟩ (Or.inl hsize)
    · rw [heq]
      simp
    · rw [heq]
      exact fun h => absurd h hcode.1
  · refine iff_of_true ⟨?_, ?_⟩ (Or.inr fun n hn => ?_)
    · rw [heq]
      exact index_lt_of_mem_reads hsize
    · rw [heq]
      exact fun h => absurd h hcode.2
    · rw [hnone] at hn
      exact absurd hn (by simp)
  · constructor
    · intro h
      obtain ⟨m, hm, hle⟩ := h.whole (by rw [heq])
      refine Or.inr fun n hn => ?_
      obtain rfl : m = n := Option.some.inj (hm.symm.trans hn)
      exact hle
    · intro h
      have hle : n ≤ size := (h.resolve_left (by omega)) n hn
      have hlong := eight_lt_of_announcedSize hn
      refine ⟨?_, fun _ => ⟨n, hn, hle⟩⟩
      rw [heq]
      exact index_lt_of_mem_reads (by omega)

/-- No more than the first two words are read, which the page of the
loader has. -/
theorem reads_lt_pageSize (data : Memory) (size : ℕ) :
    ∀ acc ∈ (lpnuParseMachOHeaders data size).2, acc.index < pageSize := by
  have hpage : 8 ≤ pageSize := by decide
  rcases lpnuParseMachOHeaders_cases data size with
    ⟨-, heq⟩ | ⟨-, -, heq⟩ | ⟨-, -, heq⟩
  · rw [heq]
    simp
  · rw [heq]
    exact index_lt_of_mem_reads (by omega)
  · rw [heq]
    exact index_lt_of_mem_reads (by omega)

/-- A buffer of the 32-bit magic number and no more: the parser reads the
four bytes behind it and returns 0. -/
theorem not_staysInside_magic :
    ¬ StaysInside (fun i => [0xce, 0xfa, 0xed, 0xfe].getD i 0) 4 := by
  intro h
  have hread : Access.read 4 ∈
      (lpnuParseMachOHeaders (fun i => [0xce, 0xfa, 0xed, 0xfe].getD i 0) 4).2 := by decide
  exact absurd (h.reads _ hread) (by decide)

end MachO

end Lpnu
