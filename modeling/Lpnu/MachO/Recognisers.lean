import Lpnu.MachO.Model
/-!
# Mach-O — the two recognisers

The format handler takes five magic numbers and the loader two of them.
Both read the magic number off the first four bytes, the one from a
buffer padded with zeros, the other after a test of the length; since no
magic number ends in a zero byte these come to the same, and the
recognisers differ on the other three numbers alone: `recognise_alike_iff`.
-/

namespace Lpnu

namespace MachO

variable {σ : Type*} {content : List UInt8} {bs : List UInt8}

/-- **The handler takes the file**: it gets as far as the call of
`search_binary_handler`, the one exit on which it has no result of its
own. -/
def HandsOver (x : Exec σ) : Prop :=
  lpnuLoadMachOBinary (fun _ => none) KernelEnv.succeeds x = none

/-- The two numbers both recognisers take, as they stand in a file. -/
def nativeMagics : List (List UInt8) :=
  [[0xce, 0xfa, 0xed, 0xfe], [0xcf, 0xfa, 0xed, 0xfe]]

/-- The numbers only the handler takes: the byte-swapped ones and that of
a universal binary. -/
def foreignMagics : List (List UInt8) :=
  [[0xfe, 0xed, 0xfa, 0xce], [0xfe, 0xed, 0xfa, 0xcf], [0xbe, 0xba, 0xfe, 0xca]]

/-! ## The magic number -/

/-- A byte the file does not have reads as zero. -/
theorem fileBuffer_apply {n i : ℕ} (hi : i < n) : fileBuffer content n i = content.getD i 0 := by
  rw [fileBuffer]
  by_cases hlt : i < min content.length n
  · rw [Memory.memcpy_of_mem (by omega), Nat.sub_zero]
  · rw [Memory.memcpy_of_notMem (by omega), List.getD_eq_getElem?_getD,
      List.getElem?_eq_none (by omega)]
    rfl

/-- **The word is a magic number exactly if the file starts with its
bytes.** Padding makes none, for the last of them is not zero. -/
theorem fileMagic_eq_iff {n : ℕ} (hn : 4 ≤ n) {b₀ b₁ b₂ b₃ : UInt8} (hlast : b₃ ≠ 0) :
    fileMagic content n = leNat [b₀, b₁, b₂, b₃] ↔ content.take 4 = [b₀, b₁, b₂, b₃] := by
  have hbytes : (List.range' 0 4).map (fileBuffer content n) =
      [content.getD 0 0, content.getD 1 0, content.getD 2 0, content.getD 3 0] := by
    simp only [List.range'_succ, List.range'_zero, List.map_cons, List.map_nil]
    rw [fileBuffer_apply (by omega), fileBuffer_apply (by omega), fileBuffer_apply (by omega),
      fileBuffer_apply (by omega)]
  rw [fileMagic, Memory.u32_eq_iff rfl, hbytes]
  rcases content with _ | ⟨a, _ | ⟨b, _ | ⟨c, _ | ⟨d, rest⟩⟩⟩⟩
  · simp [Ne.symm hlast]
  · simp [Ne.symm hlast]
  · simp [Ne.symm hlast]
  · simp [Ne.symm hlast]
  · simp

theorem fileMagic_native_iff {n : ℕ} (hn : 4 ≤ n) :
    (fileMagic content n = lpnuMachOMagic32 ∨ fileMagic content n = lpnuMachOMagic64) ↔
      content.take 4 ∈ nativeMagics := by
  have h32 : lpnuMachOMagic32 = leNat [0xce, 0xfa, 0xed, 0xfe] := by decide
  have h64 : lpnuMachOMagic64 = leNat [0xcf, 0xfa, 0xed, 0xfe] := by decide
  rw [h32, h64, fileMagic_eq_iff hn (by decide), fileMagic_eq_iff hn (by decide)]
  simp [nativeMagics]

theorem fileMagic_foreign_iff {n : ℕ} (hn : 4 ≤ n) :
    (fileMagic content n = lpnuMachOCigam ∨ fileMagic content n = lpnuMachOCigam64 ∨
        fileMagic content n = lpnuMachOMagicFat) ↔
      content.take 4 ∈ foreignMagics := by
  have h32 : lpnuMachOCigam = leNat [0xfe, 0xed, 0xfa, 0xce] := by decide
  have h64 : lpnuMachOCigam64 = leNat [0xfe, 0xed, 0xfa, 0xcf] := by decide
  have hfat : lpnuMachOMagicFat = leNat [0xbe, 0xba, 0xfe, 0xca] := by decide
  rw [h32, h64, hfat, fileMagic_eq_iff hn (by decide), fileMagic_eq_iff hn (by decide),
    fileMagic_eq_iff hn (by decide)]
  simp [foreignMagics]

/-! ## What each takes -/

theorem recognises_iff {magic : ℕ} :
    recognises magic = true ↔ (magic = lpnuMachOMagic32 ∨ magic = lpnuMachOMagic64) ∨
      (magic = lpnuMachOCigam ∨ magic = lpnuMachOCigam64 ∨ magic = lpnuMachOMagicFat) := by
  unfold recognises
  split
  · rename_i h
    refine iff_of_true rfl ?_
    rcases h with h | h
    · exact Or.inl (Or.inl h)
    · exact Or.inr (Or.inl h)
  · split
    · rename_i h
      refine iff_of_true rfl ?_
      rcases h with h | h
      · exact Or.inl (Or.inr h)
      · exact Or.inr (Or.inr (Or.inl h))
    · split
      · rename_i h
        exact iff_of_true rfl (Or.inr (Or.inr (Or.inr h)))
      · rename_i h1 h2 h3
        refine iff_of_false (by simp) ?_
        rintro ((h | h) | (h | h | h))
        · exact h1 (Or.inl h)
        · exact h2 (Or.inl h)
        · exact h1 (Or.inr h)
        · exact h2 (Or.inr h)
        · exact h3 h

/-- **The handler takes the five magic numbers.** -/
theorem handsOver_iff (b : LinuxBinprm σ) (entered : ℕ) :
    HandsOver ⟨{ b with file := some content }, entered⟩ ↔
      content.take 4 ∈ nativeMagics ∨ content.take 4 ∈ foreignMagics := by
  have hn : 4 ≤ 4096 := by omega
  rw [← fileMagic_native_iff hn, ← fileMagic_foreign_iff hn, ← recognises_iff]
  constructor
  · intro hover
    by_contra hmagic
    have hdeclined : ¬ Accepts KernelEnv.succeeds { b with file := some content } := by
      rintro ⟨-, -, content', hfile, hmagic'⟩
      cases hfile
      exact hmagic hmagic'
    obtain ⟨ret, hret⟩ := lpnuLoadMachOBinary_of_not_accepts
      (x := ⟨{ b with file := some content }, entered⟩) hdeclined
    rw [HandsOver, hret] at hover
    cases hover
  · intro hmagic
    exact lpnuLoadMachOBinary_of_accepts
      (x := ⟨{ b with file := some content }, entered⟩) ⟨rfl, rfl, content, rfl, hmagic⟩

/-- **The loader takes the two native ones.** -/
theorem lpnuLoadMachO_eq_zero_iff :
    lpnuLoadMachO KernelEnv.succeeds content = 0 ↔ content.take 4 ∈ nativeMagics := by
  have hn : 4 ≤ pageSize := by decide
  have hmem : KernelEnv.succeeds.kzalloc = true := rfl
  have hread : KernelEnv.succeeds.readError = none := rfl
  simp only [lpnuLoadMachO, hmem, if_true, kernelRead_of_success hread]
  rw [if_neg (by omega), Int.toNat_natCast, lpnuParseMachOHeaders]
  by_cases hlen : content.length < 4
  · -- a file this short starts with no magic number
    rw [if_pos (by omega)]
    refine iff_of_false (by decide) fun hnative => ?_
    have hfour : (content.take 4).length = 4 := by
      simp only [nativeMagics, List.mem_cons, List.not_mem_nil, or_false] at hnative
      rcases hnative with h | h <;> rw [h] <;> rfl
    rw [List.length_take] at hfour
    omega
  · rw [if_neg (by omega), ← fileMagic_native_iff hn]
    simp only [show ((fileBuffer content pageSize).u32 0).1 = fileMagic content pageSize from rfl]
    split
    · rename_i h
      exact iff_of_true rfl (Or.inl h)
    · split
      · rename_i h
        exact iff_of_true rfl (Or.inr h)
      · rename_i h1 h2
        have hcode : (-ENOEXEC : ℤ) ≠ 0 := by decide
        refine iff_of_false hcode ?_
        rintro (h | h)
        · exact h1 h
        · exact h2 h

/-- **When the recognisers agree on a file**: if and only if it does not
start with a byte-swapped magic number or that of a universal binary. -/
theorem recognise_alike_iff (b : LinuxBinprm σ) (entered : ℕ) (content : List UInt8) :
    (HandsOver ⟨{ b with file := some content }, entered⟩ ↔
        lpnuLoadMachO KernelEnv.succeeds content = 0) ↔
      content.take 4 ∉ foreignMagics := by
  rw [handsOver_iff, lpnuLoadMachO_eq_zero_iff]
  have hdisjoint : ∀ m ∈ foreignMagics, m ∉ nativeMagics := by decide
  constructor
  · intro h hforeign
    exact hdisjoint _ hforeign (h.1 (Or.inr hforeign))
  · intro hforeign
    exact or_iff_left hforeign

/-- A universal binary: the handler takes it, the loader does not. -/
theorem not_alike_universal :
    ¬ (HandsOver (⟨⟨some [0xbe, 0xba, 0xfe, 0xca], none, ()⟩, 0⟩ : Exec Unit) ↔
      lpnuLoadMachO KernelEnv.succeeds [0xbe, 0xba, 0xfe, 0xca] = 0) := by
  intro h
  have hover : HandsOver (⟨⟨some [0xbe, 0xba, 0xfe, 0xca], none, ()⟩, 0⟩ : Exec Unit) := rfl
  exact absurd (h.1 hover) (by decide)

end MachO

end Lpnu
