import Lpnu.Dyld.Registry
/-!
# dyld — the lifetime of a registered image

An image is freed by `LPNUdyld_unload`, and `g_images` must not outlive
it. The callers here keep the protocol the interface suggests: they pass
images that have not been freed, and they unload an image right after
removing it from the registry. `noFreedImage_throughout_iff` says when
that is enough.
-/

namespace Lpnu

namespace Dyld

open Run

/-- No registered image has been freed. -/
def NoFreedImage (s : State) : Prop := ∀ a, some a ∈ s.images.live → ¬ s.heap.Freed a

/-- A call under the protocol: images passed have not been freed, and an
unload follows the removal of the same image. -/
def Legal (c : Recorded State Call Out) : Call → Prop
  | .load _ _ _ => True
  | .registry (.addImage image) => ∀ a, image = some a → c.now.heap.IsLive a
  | .registry (.removeImage image) => ∀ a, image = some a → c.now.heap.IsLive a
  | .unload image => (∀ a, image = some a → c.now.heap.IsLive a) ∧
      ∃ e past, c.past = e :: past ∧ e.call = .registry (.removeImage image)

/-- **The condition**: an image that is unloaded stood in at most one slot
of the registry when it was removed, just before. -/
def RegisteredOnce (c : Recorded State Call Out) : Call → Prop
  | .unload (some a) =>
    ∀ e past, c.past = e :: past → e.before.images.live.count (some a) ≤ 1
  | _ => True

/-- What the argument uses of a recorded state: the tables hold lists, and
the last call recorded led here. -/
structure Tracked (c : Recorded State Call Out) : Prop where
  registers : ∃ l, Registers c.now.images l
  last : ∀ e past, c.past = e :: past →
    c.now = (step e.before e.call).1 ∧ ∃ l, Registers e.before.images l

/-- The beginning of a recorded run. -/
def start : Recorded State Call Out := ⟨State.init, []⟩

theorem tracked_start : Tracked start :=
  ⟨⟨[], Table.fits_empty⟩, fun _ _ h => by cases h⟩

variable {c : Recorded State Call Out} {s : State}

/-- Every call leaves a list in the table. -/
theorem registers_step (h : ∃ l, Registers s.images l) (call : Call) :
    ∃ l, Registers (step s call).1.images l := by
  obtain ⟨l, hl⟩ := h
  cases call with
  | load path image env => exact ⟨l, hl⟩
  | unload image => exact ⟨l, hl⟩
  | registry call => exact ⟨_, (registryStep_refines hl call).1⟩

theorem Tracked.step (h : Tracked c) (call : Call) : Tracked (record step c call).1 := by
  refine ⟨registers_step h.registers call, fun e past heq => ?_⟩
  rw [record_past] at heq
  obtain ⟨rfl, -⟩ := List.cons.inj heq
  exact ⟨rfl, h.registers⟩

/-- Loading frees nothing. -/
theorem freed_load {path : Option CString} {image : Bool} {env : LoadEnv} {b : ℕ} :
    (lpnuDyldLoad s.heap path image env).1.Freed b ↔ s.heap.Freed b := by
  unfold lpnuDyldLoad
  split
  · split
    · exact Iff.rfl
    · split
      · exact Heap.freed_alloc
      · exact Iff.rfl
  · exact Iff.rfl

/-- Unloading a live image frees it and no other. -/
theorem freed_unload {a b : ℕ} (ha : s.heap.IsLive a) :
    (lpnuDyldUnload s.heap (some a)).1.Freed b ↔ b = a ∨ s.heap.Freed b := by
  have hfree : (lpnuDyldUnload s.heap (some a)).1 = s.heap.free a := by
    cases h : (s.heap.cells a).bind LPNUImageInfo.handle <;> simp [lpnuDyldUnload, h]
  rw [hfree]
  exact Heap.freed_free ha

theorem notMem_erase_self_iff {l : List ℕ} {a : ℕ} : a ∉ l.erase a ↔ l.count a ≤ 1 := by
  rw [← List.count_eq_zero, List.count_erase_self]
  omega

/-- After a removal the image is still registered exactly if it was
registered twice. -/
theorem notMem_live_after_remove {e : State} {a : ℕ} (he : ∃ l, Registers e.images l) :
    some a ∉ (step e (.registry (.removeImage (some a)))).1.images.live ↔
      e.images.live.count (some a) ≤ 1 := by
  obtain ⟨l, hl⟩ := he
  have hafter : Table.Holds (step e (.registry (.removeImage (some a)))).1.images (l.erase a) :=
    hl.holds.removeFirst
  rw [hafter.mem_live, hl.holds.count_live]
  exact notMem_erase_self_iff

/-- **The one call that can leave a freed image registered is the unload
of one registered twice.** -/
theorem noFreedImage_step_iff (ht : Tracked c) (h : NoFreedImage c.now) (call : Call)
    (hlegal : Legal c call) :
    NoFreedImage (record step c call).1.now ↔ RegisteredOnce c call := by
  obtain ⟨l, hl⟩ := ht.registers
  rw [record_now]
  cases call with
  | load path image env =>
    refine iff_of_true (fun a ha hfreed => h a ha ?_) trivial
    exact freed_load.1 hfreed
  | registry call =>
    refine iff_of_true (fun b hb => ?_) (by cases call <;> exact trivial)
    have hafter := (registryStep_refines hl call).1.holds
    have hb' : b ∈ (imageListStep l call).1 := hafter.mem_live.1 hb
    have hold : b ∈ l → ¬ c.now.heap.Freed b := fun hmem => h b (hl.holds.mem_live.2 hmem)
    rcases call with (_ | a) | (_ | a)
    · exact hold hb'
    · -- an image just added is one the caller may still pass
      have hlive : c.now.heap.IsLive a := hlegal a rfl
      simp only [imageListStep] at hb'
      split at hb'
      · rcases List.mem_append.1 hb' with hmem | hmem
        · exact hold hmem
        · rw [List.mem_singleton.1 hmem]
          exact hlive.not_freed
      · exact hold hb'
    · exact hold hb'
    · exact hold (List.mem_of_mem_erase hb')
  | unload image =>
    cases image with
    | none => exact iff_of_true h trivial
    | some a =>
      -- the state is the one the removal left, so its registrations are known
      obtain ⟨hlive, e, past, hpast, hcall⟩ := hlegal
      obtain ⟨hnow, he⟩ := ht.last e past hpast
      have hcount := notMem_live_after_remove (a := a) he
      rw [← hcall, ← hnow] at hcount
      have hfreed : ∀ b, (step c.now (.unload (some a))).1.heap.Freed b ↔
          b = a ∨ c.now.heap.Freed b := fun b => freed_unload (hlive a rfl)
      constructor
      · intro hafter e' past' hpast'
        obtain ⟨rfl, -⟩ := List.cons.inj (hpast.symm.trans hpast')
        refine hcount.1 fun hmem => ?_
        exact hafter a hmem ((hfreed a).2 (Or.inl rfl))
      · intro honce b hb hfb
        rcases (hfreed b).1 hfb with rfl | hold
        · exact hcount.2 (honce e past hpast) hb
        · exact h b hb hold

/-- **When no registered image is ever a freed one.** Of the runs under
the protocol, exactly those in which every image is unloaded from a
single registration. -/
theorem noFreedImage_throughout_iff {run : List Call}
    (hlegal : EachStep (record step) start Legal run) :
    Throughout (record step) start (fun c => NoFreedImage c.now) run ↔
      EachStep (record step) start RegisteredOnce run := by
  refine throughout_iff_eachStep (fun c call ht _ _ => ht.step call)
    (fun c call ht h hl => noFreedImage_step_iff ht h call hl) tracked_start ?_ hlegal
  intro a ha
  exact absurd ha (by simp [start, State.init, Table.live, Table.empty])

/-- A load that succeeds. -/
def loads : Call := .load (some CString.a) true ⟨some 1, true⟩

/-- An image loaded, registered, removed and unloaded. -/
def orderlyRun : List Call :=
  [loads, .registry (.addImage (some 0)), .registry (.removeImage (some 0)), .unload (some 0)]

/-- The same, registered twice. -/
def doubleRun : List Call :=
  [loads, .registry (.addImage (some 0)), .registry (.addImage (some 0)),
    .registry (.removeImage (some 0)), .unload (some 0)]

theorem noFreedImage_orderlyRun :
    Throughout (record step) start (fun c => NoFreedImage c.now) orderlyRun := by
  have hlegal : EachStep (record step) start Legal orderlyRun := by
    refine ⟨trivial, ?_, ?_, ⟨?_, _, _, rfl, rfl⟩, trivial⟩ <;>
      · rintro a ⟨⟩; decide
  refine (noFreedImage_throughout_iff hlegal).2 ⟨trivial, trivial, trivial, ?_, trivial⟩
  intro e past hpast
  obtain ⟨rfl, -⟩ := List.cons.inj hpast
  decide

/-- The slot the image keeps names a freed image. -/
theorem freedImage_doubleRun :
    EachStep (record step) start Legal doubleRun ∧
      ¬ NoFreedImage (after (record step) start doubleRun).now := by
  constructor
  · refine ⟨trivial, ?_, ?_, ?_, ⟨?_, _, _, rfl, rfl⟩, trivial⟩ <;>
      · rintro a ⟨⟩; decide
  · intro h
    exact h 0 (by decide) (by decide)

end Dyld

end Lpnu
