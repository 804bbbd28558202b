import Lpnu.Common.Run
import Lpnu.IOKit.Basic
/-!
# IOCommandPool

The command pool of `lpnu_iokit.c`: an arena of `count` commands of `size`
bytes each, of which `Allocate` hands one out and `Release` takes it back.
What a pool is for is that the blocks handed out do not overlap and that
it runs out after `count` of them. The source always hands out the first
block of the arena, so `poolSound_throughout_iff` is what is left: one
block at a time.
-/

namespace Lpnu

namespace IOKit

open IOReturn

/-- `struct LPNUIOCommandPool`; `commands` is the address of the arena. -/
structure LPNUIOCommandPool where
  commands : Option ℕ
  count : UInt32
  size : UInt32

/-- `LPNUIOCommandPoolCreate`: what it stores through its out-parameter
and what it returns. The first `calloc` is for the pool; of the second,
for the arena, the address is given, where it finds memory. -/
def lpnuIOCommandPoolCreate (pool : Bool) (count size : UInt32) (callocPool : Bool)
    (callocCommands : Option ℕ) : Option LPNUIOCommandPool × IOReturn :=
  if pool then
    if callocPool then
      match callocCommands with
      | none => (none, kIOReturnNoMemory)
      | some commands => (some ⟨some commands, count, size⟩, kIOReturnSuccess)
    else (none, kIOReturnNoMemory)
  else (none, kIOReturnBadArgument)

/-- `LPNUIOCommandPoolAllocate`. -/
def lpnuIOCommandPoolAllocate (pool : Option LPNUIOCommandPool) : Option ℕ :=
  match pool with
  | none => none
  | some p =>
    match p.commands with
    | none => none
    | some commands => some commands

/-- `LPNUIOCommandPoolRelease`, which reads neither of its arguments. -/
def lpnuIOCommandPoolRelease (_pool : Option LPNUIOCommandPool) (_command : Option ℕ) :
    IOReturn :=
  kIOReturnSuccess

namespace CommandPool

open Run

/-- The calls on a pool. -/
inductive Call
  | allocate
  | release (command : ℕ)
  deriving DecidableEq

/-- What a call gives back: the block it hands out, or its code. -/
structure Out where
  command : Option ℕ := none
  ret : Option IOReturn := none

/-- One call, on the blocks the callers hold. Neither function writes the
pool, and a release takes a block from its holder, if it has one. -/
def step (p : LPNUIOCommandPool) (held : List ℕ) : Call → List ℕ × Out
  | .allocate =>
    let command := lpnuIOCommandPoolAllocate (some p)
    (command.toList ++ held, { command := command })
  | .release command =>
    (held.erase command, { ret := some (lpnuIOCommandPoolRelease (some p) (some command)) })

/-- **The blocks held** lie in the arena, and no two of them overlap. -/
structure Sound (p : LPNUIOCommandPool) (held : List ℕ) : Prop where
  inside : ∀ b ∈ held, ∃ base, p.commands = some base ∧ base ≤ b ∧
    b + p.size.toNat ≤ base + p.count.toNat * p.size.toNat
  disjoint : held.Pairwise fun b b' => b + p.size.toNat ≤ b' ∨ b' + p.size.toNat ≤ b

/-- An `Allocate` answers null exactly if all blocks are held. -/
def Answered (p : LPNUIOCommandPool) (e : Entry (List ℕ) Call Out) : Prop :=
  e.call = .allocate → (e.out.command = none ↔ e.before.length = p.count.toNat)

/-- **What the pool is for**: the blocks held are sound, and every
`Allocate` so far was answered as it should be. -/
def PoolSound (p : LPNUIOCommandPool) (c : Recorded (List ℕ) Call Out) : Prop :=
  Sound p c.now ∧ ∀ e ∈ c.past, Answered p e

/-- **The condition on a call**: a block is allocated while none is held,
from a pool of at least one. -/
def OneAtATime (p : LPNUIOCommandPool) (held : List ℕ) : Call → Prop
  | .allocate => held = [] ∧ p.count ≠ 0
  | .release _ => True

variable {p : LPNUIOCommandPool} {base : ℕ} {held : List ℕ}

/-- Every block held is the first one of the arena. -/
def AllFirst (base : ℕ) (held : List ℕ) : Prop := ∀ b ∈ held, b = base

theorem allocate_eq (hp : p.commands = some base) :
    lpnuIOCommandPoolAllocate (some p) = some base := by
  simp only [lpnuIOCommandPoolAllocate, hp]

theorem step_allocate (hp : p.commands = some base) :
    step p held .allocate = (base :: held, { command := some base }) := by
  rw [step, allocate_eq hp]
  rfl

theorem allFirst_step (hp : p.commands = some base) (h : AllFirst base held) (call : Call) :
    AllFirst base (step p held call).1 := by
  cases call with
  | allocate =>
    rw [step_allocate hp]
    exact List.forall_mem_cons.2 ⟨rfl, h⟩
  | release command => exact fun b hb => h b (List.mem_of_mem_erase hb)

/-- **A second block handed out is the first one again.** -/
theorem sound_cons_iff (hp : p.commands = some base) (hsize : 1 ≤ p.size.toNat)
    (h : AllFirst base held) : Sound p (base :: held) ↔ held = [] ∧ p.count ≠ 0 := by
  have hcount : p.count ≠ 0 ↔ 1 ≤ p.count.toNat := by
    rw [ne_eq, ← UInt32.toNat_inj, UInt32.toNat_zero]
    omega
  rw [hcount]
  constructor
  · rintro ⟨hinside, hdisjoint⟩
    constructor
    · refine List.eq_nil_iff_forall_not_mem.2 fun b hb => ?_
      -- a block does not lie apart from itself
      have hapart := (List.pairwise_cons.1 hdisjoint).1 b hb
      rw [h b hb] at hapart
      omega
    · obtain ⟨base', hbase', hle, hend⟩ := hinside base List.mem_cons_self
      obtain rfl : base = base' := Option.some.inj (hp.symm.trans hbase')
      by_contra hzero
      have h0 : p.count.toNat = 0 := by omega
      rw [h0, Nat.zero_mul] at hend
      omega
  · rintro ⟨rfl, hpos⟩
    refine ⟨fun b hb => ⟨base, hp, ?_⟩, List.pairwise_singleton _ _⟩
    rw [List.mem_singleton.1 hb]
    have hone : 1 * p.size.toNat ≤ p.count.toNat * p.size.toNat :=
      Nat.mul_le_mul_right _ hpos
    omega

theorem poolSound_record_iff {c : Recorded (List ℕ) Call Out} (h : PoolSound p c) (call : Call) :
    PoolSound p (record (step p) c call).1 ↔
      Sound p (step p c.now call).1 ∧ Answered p ⟨c.now, call, (step p c.now call).2⟩ := by
  rw [PoolSound, record_now, forall_mem_record_past]
  exact and_congr Iff.rfl (and_iff_left h.2)

/-- **One call keeps the pool sound if and only if it is the only block
it allocates.** -/
theorem poolSound_step_iff (hp : p.commands = some base) (hsize : 1 ≤ p.size.toNat)
    {c : Recorded (List ℕ) Call Out} (hfirst : AllFirst base c.now) (h : PoolSound p c)
    (call : Call) :
    PoolSound p (record (step p) c call).1 ↔ OneAtATime p c.now call := by
  rw [poolSound_record_iff h]
  cases call with
  | allocate =>
    rw [step_allocate hp, sound_cons_iff hp hsize hfirst, OneAtATime]
    refine and_iff_left_of_imp ?_
    rintro ⟨hnil, hcount⟩ -
    -- the block is handed out, and none of at least one was held
    refine iff_of_false (by simp) fun hlen => hcount ?_
    have hzero : p.count.toNat = 0 := by
      rw [← hlen, hnil, List.length_nil]
    rw [← UInt32.toNat_inj, hzero, UInt32.toNat_zero]
  | release command =>
    refine iff_of_true ⟨⟨fun b hb => h.1.inside b (List.mem_of_mem_erase hb), ?_⟩, ?_⟩ trivial
    · exact h.1.disjoint.sublist List.erase_sublist
    · exact fun hcall => Call.noConfusion hcall

/-- The beginning of a recorded run, with nothing held. -/
def start : Recorded (List ℕ) Call Out := ⟨[], []⟩

theorem poolSound_start : PoolSound p start :=
  ⟨⟨fun _ hb => absurd hb List.not_mem_nil, List.Pairwise.nil⟩,
    fun _ he => absurd he List.not_mem_nil⟩

theorem commands_of_create {pool callocPool : Bool} {count size : UInt32}
    {callocCommands : Option ℕ}
    (h : lpnuIOCommandPoolCreate pool count size callocPool callocCommands =
      (some p, kIOReturnSuccess)) : (∃ base, p.commands = some base) ∧ p.size = size := by
  unfold lpnuIOCommandPoolCreate at h
  split_ifs at h
  · cases callocCommands with
    | none => exact absurd (Prod.mk.inj h).1 (by simp)
    | some commands =>
      rw [← Option.some.inj (Prod.mk.inj h).1]
      exact ⟨⟨commands, rfl⟩, rfl⟩
  · exact absurd (Prod.mk.inj h).1 (by simp)
  · exact absurd (Prod.mk.inj h).1 (by simp)

/-- **When a created pool is sound throughout a run**: if and only if
every block is allocated while none is held, from a pool of at least
one. -/
theorem poolSound_throughout_iff {pool callocPool : Bool} {count size : UInt32}
    {callocCommands : Option ℕ} {run : List Call}
    (hcreate : lpnuIOCommandPoolCreate pool count size callocPool callocCommands =
      (some p, kIOReturnSuccess)) (hsize : 1 ≤ size) :
    Throughout (record (step p)) start (PoolSound p) run ↔
      EachStep (step p) [] (OneAtATime p) run := by
  obtain ⟨⟨base, hp⟩, rfl⟩ := commands_of_create hcreate
  have hsize' : 1 ≤ p.size.toNat := UInt32.le_iff_toNat_le.1 hsize
  have hinv : ∀ (c : Recorded (List ℕ) Call Out) call, AllFirst base c.now → PoolSound p c →
      AllFirst base (record (step p) c call).1.now :=
    fun c call hfirst _ => allFirst_step hp hfirst call
  rw [throughout_iff_eachStep' hinv
    (fun c call hfirst h => poolSound_step_iff hp hsize' hfirst h call)
    (fun b hb => absurd hb List.not_mem_nil) poolSound_start]
  exact eachStep_record

/-- A pool of two commands of eight bytes. -/
def pairPool : LPNUIOCommandPool := ⟨some 4096, 2, 8⟩

/-- One block at a time. -/
theorem poolSound_pairPool :
    Throughout (record (step pairPool)) start (PoolSound pairPool)
      [.allocate, .release 4096, .allocate] := by
  have hcreate : lpnuIOCommandPoolCreate true 2 8 true (some 4096) =
      (some pairPool, kIOReturnSuccess) := rfl
  exact (poolSound_throughout_iff hcreate (by decide)).2
    ⟨⟨rfl, by decide⟩, trivial, ⟨rfl, by decide⟩, trivial⟩

/-- Two blocks, of a pool of two: both are the first. -/
theorem not_poolSound_pairPool :
    ¬ PoolSound pairPool (after (record (step pairPool)) start [.allocate, .allocate]) := by
  rintro ⟨⟨-, hdisjoint⟩, -⟩
  exact absurd hdisjoint (by decide)

end CommandPool

end IOKit

end Lpnu
