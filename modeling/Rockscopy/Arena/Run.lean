/-
# Rockscopy.Arena.Run — what every run of the arena keeps

A run is a list of calls, each with the runtime's answers (`run`). The
runtime is honest (`Served`): every block `new char[]` hands out is fresh
memory, `push_back` leaves room for the block pointers, and all of it fits in
the address space.

* `Good`: the blocks are disjoint; what remains of the current block,
  `[alloc_ptr_, alloc_ptr_ + alloc_bytes_remaining_)`, is the end of a
  standard block that no returned region touches; every returned region lies
  in a block and they are pairwise disjoint. `call_good` keeps it.
* `arena_regions_disjoint`: from `Arena()`, on every run whose sizes stay well
  below `2 ^ 64`, the regions handed out never overlap, each lies inside one
  block, and blocks are never removed or shrunk.
-/
import Rockscopy.Arena.Basic
import Mathlib.Algebra.Order.BigOperators.Group.List
import Mathlib.Algebra.Order.Ring.Nat

namespace Rockscopy.Arena

set_option autoImplicit false
set_option linter.dupNamespace false

instance (r s : Region) : Decidable (r.Disjoint s) := inferInstanceAs (Decidable (_ ∨ _))

instance (r s : Region) : Decidable (r.Within s) := inferInstanceAs (Decidable (_ ∧ _))

/-- `new char[]` handed out fresh memory: a non-null block of the address space,
disjoint from every block already held. Where its alignment matters, the theorems
that need it assume it of `Heap.fresh` themselves. -/
def Fresh (blocks : List Region) (block : Region) : Prop :=
  0 < block.start ∧ block.start + block.size ≤ 2 ^ 64 ∧ ∀ b ∈ blocks, block.Disjoint b

instance (blocks : List Region) (block : Region) : Decidable (Fresh blocks block) :=
  inferInstanceAs (Decidable (_ ∧ _ ∧ _))

namespace Arena

/-- The runtime's side of one call from `a` to `a'`: the blocks it added are fresh,
`blocks_` has room for its pointers, and the blocks with that array fit in memory. -/
def Serves (a a' : Arena) : Prop :=
  (∀ block ∈ a'.blocks.drop a.blocks.length, Fresh a.blocks block) ∧
    a'.blocks.length ≤ a'.blocksCapacity ∧
    (a'.blocks.map Region.size).sum + a'.blocksCapacity * sizeOfPointer < 2 ^ 64

instance (a a' : Arena) : Decidable (a.Serves a') := inferInstanceAs (Decidable (_ ∧ _ ∧ _))

/-- A run of calls: the region each call returned, in order, and the arena after them. -/
def run (a : Arena) : List (Request × Heap) → List Region × Arena
  | [] => ([], a)
  | (req, heap) :: calls =>
      let (p, next) := a.call heap req
      let (regions, final) := next.run calls
      (⟨p, req.bytes⟩ :: regions, final)

/-- The runtime serves every call of a run. -/
def Served (a : Arena) : List (Request × Heap) → Prop
  | [] => True
  | (req, heap) :: calls => a.Serves (a.call heap req).2 ∧ Served (a.call heap req).2 calls

/-- What remains of the current block. -/
def tail (a : Arena) : Region :=
  ⟨a.allocPtr, a.allocBytesRemaining⟩

@[simp] theorem run_nil (a : Arena) : a.run [] = ([], a) := rfl

theorem run_cons (a : Arena) (req : Request) (heap : Heap) (calls : List (Request × Heap)) :
    a.run ((req, heap) :: calls) =
      (⟨(a.call heap req).1, req.bytes⟩ :: ((a.call heap req).2.run calls).1,
        ((a.call heap req).2.run calls).2) := rfl

theorem run_append (a : Arena) (first rest : List (Request × Heap)) :
    a.run (first ++ rest) = ((a.run first).1 ++ ((a.run first).2.run rest).1, ((a.run first).2.run rest).2) := by
  induction first generalizing a with
  | nil => rfl
  | cons c first ih =>
      obtain ⟨req, heap⟩ := c
      simp only [List.cons_append, run_cons, ih, List.cons_append]

theorem served_append {a : Arena} {first rest : List (Request × Heap)} (served : a.Served (first ++ rest)) :
    a.Served first ∧ (a.run first).2.Served rest := by
  induction first generalizing a with
  | nil => exact ⟨trivial, served⟩
  | cons c first ih =>
      obtain ⟨req, heap⟩ := c
      obtain ⟨serves, later⟩ := served
      exact ⟨⟨serves, (ih later).1⟩, (ih later).2⟩

theorem served_take {a : Arena} {calls : List (Request × Heap)} (served : a.Served calls) (n : Nat) :
    a.Served (calls.take n) ∧ (a.run (calls.take n)).2.Served (calls.drop n) :=
  served_append (show a.Served (calls.take n ++ calls.drop n) by rw [List.take_append_drop]; exact served)

instance decidableServed (a : Arena) : (calls : List (Request × Heap)) → Decidable (a.Served calls)
  | [] => isTrue trivial
  | (req, heap) :: calls => @instDecidableAnd _ _ inferInstance (decidableServed (a.call heap req).2 calls)

/-! ## The invariant -/

/-- The allocator's invariant, with the regions it has returned so far. -/
structure Good (a : Arena) (returned : List Region) : Prop where
  blocksDisjoint : a.blocks.Pairwise Region.Disjoint
  tailInBlock : 0 < a.allocBytesRemaining →
    ∃ b ∈ a.blocks, b.size = kBlockSize ∧ a.tail.Within b ∧ a.allocPtr + a.allocBytesRemaining = b.start + b.size
  inBlock : ∀ r ∈ returned, ∃ b ∈ a.blocks, r.Within b
  returnedDisjoint : returned.Pairwise Region.Disjoint
  tailUntouched : 0 < a.allocBytesRemaining → ∀ r ∈ returned, r.Disjoint a.tail

theorem good_init : Good init [] :=
  ⟨List.Pairwise.nil, fun empty => absurd empty (Nat.lt_irrefl 0), fun _ none => absurd none (List.not_mem_nil _),
    List.Pairwise.nil, fun _ _ none => absurd none (List.not_mem_nil _)⟩

/-- A fresh block is disjoint from every region inside the blocks already held. -/
theorem fresh_disjoint {blocks : List Region} {block r : Region} (fresh : Fresh blocks block)
    (inside : ∃ b ∈ blocks, r.Within b) : r.Disjoint block := by
  obtain ⟨b, held, within⟩ := inside
  exact within.disjoint (fresh.2.2 b held).symm

/-- Appending a fresh block keeps the blocks disjoint. -/
theorem pairwise_push {blocks : List Region} {block : Region} (disjoint : blocks.Pairwise Region.Disjoint)
    (fresh : Fresh blocks block) : (blocks ++ [block]).Pairwise Region.Disjoint := by
  rw [List.pairwise_append]
  exact ⟨disjoint, List.pairwise_singleton _ _, fun b held c single => by
    rw [List.mem_singleton] at single; subst single; exact (fresh.2.2 b held).symm⟩

/-- A region carved from the front of the tail. -/
theorem carve_good {a : Arena} {returned : List Region} (good : Good a returned) {pad bytes : Nat}
    (positive : 0 < bytes) (fits : bytes + pad ≤ a.allocBytesRemaining) :
    Good { a with allocPtr := a.allocPtr + pad + bytes, allocBytesRemaining := a.allocBytesRemaining - (bytes + pad) }
      (returned ++ [⟨a.allocPtr + pad, bytes⟩]) := by
  obtain ⟨b, held, standard, within, ends⟩ := good.tailInBlock (by omega)
  have carved : (⟨a.allocPtr + pad, bytes⟩ : Region).Within b := by
    unfold Region.Within tail at *; simp only at *; omega
  refine ⟨good.blocksDisjoint, fun _ => ⟨b, held, standard, ?_, ?_⟩, ?_, ?_, ?_⟩
  · unfold Region.Within tail at *; simp only at *; omega
  · simp only; omega
  · intro r member
    rcases List.mem_append.mp member with old | single
    · exact good.inBlock r old
    · rw [List.mem_singleton] at single; exact ⟨b, held, single ▸ carved⟩
  · rw [List.pairwise_append]
    refine ⟨good.returnedDisjoint, List.pairwise_singleton _ _, fun r old c single => ?_⟩
    rw [List.mem_singleton] at single; subst single
    have apart := good.tailUntouched (by omega) r old
    unfold Region.Disjoint tail at *; simp only at *; omega
  · intro _ r member
    rcases List.mem_append.mp member with old | single
    · have apart := good.tailUntouched (by omega) r old
      unfold Region.Disjoint tail at *; simp only at *; omega
    · rw [List.mem_singleton] at single; subst single
      unfold Region.Disjoint tail; simp only; omega

theorem fresh_of_serves {a a' : Arena} {block : Region} (serves : a.Serves a')
    (pushed : a'.blocks = a.blocks ++ [block]) : Fresh a.blocks block :=
  serves.1 block (by rw [pushed, List.drop_left]; exact List.mem_singleton_self _)

/-- A request given a dedicated block. -/
theorem dedicated_good {a : Arena} {returned : List Region} (good : Good a returned) {heap : Heap}
    {block : Region} (fresh : Fresh a.blocks block) :
    Good (a.pushBlock heap block) (returned ++ [block]) := by
  have keep : ∀ b ∈ a.blocks, b ∈ (a.pushBlock heap block).blocks := fun b held =>
    by rw [pushBlock_blocks]; exact List.mem_append_left _ held
  have added : block ∈ (a.pushBlock heap block).blocks := by
    rw [pushBlock_blocks]; exact List.mem_append_right _ (List.mem_singleton_self _)
  refine ⟨pairwise_push good.blocksDisjoint fresh, fun positive => ?_, fun r member => ?_, ?_, ?_⟩
  · obtain ⟨b, held, standard, within, ends⟩ := good.tailInBlock positive
    exact ⟨b, keep b held, standard, within, ends⟩
  · rcases List.mem_append.mp member with old | single
    · obtain ⟨b, held, within⟩ := good.inBlock r old
      exact ⟨b, keep b held, within⟩
    · rw [List.mem_singleton] at single; subst single
      exact ⟨r, added, by unfold Region.Within; omega⟩
  · rw [List.pairwise_append]
    refine ⟨good.returnedDisjoint, List.pairwise_singleton _ _, fun r old c single => ?_⟩
    rw [List.mem_singleton] at single; subst single
    exact fresh_disjoint fresh (good.inBlock r old)
  · intro positive r member
    rcases List.mem_append.mp member with old | single
    · exact good.tailUntouched positive r old
    · rw [List.mem_singleton] at single; subst single
      obtain ⟨b, held, -, within, -⟩ := good.tailInBlock positive
      exact (fresh_disjoint fresh ⟨b, held, within⟩).symm

/-- A request that starts a new standard block. -/
theorem standard_good {a : Arena} {returned : List Region} (good : Good a returned) {heap : Heap}
    {bytes : Nat} (small : bytes ≤ kBlockSize / 4) (fresh : Fresh a.blocks ⟨heap.fresh, kBlockSize⟩) :
    Good { a.pushBlock heap ⟨heap.fresh, kBlockSize⟩ with
        allocPtr := heap.fresh + bytes, allocBytesRemaining := kBlockSize - bytes }
      (returned ++ [⟨heap.fresh, bytes⟩]) := by
  have keep : ∀ b ∈ a.blocks, b ∈ (a.pushBlock heap ⟨heap.fresh, kBlockSize⟩).blocks := fun b held =>
    by rw [pushBlock_blocks]; exact List.mem_append_left _ held
  have added : (⟨heap.fresh, kBlockSize⟩ : Region) ∈ (a.pushBlock heap ⟨heap.fresh, kBlockSize⟩).blocks := by
    rw [pushBlock_blocks]; exact List.mem_append_right _ (List.mem_singleton_self _)
  have quarter : kBlockSize / 4 ≤ kBlockSize := Nat.div_le_self _ _
  have apartOld : ∀ r ∈ returned, r.Disjoint ⟨heap.fresh, kBlockSize⟩ :=
    fun r old => fresh_disjoint fresh (good.inBlock r old)
  refine ⟨pairwise_push good.blocksDisjoint fresh, fun _ => ⟨_, added, rfl, ?_, ?_⟩,
    fun r member => ?_, ?_, ?_⟩
  · unfold Region.Within tail; simp only; omega
  · simp only; omega
  · rcases List.mem_append.mp member with old | single
    · obtain ⟨b, held, within⟩ := good.inBlock r old
      exact ⟨b, keep b held, within⟩
    · rw [List.mem_singleton] at single; subst single
      exact ⟨_, added, by unfold Region.Within; simp only; omega⟩
  · rw [List.pairwise_append]
    refine ⟨good.returnedDisjoint, List.pairwise_singleton _ _, fun r old c single => ?_⟩
    rw [List.mem_singleton] at single; subst single
    have apart := apartOld r old
    unfold Region.Disjoint at *; simp only at *; omega
  · intro _ r member
    rcases List.mem_append.mp member with old | single
    · have apart := apartOld r old
      unfold Region.Disjoint tail at *; simp only at *; omega
    · rw [List.mem_singleton] at single; subst single
      unfold Region.Disjoint tail; simp only; omega

/-- **One call keeps the invariant.** -/
theorem call_good {a : Arena} {returned : List Region} (good : Good a returned) (heap : Heap) (req : Request)
    (positive : 0 < req.bytes) (fits : req.bytes + 7 < 2 ^ 64) (serves : a.Serves (a.call heap req).2) :
    Good (a.call heap req).2 (returned ++ [⟨(a.call heap req).1, req.bytes⟩]) := by
  rcases call_cases a heap req fits with ⟨room, same⟩ | ⟨-, -, same⟩ | ⟨-, small, same⟩ <;>
    rw [same] at serves ⊢
  · exact carve_good good positive room
  · exact dedicated_good good (fresh_of_serves serves rfl)
  · exact standard_good good small (fresh_of_serves serves rfl)

/-- Blocks are only ever appended: a call keeps every block, at its start and size. -/
theorem blocks_prefix_call (a : Arena) (heap : Heap) (req : Request) (fits : req.bytes + 7 < 2 ^ 64) :
    a.blocks <+: (a.call heap req).2.blocks := by
  -- in place the blocks are unchanged, and `rw` closes the goal by `List.prefix_refl`
  rcases call_cases a heap req fits with ⟨-, same⟩ | ⟨-, -, same⟩ | ⟨-, -, same⟩ <;> rw [same] <;>
    exact List.prefix_append _ _

/-- Every call of the run asks for a positive size that cannot wrap `needed`. -/
def Sized (calls : List (Request × Heap)) : Prop :=
  ∀ c ∈ calls, 0 < c.1.bytes ∧ c.1.bytes + 7 < 2 ^ 64

theorem run_good {a : Arena} {returned : List Region} (good : Good a returned) (calls : List (Request × Heap))
    (sized : Sized calls) (served : a.Served calls) :
    Good (a.run calls).2 (returned ++ (a.run calls).1) ∧ a.blocks <+: (a.run calls).2.blocks := by
  induction calls generalizing a returned with
  | nil => exact ⟨by simpa using good, List.prefix_refl _⟩
  | cons c calls ih =>
      obtain ⟨req, heap⟩ := c
      obtain ⟨positive, fits⟩ := sized (req, heap) (List.mem_cons_self _ _)
      obtain ⟨next, rest⟩ := ih (call_good good heap req positive fits served.1)
        (fun c member => sized c (List.mem_cons_of_mem _ member)) served.2
      rw [run_cons]
      exact ⟨by simpa using next, (blocks_prefix_call a heap req fits).trans rest⟩

/-- The bytes a run asks for. -/
def requested (calls : List (Request × Heap)) : Nat :=
  (calls.map fun c => c.1.bytes).sum

/-- The sizes of a run total less than `2 ^ 64` minus eight bytes a call and one block. -/
def Bounded (calls : List (Request × Heap)) : Prop :=
  requested calls + 8 * calls.length + kBlockSize < 2 ^ 64

instance (calls : List (Request × Heap)) : Decidable (Bounded calls) := inferInstanceAs (Decidable (_ < _))

theorem sized_of_bounded {calls : List (Request × Heap)} (positive : ∀ c ∈ calls, 0 < c.1.bytes)
    (bounded : Bounded calls) : Sized calls := by
  intro c member
  have single : c.1.bytes ≤ requested calls := List.le_sum_of_mem (List.mem_map_of_mem _ member)
  have one := List.length_pos_of_mem member
  unfold Bounded kBlockSize at bounded
  exact ⟨positive c member, by omega⟩

theorem run_good_take {calls : List (Request × Heap)} (sized : Sized calls) (served : init.Served calls) (n : Nat) :
    Good (init.run (calls.take n)).2 (init.run (calls.take n)).1 ∧
      (init.run (calls.take n)).2.blocks <+: (init.run calls).2.blocks := by
  have parts := served_take served n
  have first := run_good good_init (calls.take n)
    (fun c member => sized c (List.mem_of_mem_take member)) parts.1
  have later := run_good first.1 (calls.drop n) (fun c member => sized c (List.mem_of_mem_drop member)) parts.2
  refine ⟨by simpa using first.1, ?_⟩
  conv => rhs; rw [← List.take_append_drop n calls, run_append]
  exact later.2

/-- **Arena allocations never overlap.** From `Arena()`, for every run of
`Allocate` and `AllocateAligned` calls with positive sizes totalling less than
`2 ^ 64` minus 8 bytes a call minus one block, the runtime handing out fresh
memory: every region returned lies inside one block of `blocks_`, the regions
are pairwise disjoint, no block is removed or shrunk along the run, and what
remains of the current block is the end of a standard block that no returned
region touches. -/
theorem arena_regions_disjoint (calls : List (Request × Heap)) (positive : ∀ c ∈ calls, 0 < c.1.bytes)
    (bounded : Bounded calls) (served : init.Served calls) :
    (∀ r ∈ (init.run calls).1, ∃ b ∈ (init.run calls).2.blocks, r.Within b) ∧
    (init.run calls).1.Pairwise Region.Disjoint ∧
    (∀ n, (init.run (calls.take n)).2.blocks <+: (init.run calls).2.blocks) ∧
    (0 < (init.run calls).2.allocBytesRemaining →
      (∃ b ∈ (init.run calls).2.blocks, b.size = kBlockSize ∧ (init.run calls).2.tail.Within b ∧
        (init.run calls).2.allocPtr + (init.run calls).2.allocBytesRemaining = b.start + b.size) ∧
      ∀ r ∈ (init.run calls).1, r.Disjoint (init.run calls).2.tail) := by
  have sized := sized_of_bounded positive bounded
  have good := (run_good good_init calls sized served).1
  rw [List.nil_append] at good
  exact ⟨good.inBlock, good.returnedDisjoint, fun n => (run_good_take sized served n).2,
    fun positive => ⟨good.tailInBlock positive, good.tailUntouched positive⟩⟩

/-- Three calls from `Arena()`: a small request opens a standard block at `4096`,
an aligned one is served in place after 4 bytes of padding, and a large one gets a
dedicated block at `16384`. -/
def threeCalls : List (Request × Heap) :=
  [(.allocate 100, ⟨4096, 4⟩), (.allocateAligned 2000, ⟨0, 0⟩), (.allocate 3000, ⟨16384, 4⟩)]

theorem arena_regions_disjoint_three_calls :
    (∀ c ∈ threeCalls, 0 < c.1.bytes) ∧ Bounded threeCalls ∧ init.Served threeCalls ∧
    (∀ r ∈ (init.run threeCalls).1, ∃ b ∈ (init.run threeCalls).2.blocks, r.Within b) ∧
    (init.run threeCalls).1.Pairwise Region.Disjoint ∧
    (∀ n, (init.run (threeCalls.take n)).2.blocks <+: (init.run threeCalls).2.blocks) ∧
    (0 < (init.run threeCalls).2.allocBytesRemaining →
      (∃ b ∈ (init.run threeCalls).2.blocks, b.size = kBlockSize ∧ (init.run threeCalls).2.tail.Within b ∧
        (init.run threeCalls).2.allocPtr + (init.run threeCalls).2.allocBytesRemaining = b.start + b.size) ∧
      ∀ r ∈ (init.run threeCalls).1, r.Disjoint (init.run threeCalls).2.tail) :=
  have positive : ∀ c ∈ threeCalls, 0 < c.1.bytes := by decide
  have bounded : Bounded threeCalls := by decide
  have served : init.Served threeCalls := by decide
  ⟨positive, bounded, served, arena_regions_disjoint threeCalls positive bounded served⟩

end Arena

end Rockscopy.Arena
