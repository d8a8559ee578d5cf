/-
# Rockscopy.Arena.Aligned — the pointers `AllocateAligned` returns

`AllocateAligned(bytes)` pads `alloc_ptr_` up to a multiple of
`align = max(8, sizeof(void*))` and serves `needed = bytes + slop` in place, or
falls back to a new block. Neither the padding nor the fallback depends on the
sizes of earlier calls, so alignment needs no bound on them; the in-place test
does, because `needed` is a `size_t` sum.

* `allocateAligned_always_aligned`: when `new char[]` returns 8-aligned
  blocks, every pointer `AllocateAligned` returns, along any run of `Allocate`
  and `AllocateAligned` calls from any arena state, is a multiple of `align`: in
  place it is `alloc_ptr_ + slop`, and from a new block it is the block's
  start. The assertion that closes `AllocateAligned` never fails.
* `allocateAligned_wraps_in_place`: after `Allocate(1)` from `Arena()`,
  `alloc_ptr_` is odd and `slop = 7`, so `AllocateAligned(2 ^ 64 - 1)` computes
  `needed = 6`, passes the in-place test, and returns a region of `2 ^ 64 - 1`
  bytes that lies in no block and overlaps the tail left for later calls.
-/
import Rockscopy.Arena.Run

namespace Rockscopy.Arena

set_option autoImplicit false
set_option linter.dupNamespace false

namespace Arena

/-! ## One call -/

theorem allocateFallback_fst (heap : Heap) (a : Arena) (bytes : Nat) :
    (allocateFallback heap a bytes).1 = heap.fresh := by
  unfold allocateFallback
  split_ifs <;> rfl

/-- The pointer `AllocateAligned` returns: `alloc_ptr_ + slop` when `needed` passes the
in-place test, and the start of the block `AllocateFallback` obtains otherwise. -/
theorem allocateAligned_fst (heap : Heap) (a : Arena) (bytes : Nat) :
    (allocateAligned heap a bytes).1 =
      if (bytes + a.slop) % 2 ^ 64 ≤ a.allocBytesRemaining then a.allocPtr + a.slop else heap.fresh := by
  unfold allocateAligned
  dsimp only
  split_ifs
  · rfl
  · exact allocateFallback_fst heap a bytes

/-- One `AllocateAligned` call returns a multiple of `align` when `new char[]` would. -/
theorem allocateAligned_aligned (heap : Heap) (a : Arena) (bytes : Nat) (fresh : heap.fresh % 8 = 0) :
    (a.call heap (.allocateAligned bytes)).1 % kAlign = 0 := by
  have align : kAlign = 8 := rfl
  rw [call, allocateAligned_fst, align]
  split_ifs
  · rw [slop_eq]; omega
  · exact fresh

/-! ## Every run -/

/-- **Aligned allocation is always aligned.** When every answer `new char[]` would give
is 8-aligned, every pointer `AllocateAligned` returns along a run of calls, from any
arena state and whatever the sizes, is a multiple of `align = max(8, sizeof(void*))`. -/
theorem allocateAligned_always_aligned (a : Arena) (calls : List (Request × Heap))
    (aligned : ∀ c ∈ calls, c.2.fresh % 8 = 0) :
    ∀ bytes heap r, ((Request.allocateAligned bytes, heap), r) ∈ calls.zip (a.run calls).1 →
      r.start % kAlign = 0 := by
  induction calls generalizing a with
  | nil => intro _ _ _ member; cases member
  | cons c calls ih =>
      obtain ⟨req, heap⟩ := c
      intro bytes heap' r member
      rw [run_cons, List.zip_cons_cons] at member
      rcases List.mem_cons.mp member with first | later
      · cases first
        exact allocateAligned_aligned _ a bytes (aligned _ (List.mem_cons_self _ _))
      · exact ih _ (fun c member => aligned c (List.mem_cons_of_mem _ member)) bytes heap' r later

theorem allocateAligned_always_aligned_three_calls :
    (∀ c ∈ threeCalls, c.2.fresh % 8 = 0) ∧
    ∀ bytes heap r, ((Request.allocateAligned bytes, heap), r) ∈ threeCalls.zip (init.run threeCalls).1 →
      r.start % kAlign = 0 :=
  ⟨by decide, allocateAligned_always_aligned init threeCalls (by decide)⟩

/-! ## A wrapping `needed` -/

/-- `Allocate(1)` from `Arena()`, `new char[]` returning the block at `4096`, then
`AllocateAligned(2 ^ 64 - 1)`. -/
def wrappingCalls : List (Request × Heap) :=
  [(.allocate 1, ⟨4096, 4⟩), (.allocateAligned (2 ^ 64 - 1), ⟨8192, 4⟩)]

/-- **`needed` wraps.** With `alloc_ptr_ = 4097`, `slop = 7` and `needed = 6`, so
`AllocateAligned(2 ^ 64 - 1)` is served in place at `4104`, on a runtime that served
every call: the region it returns lies in no block, and it overlaps what remains of the
current block, `[4103, 4103 + 4089)`, which later calls will be served from. -/
theorem allocateAligned_wraps_in_place :
    init.Served wrappingCalls ∧
    (init.run wrappingCalls).1 = [⟨4096, 1⟩, ⟨4104, 2 ^ 64 - 1⟩] ∧
    (init.run wrappingCalls).2.tail = ⟨4103, 4089⟩ ∧
    (¬ ∃ b ∈ (init.run wrappingCalls).2.blocks, Region.Within ⟨4104, 2 ^ 64 - 1⟩ b) ∧
    ¬ Region.Disjoint ⟨4104, 2 ^ 64 - 1⟩ (init.run wrappingCalls).2.tail := by
  decide

end Arena

end Rockscopy.Arena
