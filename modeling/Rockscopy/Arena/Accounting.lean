/-
# Rockscopy.Arena.Accounting — where the bytes of `blocks_memory_` go

`MemoryUsage()` is `blocks_memory_` plus the pointer array of `blocks_`. Along a
run every byte of `blocks_memory_` is accounted for: it was requested, or spent as
`AllocateAligned` padding in the current block, or discarded when a standard
block was retired with bytes left, or it still remains in the current block.

* `Accounted`: `blocks_memory_` is the total size of the blocks, `blocks_` has
  room for their pointers, and the two fit in a `size_t`.
* `call_ledger` is one call's share of the ledger; `run_ledger` sums it over a run.
* `arena_memory_accounting`: from `Arena()`, `MemoryUsage()` never falls below what
  was requested and never decreases, and the ledger balances after every call.
-/
import Rockscopy.Arena.Run

namespace Rockscopy.Arena

set_option autoImplicit false
set_option linter.dupNamespace false

namespace Arena

/-! ## The ledger of one call -/

/-- The padding a call spends in the current block: `slop` for an aligned request
served in place. -/
def spentPadding (a : Arena) (req : Request) : Nat :=
  if req.bytes + a.padding req ≤ a.allocBytesRemaining then a.padding req else 0

/-- What a call drops of the current block: all that remained, when the call
starts a new standard block. -/
def discarded (a : Arena) (req : Request) : Nat :=
  if a.allocBytesRemaining < req.bytes + a.padding req ∧ req.bytes ≤ kBlockSize / 4 then
    a.allocBytesRemaining
  else 0

/-- Each call of a run with the arena it was made on. -/
def steps (a : Arena) : List (Request × Heap) → List (Arena × Request)
  | [] => []
  | (req, heap) :: calls => (a, req) :: (a.call heap req).2.steps calls

/-- The padding a run spent in place. -/
def spentPaddingTotal (a : Arena) (calls : List (Request × Heap)) : Nat :=
  ((a.steps calls).map fun s => s.1.spentPadding s.2).sum

/-- What a run discarded of retired standard blocks. -/
def discardedTotal (a : Arena) (calls : List (Request × Heap)) : Nat :=
  ((a.steps calls).map fun s => s.1.discarded s.2).sum

theorem spentPadding_le (a : Arena) (req : Request) : a.spentPadding req ≤ 7 := by
  have := padding_le a req
  unfold spentPadding; split_ifs <;> omega

/-- A retired block's remainder is less than the request that retired it plus its
padding, so less than a quarter block plus 8. -/
theorem discarded_lt (a : Arena) (req : Request) (positive : 0 < req.bytes) :
    a.discarded req < req.bytes + a.padding req ∧ a.discarded req < 1024 + 8 := by
  have := padding_le a req
  unfold discarded kBlockSize; split_ifs with retired <;> omega

theorem mem_steps {a : Arena} {calls : List (Request × Heap)} {s : Arena × Request} (member : s ∈ a.steps calls) :
    ∃ heap, (s.2, heap) ∈ calls := by
  induction calls generalizing a with
  | nil => exact absurd member (List.not_mem_nil _)
  | cons c calls ih =>
      obtain ⟨req, heap⟩ := c
      rcases List.mem_cons.mp member with first | later
      · exact ⟨heap, first ▸ List.mem_cons_self _ _⟩
      · obtain ⟨heap', held⟩ := ih later
        exact ⟨heap', List.mem_cons_of_mem _ held⟩

/-! ## The bookkeeping `MemoryUsage()` reads -/

/-- `blocks_memory_` is the total size of the blocks, `blocks_` has room for their
pointers, and the two fit in a `size_t`. -/
structure Accounted (a : Arena) : Prop where
  memory : a.blocksMemory = (a.blocks.map Region.size).sum
  room : a.blocks.length ≤ a.blocksCapacity
  fits : a.blocksMemory + a.blocksCapacity * sizeOfPointer < 2 ^ 64

theorem accounted_init : init.Accounted := ⟨rfl, le_refl _, by decide⟩

theorem memoryUsage_eq {a : Arena} (acc : a.Accounted) :
    a.memoryUsage = a.blocksMemory + a.blocksCapacity * sizeOfPointer :=
  Nat.mod_eq_of_lt acc.fits

/-- `AllocateNewBlock` as the runtime serves it: `blocks_memory_` grows by the
block's size without wrapping, and `MemoryUsage()` does not decrease, since the
capacity `push_back` leaves never shrinks. -/
theorem pushBlock_accounted {a : Arena} (acc : a.Accounted) {heap : Heap} {block : Region}
    (serves : a.Serves (a.pushBlock heap block)) :
    (a.pushBlock heap block).Accounted ∧ (a.pushBlock heap block).blocksMemory = a.blocksMemory + block.size ∧
      a.memoryUsage ≤ (a.pushBlock heap block).memoryUsage := by
  obtain ⟨-, room, fits⟩ := serves
  have sum : ((a.pushBlock heap block).blocks.map Region.size).sum = (a.blocks.map Region.size).sum + block.size := by
    simp [pushBlock_blocks]
  have length : (a.pushBlock heap block).blocks.length = a.blocks.length + 1 := by simp [pushBlock_blocks]
  have grown : (a.pushBlock heap block).blocksMemory = a.blocksMemory + block.size :=
    Nat.mod_eq_of_lt (by rw [acc.memory]; omega)
  have capacity : a.blocksCapacity ≤ (a.pushBlock heap block).blocksCapacity := by
    rw [length] at room
    simp only [pushBlock] at room ⊢; split_ifs at room ⊢ <;> omega
  have accounted : (a.pushBlock heap block).Accounted :=
    ⟨by rw [grown, sum, acc.memory], room, by have := acc.memory; omega⟩
  refine ⟨accounted, grown, ?_⟩
  rw [memoryUsage_eq acc, memoryUsage_eq accounted, grown]
  unfold sizeOfPointer; omega

/-- **One call's ledger.** What the call adds to `blocks_memory_`, plus what remained
before it, pays for the request, its padding, what it discarded, and what remains
after it; `MemoryUsage()` does not decrease; the bookkeeping stays exact. -/
theorem call_ledger {a : Arena} (acc : a.Accounted) (heap : Heap) (req : Request) (fits : req.bytes + 7 < 2 ^ 64)
    (serves : a.Serves (a.call heap req).2) :
    (a.call heap req).2.blocksMemory + a.allocBytesRemaining =
        a.blocksMemory + req.bytes + a.spentPadding req + a.discarded req + (a.call heap req).2.allocBytesRemaining ∧
      a.memoryUsage ≤ (a.call heap req).2.memoryUsage ∧ (a.call heap req).2.Accounted := by
  rcases call_cases a heap req fits with ⟨room, same⟩ | ⟨over, large, same⟩ | ⟨over, small, same⟩ <;>
    rw [same] at serves ⊢ <;> unfold spentPadding discarded
  · rw [if_pos room, if_neg (by omega)]
    exact ⟨by dsimp only; omega, le_refl _, ⟨acc.memory, acc.room, acc.fits⟩⟩
  · obtain ⟨accounted, grown, usage⟩ := pushBlock_accounted acc serves
    rw [if_neg (by omega), if_neg (by omega)]
    exact ⟨by simp only [pushBlock_allocBytesRemaining] at grown ⊢; omega, usage, accounted⟩
  · obtain ⟨accounted, grown, usage⟩ := pushBlock_accounted acc serves
    rw [if_neg (by omega), if_pos ⟨over, small⟩]
    exact ⟨by dsimp only at grown ⊢; unfold kBlockSize at small grown ⊢; omega, usage,
      ⟨accounted.memory, accounted.room, accounted.fits⟩⟩

/-! ## The ledger of a run -/

theorem run_ledger {a : Arena} (acc : a.Accounted) (calls : List (Request × Heap)) (sized : Sized calls)
    (served : a.Served calls) :
    (a.run calls).2.blocksMemory + a.allocBytesRemaining =
        a.blocksMemory + requested calls + a.spentPaddingTotal calls + a.discardedTotal calls +
          (a.run calls).2.allocBytesRemaining ∧
      a.memoryUsage ≤ (a.run calls).2.memoryUsage ∧ (a.run calls).2.Accounted := by
  induction calls generalizing a with
  | nil => exact ⟨rfl, le_refl _, acc⟩
  | cons c calls ih =>
      obtain ⟨req, heap⟩ := c
      obtain ⟨-, fits⟩ := sized (req, heap) (List.mem_cons_self _ _)
      obtain ⟨ledger, usage, accounted⟩ := call_ledger acc heap req fits served.1
      obtain ⟨ledger', usage', accounted'⟩ :=
        ih accounted (fun c member => sized c (List.mem_cons_of_mem _ member)) served.2
      simp only [run_cons, requested, spentPaddingTotal, discardedTotal, steps, List.map_cons, List.sum_cons]
        at ledger' ⊢
      exact ⟨by omega, usage.trans usage', accounted'⟩

theorem run_ledger_take {calls : List (Request × Heap)} (sized : Sized calls) (served : init.Served calls)
    (n : Nat) :
    (init.run (calls.take n)).2.blocksMemory =
        requested (calls.take n) + init.spentPaddingTotal (calls.take n) + init.discardedTotal (calls.take n) +
          (init.run (calls.take n)).2.allocBytesRemaining ∧ (init.run (calls.take n)).2.Accounted := by
  obtain ⟨ledger, -, accounted⟩ := run_ledger accounted_init (calls.take n)
    (fun c member => sized c (List.mem_of_mem_take member)) (served_take served n).1
  exact ⟨by simpa [init] using ledger, accounted⟩

/-- **Arena memory accounting.** From `Arena()`, for every run of `Allocate` and
`AllocateAligned` calls with positive sizes totalling less than `2 ^ 64` minus 8
bytes a call minus one block, the runtime handing out fresh memory and a
`blocks_` capacity that holds its pointers: after every call `MemoryUsage()` is at
least the bytes requested so far and no less than before the call, and
`blocks_memory_` is exactly the bytes requested, plus the padding spent in place,
plus the remainders discarded with retired blocks, plus what remains of the
current block; each padding is at most 7 bytes and each discarded remainder is
less than the request that retired its block plus that request's padding, so
less than `1024 + 8`. -/
theorem arena_memory_accounting (calls : List (Request × Heap)) (positive : ∀ c ∈ calls, 0 < c.1.bytes)
    (bounded : Bounded calls) (served : init.Served calls) :
    (∀ n, requested (calls.take n) ≤ (init.run (calls.take n)).2.memoryUsage) ∧
    (∀ n, (init.run (calls.take n)).2.memoryUsage ≤ (init.run (calls.take (n + 1))).2.memoryUsage) ∧
    (∀ n, (init.run (calls.take n)).2.blocksMemory =
      requested (calls.take n) + init.spentPaddingTotal (calls.take n) + init.discardedTotal (calls.take n) +
        (init.run (calls.take n)).2.allocBytesRemaining) ∧
    ∀ s ∈ init.steps calls, s.1.spentPadding s.2 ≤ 7 ∧
      s.1.discarded s.2 < s.2.bytes + s.1.padding s.2 ∧ s.1.discarded s.2 < 1024 + 8 := by
  have sized := sized_of_bounded positive bounded
  refine ⟨fun n => ?_, fun n => ?_, fun n => (run_ledger_take sized served n).1, fun s member => ?_⟩
  · obtain ⟨ledger, accounted⟩ := run_ledger_take sized served n
    rw [memoryUsage_eq accounted]
    omega
  · obtain ⟨-, accounted⟩ := run_ledger_take sized served n
    have parts := served_take (served_take served (n + 1)).1 n
    rw [List.take_take, Nat.min_eq_left (Nat.le_succ n)] at parts
    have step := run_ledger accounted ((calls.take (n + 1)).drop n)
      (fun c member => sized c (List.mem_of_mem_take (List.mem_of_mem_drop member))) parts.2
    conv => rhs; rw [← List.take_append_drop n (calls.take (n + 1)), List.take_take,
      Nat.min_eq_left (Nat.le_succ n), run_append]
    exact step.2.1
  · obtain ⟨heap, held⟩ := mem_steps member
    exact ⟨spentPadding_le _ _, discarded_lt _ _ (positive _ held)⟩

theorem arena_memory_accounting_three_calls :
    (∀ c ∈ threeCalls, 0 < c.1.bytes) ∧ Bounded threeCalls ∧ init.Served threeCalls ∧
    (∀ n, requested (threeCalls.take n) ≤ (init.run (threeCalls.take n)).2.memoryUsage) ∧
    (∀ n, (init.run (threeCalls.take n)).2.memoryUsage ≤ (init.run (threeCalls.take (n + 1))).2.memoryUsage) ∧
    (∀ n, (init.run (threeCalls.take n)).2.blocksMemory =
      requested (threeCalls.take n) + init.spentPaddingTotal (threeCalls.take n) +
        init.discardedTotal (threeCalls.take n) + (init.run (threeCalls.take n)).2.allocBytesRemaining) ∧
    ∀ s ∈ init.steps threeCalls, s.1.spentPadding s.2 ≤ 7 ∧
      s.1.discarded s.2 < s.2.bytes + s.1.padding s.2 ∧ s.1.discarded s.2 < 1024 + 8 :=
  have positive : ∀ c ∈ threeCalls, 0 < c.1.bytes := by decide
  have bounded : Bounded threeCalls := by decide
  have served : init.Served threeCalls := by decide
  ⟨positive, bounded, served, arena_memory_accounting threeCalls positive bounded served⟩

end Arena

end Rockscopy.Arena
