/-
# Rockscopy.Arena.Basic — the bump allocator of `util/arena`

An `Arena` is the allocator's state: `alloc_ptr_`, `alloc_bytes_remaining_`,
`blocks_` (each block with the size it was allocated with), its capacity, and
`blocks_memory_`. Addresses are `Nat`s below `2 ^ 64`; the one `size_t` sum that
can wrap, `needed = bytes + slop`, is taken mod `2 ^ 64`.

What `new char[]` returns, and the capacity `push_back` leaves, come from the
C++ runtime: each call receives them as a `Heap` and uses them only if it
reaches `AllocateNewBlock`.

`call_cases` says once what one call can do: serve the request in place (after
`slop` bytes of padding), give it a dedicated block, or start a new standard
block. Every invariant in `Rockscopy.Arena.Run` is derived from it.
-/
import Mathlib.Data.Nat.Bitwise

namespace Rockscopy.Arena

set_option autoImplicit false
set_option linter.dupNamespace false

/-- `kBlockSize`. -/
def kBlockSize : Nat := 4096

/-- `sizeof(void *)` on the 64-bit targets the spec names. -/
def sizeOfPointer : Nat := 8

/-- `align` in `AllocateAligned`. -/
def kAlign : Nat := if sizeOfPointer > 8 then sizeOfPointer else 8

/-- The bytes `[start, start + size)`. -/
structure Region where
  start : Nat
  size : Nat
deriving DecidableEq, Repr

namespace Region

/-- No byte in common. -/
def Disjoint (r s : Region) : Prop :=
  r.start + r.size ≤ s.start ∨ s.start + s.size ≤ r.start

/-- Every byte of `r` is a byte of `s`. -/
def Within (r s : Region) : Prop :=
  s.start ≤ r.start ∧ r.start + r.size ≤ s.start + s.size

theorem Disjoint.symm {r s : Region} (apart : r.Disjoint s) : s.Disjoint r := by
  unfold Disjoint at *; omega

theorem Within.disjoint {r s t : Region} (inside : r.Within s) (apart : s.Disjoint t) : r.Disjoint t := by
  unfold Within Disjoint at *; omega

theorem Within.trans {r s t : Region} (inner : r.Within s) (outer : s.Within t) : r.Within t := by
  unfold Within at *; omega

end Region

structure Arena where
  allocPtr : Nat
  allocBytesRemaining : Nat
  blocks : List Region
  blocksCapacity : Nat
  blocksMemory : Nat
deriving DecidableEq, Repr

/-- What the runtime hands one call: the address `new char[]` returns and the
capacity `blocks_` grows to if `push_back` finds it full. -/
structure Heap where
  fresh : Nat
  capacity : Nat
deriving DecidableEq, Repr

/-- The two entry points. -/
inductive Request where
  | allocate (bytes : Nat)
  | allocateAligned (bytes : Nat)
deriving DecidableEq, Repr

def Request.bytes : Request → Nat
  | .allocate bytes => bytes
  | .allocateAligned bytes => bytes

namespace Arena

/-- `Arena()`. -/
def init : Arena :=
  { allocPtr := 0, allocBytesRemaining := 0, blocks := [], blocksCapacity := 0, blocksMemory := 0 }

/-- `MemoryUsage()`. -/
def memoryUsage (a : Arena) : Nat :=
  (a.blocksMemory + a.blocksCapacity * sizeOfPointer) % 2 ^ 64

/-- `AllocateNewBlock(block_bytes)`. -/
def allocateNewBlock (heap : Heap) (a : Arena) (blockBytes : Nat) : Nat × Arena :=
  let result := heap.fresh
  (result,
    { a with
      blocksMemory := (a.blocksMemory + blockBytes) % 2 ^ 64
      blocks := a.blocks ++ [⟨result, blockBytes⟩]
      blocksCapacity := if a.blocks.length < a.blocksCapacity then a.blocksCapacity else heap.capacity })

/-- `AllocateFallback(bytes)`. -/
def allocateFallback (heap : Heap) (a : Arena) (bytes : Nat) : Nat × Arena :=
  if bytes > kBlockSize / 4 then allocateNewBlock heap a bytes
  else
    let (block, a) := allocateNewBlock heap a kBlockSize
    let a := { a with allocPtr := block, allocBytesRemaining := kBlockSize }
    let result := a.allocPtr
    (result, { a with allocPtr := a.allocPtr + bytes, allocBytesRemaining := a.allocBytesRemaining - bytes })

/-- `Allocate(bytes)`. -/
def allocate (heap : Heap) (a : Arena) (bytes : Nat) : Nat × Arena :=
  if bytes ≤ a.allocBytesRemaining then
    (a.allocPtr, { a with allocPtr := a.allocPtr + bytes, allocBytesRemaining := a.allocBytesRemaining - bytes })
  else allocateFallback heap a bytes

/-- `slop` in `AllocateAligned`: the padding up to the next multiple of `align`. -/
def slop (a : Arena) : Nat :=
  let currentMod := a.allocPtr &&& (kAlign - 1)
  if currentMod = 0 then 0 else kAlign - currentMod

/-- `AllocateAligned(bytes)`. -/
def allocateAligned (heap : Heap) (a : Arena) (bytes : Nat) : Nat × Arena :=
  let needed := (bytes + a.slop) % 2 ^ 64
  if needed ≤ a.allocBytesRemaining then
    (a.allocPtr + a.slop,
      { a with allocPtr := a.allocPtr + needed, allocBytesRemaining := a.allocBytesRemaining - needed })
  else allocateFallback heap a bytes

/-- One call, with the runtime's answers should it need them. -/
def call (a : Arena) (heap : Heap) : Request → Nat × Arena
  | .allocate bytes => allocate heap a bytes
  | .allocateAligned bytes => allocateAligned heap a bytes

/-- The padding a call spends before its region: `slop` for an aligned request, none otherwise. -/
def padding (a : Arena) : Request → Nat
  | .allocate _ => 0
  | .allocateAligned _ => a.slop

/-! ## What one call does -/

theorem slop_eq (a : Arena) : a.slop = (8 - a.allocPtr % 8) % 8 := by
  have low : a.allocPtr &&& 7 = a.allocPtr % 8 := Nat.and_pow_two_sub_one_eq_mod _ 3
  simp only [slop, kAlign, sizeOfPointer, if_neg (show ¬ 8 > 8 by decide), Nat.reduceSub, low]
  split_ifs <;> omega

theorem padding_le (a : Arena) (req : Request) : a.padding req ≤ 7 := by
  cases req <;> simp only [padding, slop_eq] <;> omega

/-- The arena after `AllocateNewBlock` appended `block`. -/
def pushBlock (a : Arena) (heap : Heap) (block : Region) : Arena :=
  { a with
    blocksMemory := (a.blocksMemory + block.size) % 2 ^ 64
    blocks := a.blocks ++ [block]
    blocksCapacity := if a.blocks.length < a.blocksCapacity then a.blocksCapacity else heap.capacity }

@[simp] theorem pushBlock_blocks (a : Arena) (heap : Heap) (block : Region) :
    (a.pushBlock heap block).blocks = a.blocks ++ [block] := rfl

@[simp] theorem pushBlock_allocPtr (a : Arena) (heap : Heap) (block : Region) :
    (a.pushBlock heap block).allocPtr = a.allocPtr := rfl

@[simp] theorem pushBlock_allocBytesRemaining (a : Arena) (heap : Heap) (block : Region) :
    (a.pushBlock heap block).allocBytesRemaining = a.allocBytesRemaining := rfl

/-- **What one call can do.** Serve the request in place after its padding; or,
when the request and its padding exceed what remains, give a request above a
quarter block its own block; or start a new standard block, dropping what was
left of the old one. -/
theorem call_cases (a : Arena) (heap : Heap) (req : Request) (fits : req.bytes + 7 < 2 ^ 64) :
    (req.bytes + a.padding req ≤ a.allocBytesRemaining ∧
      a.call heap req = (a.allocPtr + a.padding req,
        { a with allocPtr := a.allocPtr + a.padding req + req.bytes,
                 allocBytesRemaining := a.allocBytesRemaining - (req.bytes + a.padding req) })) ∨
    (a.allocBytesRemaining < req.bytes + a.padding req ∧ kBlockSize / 4 < req.bytes ∧
      a.call heap req = (heap.fresh, a.pushBlock heap ⟨heap.fresh, req.bytes⟩)) ∨
    (a.allocBytesRemaining < req.bytes + a.padding req ∧ req.bytes ≤ kBlockSize / 4 ∧
      a.call heap req = (heap.fresh,
        { a.pushBlock heap ⟨heap.fresh, kBlockSize⟩ with
          allocPtr := heap.fresh + req.bytes, allocBytesRemaining := kBlockSize - req.bytes })) := by
  have fallback : ∀ bytes,
      (kBlockSize / 4 < bytes ∧ allocateFallback heap a bytes = (heap.fresh, a.pushBlock heap ⟨heap.fresh, bytes⟩)) ∨
      (bytes ≤ kBlockSize / 4 ∧ allocateFallback heap a bytes = (heap.fresh,
        { a.pushBlock heap ⟨heap.fresh, kBlockSize⟩ with
          allocPtr := heap.fresh + bytes, allocBytesRemaining := kBlockSize - bytes })) := by
    intro bytes
    by_cases large : kBlockSize / 4 < bytes
    · exact .inl ⟨large, by rw [allocateFallback, if_pos large]; rfl⟩
    · exact .inr ⟨by omega, by rw [allocateFallback, if_neg large]; rfl⟩
  cases req with
  | allocate bytes =>
      simp only [Request.bytes, padding, Nat.add_zero, call, allocate]
      by_cases room : bytes ≤ a.allocBytesRemaining
      · exact .inl ⟨room, if_pos room⟩
      rw [if_neg room]
      rcases fallback bytes with ⟨large, served⟩ | ⟨small, served⟩
      · exact .inr (.inl ⟨by omega, large, served⟩)
      · exact .inr (.inr ⟨by omega, small, served⟩)
  | allocateAligned bytes =>
      simp only [Request.bytes, padding] at fits ⊢
      have small : (bytes + a.slop) % 2 ^ 64 = bytes + a.slop :=
        Nat.mod_eq_of_lt (by have := padding_le a (.allocateAligned bytes); simp only [padding] at this; omega)
      simp only [call, allocateAligned, small]
      by_cases room : bytes + a.slop ≤ a.allocBytesRemaining
      · exact .inl ⟨room, by rw [if_pos room, Nat.add_assoc, Nat.add_comm bytes]⟩
      rw [if_neg room]
      rcases fallback bytes with ⟨large, served⟩ | ⟨small, served⟩
      · exact .inr (.inl ⟨by omega, large, served⟩)
      · exact .inr (.inr ⟨by omega, small, served⟩)

end Arena

end Rockscopy.Arena
