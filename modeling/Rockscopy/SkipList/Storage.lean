/-
# Rockscopy.SkipList.Storage — every word the skip list uses has bytes of its own

The models of the skip list keep a node's key and forward pointers apart, as fields
of a record. In the code they are bytes of one arena allocation: `NewNode(key,
height)` asks `arena_->AllocateAligned` for `sizeof(Node) + sizeof(port::AtomicPointer)
* (height - 1)` bytes and builds `struct Node { Key const key; port::AtomicPointer
next_[1]; }` in them, whose `next_[1]` is indexed up to `height - 1`. This module
puts the skip list's calls to its arena beside its state: `head_`'s, from the
constructor, first, then one a node, in the order the nodes were allocated.

* `NodeLayout`: what the C++ layout rules give `Node` for the skip list's `Key`.
* `touchRegion`: the bytes a touch of `Rockscopy.SkipList.Bounds` reads or writes, in
  the allocation of its node.
* `run_sizes`, `run_aligned`: an arena run returns one region a call, of the size the
  call asked for, and 8-aligned when every call is `AllocateAligned` and every block
  `new char[]` hands out is.
* `nodeRegion_eq`, `nodeRegion_disjoint`, `nodeRegion_aligned`: the allocation of a
  node is the region the arena returned to its `NewNode`, of the size it asked for,
  apart from every other node's, and 8-aligned.
* `touches_own_their_bytes`: along every run of calls from a fresh list, on an arena
  that starts fresh and serves every `NewNode` from fresh 8-aligned memory inside the
  address space, every touch the model allows lies in its node's allocation, two
  different ones share no byte, and every forward pointer is 8-aligned, so that each of
  its loads and stores is one aligned word.
-/
import Rockscopy.SkipList.Bounds
import Rockscopy.Arena.Aligned

namespace Rockscopy.Arena.Arena

set_option autoImplicit false
set_option linter.dupNamespace false

/-- A run returns one region a call, of the size the call asked for. -/
theorem run_sizes (a : Arena) (calls : List (Request × Heap)) :
    (a.run calls).1.map Region.size = calls.map fun c => c.1.bytes := by
  induction calls generalizing a with
  | nil => rfl
  | cons c calls ih =>
      obtain ⟨req, heap⟩ := c
      rw [run_cons, List.map_cons, ih, List.map_cons]

/-- When every call is `AllocateAligned` and `new char[]` would answer each with an
8-aligned block, every region the run returns starts at a multiple of `align`. -/
theorem run_aligned (a : Arena) (calls : List (Request × Heap))
    (onlyAligned : ∀ c ∈ calls, ∃ bytes, c.1 = .allocateAligned bytes) (aligned : ∀ c ∈ calls, c.2.fresh % 8 = 0) :
    ∀ r ∈ (a.run calls).1, r.start % kAlign = 0 := by
  induction calls generalizing a with
  | nil => exact fun _ none => nomatch none
  | cons c calls ih =>
      obtain ⟨req, heap⟩ := c
      obtain ⟨bytes, rfl⟩ := onlyAligned _ (List.mem_cons_self _ _)
      intro r member
      rw [run_cons] at member
      rcases List.mem_cons.mp member with rfl | later
      · exact allocateAligned_aligned heap a bytes (aligned _ (List.mem_cons_self _ _))
      · exact ih _ (fun c inside => onlyAligned c (List.mem_cons_of_mem _ inside))
          (fun c inside => aligned c (List.mem_cons_of_mem _ inside)) r later

end Rockscopy.Arena.Arena

namespace Rockscopy.SkipList

open Batteries
open Rockscopy.Arena (Region Heap Request sizeOfPointer)

set_option autoImplicit false
set_option linter.unusedSectionVars false

/-- What the C++ layout rules give `struct Node { Key const key; port::AtomicPointer
next_[1]; }` for the skip list's `Key`: the key at offset 0, `next_` after it at a
multiple of the alignment of `port::AtomicPointer`, and `sizeof(Node)` covering
`next_[0]`. A `port::AtomicPointer` is one `std::atomic<void *>`, a pointer's size. -/
structure NodeLayout where
  /-- `sizeof(Key)` -/
  keySize : Nat
  /-- `offsetof(Node, next_)` -/
  nextOffset : Nat
  /-- `sizeof(Node)` -/
  nodeSize : Nat
  keyFirst : keySize ≤ nextOffset
  nextAligned : nextOffset % sizeOfPointer = 0
  nextInside : nextOffset + sizeOfPointer ≤ nodeSize

/-- A pointer-sized key such as `const char *`: the key, then `next_[0]`. -/
def NodeLayout.pointerKey : NodeLayout :=
  ⟨8, 8, 16, by decide, by decide, by decide⟩

/-- The bytes `NewNode(key, height)` asks `AllocateAligned` for. -/
def NodeLayout.newNodeBytes (layout : NodeLayout) (height : Nat) : Nat :=
  layout.nodeSize + sizeOfPointer * (height - 1)

/-- The calls the skip list makes of its arena: `NewNode(0, kMaxHeight)` for `head_`, then
`NewNode(key, height)` for each of `heights`, in allocation order, each with the
runtime's answers. -/
def nodeCalls (layout : NodeLayout) (heights : List Nat) (heaps : List Heap) : List (Request × Heap) :=
  ((kMaxHeight :: heights).map fun height => Request.allocateAligned (layout.newNodeBytes height)).zip heaps

/-- The allocations the arena returns to `nodeCalls`, `head_`'s first. -/
def nodeRegions (layout : NodeLayout) (heights : List Nat) (heaps : List Heap) : List Region :=
  (Arena.Arena.init.run (nodeCalls layout heights heaps)).1

/-- The place of a node's call among `nodeCalls`. -/
def Ref.callIndex : Ref → Nat
  | .head => 0
  | .node i => i + 1

/-- The allocation of `x`. -/
def nodeRegion (regions : List Region) (x : Ref) : Region :=
  regions.getD x.callIndex ⟨0, 0⟩

/-- The node a touch is in. -/
def Touch.ref : Touch → Ref
  | .slot x _ => x
  | .key x => x

/-- The bytes a touch reads or writes: `x->next_[level]`, the `level`-th word of `next_`,
or `x->key`, at the start of the allocation of `x`. -/
def touchRegion (layout : NodeLayout) (regions : List Region) : Touch → Region
  | .slot x level => ⟨(nodeRegion regions x).start + layout.nextOffset + sizeOfPointer * level, sizeOfPointer⟩
  | .key x => ⟨(nodeRegion regions x).start, layout.keySize⟩

/-- Every call `nodeCalls` makes is `AllocateAligned`, for a `NewNode`. -/
theorem nodeCalls_aligned (layout : NodeLayout) (heights : List Nat) (heaps : List Heap) :
    ∀ c ∈ nodeCalls layout heights heaps, ∃ height, c.1 = .allocateAligned (layout.newNodeBytes height) := by
  intro c member
  obtain ⟨height, -, made⟩ := List.mem_map.mp (List.of_mem_zip member).1
  exact ⟨height, made.symm⟩

/-! ## One allocation -/

section Layout

variable (layout : NodeLayout) (regions : List Region) {x : Ref} {height : Nat}
  (sized : (nodeRegion regions x).size = layout.newNodeBytes height)
include sized

/-- `next_[level]`, below the height `NewNode` was given, is inside the allocation. -/
theorem slot_within {level : Nat} (slot : level < height) :
    (touchRegion layout regions (.slot x level)).Within (nodeRegion regions x) := by
  have inside := layout.nextInside
  unfold Region.Within touchRegion NodeLayout.newNodeBytes sizeOfPointer at *
  dsimp only
  omega

theorem key_within : (touchRegion layout regions (.key x)).Within (nodeRegion regions x) := by
  have first := layout.keyFirst
  have inside := layout.nextInside
  unfold Region.Within touchRegion NodeLayout.newNodeBytes sizeOfPointer at *
  dsimp only
  omega

end Layout

/-- Two different touches of one node share no byte: the key ends before `next_`, and
the words of `next_` follow one another. -/
theorem touches_disjoint_of_ref (layout : NodeLayout) (regions : List Region) {t t' : Touch} (same : t.ref = t'.ref)
    (other : t ≠ t') : (touchRegion layout regions t).Disjoint (touchRegion layout regions t') := by
  have first := layout.keyFirst
  rcases t with ⟨x, level⟩ | x <;> rcases t' with ⟨x', level'⟩ | x' <;> simp only [Touch.ref] at same <;> subst same
  · have differ : level ≠ level' := fun same => other (by rw [same])
    simp only [Region.Disjoint, touchRegion, sizeOfPointer]
    omega
  · simp only [Region.Disjoint, touchRegion, sizeOfPointer]
    omega
  · simp only [Region.Disjoint, touchRegion, sizeOfPointer]
    omega
  · exact absurd rfl other

/-- The node of every touch the model allows was allocated: `head_`, or a node `NewNode`
returned. -/
theorem callIndex_of_allocated {Key : Type} [Inhabited Key] {s : SkipList Key} {t : Touch} (allocated : s.Allocated t) :
    t.ref.callIndex < s.nodes.length + 1 := by
  cases t with
  | slot x level =>
      cases x with
      | head => exact Nat.succ_pos _
      | node i => exact Nat.succ_lt_succ (SkipList.lt_length_of_slots s allocated)
  | key x =>
      cases x with
      | head => exact allocated.elim
      | node i => exact Nat.succ_lt_succ allocated

/-- Distinct nodes have distinct calls. -/
theorem callIndex_injective {x y : Ref} (same : x.callIndex = y.callIndex) : x = y := by
  cases x <;> cases y <;> simp_all [Ref.callIndex]

/-! ## The allocations of a run -/

section Run

variable {Key : Type} [Inhabited Key] (layout : NodeLayout) {s : SkipList Key} {heaps : List Heap}
  (answered : heaps.length = s.nodes.length + 1)
include answered

/-- The allocation of every node is the region the arena returned to its call, of the size
its `NewNode` asked for. -/
theorem nodeRegion_eq (headSlots : s.slots .head = kMaxHeight) {x : Ref} (owned : x.callIndex < s.nodes.length + 1) :
    ∃ r, (nodeRegions layout s.heights heaps)[x.callIndex]? = some r ∧
      nodeRegion (nodeRegions layout s.heights heaps) x = r ∧ r.size = layout.newNodeBytes (s.slots x) := by
  have sizes : (nodeRegions layout s.heights heaps).map Region.size = (kMaxHeight :: s.heights).map layout.newNodeBytes := by
    rw [nodeRegions, Arena.Arena.run_sizes, nodeCalls,
      show (fun c : Request × Heap => c.1.bytes) = Request.bytes ∘ Prod.fst from rfl, ← List.map_map,
      List.map_fst_zip _ _ (by simp [SkipList.heights, answered]), List.map_map]
    rfl
  have height : (kMaxHeight :: s.heights)[x.callIndex]? = some (s.slots x) := by
    cases x with
    | head => simp [Ref.callIndex, headSlots]
    | node i =>
        simp only [Ref.callIndex] at owned
        simp [Ref.callIndex, SkipList.heights, List.getElem?_range (show i < s.nodes.length by omega)]
  have found := congrArg (·[x.callIndex]?) sizes
  simp only [List.getElem?_map, height, Option.map_some'] at found
  obtain ⟨r, here, size⟩ := Option.map_eq_some'.mp found
  exact ⟨r, here, by rw [nodeRegion, List.getD_eq_getElem?_getD, here, Option.getD_some], size⟩

variable (headSlots : s.slots .head = kMaxHeight)
include headSlots

/-- When the arena's regions share no byte, neither do the allocations of two different nodes. -/
theorem nodeRegion_disjoint (disjoint : (nodeRegions layout s.heights heaps).Pairwise Region.Disjoint) {x y : Ref}
    (owned : x.callIndex < s.nodes.length + 1) (owned' : y.callIndex < s.nodes.length + 1) (other : x ≠ y) :
    (nodeRegion (nodeRegions layout s.heights heaps) x).Disjoint (nodeRegion (nodeRegions layout s.heights heaps) y) := by
  obtain ⟨r, here, node, -⟩ := nodeRegion_eq layout answered headSlots owned
  obtain ⟨r', here', node', -⟩ := nodeRegion_eq layout answered headSlots owned'
  rw [node, node']
  obtain ⟨inside, rfl⟩ := List.getElem?_eq_some_iff.mp here
  obtain ⟨inside', rfl⟩ := List.getElem?_eq_some_iff.mp here'
  rcases Nat.lt_or_gt_of_ne (fun index => other (callIndex_injective index)) with early | late
  · exact List.pairwise_iff_getElem.mp disjoint _ _ inside inside' early
  · exact (List.pairwise_iff_getElem.mp disjoint _ _ inside' inside late).symm

/-- When the runtime hands out 8-aligned blocks, the allocation of every node starts at a
multiple of 8. -/
theorem nodeRegion_aligned (aligned : ∀ heap ∈ heaps, heap.fresh % 8 = 0) {x : Ref}
    (owned : x.callIndex < s.nodes.length + 1) : (nodeRegion (nodeRegions layout s.heights heaps) x).start % 8 = 0 := by
  obtain ⟨r, here, node, -⟩ := nodeRegion_eq layout answered headSlots owned
  obtain ⟨inside, rfl⟩ := List.getElem?_eq_some_iff.mp here
  rw [node]
  exact Arena.Arena.run_aligned Arena.Arena.init _ (fun c member => let ⟨_, made⟩ := nodeCalls_aligned _ _ _ c member; ⟨_, made⟩)
    (fun c member => aligned c.2 (List.of_mem_zip member).2) _ (List.getElem_mem inside)

end Run

/-- **Every word the skip list uses has bytes of its own.** Along every run of calls from a
fresh list, with any total preorder and heights `RandomHeight()` may return, take the
arena `SkipList(cmp, arena)` was given to start fresh and to serve `head_`'s `NewNode`
and then one `NewNode` a node, in the order the nodes were allocated, the runtime
handing out fresh 8-aligned blocks inside the address space. Then every touch the
model allows, a node's key or its forward pointer below its height, lies in the
allocation of its node; two different ones share no byte; and every forward pointer
starts at a multiple of 8. -/
theorem touches_own_their_bytes {Key : Type} [Inhabited Key] (layout : NodeLayout) (cmp : Key → Key → Ordering)
    [TransCmp cmp] (ops : List (Op Key)) (valid : ∀ op ∈ ops, op.HeightInRange) {s : SkipList Key}
    (ran : SkipList.init.run cmp ops = some s) (heaps : List Heap) (answered : heaps.length = s.nodes.length + 1)
    (aligned : ∀ heap ∈ heaps, heap.fresh % 8 = 0) (bounded : Arena.Arena.Bounded (nodeCalls layout s.heights heaps))
    (served : Arena.Arena.init.Served (nodeCalls layout s.heights heaps)) :
    (∀ t, s.Allocated t →
      (touchRegion layout (nodeRegions layout s.heights heaps) t).Within (nodeRegion (nodeRegions layout s.heights heaps) t.ref)) ∧
    (∀ t t', s.Allocated t → s.Allocated t' → t ≠ t' →
      (touchRegion layout (nodeRegions layout s.heights heaps) t).Disjoint (touchRegion layout (nodeRegions layout s.heights heaps) t')) ∧
    ∀ x level, s.Allocated (.slot x level) → (touchRegion layout (nodeRegions layout s.heights heaps) (.slot x level)).start % 8 = 0 := by
  obtain ⟨s', ran', good, -⟩ := SkipList.run_good (SkipList.good_init : SkipList.Good cmp SkipList.init) ops valid
  obtain rfl : s = s' := Option.some.inj (ran.symm.trans ran')
  set regions := nodeRegions layout s.heights heaps
  have headSlots : s.slots .head = kMaxHeight := good.headSlots
  have within : ∀ t, s.Allocated t → (touchRegion layout regions t).Within (nodeRegion regions t.ref) := by
    intro t allocated
    obtain ⟨r, -, rfl, size⟩ := nodeRegion_eq layout answered headSlots (callIndex_of_allocated allocated)
    cases t with
    | slot x level => exact slot_within layout regions size allocated
    | key x => exact key_within layout regions size
  have sized : Arena.Arena.Sized (nodeCalls layout s.heights heaps) := Arena.Arena.sized_of_bounded (fun c member => by
    obtain ⟨height, made⟩ := nodeCalls_aligned layout s.heights heaps c member
    have inside := layout.nextInside
    rw [made]
    simp only [Request.bytes, NodeLayout.newNodeBytes, sizeOfPointer] at inside ⊢
    omega) bounded
  have disjoint := (Arena.Arena.run_good Arena.Arena.good_init _ sized served).1.returnedDisjoint
  rw [List.nil_append] at disjoint
  refine ⟨within, fun t t' allocated allocated' other => ?_, fun x level allocated => ?_⟩
  · by_cases same : t.ref = t'.ref
    · exact touches_disjoint_of_ref layout regions same other
    have apart := nodeRegion_disjoint layout answered headSlots disjoint (callIndex_of_allocated allocated)
      (callIndex_of_allocated allocated') same
    exact (within t allocated).disjoint ((within t' allocated').disjoint apart.symm).symm
  · have offset := layout.nextAligned
    have start : (nodeRegion regions x).start % 8 = 0 :=
      nodeRegion_aligned layout answered headSlots aligned (show x.callIndex < _ from callIndex_of_allocated allocated)
    simp only [touchRegion, sizeOfPointer] at offset ⊢
    omega

theorem touches_own_their_bytes_two_inserts :
    (∀ op ∈ ([.insert 5 2, .insert 3 1] : List (Op Nat)), op.HeightInRange) ∧
    ∃ s, SkipList.init.run compare ([.insert 5 2, .insert 3 1] : List (Op Nat)) = some s ∧
      ([⟨4096, 4⟩, ⟨0, 0⟩, ⟨0, 0⟩] : List Heap).length = s.nodes.length + 1 ∧
      (∀ heap ∈ ([⟨4096, 4⟩, ⟨0, 0⟩, ⟨0, 0⟩] : List Heap), heap.fresh % 8 = 0) ∧
      Arena.Arena.Bounded (nodeCalls NodeLayout.pointerKey s.heights [⟨4096, 4⟩, ⟨0, 0⟩, ⟨0, 0⟩]) ∧
      Arena.Arena.init.Served (nodeCalls NodeLayout.pointerKey s.heights [⟨4096, 4⟩, ⟨0, 0⟩, ⟨0, 0⟩]) ∧
      (∀ t, s.Allocated t →
        (touchRegion NodeLayout.pointerKey (nodeRegions NodeLayout.pointerKey s.heights [⟨4096, 4⟩, ⟨0, 0⟩, ⟨0, 0⟩]) t).Within
          (nodeRegion (nodeRegions NodeLayout.pointerKey s.heights [⟨4096, 4⟩, ⟨0, 0⟩, ⟨0, 0⟩]) t.ref)) ∧
      (∀ t t', s.Allocated t → s.Allocated t' → t ≠ t' →
        (touchRegion NodeLayout.pointerKey (nodeRegions NodeLayout.pointerKey s.heights [⟨4096, 4⟩, ⟨0, 0⟩, ⟨0, 0⟩]) t).Disjoint
          (touchRegion NodeLayout.pointerKey (nodeRegions NodeLayout.pointerKey s.heights [⟨4096, 4⟩, ⟨0, 0⟩, ⟨0, 0⟩]) t')) ∧
      ∀ x level, s.Allocated (.slot x level) →
        (touchRegion NodeLayout.pointerKey (nodeRegions NodeLayout.pointerKey s.heights [⟨4096, 4⟩, ⟨0, 0⟩, ⟨0, 0⟩])
          (.slot x level)).start % 8 = 0 :=
  have ran : SkipList.init.run compare ([.insert 5 2, .insert 3 1] : List (Op Nat)) = some _ := rfl
  ⟨by decide, _, ran, rfl, by decide, by decide, by decide,
    touches_own_their_bytes NodeLayout.pointerKey compare [.insert 5 2, .insert 3 1] (by decide) ran
      [⟨4096, 4⟩, ⟨0, 0⟩, ⟨0, 0⟩] rfl (by decide) (by decide) (by decide)⟩

end Rockscopy.SkipList
