/-
# Rockscopy.SkipList.Basic — the skip list of the memtable

The state of `SkipList<Key, Comparator>`: the forward pointers of `head_`, the
nodes `NewNode` placed in the arena (numbered in allocation order; nodes are
never freed), `max_height_`, and the `prev_` cache of `Insert`. A forward
pointer is `nullptr` (`none`) or names a node; `head_` is never stored in one.
A `Node*` the code holds is a `Ref`: `head_` or a node.

`FindGreatOrEqual`, `FindLessThan` and `FindLast` run one loop, `descend`, which
differs only in its test for moving right and in the assertion `FindLessThan`
makes on every turn. `while (true)` is given fuel: `none` means the fuel ran out
(or the assertion failed). Every call gets `searchFuel`, and
`Rockscopy.SkipList.Search` shows it is enough.

`Insert` links a node as line 156 means to: `x->NoBarrier_SetNext(i,
prev_[i]->NoBarrier_Next(i))`. As written the line calls the getter
`NoBarrier_Next`, which leaves the new node's successor unset. Heights are the
caller's; `Rockscopy.SkipList.RandomHeight` shows they are exactly the ones
`RandomHeight()` can return.
-/
import Mathlib.Data.List.GetD

namespace Rockscopy.SkipList

set_option autoImplicit false
set_option linter.dupNamespace false
set_option linter.unusedSectionVars false

/-- `kMaxHeight`. -/
def kMaxHeight : Nat := 12

/-- A `Node*` the code holds: `head_`, or the node `NewNode` allocated `index`-th. -/
inductive Ref where
  | head
  | node (index : Nat)
deriving DecidableEq, Repr

/-- A node: its key and its forward pointers `next_[0 .. height - 1]`. -/
structure Node (Key : Type) where
  key : Key
  next : List (Option Nat)
deriving DecidableEq, Repr, Inhabited

structure SkipList (Key : Type) where
  head : List (Option Nat)
  nodes : List (Node Key)
  maxHeight : Nat
  prev : List Ref
deriving DecidableEq, Repr

/-- The calls a run of the skip list makes, with the height `RandomHeight()` drew for each insert. -/
inductive Op (Key : Type) where
  | insert (key : Key) (height : Nat)
  | contains (key : Key)
  | findLessThan (key : Key)
  | findLast
deriving DecidableEq, Repr

/-- The keys a run inserts, in order. -/
def insertedKeys {Key : Type} : List (Op Key) → List Key
  | [] => []
  | .insert key _ :: ops => key :: insertedKeys ops
  | _ :: ops => insertedKeys ops

theorem insertedKeys_cons {Key : Type} (op : Op Key) (ops : List (Op Key)) :
    insertedKeys (op :: ops) = insertedKeys [op] ++ insertedKeys ops := by
  cases op <;> rfl

/-- An insert's height is one `RandomHeight()` can return: in `[1, kMaxHeight]`. -/
def Op.HeightInRange {Key : Type} : Op Key → Prop
  | .insert _ height => 0 < height ∧ height ≤ kMaxHeight
  | _ => True

instance {Key : Type} : (op : Op Key) → Decidable op.HeightInRange
  | .insert _ height => inferInstanceAs (Decidable (0 < height ∧ height ≤ kMaxHeight))
  | .contains _ => isTrue trivial
  | .findLessThan _ => isTrue trivial
  | .findLast => isTrue trivial

namespace SkipList

variable {Key : Type} [Inhabited Key] (cmp : Key → Key → Ordering)

/-- `SkipList(cmp, arena)`: `head_` with `kMaxHeight` null forward pointers,
`max_height_ = 1`, and every `prev_[i] = head_`. -/
def init : SkipList Key :=
  { head := List.replicate kMaxHeight none, nodes := [], maxHeight := 1,
    prev := List.replicate kMaxHeight .head }

/-- The node allocated `i`-th; an empty node for an index no node has. -/
def nodeAt (s : SkipList Key) (i : Nat) : Node Key :=
  s.nodes.getD i default

/-- `x->key` of the node allocated `i`-th. -/
def keyOf (s : SkipList Key) (i : Nat) : Key :=
  (s.nodeAt i).key

/-- The keys of the nodes, in the order `NewNode` allocated them. -/
def keys (s : SkipList Key) : List Key :=
  (List.range s.nodes.length).map s.keyOf

/-- The number of forward pointers of `x`: `kMaxHeight` for `head_`, the height
`NewNode` gave a node, and none for an index no node has. -/
def slots (s : SkipList Key) : Ref → Nat
  | .head => s.head.length
  | .node i => (s.nodeAt i).next.length

/-- `x->Next(level)`. -/
def next (s : SkipList Key) : Ref → Nat → Option Nat
  | .head, level => s.head.getD level none
  | .node i, level => (s.nodeAt i).next.getD level none

/-- `x->SetNext(level, v)`. -/
def setNext (s : SkipList Key) : Ref → Nat → Option Nat → SkipList Key
  | .head, level, v => { s with head := s.head.set level v }
  | .node i, level, v =>
      { s with nodes := s.nodes.modify (fun node => { node with next := node.next.set level v }) i }

/-- `KeyIsAfterNode(key, n)`: `n` is not null and its key is less than `key`. -/
def keyIsAfterNode (s : SkipList Key) (key : Key) : Option Nat → Bool
  | none => false
  | some i => cmp (s.keyOf i) key == .lt

/-- `x == head_ || compare_(x->key, key) < 0`: the fast path's test on `prev[0]` and
the assertion of `FindLessThan`. The key of `head_` is never read. -/
def headOrBefore (s : SkipList Key) (key : Key) : Ref → Bool
  | .head => true
  | .node i => cmp (s.keyOf i) key == .lt

/-! ## The descents -/

/-- The loop shared by the three descents. At `x` and `level` it asserts `check x`
and reads `next = x->Next(level)`; it moves to `next` when `advance next`, and
otherwise records `prev[level] = x` (when `prev` is not null) and returns at
level 0 or goes down a level. -/
def descend (s : SkipList Key) (check : Ref → Bool) (advance : Option Nat → Bool) :
    Nat → Ref → Nat → Option (List Ref) → Option (Ref × Option Nat × Option (List Ref))
  | 0, _, _, _ => none
  | fuel + 1, x, level, prev =>
      if check x then
        let next := s.next x level
        match next, advance next with
        | some n, true => s.descend check advance fuel (.node n) level prev
        | _, _ =>
            let prev := prev.map (·.set level x)
            if level = 0 then some (x, next, prev) else s.descend check advance fuel x (level - 1) prev
      else none

/-- The fuel each call of a descent gets: one turn per node and level, and one more per level. -/
def searchFuel (s : SkipList Key) : Nat :=
  s.maxHeight * (s.nodes.length + 1)

/-- The first test of `FindGreatOrEqual(key, prev)`, the fast path for
sequential inserts: when `prev` is not null, `prev[0]`'s successor is not before
`key`, and `prev[0]` is `head_` or before `key`, it returns that successor. -/
def fastPath (s : SkipList Key) (key : Key) : Option (List Ref) → Option (Option Nat)
  | none => none
  | some prev =>
      if !s.keyIsAfterNode cmp key (s.next (prev.getD 0 .head) 0) then
        let x := prev.getD 0 .head
        let next := s.next x 0
        if s.headOrBefore cmp key x then some next else none
      else none

/-- `FindGreatOrEqual(key, prev)`: the node returned, and `prev` as the call leaves it. -/
def findGreatOrEqual (s : SkipList Key) (key : Key) (prev : Option (List Ref)) (fuel : Nat) :
    Option (Option Nat × Option (List Ref)) :=
  match s.fastPath cmp key prev with
  | some next => some (next, prev)
  | none =>
      (s.descend (fun _ => true) (s.keyIsAfterNode cmp key) fuel .head (s.maxHeight - 1) prev).map
        fun found => (found.2.1, found.2.2)

/-- `FindLessThan(key)`. Its test `next == nullptr || compare_(next->key, key) >= 0`
for staying is the negation of `KeyIsAfterNode(key, next)`. -/
def findLessThan (s : SkipList Key) (key : Key) (fuel : Nat) : Option Ref :=
  (s.descend (s.headOrBefore cmp key) (s.keyIsAfterNode cmp key) fuel .head (s.maxHeight - 1) none).map
    (·.1)

/-- `FindLast()`. -/
def findLast (s : SkipList Key) (fuel : Nat) : Option Ref :=
  (s.descend (fun _ => true) Option.isSome fuel .head (s.maxHeight - 1) none).map (·.1)

/-- `Contains(key)`. -/
def contains (s : SkipList Key) (key : Key) : Option Bool :=
  (s.findGreatOrEqual cmp key none s.searchFuel).map fun found =>
    match found.1 with
    | some i => cmp key (s.keyOf i) == .eq
    | none => false

/-! ## Insert -/

/-- `for (int i = GetMaxHeight(); i < height; i++) prev_[i] = head_;` and the store
of `height` into `max_height_`. -/
def raise (s : SkipList Key) (height : Nat) : SkipList Key :=
  { s with
    prev := (List.range' s.maxHeight (height - s.maxHeight)).foldl (fun prev i => prev.set i .head) s.prev
    maxHeight := height }

/-- `NewNode(key, height)`: a node with `height` forward pointers, none set yet. -/
def newNode (s : SkipList Key) (key : Key) (height : Nat) : SkipList Key :=
  { s with nodes := s.nodes ++ [⟨key, List.replicate height none⟩] }

/-- One turn of `Insert`'s linking loop for the node `x`:
`x->NoBarrier_SetNext(i, prev_[i]->NoBarrier_Next(i)); prev_[i]->SetNext(i, x)`. -/
def link (s : SkipList Key) (x i : Nat) : SkipList Key :=
  let p := s.prev.getD i .head
  (s.setNext (.node x) i (s.next p i)).setNext p i (some x)

/-- The linking loop `for (int i = 0; i < height; i++)`. -/
def linkAll (s : SkipList Key) (x height : Nat) : SkipList Key :=
  (List.range height).foldl (fun s i => s.link x i) s

/-- The end of `Insert` once `prev_` is filled: `x = NewNode(key, height)`, the
linking loop, and `prev_[0] = x`. -/
def place (s : SkipList Key) (key : Key) (height : Nat) : SkipList Key :=
  let x := s.nodes.length
  let s := (s.newNode key height).linkAll x height
  { s with prev := s.prev.set 0 (.node x) }

/-- `Insert(key)`, with `height` the value `RandomHeight()` returned. -/
def insert (s : SkipList Key) (key : Key) (height : Nat) : Option (SkipList Key) := do
  let (_, prev) ← s.findGreatOrEqual cmp key (some s.prev) s.searchFuel
  let s := { s with prev := prev.getD s.prev }
  let s := if height > s.maxHeight then s.raise height else s
  pure (s.place key height)

/-- One call. The lookups leave the list as it was. -/
def step (s : SkipList Key) : Op Key → Option (SkipList Key)
  | .insert key height => s.insert cmp key height
  | .contains key => (s.contains cmp key).map fun _ => s
  | .findLessThan key => (s.findLessThan cmp key s.searchFuel).map fun _ => s
  | .findLast => (s.findLast s.searchFuel).map fun _ => s

/-- A run of calls; `none` if one of them runs out of fuel. -/
def run (s : SkipList Key) : List (Op Key) → Option (SkipList Key)
  | [] => some s
  | op :: ops => (s.step cmp op).bind fun s => s.run ops

/-! ## Reading and writing forward pointers -/

theorem getD_replicate {α : Type} (r n : Nat) (d : α) : (List.replicate r d).getD n d = d := by
  rw [List.getD_eq_getElem?_getD, List.getElem?_getD_replicate_default_eq]

theorem getD_modify {α : Type} (f : α → α) (l : List α) (i j : Nat) (d : α) :
    (l.modify f j).getD i d = if i = j ∧ i < l.length then f (l.getD i d) else l.getD i d := by
  simp only [List.getD_eq_getElem?_getD, List.getElem?_modify]
  by_cases same : i = j
  · subst same
    by_cases inside : i < l.length
    · simp [inside, List.getElem?_eq_getElem inside]
    · simp [inside, List.getElem?_eq_none (Nat.le_of_not_lt inside)]
  · simp [Ne.symm same, same]

theorem getD_set {α : Type} (l : List α) (i j : Nat) (a d : α) :
    (l.set i a).getD j d = if i = j ∧ j < l.length then a else l.getD j d := by
  simp only [List.getD_eq_getElem?_getD, List.getElem?_set]
  by_cases same : i = j
  · subst same
    by_cases inside : i < l.length <;> simp [inside, List.getElem?_eq_none (Nat.le_of_not_lt _)]
  · simp [same]

@[simp] theorem default_next : (default : Node Key).next = [] := rfl

theorem getD_nodes (s : SkipList Key) (i : Nat) : s.nodes.getD i default = s.nodeAt i := rfl

theorem nodeAt_of_le (s : SkipList Key) {i : Nat} (outside : s.nodes.length ≤ i) : s.nodeAt i = default := by
  simp [nodeAt, List.getElem?_eq_none outside]

theorem nodeAt_setNext (s : SkipList Key) (y : Ref) (level : Nat) (v : Option Nat) (i : Nat) :
    (s.setNext y level v).nodeAt i =
      if y = .node i ∧ i < s.nodes.length then { s.nodeAt i with next := (s.nodeAt i).next.set level v }
      else s.nodeAt i := by
  cases y with
  | head => simp [setNext, nodeAt]
  | node j =>
      simp only [setNext, nodeAt, getD_modify, Ref.node.injEq]
      by_cases same : i = j
      · subst same; rfl
      · simp [same, Ne.symm same]

@[simp] theorem nodes_length_setNext (s : SkipList Key) (y : Ref) (level : Nat) (v : Option Nat) :
    (s.setNext y level v).nodes.length = s.nodes.length := by
  cases y <;> simp [setNext]

@[simp] theorem prev_setNext (s : SkipList Key) (y : Ref) (level : Nat) (v : Option Nat) :
    (s.setNext y level v).prev = s.prev := by
  cases y <;> rfl

@[simp] theorem maxHeight_setNext (s : SkipList Key) (y : Ref) (level : Nat) (v : Option Nat) :
    (s.setNext y level v).maxHeight = s.maxHeight := by
  cases y <;> rfl

@[simp] theorem head_length_setNext (s : SkipList Key) (y : Ref) (level : Nat) (v : Option Nat) :
    (s.setNext y level v).head.length = s.head.length := by
  cases y <;> simp [setNext]

@[simp] theorem keyOf_setNext (s : SkipList Key) (y : Ref) (level : Nat) (v : Option Nat) (i : Nat) :
    (s.setNext y level v).keyOf i = s.keyOf i := by
  simp only [keyOf, nodeAt_setNext]; split_ifs <;> rfl

@[simp] theorem slots_setNext (s : SkipList Key) (y : Ref) (level : Nat) (v : Option Nat) (x : Ref) :
    (s.setNext y level v).slots x = s.slots x := by
  cases x with
  | head => cases y <;> simp [setNext, slots]
  | node i => simp only [slots, nodeAt_setNext]; split_ifs <;> simp

/-- A node with a forward pointer at `level` is one `NewNode` allocated. -/
theorem lt_length_of_slots (s : SkipList Key) {i level : Nat} (slot : level < s.slots (.node i)) :
    i < s.nodes.length := by
  by_contra outside
  simp [slots, nodeAt_of_le s (Nat.le_of_not_lt outside)] at slot

theorem next_setNext_self (s : SkipList Key) (y : Ref) (level : Nat) (v : Option Nat)
    (slot : level < s.slots y) : (s.setNext y level v).next y level = v := by
  cases y with
  | head => simp only [slots] at slot; simp [setNext, next, getD_set, slot]
  | node i =>
      simp only [slots] at slot
      simp [next, nodeAt_setNext, lt_length_of_slots s slot, getD_set, slot]

theorem next_setNext_of_ne (s : SkipList Key) (y : Ref) (level : Nat) (v : Option Nat) (x : Ref)
    (level' : Nat) (other : x ≠ y ∨ level' ≠ level) :
    (s.setNext y level v).next x level' = s.next x level' := by
  cases x with
  | head =>
      cases y with
      | head =>
          simp only [setNext, next, getD_set]
          rw [if_neg fun same => by simp_all]
      | node j => rfl
  | node i =>
      simp only [next, nodeAt_setNext]
      split_ifs with here
      · simp only [getD_set]; rw [if_neg (by rintro ⟨rfl, -⟩; simp_all)]
      · rfl

/-- `x->Next(level')` after `y->SetNext(level, v)`. -/
theorem next_setNext (s : SkipList Key) (y : Ref) (level : Nat) (v : Option Nat) (x : Ref) (level' : Nat) :
    (s.setNext y level v).next x level' =
      if x = y ∧ level' = level ∧ level < s.slots y then v else s.next x level' := by
  by_cases same : x = y ∧ level' = level
  · obtain ⟨rfl, rfl⟩ := same
    by_cases slot : level' < s.slots x
    · rw [if_pos ⟨rfl, rfl, slot⟩, next_setNext_self _ _ _ _ slot]
    · rw [if_neg fun h => slot h.2.2]
      cases x with
      | head =>
          simp only [slots] at slot
          simp only [setNext, next, List.set_eq_of_length_le (Nat.le_of_not_lt slot)]
      | node i =>
          simp only [slots] at slot
          simp only [next, nodeAt_setNext]
          split_ifs <;> simp only [List.set_eq_of_length_le (Nat.le_of_not_lt slot)]
  · rw [if_neg fun h => same ⟨h.1, h.2.1⟩]
    by_cases other : x = y
    · exact next_setNext_of_ne _ _ _ _ _ _ (.inr fun h => same ⟨other, h⟩)
    · exact next_setNext_of_ne _ _ _ _ _ _ (.inl other)

theorem nodeAt_newNode (s : SkipList Key) (key : Key) (height i : Nat) :
    (s.newNode key height).nodeAt i =
      if i < s.nodes.length then s.nodeAt i else if i = s.nodes.length then ⟨key, List.replicate height none⟩
      else default := by
  simp only [nodeAt, newNode]
  split_ifs with old new
  · exact List.getD_append _ _ _ _ old
  · subst new; simp
  · rw [List.getD_eq_default _ _ (by simp; omega)]

@[simp] theorem nodes_length_newNode (s : SkipList Key) (key : Key) (height : Nat) :
    (s.newNode key height).nodes.length = s.nodes.length + 1 := by
  simp [newNode]

theorem next_newNode (s : SkipList Key) (key : Key) (height : Nat) (x : Ref) (level : Nat)
    (old : x ≠ .node s.nodes.length) : (s.newNode key height).next x level = s.next x level := by
  cases x with
  | head => rfl
  | node i =>
      simp only [next, nodeAt_newNode]
      split_ifs with lt eq
      · rfl
      · exact absurd (congrArg Ref.node eq) old
      · simp [nodeAt_of_le s (by omega : s.nodes.length ≤ i)]

theorem next_newNode_self (s : SkipList Key) (key : Key) (height level : Nat) :
    (s.newNode key height).next (.node s.nodes.length) level = none := by
  simp only [next, nodeAt_newNode, Nat.lt_irrefl, if_false, if_true, List.getD_eq_getElem?_getD,
    List.getElem?_replicate]
  split <;> rfl

theorem slots_newNode (s : SkipList Key) (key : Key) (height : Nat) (x : Ref)
    (old : x ≠ .node s.nodes.length) : (s.newNode key height).slots x = s.slots x := by
  cases x with
  | head => rfl
  | node i =>
      simp only [slots, nodeAt_newNode]
      split_ifs with lt eq
      · rfl
      · exact absurd (congrArg Ref.node eq) old
      · simp [nodeAt_of_le s (by omega : s.nodes.length ≤ i)]

theorem slots_newNode_self (s : SkipList Key) (key : Key) (height : Nat) :
    (s.newNode key height).slots (.node s.nodes.length) = height := by
  simp [slots, nodeAt_newNode]

theorem keyOf_newNode (s : SkipList Key) (key : Key) (height : Nat) {i : Nat} (old : i < s.nodes.length) :
    (s.newNode key height).keyOf i = s.keyOf i := by
  simp [keyOf, nodeAt_newNode, old]

theorem keyOf_newNode_self (s : SkipList Key) (key : Key) (height : Nat) :
    (s.newNode key height).keyOf s.nodes.length = key := by
  simp [keyOf, nodeAt_newNode]

end SkipList

end Rockscopy.SkipList
