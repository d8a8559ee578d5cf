/-
# Rockscopy.SkipList.Bounds — every slot and key a call touches is there

`NewNode(key, height)` allocates `sizeof(Node) + sizeof(port::AtomicPointer) *
(height - 1)` bytes: the key and `next_[0 .. height - 1]`, nothing after them.
`head_` is such a node of height `kMaxHeight`, with the placeholder key `0`.
`Next(n)`, `NoBarrier_Next(n)`, `SetNext(n, x)` and `NoBarrier_SetNext(n, x)` index
`next_[n]` with no check. The model reads and writes forward pointers totally (a
missing slot reads as `nullptr` and takes no write), so this module records,
beside each call, what the code touches (`Touch`), in the order it touches it,
and shows that every touch lands in what `NewNode` allocated (`Allocated`): a
slot below the node's height, or the key of a node, never the key of `head_`.

* `Threaded`: every node is on the chain from `head_` at every level below its
  height. `Insert` keeps it whatever `prev_` the fast path left
  (`place_threaded`): a stale `prev_[i]` is still on the level-`i` chain, so the
  new node is spliced into that chain. Hence every `prev_[i]` is `head_` or a
  node linked at level `i`.
* `descendTouches_allocated`: a descent touches only what is there, from any
  start that has a slot at its level; `touches_allocated` and
  `linkTouches_allocated` assemble the reads of every call and the writes of
  `Insert`'s linking loop.
* `indexing_stays_in_bounds`: along every run from a fresh list, with any total
  preorder and any heights `RandomHeight()` may return, node `i` has the height
  the `i`-th `Insert` drew, and every state reached is `InBounds`.
-/
import Rockscopy.SkipList.Insert

namespace Rockscopy.SkipList

open Batteries

set_option autoImplicit false
set_option linter.dupNamespace false
set_option linter.unusedSectionVars false

/-- What a call touches: `x->next_[level]`, through `Next`, `NoBarrier_Next`, `SetNext`
or `NoBarrier_SetNext`; or `x->key`, passed to `compare_`. -/
inductive Touch where
  | slot (x : Ref) (level : Nat)
  | key (x : Ref)
deriving DecidableEq, Repr

/-- `KeyIsAfterNode(key, n)`, and `Equal(key, n->key)` after `n != nullptr`, read `n->key`
when `n` is not null. -/
def keyReads : Option Nat → List Touch
  | none => []
  | some i => [.key (.node i)]

/-- `x == head_ || compare_(x->key, key) < 0` reads `x->key` when `x` is not `head_`. -/
def headOrBeforeReads : Ref → List Touch
  | .head => []
  | .node i => [.key (.node i)]

/-- The linking loop of `Insert` on the node `x`, with `prev_` filled: for each `i <
height`, `prev_[i]->NoBarrier_Next(i)`, `x->NoBarrier_SetNext(i, _)` and
`prev_[i]->SetNext(i, x)`. -/
def linkTouches (prev : List Ref) (x height : Nat) : List Touch :=
  (List.range height).flatMap fun i =>
    [.slot (prev.getD i .head) i, .slot (.node x) i, .slot (prev.getD i .head) i]

/-- The heights the inserts of a run draw, in order. -/
def insertedHeights {Key : Type} : List (Op Key) → List Nat
  | [] => []
  | .insert _ height :: ops => height :: insertedHeights ops
  | _ :: ops => insertedHeights ops

theorem insertedHeights_cons {Key : Type} (op : Op Key) (ops : List (Op Key)) :
    insertedHeights (op :: ops) = insertedHeights [op] ++ insertedHeights ops := by
  cases op <;> rfl

namespace SkipList

variable {Key : Type} [Inhabited Key] (cmp : Key → Key → Ordering)

/-- A touch lands in what `NewNode` allocated: a forward pointer the node has (`head_`
has `kMaxHeight`), or the key of a node, never the placeholder key of `head_`. -/
def Allocated (s : SkipList Key) : Touch → Prop
  | .slot x level => level < s.slots x
  | .key .head => False
  | .key (.node i) => i < s.nodes.length

instance (s : SkipList Key) : (t : Touch) → Decidable (s.Allocated t)
  | .slot x level => inferInstanceAs (Decidable (level < s.slots x))
  | .key .head => isFalse id
  | .key (.node i) => inferInstanceAs (Decidable (i < s.nodes.length))

/-- The heights `NewNode` gave the nodes, in the order it allocated them. -/
def heights (s : SkipList Key) : List Nat :=
  (List.range s.nodes.length).map fun i => s.slots (.node i)

/-- What `descend` touches from `x` at `level`: on each turn, what the check on `x` reads,
`x->Next(level)`, and what the test on the pointer it returns reads. -/
def descendTouches (s : SkipList Key) (check : Ref → Bool) (advance : Option Nat → Bool)
    (checkReads : Ref → List Touch) (advanceReads : Option Nat → List Touch) :
    Nat → Ref → Nat → List Touch
  | 0, _, _ => []
  | fuel + 1, x, level =>
      checkReads x ++
        if check x then
          let next := s.next x level
          .slot x level :: advanceReads next ++
            match next, advance next with
            | some n, true => s.descendTouches check advance checkReads advanceReads fuel (.node n) level
            | _, _ =>
                if level = 0 then [] else s.descendTouches check advance checkReads advanceReads fuel x (level - 1)
        else []

/-- What the fast path of `FindGreatOrEqual` touches: `prev[0]->Next(0)` and the key it
names; then, when that key is not before `key`, `x->Next(0)` for `x = prev[0]`, and the
key of `x` unless `x` is `head_`. -/
def fastPathTouches (s : SkipList Key) (key : Key) : Option (List Ref) → List Touch
  | none => []
  | some prev =>
      .slot (prev.getD 0 .head) 0 :: keyReads (s.next (prev.getD 0 .head) 0) ++
        if !s.keyIsAfterNode cmp key (s.next (prev.getD 0 .head) 0) then
          .slot (prev.getD 0 .head) 0 :: headOrBeforeReads (prev.getD 0 .head)
        else []

/-- What `FindGreatOrEqual(key, prev)` touches. -/
def findGreatOrEqualTouches (s : SkipList Key) (key : Key) (prev : Option (List Ref)) (fuel : Nat) :
    List Touch :=
  s.fastPathTouches cmp key prev ++
    match s.fastPath cmp key prev with
    | some _ => []
    | none => s.descendTouches (fun _ => true) (s.keyIsAfterNode cmp key) (fun _ => []) keyReads fuel .head
        (s.maxHeight - 1)

/-- What a call reads before it writes: its search, and the key `Contains` compares. -/
def touches (s : SkipList Key) : Op Key → List Touch
  | .insert key _ => s.findGreatOrEqualTouches cmp key (some s.prev) s.searchFuel
  | .contains key =>
      s.findGreatOrEqualTouches cmp key none s.searchFuel ++
        match s.findGreatOrEqual cmp key none s.searchFuel with
        | some (x, _) => keyReads x
        | none => []
  | .findLessThan key =>
      s.descendTouches (s.headOrBefore cmp key) (s.keyIsAfterNode cmp key) headOrBeforeReads keyReads
        s.searchFuel .head (s.maxHeight - 1)
  | .findLast =>
      s.descendTouches (fun _ => true) Option.isSome (fun _ => []) (fun _ => []) s.searchFuel .head (s.maxHeight - 1)

/-- `Insert` up to `NewNode`: the search that fills `prev_`, and the raise of `max_height_`. -/
def prepare (s : SkipList Key) (key : Key) (height : Nat) : Option (SkipList Key) := do
  let (_, prev) ← s.findGreatOrEqual cmp key (some s.prev) s.searchFuel
  let s := { s with prev := prev.getD s.prev }
  pure (if height > s.maxHeight then s.raise height else s)

/-- What a call writes: `Insert`'s linking loop, on the `prev_` the search and the raise
left, for the node `NewNode` allocates next. -/
def writes (s : SkipList Key) : Op Key → List Touch
  | .insert key height => ((s.prepare cmp key height).map fun t => linkTouches t.prev t.nodes.length height).getD []
  | _ => []

example : (init : SkipList Nat).touches compare .findLast = [.slot .head 0] := by decide

/-- Every node is on the chain from `head_` at every level below its height. -/
def Threaded (s : SkipList Key) : Prop :=
  ∀ i level, level < s.slots (.node i) → ∃ l, Chain s level (s.next .head level) l ∧ i ∈ l

variable {cmp}

/-! ## `Insert` is the search, then `place` -/

theorem insert_eq_prepare (s : SkipList Key) (key : Key) (height : Nat) :
    s.insert cmp key height = (s.prepare cmp key height).map (·.place key height) := by
  unfold insert prepare
  cases s.findGreatOrEqual cmp key (some s.prev) s.searchFuel <;> rfl

theorem heights_place (t : SkipList Key) (key : Key) (height : Nat) :
    (t.place key height).heights = t.heights ++ [height] := by
  simp only [heights, nodes_length_place, List.range_succ, List.map_append, List.map_cons, List.map_nil,
    slots_place, slots_newNode_self]
  congr 1
  exact List.map_congr_left fun i member =>
    slots_newNode _ _ _ _ fun same => Nat.lt_irrefl _ (Ref.node.inj same ▸ List.mem_range.mp member)

theorem threaded_init : Threaded (init : SkipList Key) := fun i level slot => by
  simp [slots, nodeAt, init] at slot

/-- The chains depend only on the forward pointers and the nodes. -/
theorem threaded_with {s : SkipList Key} (threaded : Threaded s) (p : List Ref) (m : Nat) :
    Threaded { s with prev := p, maxHeight := m } := fun i level slot => by
  obtain ⟨l, chain, member⟩ := threaded i level slot
  exact ⟨l, chain.congr (fun _ _ => rfl) le_rfl, member⟩

variable [TransCmp cmp]

/-- The search and the raise return and leave a list ready for `key`, with the forward
pointers and nodes as they were and `max_height_` the larger of itself and `height`. -/
theorem prepare_ready {s : SkipList Key} (good : Good cmp s) (key : Key) {height : Nat} (low : 0 < height)
    (high : height ≤ kMaxHeight) :
    ∃ p, s.prepare cmp key height = some { s with prev := p, maxHeight := max s.maxHeight height } ∧
      Ready cmp { s with prev := p, maxHeight := max s.maxHeight height } key height := by
  obtain ⟨next, p, found, ready⟩ := search_ready good key low high
  obtain ⟨q, m, raised, stored⟩ := store_ready ready
  have top : m = max s.maxHeight height := by
    have top := congrArg SkipList.maxHeight raised
    split_ifs at top with higher <;> simp only [raise] at top higher <;> omega
  subst top
  refine ⟨q, ?_, stored⟩
  rw [prepare, found]
  exact congrArg some raised

/-! ## Placing a node keeps every node threaded -/

section Place

variable {t : SkipList Key} {key : Key} {height : Nat}

/-- The chain from `head_` at `level` once the node `n` is placed: below its height `n`
follows `prev_[level]`, and above it nothing changed. -/
theorem chain_place_head (ready : Ready cmp t key height) {level : Nat} {l : List Nat}
    (chain : Chain t level (t.next .head level) l) :
    Chain (t.place key height) level ((t.place key height).next .head level)
      (if level < height then
        if t.prev.getD level .head = .head then t.nodes.length :: l
        else linkAfter (t.prev.getD level .head) t.nodes.length l
      else l) := by
  have chainU := newNode_chain ready.good key height chain (fun same => nomatch same)
  rw [next_place, next_linkAll]
  by_cases below : level < height
  · rw [if_pos below, if_pos below]
    obtain ⟨old, slotPrev⟩ := newNode_prev ready.good key height (show level < kMaxHeight by have := ready.high; omega)
    have slotNew : level < (t.newNode key height).slots (.node t.nodes.length) := by rwa [slots_newNode_self]
    exact chain_place t key height (chain_linkAll _ _ below (chain_link_head _ _ level slotNew slotPrev old chainU
      (chainU.not_mem (newNode_unlinked ready.good key height · level) (newNode_unlinked ready.good key height _ _))))
  · rw [if_neg below, if_neg below]
    exact chain_place t key height (chain_linkAll_above _ _ (Nat.le_of_not_lt below) chainU)

/-- **Placing a node keeps every node threaded**, whatever `prev_` the search left: at each
of its levels the new node follows `prev_[level]`, which is `head_` or a node of height
above `level`, so on the chain. -/
theorem place_threaded (ready : Ready cmp t key height) (threaded : Threaded t) : Threaded (t.place key height) := by
  intro i level slot
  rw [slots_place] at slot
  obtain ⟨l, chain⟩ := ready.good.finite .head level
  refine ⟨_, chain_place_head ready chain, ?_⟩
  have onChain : ∀ j, level < t.slots (.node j) → j ∈ l := fun j slot' => by
    obtain ⟨l', chain', member⟩ := threaded j level slot'
    rwa [chain.unique chain']
  by_cases new : i = t.nodes.length
  · subst new
    rw [slots_newNode_self] at slot
    rw [if_pos slot]
    split_ifs with first
    · exact List.mem_cons_self _ _
    · cases prev : t.prev.getD level .head with
      | head => exact absurd prev first
      | node q =>
          have slotQ := ready.good.prevSlots level (by have := ready.high; omega)
          rw [prev] at slotQ
          exact self_mem_linkAfter _ (onChain q slotQ)
  · rw [slots_newNode _ _ _ _ fun same => new (Ref.node.inj same)] at slot
    have member := onChain i slot
    split_ifs
    · exact List.mem_cons_of_mem _ member
    · exact mem_linkAfter _ _ member
    · exact member

end Place

/-! ## What the calls touch -/

section Touches

variable (s : SkipList Key)

theorem keyReads_allocated (targets : ∀ y level i, s.next y level = some i → level < s.slots (.node i))
    (x : Ref) (level : Nat) : ∀ w ∈ keyReads (s.next x level), s.Allocated w := by
  cases points : s.next x level with
  | none => intro _ member; cases member
  | some i =>
      intro w member
      rw [keyReads, List.mem_singleton] at member
      subst member
      exact lt_length_of_slots s (targets x level i points)

theorem headOrBeforeReads_allocated {x : Ref} {level : Nat} (slot : level < s.slots x) :
    ∀ w ∈ headOrBeforeReads x, s.Allocated w := by
  cases x with
  | head => intro _ member; cases member
  | node i =>
      intro w member
      rw [headOrBeforeReads, List.mem_singleton] at member
      subst member
      exact lt_length_of_slots s slot

/-- **A descent touches only what is there**, from any node with a slot at its level,
when every forward pointer names a node with a slot at its level: it moves only along
pointers, and goes down only on the node it is at. -/
theorem descendTouches_allocated (check : Ref → Bool) (advance : Option Nat → Bool)
    (checkReads : Ref → List Touch) (advanceReads : Option Nat → List Touch)
    (targets : ∀ y level i, s.next y level = some i → level < s.slots (.node i))
    (checked : ∀ x level, level < s.slots x → ∀ w ∈ checkReads x, s.Allocated w)
    (tested : ∀ x level, ∀ w ∈ advanceReads (s.next x level), s.Allocated w) :
    ∀ fuel x level, level < s.slots x →
      ∀ w ∈ s.descendTouches check advance checkReads advanceReads fuel x level, s.Allocated w := by
  intro fuel
  induction fuel with
  | zero => intro _ _ _ _ member; cases member
  | succ fuel ih =>
      intro x level slot w member
      simp only [descendTouches, List.mem_append] at member
      rcases member with read | rest
      · exact checked x level slot w read
      by_cases passes : check x = true
      · rw [if_pos passes] at rest
        rcases List.mem_cons.mp rest with rfl | rest
        · exact slot
        rcases List.mem_append.mp rest with read | rest
        · exact tested x level w read
        split at rest
        · next n points _ => exact ih _ level (targets x level n points) w rest
        · by_cases bottom : level = 0
          · rw [if_pos bottom] at rest; cases rest
          · rw [if_neg bottom] at rest; exact ih x (level - 1) (by omega) w rest
      · rw [if_neg passes] at rest; cases rest

theorem fastPathTouches_allocated (good : Good cmp s) (key : Key) (prev : Option (List Ref))
    (slot : ∀ p, prev = some p → 0 < s.slots (p.getD 0 .head)) :
    ∀ w ∈ s.fastPathTouches cmp key prev, s.Allocated w := by
  cases prev with
  | none => intro _ member; cases member
  | some p =>
      intro w member
      have first := slot p rfl
      simp only [fastPathTouches, List.mem_cons, List.mem_append] at member
      rcases member with (rfl | read) | rest
      · exact first
      · exact keyReads_allocated s good.targets _ 0 w read
      split_ifs at rest
      · rcases List.mem_cons.mp rest with rfl | read
        · exact first
        · exact headOrBeforeReads_allocated s first w read
      · cases rest

theorem findGreatOrEqualTouches_allocated (good : Good cmp s) (key : Key) (prev : Option (List Ref)) (fuel : Nat)
    (slot : ∀ p, prev = some p → 0 < s.slots (p.getD 0 .head)) :
    ∀ w ∈ s.findGreatOrEqualTouches cmp key prev fuel, s.Allocated w := by
  intro w member
  rcases List.mem_append.mp member with fast | rest
  · exact fastPathTouches_allocated s good key prev slot w fast
  split at rest
  · cases rest
  · exact descendTouches_allocated s _ _ _ _ good.targets (fun _ _ _ _ member => (List.not_mem_nil _ member).elim)
      (keyReads_allocated s good.targets) fuel .head _ (placed_start good key).1 w rest

/-- **Every call reads only what is there**, in a good list: the searches, and the key
`Contains` compares. -/
theorem touches_allocated (good : Good cmp s) (op : Op Key) : ∀ w ∈ s.touches cmp op, s.Allocated w := by
  cases op with
  | insert key height =>
      exact findGreatOrEqualTouches_allocated s good key _ _ fun p same => by
        cases same; exact good.prevSlots 0 (by decide)
  | contains key =>
      intro w member
      rcases List.mem_append.mp member with search | found
      · exact findGreatOrEqualTouches_allocated s good key none _ (fun _ same => nomatch same) w search
      obtain ⟨y, prev', result, -⟩ := findGreatOrEqual_spec good key none le_rfl fun _ same => nomatch same
      simp only [result] at found
      exact keyReads_allocated s good.targets y 0 w found
  | findLessThan key =>
      exact descendTouches_allocated s _ _ _ _ good.targets (fun _ _ slot => headOrBeforeReads_allocated s slot)
        (keyReads_allocated s good.targets) _ .head _ (placed_start good key).1
  | findLast =>
      exact descendTouches_allocated s _ _ _ _ good.targets (fun _ _ _ _ member => (List.not_mem_nil _ member).elim)
        (fun _ _ _ member => (List.not_mem_nil _ member).elim) _ .head _ (placed_start good default).1

/-- **The linking loop writes only what is there**: `prev_[i]` has a slot at each level
`i` below the new height, and the new node has one at each. -/
theorem linkTouches_allocated {t : SkipList Key} {key : Key} {height : Nat} (ready : Ready cmp t key height) :
    ∀ w ∈ linkTouches t.prev t.nodes.length height, (t.place key height).Allocated w := by
  intro w member
  obtain ⟨i, below, member⟩ := List.mem_flatMap.mp member
  have below := List.mem_range.mp below
  obtain ⟨-, slotPrev⟩ := newNode_prev ready.good key height (show i < kMaxHeight by have := ready.high; omega)
  have slotNew : i < (t.newNode key height).slots (.node t.nodes.length) := by rwa [slots_newNode_self]
  simp only [List.mem_cons, List.mem_singleton, List.not_mem_nil, or_false] at member
  rcases member with rfl | rfl | rfl <;> show i < _ <;> rw [slots_place]
  exacts [slotPrev, slotNew, slotPrev]

end Touches

/-! ## Every call, every run -/

/-- **One call** from a good, threaded list leaves it threaded, does not lower
`max_height_`, gives the node it allocates the height drawn, and writes only what is there. -/
theorem step_bounds {s s' : SkipList Key} (good : Good cmp s) (threaded : Threaded s) {op : Op Key}
    (valid : op.HeightInRange) (stepped : s.step cmp op = some s') :
    Threaded s' ∧ s.maxHeight ≤ s'.maxHeight ∧ s'.heights = s.heights ++ insertedHeights [op] ∧
      ∀ w ∈ s.writes cmp op, s'.Allocated w := by
  cases op with
  | insert key height =>
      obtain ⟨p, prepared, ready⟩ := prepare_ready good key valid.1 valid.2
      rw [step, insert_eq_prepare, prepared] at stepped
      cases stepped
      refine ⟨place_threaded ready (threaded_with threaded p _), by simp, by rw [heights_place]; rfl, ?_⟩
      rw [writes, prepared]
      exact linkTouches_allocated ready
  | contains _ | findLessThan _ | findLast =>
      obtain ⟨_, -, rfl⟩ := Option.map_eq_some'.mp stepped
      exact ⟨threaded, le_rfl, (List.append_nil _).symm, fun _ member => nomatch member⟩

/-- **A run** from a good, threaded list returns and ends in a good, threaded list, with
`max_height_` no lower and one node per `Insert`, of the height that call drew. -/
theorem run_bounds {s : SkipList Key} (good : Good cmp s) (threaded : Threaded s) (ops : List (Op Key))
    (valid : ∀ op ∈ ops, op.HeightInRange) :
    ∃ s', s.run cmp ops = some s' ∧ Good cmp s' ∧ Threaded s' ∧ s.maxHeight ≤ s'.maxHeight ∧
      s'.heights = s.heights ++ insertedHeights ops := by
  induction ops generalizing s with
  | nil => exact ⟨s, rfl, good, threaded, le_rfl, (List.append_nil _).symm⟩
  | cons op ops ih =>
      have first := valid op (List.mem_cons_self _ _)
      obtain ⟨s₁, stepped, good₁, -⟩ := step_good good op first
      obtain ⟨threaded₁, higher₁, heights₁, -⟩ := step_bounds good threaded first stepped
      obtain ⟨s₂, ran, good₂, threaded₂, higher₂, heights₂⟩ :=
        ih good₁ threaded₁ fun op member => valid op (List.mem_cons_of_mem _ member)
      refine ⟨s₂, by rw [run, stepped]; exact ran, good₂, threaded₂, higher₁.trans higher₂, ?_⟩
      rw [heights₂, heights₁, List.append_assoc, ← insertedHeights_cons]

variable (cmp) in
/-- Indexing is in bounds in `s`, between calls and in the next one: `max_height_` is in
`[1, kMaxHeight]`; `head_` has `kMaxHeight` forward pointers; a forward pointer at
`level` names a node `NewNode` allocated with a height above `level`; every
`prev_[level]` is `head_` or a node on the level-`level` chain; and every next call
returns without lowering `max_height_`, and touches only slots and keys that are there. -/
structure InBounds (s : SkipList Key) : Prop where
  maxHeightPos : 1 ≤ s.maxHeight
  maxHeightLe : s.maxHeight ≤ kMaxHeight
  headSlots : s.slots .head = kMaxHeight
  targets : ∀ y level i, s.next y level = some i → i < s.nodes.length ∧ level < s.slots (.node i)
  prevLinked : ∀ level < kMaxHeight, s.prev.getD level .head = .head ∨
    ∃ i l, s.prev.getD level .head = .node i ∧ Chain s level (s.next .head level) l ∧ i ∈ l
  calls : ∀ op, op.HeightInRange → ∃ s', s.step cmp op = some s' ∧ s.maxHeight ≤ s'.maxHeight ∧
    (∀ w ∈ s.touches cmp op, s.Allocated w) ∧ ∀ w ∈ s.writes cmp op, s'.Allocated w

/-- A good, threaded list is in bounds. -/
theorem inBounds_of_threaded {s : SkipList Key} (good : Good cmp s) (threaded : Threaded s) : InBounds cmp s where
  maxHeightPos := good.maxHeightPos
  maxHeightLe := good.maxHeightLe
  headSlots := good.headSlots
  targets y level i points := ⟨lt_length_of_slots s (good.targets y level i points), good.targets y level i points⟩
  prevLinked level inside := by
    cases prev : s.prev.getD level .head with
    | head => exact .inl rfl
    | node i =>
        have slot := good.prevSlots level inside
        rw [prev] at slot
        obtain ⟨l, chain, member⟩ := threaded i level slot
        exact .inr ⟨i, l, rfl, chain, member⟩
  calls op valid := by
    obtain ⟨s', stepped, -⟩ := step_good good op valid
    obtain ⟨-, higher, -, written⟩ := step_bounds good threaded valid stepped
    exact ⟨s', stepped, higher, touches_allocated s good op, written⟩

/-- **Skip-list indexing stays in bounds in every reachable state.** For every total
preorder `cmp` and every run of `Insert`, `Contains`, `FindLessThan` and `FindLast` calls
from `SkipList(cmp, arena)` whose heights `RandomHeight()` may return, the run returns;
the `i`-th node has the height the `i`-th `Insert` drew; and the state it ends in is
`InBounds`, so the next call, whichever it is, touches only forward-pointer slots
`NewNode` allocated and keys of nodes, never the placeholder key of `head_`. -/
theorem indexing_stays_in_bounds (cmp : Key → Key → Ordering) [TransCmp cmp] (ops : List (Op Key))
    (valid : ∀ op ∈ ops, op.HeightInRange) :
    ∃ s, (init : SkipList Key).run cmp ops = some s ∧ s.heights = insertedHeights ops ∧ InBounds cmp s := by
  obtain ⟨s, ran, good, threaded, -, heights⟩ := run_bounds (good_init : Good cmp init) threaded_init ops valid
  exact ⟨s, ran, heights, inBounds_of_threaded good threaded⟩

theorem indexing_stays_in_bounds_four_calls :
    (∀ op ∈ ([.insert 5 2, .insert 3 1, .findLessThan 4, .insert 7 3] : List (Op Nat)), op.HeightInRange) ∧
    ∃ s, (init : SkipList Nat).run compare [.insert 5 2, .insert 3 1, .findLessThan 4, .insert 7 3] = some s ∧
      s.heights = insertedHeights [.insert 5 2, .insert 3 1, .findLessThan 4, .insert 7 3] ∧ InBounds compare s :=
  ⟨by decide, indexing_stays_in_bounds compare _ (by decide)⟩

end SkipList

end Rockscopy.SkipList
