/-
# Rockscopy.SkipList.Insert — `Insert` keeps the list good

`Insert(key)` searches with `prev_` (filling it), raises `max_height_` when the
new height is above it, and then `place`s the node: `NewNode`, the linking loop,
and `prev_[0] = x`.

* `good_with`: a `prev_` whose entries have their forward pointers, and a
  `max_height_` in `[1, kMaxHeight]`, keep a list good.
* `Ready`: a good list whose `prev_[0]` is where the descent for `key` stops at
  level 0. The search makes a list ready (`search_ready`), raising `max_height_`
  keeps it ready (`store_ready`). Only `prev_[0]` matters for level 0; the other
  entries only need their forward pointers, which is all the fast path
  guarantees for them.
* `chain_link_zero`: the first turn of the linking loop puts the node on the
  level-0 chain exactly where `insertKey` puts `key`.
* `place_good`: placing a node in a ready list keeps the list good, records `key`
  as the new node's key, and refines `insertKey`.
* `insert_spec`: `Insert` returns, keeps the list good, and refines `insertKey`.
* `run_good`: a run from a good list, with heights in `[1, kMaxHeight]`, returns
  and ends in a good list holding the inserted keys, in order of allocation.
-/
import Rockscopy.SkipList.Search
import Mathlib.Data.List.Nodup

namespace Rockscopy.SkipList

open Batteries

set_option autoImplicit false
set_option linter.dupNamespace false
set_option linter.unusedSectionVars false

namespace SkipList

variable {Key : Type} [Inhabited Key] {cmp : Key → Key → Ordering} [TransCmp cmp]

/-! ## Filling `prev_` and raising `max_height_` -/

theorem good_with {s : SkipList Key} (good : Good cmp s) {p : List Ref} {m : Nat} (length : p.length = kMaxHeight)
    (slotted : ∀ level < kMaxHeight, level < s.slots (p.getD level .head)) (pos : 0 < m) (le : m ≤ kMaxHeight) :
    Good cmp { s with prev := p, maxHeight := m } := by
  obtain ⟨l, chain, every, sorted⟩ := good.level0
  exact ⟨good.headSlots, good.targets, length, slotted, pos, le,
    fun y level => (good.finite y level).imp fun _ chain => chain.congr (fun _ _ => rfl) le_rfl,
    ⟨l, chain.congr (fun _ _ => rfl) le_rfl, every, sorted⟩⟩

theorem getD_raise (p : List Ref) (m k j : Nat) :
    ((List.range' m k).foldl (fun prev i => prev.set i .head) p).getD j .head =
      if m ≤ j ∧ j < m + k then .head else p.getD j .head := by
  induction k generalizing m p with
  | zero => exact (if_neg (by omega)).symm
  | succ k ih =>
      rw [List.range'_succ, List.foldl_cons, ih, getD_set]
      by_cases outside : p.length ≤ j
      · rw [List.getD_eq_default _ _ outside]
        split_ifs <;> rfl
      · split_ifs <;> first | rfl | omega

theorem length_raise (p : List Ref) (m k : Nat) :
    ((List.range' m k).foldl (fun prev i => prev.set i .head) p).length = p.length := by
  induction k generalizing m p with
  | zero => rfl
  | succ k ih => rw [List.range'_succ, List.foldl_cons, ih, List.length_set]

variable (cmp) in
/-- A list ready for placing `key` with `height`: good, with `prev_[0]` where the
descent for `key` stops at level 0, and a height `RandomHeight()` can return. -/
structure Ready (t : SkipList Key) (key : Key) (height : Nat) : Prop where
  good : Good cmp t
  placed : Placed cmp t key 0 (t.prev.getD 0 .head)
  stays : t.keyIsAfterNode cmp key (t.next (t.prev.getD 0 .head) 0) = false
  low : 0 < height
  high : height ≤ kMaxHeight

/-- The search that begins `Insert` returns, and fills `prev_` ready for `key`. -/
theorem search_ready {s : SkipList Key} (good : Good cmp s) (key : Key) {height : Nat} (low : 0 < height)
    (high : height ≤ kMaxHeight) :
    ∃ next p, s.findGreatOrEqual cmp key (some s.prev) s.searchFuel = some (next, some p) ∧
      Ready cmp { s with prev := p } key height := by
  obtain ⟨y, prev, found, placed, stays, -, filled⟩ := findGreatOrEqual_spec good key (some s.prev) le_rfl
    fun _ same => by cases same; exact ⟨good.prevLength, good.prevSlots⟩
  obtain ⟨p, rfl, length, first, slotted⟩ := filled s.prev rfl
  refine ⟨_, p, found, good_with good length slotted good.maxHeightPos good.maxHeightLe, ?_, ?_, low, high⟩
  · show Placed cmp _ key 0 (p.getD 0 .head)
    rw [first]; exact placed
  · show keyIsAfterNode cmp _ key (next _ (p.getD 0 .head) 0) = false
    rw [first]; exact stays

/-- Raising `max_height_` keeps a list ready: the new levels of `prev_` name
`head_`, and `prev_[0]` stays. -/
theorem store_ready {t : SkipList Key} {key : Key} {height : Nat} (ready : Ready cmp t key height) :
    ∃ p m, (if height > t.maxHeight then t.raise height else t) = { t with prev := p, maxHeight := m } ∧
      Ready cmp { t with prev := p, maxHeight := m } key height := by
  split_ifs with higher
  · have first : ((List.range' t.maxHeight (height - t.maxHeight)).foldl (fun prev i => prev.set i .head)
        t.prev).getD 0 .head = t.prev.getD 0 .head := by
      have := ready.good.maxHeightPos
      rw [getD_raise, if_neg (by omega)]
    refine ⟨_, height, rfl, good_with ready.good (by rw [length_raise, ready.good.prevLength])
      (fun level inside => ?_) ready.low ready.high, ?_, ?_, ready.low, ready.high⟩
    · rw [getD_raise]
      split_ifs
      · rw [show t.slots .head = kMaxHeight from ready.good.headSlots]; exact inside
      · exact ready.good.prevSlots level inside
    · show Placed cmp _ key 0 (List.getD _ 0 .head)
      rw [first]; exact ready.placed
    · show keyIsAfterNode cmp _ key (next _ (List.getD _ 0 .head) 0) = false
      rw [first]; exact ready.stays
  · exact ⟨t.prev, t.maxHeight, rfl, ready⟩

/-! ## `NewNode` -/

section NewNode

variable {t : SkipList Key} (good : Good cmp t) (key : Key) (height : Nat)
include good

theorem newNode_unlinked (y : Ref) (level : Nat) : (t.newNode key height).next y level ≠ some t.nodes.length := by
  by_cases new : y = .node t.nodes.length
  · rw [new, next_newNode_self]; exact fun h => nomatch h
  · rw [next_newNode _ _ _ _ _ new]
    intro points
    exact Nat.lt_irrefl _ (lt_length_of_slots t (good.targets _ _ _ points))

theorem newNode_targets (y : Ref) (level j : Nat) (points : (t.newNode key height).next y level = some j) :
    level < (t.newNode key height).slots (.node j) := by
  by_cases new : y = .node t.nodes.length
  · rw [new, next_newNode_self] at points; cases points
  · rw [next_newNode _ _ _ _ _ new] at points
    have slot := good.targets _ _ _ points
    rwa [slots_newNode _ _ _ _ fun same => Nat.lt_irrefl _ (Ref.node.inj same ▸ lt_length_of_slots t slot)]

theorem newNode_chain {y : Ref} {level : Nat} {l : List Nat} (chain : Chain t level (t.next y level) l)
    (old : y ≠ .node t.nodes.length) : Chain (t.newNode key height) level ((t.newNode key height).next y level) l := by
  rw [next_newNode _ _ _ _ _ old]
  refine chain.congr (fun i member => ?_) (by simp)
  exact next_newNode _ _ _ _ _ fun same => Nat.lt_irrefl _ (Ref.node.inj same ▸ chain.lt_length member)

theorem newNode_finite (y : Ref) (level : Nat) :
    ∃ l, Chain (t.newNode key height) level ((t.newNode key height).next y level) l := by
  by_cases new : y = .node t.nodes.length
  · rw [new, next_newNode_self]; exact ⟨[], .nil⟩
  · obtain ⟨l, chain⟩ := good.finite y level
    exact ⟨l, newNode_chain good key height chain new⟩

/-- Every entry of a good `prev_` is an old node or `head_`, with its forward pointer. -/
theorem newNode_prev {level : Nat} (inside : level < kMaxHeight) :
    t.prev.getD level .head ≠ .node t.nodes.length ∧
      level < (t.newNode key height).slots (t.prev.getD level .head) := by
  have slot := good.prevSlots level inside
  have old : t.prev.getD level .head ≠ .node t.nodes.length := fun same =>
    Nat.lt_irrefl _ (lt_length_of_slots t (same ▸ slot))
  exact ⟨old, by rwa [slots_newNode _ _ _ _ old]⟩

end NewNode

/-! ## Placing the node -/

section Place

variable (t : SkipList Key) (key : Key) (height : Nat)

theorem next_place (y : Ref) (level : Nat) :
    (t.place key height).next y level = ((t.newNode key height).linkAll t.nodes.length height).next y level := rfl

@[simp] theorem slots_place (y : Ref) :
    (t.place key height).slots y = (t.newNode key height).slots y :=
  slots_linkAll _ _ _ y

@[simp] theorem keyOf_place (j : Nat) : (t.place key height).keyOf j = (t.newNode key height).keyOf j :=
  keyOf_linkAll _ _ _ j

@[simp] theorem nodes_length_place : (t.place key height).nodes.length = t.nodes.length + 1 := by
  simp [place]

@[simp] theorem head_length_place : (t.place key height).head.length = t.head.length := by
  simp [place, newNode]

@[simp] theorem maxHeight_place : (t.place key height).maxHeight = t.maxHeight := by
  simp [place, newNode]

theorem prev_place : (t.place key height).prev = t.prev.set 0 (.node t.nodes.length) := by
  simp [place, newNode]

theorem chain_place {level : Nat} {o : Option Nat} {l : List Nat}
    (chain : Chain ((t.newNode key height).linkAll t.nodes.length height) level o l) :
    Chain (t.place key height) level o l :=
  chain.congr (fun _ _ => rfl) (by simp [place])

theorem keys_place : (t.place key height).keys = t.keys ++ [key] := by
  simp only [keys, nodes_length_place, List.range_succ, List.map_append, List.map_cons, List.map_nil,
    keyOf_place, keyOf_newNode_self]
  congr 1
  exact List.map_congr_left fun i member => by rw [keyOf_place, keyOf_newNode _ _ _ (List.mem_range.mp member)]

/-- The keys along the level-0 chain once the new node is linked there. -/
theorem map_keyOf_insertion {o : Option Nat} {l : List Nat} (chain : Chain t 0 o l) :
    (l.takeWhile (fun j => Before cmp key (t.keyOf j)) ++ t.nodes.length ::
      l.dropWhile (fun j => Before cmp key (t.keyOf j))).map (t.newNode key height).keyOf =
      insertKey cmp key (l.map t.keyOf) := by
  have oldKeys : ∀ j ∈ l, (t.newNode key height).keyOf j = t.keyOf j := fun j member =>
    keyOf_newNode _ _ _ (chain.lt_length member)
  rw [insertKey, List.takeWhile_map, List.dropWhile_map, List.map_append, List.map_cons, keyOf_newNode_self,
    List.map_congr_left fun j member => oldKeys j ((List.takeWhile_sublist _).subset member),
    List.map_congr_left fun j member => oldKeys j ((List.dropWhile_sublist _).subset member)]
  rfl

variable {t key height}

/-- **The first turn of the linking loop** puts the new node on the level-0 chain
right after `prev_[0]`, which is where `insertKey` puts `key`. -/
theorem chain_link_zero (ready : Ready cmp t key height) {l : List Nat} (chain : Chain t 0 (t.next .head 0) l) :
    Chain ((t.newNode key height).link t.nodes.length 0) 0
      (((t.newNode key height).link t.nodes.length 0).next .head 0)
      (l.takeWhile (fun j => Before cmp key (t.keyOf j)) ++ t.nodes.length ::
        l.dropWhile (fun j => Before cmp key (t.keyOf j))) := by
  obtain ⟨l0, chain0, every, sorted⟩ := ready.good.level0
  obtain rfl := chain0.unique chain
  have slotNew : 0 < (t.newNode key height).slots (.node t.nodes.length) := by
    rw [slots_newNode_self]; exact ready.low
  obtain ⟨old, slotPrev⟩ := newNode_prev ready.good key height (show 0 < kMaxHeight by decide)
  have chainU := newNode_chain ready.good key height chain0 (fun same => nomatch same)
  have headChain := chain_link_head _ _ 0 slotNew slotPrev old chainU
    (chainU.not_mem (newNode_unlinked ready.good key height · 0) (newNode_unlinked ready.good key height _ _))
  rcases (stop_split chain0 every sorted ready.placed ready.stays).2 with
    ⟨first, take, drop⟩ | ⟨q, pre, post, first, rfl, take, drop⟩
  · have first' : (t.newNode key height).prev.getD 0 .head = .head := first
    rw [first', if_pos rfl] at headChain
    rwa [take, drop]
  · have first' : (t.newNode key height).prev.getD 0 .head = .node q := first
    rw [first', if_neg (fun h => nomatch h)] at headChain
    have apart := (List.nodup_cons.mp (List.nodup_middle.mp chain0.nodup)).1
    rw [linkAfter_split q _ (fun early => apart (List.mem_append_left _ early))
      (fun late => apart (List.mem_append_right _ late))] at headChain
    rwa [take, drop, List.append_assoc, List.singleton_append]

/-- **Placing a node** in a ready list keeps the list good and puts the node on
the level-0 chain where `insertKey` puts `key`. -/
theorem place_good (ready : Ready cmp t key height) :
    Good cmp (t.place key height) ∧ (t.place key height).keys = t.keys ++ [key] ∧
      ∀ l, Chain t 0 (t.next .head 0) l → ∃ l', Chain (t.place key height) 0 ((t.place key height).next .head 0) l' ∧
        l'.map (t.place key height).keyOf = insertKey cmp key (l.map t.keyOf) := by
  have good := ready.good
  set n := t.nodes.length
  set u := t.newNode key height
  have slotNew : ∀ level < height, level < u.slots (.node n) := fun level below => by
    rwa [slots_newNode_self]
  have prevOk : ∀ level < height, u.prev.getD level .head ≠ .node n ∧ level < u.slots (u.prev.getD level .head) :=
    fun level below => newNode_prev good key height (by have := ready.high; omega)
  obtain ⟨l0, chain0, every, sorted⟩ := good.level0
  have placedChain : Chain (t.place key height) 0 ((t.place key height).next .head 0)
      (l0.takeWhile (fun j => Before cmp key (t.keyOf j)) ++ n :: l0.dropWhile (fun j => Before cmp key (t.keyOf j))) := by
    rw [next_place, next_linkAll, if_pos ready.low]
    exact chain_place t key height (chain_linkAll u n ready.low (chain_link_zero ready chain0))
  have mapped : (l0.takeWhile (fun j => Before cmp key (t.keyOf j)) ++ n ::
      l0.dropWhile (fun j => Before cmp key (t.keyOf j))).map (t.place key height).keyOf =
      insertKey cmp key (l0.map t.keyOf) := by
    rw [show (t.place key height).keyOf = u.keyOf from funext (keyOf_place t key height)]
    exact map_keyOf_insertion t key height chain0
  refine ⟨⟨?headSlots, ?targets, ?prevLength, ?prevSlots, ?pos, ?le, ?finite, ?level0⟩,
    keys_place t key height, fun l chain => ?refines⟩
  case headSlots => simp [newNode, good.headSlots]
  case pos => simpa using good.maxHeightPos
  case le => simpa using good.maxHeightLe
  case targets =>
      intro y level j points
      rw [next_place, next_linkAll] at points
      rw [slots_place]
      split_ifs at points with below
      · simpa using targets_link u n level (slotNew level below) (newNode_targets good key height) y level j points
      · exact newNode_targets good key height y level j points
  case prevLength => simp [prev_place, good.prevLength]
  case prevSlots =>
      intro level inside
      rw [prev_place, getD_set, slots_place]
      split_ifs with first
      · rw [← first.1, slots_newNode_self]; exact ready.low
      · exact (newNode_prev good key height inside).2
  case finite =>
      intro y level
      rw [next_place, next_linkAll]
      split_ifs with below
      · obtain ⟨l, chain⟩ := finite_link u n level (slotNew level below) (prevOk level below).2
          (prevOk level below).1 (newNode_finite good key height · level) (newNode_unlinked good key height · level) y
        exact ⟨l, chain_place t key height (chain_linkAll u n below chain)⟩
      · obtain ⟨l, chain⟩ := newNode_finite good key height y level
        exact ⟨l, chain_place t key height (chain_linkAll_above u n (by omega) chain)⟩
  case level0 =>
      refine ⟨_, placedChain, ?_, ?_⟩
      · rw [nodes_length_place, List.range_succ]
        refine List.perm_middle.trans ?_
        rw [List.takeWhile_append_dropWhile]
        exact (every.cons n).trans (List.perm_append_singleton _ _).symm
      · rw [mapped]; exact sorted_insertKey sorted
  case refines =>
      obtain rfl := chain0.unique chain
      exact ⟨_, placedChain, mapped⟩

end Place

/-! ## `Insert` -/

/-- **`Insert`** returns, keeps the list good, records `key` as the new node's key,
and puts the node on the level-0 chain where `insertKey` puts `key`. -/
theorem insert_spec {s : SkipList Key} (good : Good cmp s) (key : Key) {height : Nat} (low : 0 < height)
    (high : height ≤ kMaxHeight) :
    ∃ s', s.insert cmp key height = some s' ∧ Good cmp s' ∧ s'.keys = s.keys ++ [key] ∧
      ∀ l, Chain s 0 (s.next .head 0) l → ∃ l', Chain s' 0 (s'.next .head 0) l' ∧
        l'.map s'.keyOf = insertKey cmp key (l.map s.keyOf) := by
  obtain ⟨next, p, found, ready⟩ := search_ready good key low high
  obtain ⟨q, m, raised, stored⟩ := store_ready ready
  obtain ⟨goodPlaced, keys, refines⟩ := place_good stored
  refine ⟨_, ?_, goodPlaced, keys, fun l chain => refines l (chain.congr (fun _ _ => rfl) le_rfl)⟩
  rw [insert, found]
  show some ((if height > ({ s with prev := p } : SkipList Key).maxHeight then
    ({ s with prev := p } : SkipList Key).raise height else { s with prev := p }).place key height) = _
  rw [raised]

/-! ## Runs -/

theorem next_init (y : Ref) (level : Nat) : (init : SkipList Key).next y level = none := by
  cases y with
  | head => exact getD_replicate _ _ _
  | node i => rfl

/-- A freshly constructed list is good. -/
theorem good_init : Good cmp (init : SkipList Key) where
  headSlots := List.length_replicate _ _
  targets y level i points := by rw [next_init] at points; cases points
  prevLength := List.length_replicate _ _
  prevSlots level inside := by
    show level < init.slots ((List.replicate kMaxHeight Ref.head).getD level .head)
    rw [getD_replicate]; exact inside
  maxHeightPos := Nat.one_pos
  maxHeightLe := show 1 ≤ kMaxHeight by decide
  finite y level := ⟨[], by rw [next_init]; exact .nil⟩
  level0 := ⟨[], by rw [next_init]; exact .nil, List.Perm.refl _, List.Pairwise.nil⟩

/-- **One call** from a good list returns and keeps it good; an insert adds its
key, and moves the level-0 chain's keys as `insertKey` does. -/
theorem step_good {s : SkipList Key} (good : Good cmp s) (op : Op Key) (valid : op.HeightInRange) :
    ∃ s', s.step cmp op = some s' ∧ Good cmp s' ∧ s'.keys = s.keys ++ insertedKeys [op] ∧
      ∀ l, Chain s 0 (s.next .head 0) l → ∃ l', Chain s' 0 (s'.next .head 0) l' ∧
        l'.map s'.keyOf = insertKeys cmp (insertedKeys [op]) (l.map s.keyOf) := by
  obtain ⟨l, chain, -⟩ := good.level0
  have query : ∀ {b : Type} (answer : Option b) (found : answer.isSome), ∃ s', answer.map (fun _ => s) = some s' ∧
      Good cmp s' ∧ s'.keys = s.keys ++ [] ∧ ∀ l, Chain s 0 (s.next .head 0) l → ∃ l', Chain s' 0 (s'.next .head 0) l' ∧
        l'.map s'.keyOf = insertKeys cmp [] (l.map s.keyOf) := fun answer found => by
    obtain ⟨a, rfl⟩ := Option.isSome_iff_exists.mp found
    exact ⟨s, rfl, good, (List.append_nil _).symm, fun l chain => ⟨l, chain, rfl⟩⟩
  cases op with
  | insert key height => exact insert_spec good key valid.1 valid.2
  | contains key => exact query _ (by rw [contains_spec good key]; rfl)
  | findLessThan key => exact query _ (by rw [findLessThan_last good chain key le_rfl]; rfl)
  | findLast => exact query _ (by rw [findLast_last good chain le_rfl]; rfl)

/-- **A run** from a good list, with every height in `[1, kMaxHeight]`, returns
and ends in a good list that holds the inserted keys in order of allocation, and
whose level-0 chain's keys are what `insertKeys` makes of the ones before. -/
theorem run_good {s : SkipList Key} (good : Good cmp s) (ops : List (Op Key))
    (valid : ∀ op ∈ ops, op.HeightInRange) :
    ∃ s', s.run cmp ops = some s' ∧ Good cmp s' ∧ s'.keys = s.keys ++ insertedKeys ops ∧
      ∀ l, Chain s 0 (s.next .head 0) l → ∃ l', Chain s' 0 (s'.next .head 0) l' ∧
        l'.map s'.keyOf = insertKeys cmp (insertedKeys ops) (l.map s.keyOf) := by
  induction ops generalizing s with
  | nil => exact ⟨s, rfl, good, (List.append_nil _).symm, fun l chain => ⟨l, chain, rfl⟩⟩
  | cons op ops ih =>
      obtain ⟨s₁, stepped, good₁, keys₁, refines₁⟩ := step_good good op (valid op (List.mem_cons_self _ _))
      obtain ⟨s₂, ran, good₂, keys₂, refines₂⟩ := ih good₁ fun op member => valid op (List.mem_cons_of_mem _ member)
      refine ⟨s₂, by rw [run, stepped]; exact ran, good₂, by rw [keys₂, keys₁, List.append_assoc, ← insertedKeys_cons],
        fun l chain => ?_⟩
      obtain ⟨l₁, chain₁, mapped₁⟩ := refines₁ l chain
      obtain ⟨l₂, chain₂, mapped₂⟩ := refines₂ l₁ chain₁
      refine ⟨l₂, chain₂, ?_⟩
      rw [mapped₂, mapped₁, insertedKeys_cons op ops, insertKeys, insertKeys, insertKeys, List.foldl_append]

end SkipList

end Rockscopy.SkipList
