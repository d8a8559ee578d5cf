/-
# Rockscopy.SkipList.Search — the descents find what they should, in every good state

`descend_level` follows one level: from `x`, whose chain at that level is `l`,
the loop moves right at most `l.length` times and stops at a node after which
it would not move. `descend_spec` stacks the levels: from any node satisfying a
predicate `P` that moving right and going down keep, the loop returns within
`(level + 1) * (nodes + 1)` turns, at level 0, at a node satisfying `P 0`, with
`prev` recording a node satisfying `P j` at every level `j` it passed.

For the three descents, `P` says the node has a forward pointer at the level and
is `head_` or before the key (`Placed`). On a good list that puts the stop on the
level-0 chain exactly at the split of the sorted keys (`stop_split`), whatever
the higher levels look like: the descent only ever moves to nodes before the
key. Hence, with `searchFuel`, in every good state,

* `findGreatOrEqual_spec`: `FindGreatOrEqual` returns the first node not before
  the key, with or without `prev`, by the fast path or the descent;
* `findLessThan_spec`: `FindLessThan` returns the last node before the key, and
  its assertion holds on every turn;
* `findLast_spec`: `FindLast` returns the last node;
* `contains_spec`: `Contains(k)` says whether some node's key compares equal to `k`.
-/
import Rockscopy.SkipList.Chain

namespace Rockscopy.SkipList

open Batteries

set_option autoImplicit false
set_option linter.dupNamespace false
set_option linter.unusedSectionVars false

/-- The node for the last entry of a list of nodes: `head_` for none. -/
def Ref.ofLast : Option Nat → Ref
  | some i => .node i
  | none => .head

namespace SkipList

variable {Key : Type} [Inhabited Key]

/-! ## One turn, one level, all levels -/

section Descend

variable (s : SkipList Key) (check : Ref → Bool) (advance : Option Nat → Bool)

theorem descend_move (fuel : Nat) (x : Ref) (level : Nat) (prev : Option (List Ref)) {n : Nat}
    (checked : check x = true) (next : s.next x level = some n) (go : advance (some n) = true) :
    s.descend check advance (fuel + 1) x level prev = s.descend check advance fuel (.node n) level prev := by
  simp [descend, checked, next, go]

theorem descend_stop (fuel : Nat) (x : Ref) (level : Nat) (prev : Option (List Ref))
    (checked : check x = true) (stays : advance (s.next x level) = false) :
    s.descend check advance (fuel + 1) x level prev =
      if level = 0 then some (x, s.next x level, prev.map (·.set level x))
      else s.descend check advance fuel x (level - 1) (prev.map (·.set level x)) := by
  simp only [descend, checked, if_true]
  split
  · simp_all
  · rfl

/-- `p'` is `p` with its entries at levels `0 .. level` replaced by nodes that
satisfy `P` at their level, the one at level 0 being `y`. -/
def Recorded (P : Nat → Ref → Prop) (level : Nat) (y : Ref) (p p' : List Ref) : Prop :=
  p'.length = p.length ∧ (∀ j < p.length, j ≤ level → P j (p'.getD j .head)) ∧
    (∀ j, level < j → p'.getD j .head = p.getD j .head) ∧ (0 < p.length → p'.getD 0 .head = y)

theorem recorded_zero {P : Nat → Ref → Prop} {y : Ref} (p : List Ref) (py : P 0 y) :
    Recorded P 0 y p (p.set 0 y) := by
  refine ⟨List.length_set _ _ _, fun j inside low => ?_, fun j high => ?_, fun inside => ?_⟩
  · obtain rfl : j = 0 := by omega
    rwa [getD_set, if_pos ⟨rfl, inside⟩]
  · rw [getD_set, if_neg fun h => by omega]
  · rw [getD_set, if_pos ⟨rfl, inside⟩]

theorem recorded_set {P : Nat → Ref → Prop} {level : Nat} {y top : Ref} {p p' : List Ref}
    (ptop : P (level + 1) top) (below : Recorded P level y (p.set (level + 1) top) p') :
    Recorded P (level + 1) y p p' := by
  obtain ⟨length, recorded, above, first⟩ := below
  rw [List.length_set] at length recorded first
  refine ⟨length, fun j inside low => ?_, fun j high => ?_, first⟩
  · by_cases top' : j = level + 1
    · subst top'
      rwa [above _ (Nat.lt_succ_self _), getD_set, if_pos ⟨rfl, inside⟩]
    · exact recorded j inside (by omega)
  · rw [above j (by omega), getD_set, if_neg fun h => by omega]

/-- **One level.** From `x`, whose chain at `level` is `l`, the loop moves right
over at most `l.length` nodes and stops at `y`, after which it would not move. -/
theorem descend_level (P : Nat → Ref → Prop) (noNull : advance none = false)
    (moves : ∀ level y i, P level y → s.next y level = some i → advance (some i) = true → P level (.node i))
    (checks : ∀ level y, P level y → check y = true)
    {level : Nat} {x : Ref} {l : List Nat} (chain : Chain s level (s.next x level) l) (px : P level x)
    (fuel : Nat) (prev : Option (List Ref)) :
    ∃ y extra, P level y ∧ advance (s.next y level) = false ∧
      s.descend check advance (fuel + l.length + 1) x level prev =
        if level = 0 then some (y, s.next y level, prev.map (·.set level y))
        else s.descend check advance (fuel + extra) y (level - 1) (prev.map (·.set level y)) := by
  generalize start : s.next x level = o at chain
  induction chain generalizing x with
  | nil =>
      have stays : advance (s.next x level) = false := by rw [start]; exact noNull
      exact ⟨x, 0, px, stays, descend_stop s check advance _ x level prev (checks _ _ px) stays⟩
  | @cons i l _ _ ih =>
      by_cases go : advance (some i) = true
      · obtain ⟨y, extra, py, stays, result⟩ := ih (moves _ _ _ px start go) rfl
        refine ⟨y, extra, py, stays, ?_⟩
        rw [List.length_cons, show fuel + (l.length + 1) + 1 = fuel + l.length + 1 + 1 by omega,
          descend_move s check advance _ x level prev (checks _ _ px) start go, result]
      · have stays : advance (s.next x level) = false := by rw [start]; simpa using go
        refine ⟨x, l.length + 1, px, stays, ?_⟩
        rw [List.length_cons, show fuel + (l.length + 1) + 1 = fuel + (l.length + 1) + 1 by omega,
          descend_stop s check advance _ x level prev (checks _ _ px) stays]

/-- **All levels.** From a node satisfying `P level`, with one turn per node and
level and one more per level, the loop returns at level 0. -/
theorem descend_spec (P : Nat → Ref → Prop) (noNull : advance none = false)
    (moves : ∀ level y i, P level y → s.next y level = some i → advance (some i) = true → P level (.node i))
    (checks : ∀ level y, P level y → check y = true) (down : ∀ level y, P (level + 1) y → P level y)
    (finite : ∀ y level, ∃ l, Chain s level (s.next y level) l) :
    ∀ level x fuel prev, P level x → (level + 1) * (s.nodes.length + 1) ≤ fuel →
      ∃ y prev', P 0 y ∧ advance (s.next y 0) = false ∧
        s.descend check advance fuel x level prev = some (y, s.next y 0, prev') ∧
        (prev = none → prev' = none) ∧ ∀ p, prev = some p → ∃ p', prev' = some p' ∧ Recorded P level y p p' := by
  intro level
  induction level with
  | zero =>
      intro x fuel prev px enough
      obtain ⟨l, chain⟩ := finite x 0
      have short := chain.length_le
      obtain ⟨y, _, py, stays, result⟩ := descend_level s check advance P noNull moves checks chain px (fuel - l.length - 1) prev
      rw [show fuel - l.length - 1 + l.length + 1 = fuel by omega, if_pos rfl] at result
      refine ⟨y, _, py, stays, result, fun none' => by rw [none']; rfl, fun p some' => ?_⟩
      exact ⟨p.set 0 y, by rw [some']; rfl, recorded_zero p py⟩
  | succ level ih =>
      intro x fuel prev px enough
      obtain ⟨l, chain⟩ := finite x (level + 1)
      have short := chain.length_le
      obtain ⟨top, extra, ptop, -, result⟩ :=
        descend_level s check advance P noNull moves checks chain px (fuel - l.length - 1) prev
      rw [show fuel - l.length - 1 + l.length + 1 = fuel by rw [Nat.succ_mul] at enough; omega,
        if_neg (Nat.succ_ne_zero _), Nat.add_sub_cancel] at result
      obtain ⟨y, prev', py, stays, rest, keepsNone, keepsSome⟩ :=
        ih top (fuel - l.length - 1 + extra) _ (down _ _ ptop) (by rw [Nat.succ_mul] at enough; omega)
      refine ⟨y, prev', py, stays, result.trans rest, fun none' => keepsNone (by rw [none']; rfl),
        fun p some' => ?_⟩
      obtain ⟨p', found, recorded⟩ := keepsSome (p.set (level + 1) top) (by rw [some']; rfl)
      exact ⟨p', found, recorded_set ptop recorded⟩

end Descend

/-! ## Where the descents stop -/

section Lookups

variable (cmp : Key → Key → Ordering) [TransCmp cmp]

/-- Where a descent for `key` may be at `level`: at a node with a forward pointer
at `level` that is `head_` or before `key`. -/
def Placed (s : SkipList Key) (key : Key) (level : Nat) (y : Ref) : Prop :=
  level < s.slots y ∧ s.headOrBefore cmp key y = true

variable {cmp} {s : SkipList Key}

theorem keyIsAfterNode_eq_false (key : Key) (o : Option Nat) :
    s.keyIsAfterNode cmp key o = false ↔ ∀ j ∈ o, cmp (s.keyOf j) key ≠ .lt := by
  cases o <;> simp [keyIsAfterNode]

/-- The descents start at `head_` on the top level. -/
theorem placed_start (good : Good cmp s) (key : Key) : Placed cmp s key (s.maxHeight - 1) .head := by
  refine ⟨?_, rfl⟩
  simp only [slots, good.headSlots]
  have := good.maxHeightLe
  have := good.maxHeightPos
  omega

/-- A stop of a descent for `key` at level 0, at a node on a sorted level-0 chain
`l` (or at `head_`) that is before `key` and whose successor is not, is the split of
`l` at `key`: at `head_` when no node is before `key`, and otherwise at the last node
before `key`. The stop's successor is the first node not before `key`. -/
theorem stop_split_of_mem {l : List Nat} (chain : Chain s 0 (s.next .head 0) l) (sorted : Sorted cmp (l.map s.keyOf))
    {key : Key} {y : Ref} (onChain : ∀ q, y = .node q → q ∈ l) (before : s.headOrBefore cmp key y = true)
    (stays : s.keyIsAfterNode cmp key (s.next y 0) = false) :
    s.next y 0 = (l.dropWhile fun j => Before cmp key (s.keyOf j)).head? ∧
      ((y = .head ∧ l.takeWhile (fun j => Before cmp key (s.keyOf j)) = [] ∧
          l.dropWhile (fun j => Before cmp key (s.keyOf j)) = l) ∨
        ∃ q pre post, y = .node q ∧ l = pre ++ q :: post ∧
          l.takeWhile (fun j => Before cmp key (s.keyOf j)) = pre ++ [q] ∧
          l.dropWhile (fun j => Before cmp key (s.keyOf j)) = post) := by
  rw [keyIsAfterNode_eq_false] at stays
  cases y with
  | head =>
      rw [chain.start] at stays
      obtain ⟨take, drop⟩ := split_at_front s.keyOf key stays
      exact ⟨by rw [drop]; exact chain.start, .inl ⟨rfl, take, drop⟩⟩
  | node q =>
      obtain ⟨pre, post, rfl⟩ := List.append_of_mem (onChain q rfl)
      have tail := chain.suffix
      rw [tail.start] at stays
      have less : cmp (s.keyOf q) key = .lt := by simpa [headOrBefore] using before
      obtain ⟨take, drop⟩ := split_after s.keyOf key sorted less stays
      exact ⟨by rw [drop]; exact tail.start, .inr ⟨q, pre, post, rfl, rfl, take, drop⟩⟩

/-- On a good list, where every node is on the level-0 chain, a stop of the descent
for `key` at level 0 is the split of that chain at `key`. -/
theorem stop_split {l : List Nat} (chain : Chain s 0 (s.next .head 0) l)
    (every : l.Perm (List.range s.nodes.length)) (sorted : Sorted cmp (l.map s.keyOf)) {key : Key} {y : Ref}
    (placed : Placed cmp s key 0 y) (stays : s.keyIsAfterNode cmp key (s.next y 0) = false) :
    s.next y 0 = (l.dropWhile fun j => Before cmp key (s.keyOf j)).head? ∧
      ((y = .head ∧ l.takeWhile (fun j => Before cmp key (s.keyOf j)) = [] ∧
          l.dropWhile (fun j => Before cmp key (s.keyOf j)) = l) ∨
        ∃ q pre post, y = .node q ∧ l = pre ++ q :: post ∧
          l.takeWhile (fun j => Before cmp key (s.keyOf j)) = pre ++ [q] ∧
          l.dropWhile (fun j => Before cmp key (s.keyOf j)) = post) :=
  stop_split_of_mem chain sorted
    (fun _ same => every.mem_iff.mpr (List.mem_range.mpr (lt_length_of_slots s (same ▸ placed.1)))) placed.2 stays

theorem fastPath_eq_some {key : Key} {prev : Option (List Ref)} {next : Option Nat}
    (fast : s.fastPath cmp key prev = some next) :
    ∃ p, prev = some p ∧ next = s.next (p.getD 0 .head) 0 ∧
      s.keyIsAfterNode cmp key (s.next (p.getD 0 .head) 0) = false ∧
      s.headOrBefore cmp key (p.getD 0 .head) = true := by
  cases prev with
  | none => cases fast
  | some p =>
      simp only [fastPath] at fast
      split_ifs at fast with stays before
      cases fast
      exact ⟨p, rfl, rfl, by simpa using stays, before⟩

/-- **`FindGreatOrEqual`.** With `prev` null or a full `prev_` whose entries have
their forward pointers, by the fast path or the descent it stops at a node placed
for `key` at level 0, after which it would not move, and returns that node's
successor; it leaves every entry of `prev` with its forward pointer, and the stop
in `prev[0]`. -/
theorem findGreatOrEqual_spec (good : Good cmp s) (key : Key) (prev : Option (List Ref)) {fuel : Nat}
    (enough : s.searchFuel ≤ fuel)
    (prevSlots : ∀ p, prev = some p → p.length = kMaxHeight ∧ ∀ level < kMaxHeight, level < s.slots (p.getD level .head)) :
    ∃ y prev', s.findGreatOrEqual cmp key prev fuel = some (s.next y 0, prev') ∧ Placed cmp s key 0 y ∧
      s.keyIsAfterNode cmp key (s.next y 0) = false ∧ (prev = none → prev' = none) ∧
      ∀ p, prev = some p → ∃ p', prev' = some p' ∧ p'.length = kMaxHeight ∧ p'.getD 0 .head = y ∧
        ∀ level < kMaxHeight, level < s.slots (p'.getD level .head) := by
  unfold findGreatOrEqual
  cases fast : s.fastPath cmp key prev with
  | some next =>
      obtain ⟨p, rfl, rfl, stays, before⟩ := fastPath_eq_some fast
      obtain ⟨length, slotted⟩ := prevSlots p rfl
      refine ⟨p.getD 0 .head, some p, rfl, ⟨slotted 0 (by decide), before⟩, stays, fun none' => (nomatch none'),
        fun p' same => ?_⟩
      cases same
      exact ⟨p, rfl, length, rfl, slotted⟩
  | none =>
      obtain ⟨y, prev', placed, stays, result, keepsNone, keepsSome⟩ :=
        descend_spec s (fun _ => true) (s.keyIsAfterNode cmp key) (Placed cmp s key) rfl
          (fun level y i _ next go => ⟨good.targets y level i next, go⟩) (fun _ _ _ => rfl)
          (fun level y placed => ⟨Nat.lt_of_succ_lt placed.1, placed.2⟩) good.finite
          (s.maxHeight - 1) .head fuel prev (placed_start good key)
          (by rw [Nat.sub_add_cancel good.maxHeightPos]; exact enough)
      refine ⟨y, prev', by rw [result]; rfl, placed, stays, keepsNone, fun p same => ?_⟩
      obtain ⟨length, slotted⟩ := prevSlots p same
      obtain ⟨p', found, newLength, recorded, above, first⟩ := keepsSome p same
      refine ⟨p', found, newLength.trans length, first (by rw [length]; decide), fun level inside => ?_⟩
      by_cases low : level ≤ s.maxHeight - 1
      · exact (recorded level (by rw [length]; exact inside) low).1
      · rw [above level (by omega)]
        exact slotted level inside

/-- **`FindGreatOrEqual(key, nullptr)`** returns the first node of the level-0
chain that is not before `key`. -/
theorem findGreatOrEqual_first (good : Good cmp s) {l : List Nat} (chain : Chain s 0 (s.next .head 0) l)
    (key : Key) {fuel : Nat} (enough : s.searchFuel ≤ fuel) :
    s.findGreatOrEqual cmp key none fuel = some (l.find? (fun j => !Before cmp key (s.keyOf j)), none) := by
  obtain ⟨l0, chain0, every, sorted⟩ := good.level0
  obtain rfl := chain0.unique chain
  obtain ⟨y, prev', result, placed, stays, keepsNone, -⟩ :=
    findGreatOrEqual_spec good key none enough fun _ none' => nomatch none'
  rw [result, keepsNone rfl, (stop_split chain0 every sorted placed stays).1, find?_not_before]

/-- **`FindLessThan(key)`** returns the last node of the level-0 chain before
`key`, or `head_`; its assertion holds on every turn. -/
theorem findLessThan_last (good : Good cmp s) {l : List Nat} (chain : Chain s 0 (s.next .head 0) l)
    (key : Key) {fuel : Nat} (enough : s.searchFuel ≤ fuel) :
    s.findLessThan cmp key fuel = some (Ref.ofLast (l.filter fun j => Before cmp key (s.keyOf j)).getLast?) := by
  obtain ⟨l0, chain0, every, sorted⟩ := good.level0
  obtain rfl := chain0.unique chain
  obtain ⟨y, _, placed, stays, result, -, -⟩ :=
    descend_spec s (s.headOrBefore cmp key) (s.keyIsAfterNode cmp key) (Placed cmp s key) rfl
      (fun level y i _ next go => ⟨good.targets y level i next, go⟩) (fun _ _ placed => placed.2)
      (fun level y placed => ⟨Nat.lt_of_succ_lt placed.1, placed.2⟩) good.finite
      (s.maxHeight - 1) .head fuel none (placed_start good key)
      (by rw [Nat.sub_add_cancel good.maxHeightPos]; exact enough)
  rw [findLessThan, result, filter_before s.keyOf key sorted]
  rcases (stop_split chain0 every sorted placed stays).2 with ⟨rfl, take, -⟩ | ⟨q, pre, post, rfl, -, take, -⟩
  · rw [take]; rfl
  · rw [take, List.getLast?_concat]; rfl

/-- **`FindLast()`** returns the last node of the level-0 chain, or `head_`. -/
theorem findLast_last (good : Good cmp s) {l : List Nat} (chain : Chain s 0 (s.next .head 0) l)
    {fuel : Nat} (enough : s.searchFuel ≤ fuel) : s.findLast fuel = some (Ref.ofLast l.getLast?) := by
  obtain ⟨l0, chain0, every, -⟩ := good.level0
  obtain rfl := chain0.unique chain
  obtain ⟨y, _, slot, stays, result, -, -⟩ :=
    descend_spec s (fun _ => true) Option.isSome (fun level y => level < s.slots y) rfl
      (fun level y i _ next _ => good.targets y level i next) (fun _ _ _ => rfl)
      (fun _ _ slot => Nat.lt_of_succ_lt slot) good.finite (s.maxHeight - 1) .head fuel none
      (placed_start good default).1 (by rw [Nat.sub_add_cancel good.maxHeightPos]; exact enough)
  rw [findLast, result]
  have last : s.next y 0 = none := by simpa using stays
  cases y with
  | head =>
      rw [last] at chain0
      cases chain0
      rfl
  | node q =>
      obtain ⟨pre, post, rfl⟩ :=
        List.append_of_mem (every.mem_iff.mpr (List.mem_range.mpr (lt_length_of_slots s slot)))
      have tail := chain0.suffix
      rw [last] at tail
      cases tail
      rw [List.getLast?_concat]
      rfl

/-- **`Contains(key)`** is true exactly when some node's key compares equal to `key`. -/
theorem contains_spec (good : Good cmp s) (key : Key) :
    s.contains cmp key = some (s.keys.any fun k => cmp key k == .eq) := by
  obtain ⟨l, chain, every, sorted⟩ := good.level0
  have same : l.any (fun i => cmp key (s.keyOf i) == .eq) = s.keys.any fun k => cmp key k == .eq := by
    rw [keys, Bool.eq_iff_iff, List.any_eq_true, List.any_eq_true]
    constructor
    · rintro ⟨i, member, holds⟩
      exact ⟨s.keyOf i, List.mem_map_of_mem _ (every.mem_iff.mp member), holds⟩
    · rintro ⟨k, member, holds⟩
      obtain ⟨i, inside, rfl⟩ := List.mem_map.mp member
      exact ⟨i, every.mem_iff.mpr inside, holds⟩
  have answer := any_dropWhile s.keyOf key sorted
  rw [← find?_not_before, same] at answer
  rw [contains, findGreatOrEqual_first good chain key (Nat.le_refl _), ← answer]
  cases l.find? (fun j => !Before cmp key (s.keyOf j)) <;> rfl

end Lookups

end SkipList

end Rockscopy.SkipList
