/-
# Rockscopy.SkipList.Levels — what every level holds, and the fast path's answer

The fast path of `FindGreatOrEqual` keeps `prev_[1 ..]` stale, so the chains
above level 0 can be out of order (`level1_chain_unsorted_after_fast_path`).
This module shows what survives in every reachable state.

* `levels_hold_tall_nodes`: the chain from `head_` at every level visits, once
  each, exactly the nodes allocated with a height above that level. A node is
  never missing from a level it has a slot on, and never on a level it has no
  slot on. Only the order of the higher levels is lost.
* `fastPath_agrees_with_descent`: whatever `prev` array it is given, as long
  as its entries have their forward pointers, `FindGreatOrEqual(key, prev)`
  returns the node `FindGreatOrEqual(key, nullptr)` returns. The fast path only
  ever answers from `prev[0]`, and the level-0 chain is sorted and complete.

`Insert` does not assert that its key is new, so the list can hold several
nodes whose keys compare equal.

* `insert_level0`: `Insert` links the new node on level 0 right before the
  first node whose key is not less than its own, so before every node with an
  equal key.
* `equal_keys_newest_first`: after any run, of two nodes on the level-0 chain
  whose keys compare equal the earlier is the newer; so `FindGreatOrEqual`
  returns the most recently inserted of the nodes equal to its key.
* `ascending_inserts_take_fast_path`: after a run of inserts in increasing key
  order, `prev_[0]` is the last node of level 0, so the next insert of a larger
  key is served by the fast path of `FindGreatOrEqual`, with no descent.
* `maxHeight_is_tallest`: `max_height_` is the largest height drawn, or 1, and
  no forward pointer at or above it is set: the searches, which start at
  `max_height_ - 1`, skip only empty levels.
-/
import Rockscopy.SkipList.Bounds

namespace Rockscopy.SkipList

open Batteries

set_option autoImplicit false
set_option linter.dupNamespace false
set_option linter.unusedSectionVars false

namespace SkipList

variable {Key : Type} [Inhabited Key]

/-- Every node a chain at `level` visits after its first is named by a forward pointer at
`level`, so it has a slot there when its first does. -/
theorem Chain.slots_of_mem {s : SkipList Key} {level : Nat} {o : Option Nat} {l : List Nat}
    (chain : Chain s level o l) (targets : ∀ y level i, s.next y level = some i → level < s.slots (.node i))
    (first : ∀ i, o = some i → level < s.slots (.node i)) {i : Nat} (member : i ∈ l) :
    level < s.slots (.node i) := by
  induction chain with
  | nil => cases member
  | cons _ _ ih =>
      rcases List.mem_cons.mp member with rfl | later
      · exact first _ rfl
      · exact ih (fun j points => targets _ _ j points) later

theorem getD_heights (s : SkipList Key) {i : Nat} (inside : i < s.nodes.length) :
    s.heights.getD i 0 = s.slots (.node i) := by
  rw [heights, List.getD_eq_getElem _ _ (by simpa using inside), List.getElem_map, List.getElem_range]

/-- **Every level holds exactly the nodes tall enough for it.** After any run from a fresh
list, with any total preorder and any heights `RandomHeight()` may return, the chain from
`head_` at every level visits, once each, exactly the nodes whose insert drew a height above
that level. -/
theorem levels_hold_tall_nodes (cmp : Key → Key → Ordering) [TransCmp cmp] (ops : List (Op Key))
    (valid : ∀ op ∈ ops, op.HeightInRange) :
    ∃ s, (init : SkipList Key).run cmp ops = some s ∧ ∀ level, ∃ l, Chain s level (s.next .head level) l ∧
      l.Nodup ∧ ∀ i, i ∈ l ↔ i < (insertedHeights ops).length ∧ level < (insertedHeights ops).getD i 0 := by
  obtain ⟨s, ran, good, threaded, -, heights⟩ := run_bounds (good_init : Good cmp init) threaded_init ops valid
  replace heights : s.heights = insertedHeights ops := heights
  have count : s.nodes.length = (insertedHeights ops).length := by
    rw [← heights]; simp [SkipList.heights]
  refine ⟨s, ran, fun level => ?_⟩
  obtain ⟨l, chain⟩ := good.finite .head level
  refine ⟨l, chain, chain.nodup, fun i => ?_⟩
  rw [← count, ← heights]
  constructor
  · intro member
    have inside := chain.lt_length member
    rw [getD_heights s inside]
    exact ⟨inside, chain.slots_of_mem good.targets (fun j points => good.targets _ _ j points) member⟩
  · rintro ⟨inside, tall⟩
    rw [getD_heights s inside] at tall
    obtain ⟨l', chain', member⟩ := threaded i level tall
    rwa [chain.unique chain']

theorem levels_hold_tall_nodes_four_calls :
    (∀ op ∈ ([.insert 5 2, .insert 3 1, .insert 4 3, .contains 4] : List (Op Nat)), op.HeightInRange) ∧
    ∃ s, (init : SkipList Nat).run compare [.insert 5 2, .insert 3 1, .insert 4 3, .contains 4] = some s ∧
      ∀ level, ∃ l, Chain s level (s.next .head level) l ∧ l.Nodup ∧
        ∀ i, i ∈ l ↔ i < (insertedHeights [.insert 5 2, .insert 3 1, .insert 4 3, .contains 4]).length ∧
          level < (insertedHeights ([.insert 5 2, .insert 3 1, .insert 4 3, .contains 4] : List (Op Nat))).getD i 0 :=
  ⟨by decide, levels_hold_tall_nodes compare _ (by decide)⟩

/-- **The fast path returns what the full descent returns.** After any run from a fresh
list, for every key and every `prev` array of `kMaxHeight` entries that have their forward
pointers (as `prev_` always has), `FindGreatOrEqual(key, prev)` returns, with enough fuel,
the node `FindGreatOrEqual(key, nullptr)` returns: the first node of the level-0 chain not
before `key`, whether it takes the fast path or descends. -/
theorem fastPath_agrees_with_descent (cmp : Key → Key → Ordering) [TransCmp cmp] (ops : List (Op Key))
    (valid : ∀ op ∈ ops, op.HeightInRange) :
    ∃ s, (init : SkipList Key).run cmp ops = some s ∧
      ∀ key (p : List Ref), p.length = kMaxHeight → (∀ level < kMaxHeight, level < s.slots (p.getD level .head)) →
        ∀ fuel, s.searchFuel ≤ fuel → ∃ node p',
          s.findGreatOrEqual cmp key (some p) fuel = some (node, some p') ∧
            s.findGreatOrEqual cmp key none fuel = some (node, none) := by
  obtain ⟨s, ran, good, -⟩ := run_good (good_init : Good cmp init) ops valid
  refine ⟨s, ran, fun key p length slotted fuel enough => ?_⟩
  obtain ⟨l, chain, every, sorted⟩ := good.level0
  obtain ⟨y, prev', found, placed, stays, -, filled⟩ :=
    findGreatOrEqual_spec good key (some p) enough fun _ same => by cases same; exact ⟨length, slotted⟩
  obtain ⟨p', rfl, -⟩ := filled p rfl
  refine ⟨_, p', found, ?_⟩
  rw [findGreatOrEqual_first good chain key enough, (stop_split chain every sorted placed stays).1,
    find?_not_before]

theorem fastPath_agrees_with_descent_two_inserts :
    (∀ op ∈ ([.insert 1 2, .insert 3 1] : List (Op Nat)), op.HeightInRange) ∧
    ∃ s, (init : SkipList Nat).run compare [.insert 1 2, .insert 3 1] = some s ∧
      ∀ key (p : List Ref), p.length = kMaxHeight → (∀ level < kMaxHeight, level < s.slots (p.getD level .head)) →
        ∀ fuel, s.searchFuel ≤ fuel → ∃ node p',
          s.findGreatOrEqual compare key (some p) fuel = some (node, some p') ∧
            s.findGreatOrEqual compare key none fuel = some (node, none) :=
  ⟨by decide, fastPath_agrees_with_descent compare _ (by decide)⟩

/-! ## Equal keys -/

section EqualKeys

variable {cmp : Key → Key → Ordering} [TransCmp cmp]

/-- **`Insert` on level 0.** The new node, numbered `s.nodes.length` and holding `key`, is
linked on the level-0 chain right after the nodes whose keys are less than `key`; the other
nodes keep their keys. -/
theorem insert_level0 {s : SkipList Key} (good : Good cmp s) (key : Key) {height : Nat} (low : 0 < height)
    (high : height ≤ kMaxHeight) {l : List Nat} (chain : Chain s 0 (s.next .head 0) l) :
    ∃ s', s.insert cmp key height = some s' ∧ Good cmp s' ∧ (∀ j < s.nodes.length, s'.keyOf j = s.keyOf j) ∧
      s'.keyOf s.nodes.length = key ∧ s'.prev.getD 0 .head = .node s.nodes.length ∧
      Chain s' 0 (s'.next .head 0) (l.takeWhile (fun j => Before cmp key (s.keyOf j)) ++ s.nodes.length ::
        l.dropWhile (fun j => Before cmp key (s.keyOf j))) := by
  obtain ⟨next, p, found, ready⟩ := search_ready good key low high
  obtain ⟨q, m, raised, stored⟩ := store_ready ready
  set t : SkipList Key := { { s with prev := p } with prev := q, maxHeight := m }
  have inserted : s.insert cmp key height = some (t.place key height) := by
    rw [SkipList.insert, found]
    show some ((if height > ({ s with prev := p } : SkipList Key).maxHeight then
      ({ s with prev := p } : SkipList Key).raise height else { s with prev := p }).place key height) = _
    rw [raised]
  refine ⟨_, inserted, (place_good stored).1, fun j below => ?_, ?_, ?_, ?_⟩
  · rw [keyOf_place, keyOf_newNode t key height (show j < t.nodes.length from below)]; rfl
  · rw [keyOf_place]; exact keyOf_newNode_self t key height
  · rw [prev_place, getD_set, if_pos ⟨rfl, by rw [stored.good.prevLength]; decide⟩]
  · rw [next_place, next_linkAll, if_pos low]
    exact chain_place t key height (chain_linkAll _ _ low (chain_link_zero stored (chain.congr (fun _ _ => rfl) le_rfl)))

variable (cmp) in
/-- Of two nodes of `l` whose keys compare equal, the earlier is the newer. -/
def NewestFirst (s : SkipList Key) (l : List Nat) : Prop :=
  l.Pairwise fun i j => cmp (s.keyOf i) (s.keyOf j) = .eq → j < i

/-- Linking a new node before every node not less than its key keeps the newest first. -/
theorem newestFirst_insertion {s s' : SkipList Key} {key : Key} {l : List Nat} (inside : ∀ j ∈ l, j < s.nodes.length)
    (old : ∀ j < s.nodes.length, s'.keyOf j = s.keyOf j) (new : s'.keyOf s.nodes.length = key)
    (newest : NewestFirst cmp s l) :
    NewestFirst cmp s' (l.takeWhile (fun j => Before cmp key (s.keyOf j)) ++ s.nodes.length ::
      l.dropWhile (fun j => Before cmp key (s.keyOf j))) := by
  have split := List.takeWhile_append_dropWhile (fun j => Before cmp key (s.keyOf j)) l
  have same : ∀ i ∈ l, ∀ j ∈ l, cmp (s'.keyOf i) (s'.keyOf j) = cmp (s.keyOf i) (s.keyOf j) :=
    fun i early j late => by rw [old i (inside i early), old j (inside j late)]
  have kept : NewestFirst cmp s' l :=
    newest.imp_of_mem fun early late newer equal => newer (by rwa [same _ early _ late] at equal)
  rw [NewestFirst, ← split, List.pairwise_append] at kept
  refine List.pairwise_append.mpr ⟨kept.1, List.pairwise_cons.mpr ⟨fun j late _ => ?_, kept.2.1⟩,
    fun i early j late => ?_⟩
  · exact inside j ((List.dropWhile_sublist _).subset late)
  · rcases List.mem_cons.mp late with rfl | late
    · intro equal
      have less : cmp (s.keyOf i) key = .lt := by simpa using List.mem_takeWhile_imp early
      rw [old i (inside i ((List.takeWhile_sublist _).subset early)), new, less] at equal
      cases equal
    · exact kept.2.2 i early j late

/-- On a sorted chain kept newest first, if node `i` compares equal to `key`, the first
node not before `key` compares equal to it too and is no older than `i`. -/
theorem find?_newest {s : SkipList Key} {key : Key} {i : Nat} (equal : cmp (s.keyOf i) key = .eq) {l : List Nat}
    (sorted : Sorted cmp (l.map s.keyOf)) (newest : NewestFirst cmp s l) (member : i ∈ l) :
    ∃ j, l.find? (fun j => !Before cmp key (s.keyOf j)) = some j ∧ cmp (s.keyOf j) key = .eq ∧ i ≤ j := by
  induction l with
  | nil => exact absurd member (List.not_mem_nil _)
  | cons a rest ih =>
      rw [Sorted, List.map_cons, List.pairwise_cons] at sorted
      rw [NewestFirst, List.pairwise_cons] at newest
      by_cases before : Before cmp key (s.keyOf a) = true
      · have later : i ∈ rest := (List.mem_cons.mp member).resolve_left fun first => by
          rw [← first, before_iff, equal] at before; cases before
        rw [List.find?_cons_of_neg _ (by rw [before]; decide)]
        exact ih sorted.2 newest.2 later
      · rw [List.find?_cons_of_pos _ (by rw [Bool.eq_false_iff.mpr before]; rfl)]
        rcases List.mem_cons.mp member with rfl | later
        · exact ⟨i, rfl, equal, le_rfl⟩
        · have below := sorted.1 _ (List.mem_map_of_mem _ later)
          rw [TransCmp.cmp_congr_right equal] at below
          have same : cmp (s.keyOf a) key = .eq := by
            cases order : cmp (s.keyOf a) key
            · exact absurd ((before_iff cmp key _).mpr order) before
            · rfl
            · exact absurd order below
          exact ⟨a, rfl, same, le_of_lt (newest.1 i later (by rw [TransCmp.cmp_congr_right equal]; exact same))⟩

/-- One call keeps a good list's level-0 chain newest first. -/
theorem step_newestFirst {s : SkipList Key} (good : Good cmp s) {l : List Nat} (chain : Chain s 0 (s.next .head 0) l)
    (newest : NewestFirst cmp s l) (op : Op Key) (valid : op.HeightInRange) :
    ∃ s' l', s.step cmp op = some s' ∧ Good cmp s' ∧ Chain s' 0 (s'.next .head 0) l' ∧ NewestFirst cmp s' l' := by
  obtain ⟨l0, chain0, -⟩ := good.level0
  obtain rfl := chain0.unique chain
  cases op with
  | insert key height =>
      obtain ⟨s', inserted, good', old, new, -, chain'⟩ := insert_level0 good key valid.1 valid.2 chain0
      exact ⟨s', _, inserted, good', chain',
        newestFirst_insertion (fun j member => chain0.lt_length member) old new newest⟩
  | contains key => exact ⟨s, l0, by rw [step, contains_spec good key]; rfl, good, chain0, newest⟩
  | findLessThan key => exact ⟨s, l0, by rw [step, findLessThan_last good chain0 key le_rfl]; rfl, good, chain0, newest⟩
  | findLast => exact ⟨s, l0, by rw [step, findLast_last good chain0 le_rfl]; rfl, good, chain0, newest⟩

theorem run_newestFirst {s : SkipList Key} (good : Good cmp s) {l : List Nat} (chain : Chain s 0 (s.next .head 0) l)
    (newest : NewestFirst cmp s l) (ops : List (Op Key)) (valid : ∀ op ∈ ops, op.HeightInRange) :
    ∃ s' l', s.run cmp ops = some s' ∧ Good cmp s' ∧ Chain s' 0 (s'.next .head 0) l' ∧ NewestFirst cmp s' l' := by
  induction ops generalizing s l with
  | nil => exact ⟨s, l, rfl, good, chain, newest⟩
  | cons op ops ih =>
      obtain ⟨s₁, l₁, stepped, good₁, chain₁, newest₁⟩ :=
        step_newestFirst good chain newest op (valid op (List.mem_cons_self _ _))
      rw [run, stepped, Option.some_bind]
      exact ih good₁ chain₁ newest₁ fun op member => valid op (List.mem_cons_of_mem _ member)

end EqualKeys

/-- **Equal keys, newest first.** After any run from a fresh list, with any total preorder and
any heights `RandomHeight()` may return, of two nodes on the level-0 chain whose keys compare
equal the earlier is the one inserted later. So for every key equal to some node's,
`FindGreatOrEqual(key, nullptr)` returns a node equal to `key`, inserted no earlier than any
other node equal to `key`. -/
theorem equal_keys_newest_first (cmp : Key → Key → Ordering) [TransCmp cmp] (ops : List (Op Key))
    (valid : ∀ op ∈ ops, op.HeightInRange) :
    ∃ s l, (init : SkipList Key).run cmp ops = some s ∧ Chain s 0 (s.next .head 0) l ∧
      (l.Pairwise fun i j => cmp (s.keyOf i) (s.keyOf j) = .eq → j < i) ∧
      ∀ key fuel, s.searchFuel ≤ fuel → ∀ i < s.nodes.length, cmp (s.keyOf i) key = .eq →
        ∃ j, s.findGreatOrEqual cmp key none fuel = some (some j, none) ∧ cmp (s.keyOf j) key = .eq ∧ i ≤ j := by
  obtain ⟨s, l, ran, good, chain, newest⟩ :=
    run_newestFirst (good_init : Good cmp init) (.nil : Chain init 0 none []) List.Pairwise.nil ops valid
  refine ⟨s, l, ran, chain, newest, fun key fuel enough i inside equal => ?_⟩
  obtain ⟨l0, chain0, every, sorted⟩ := good.level0
  obtain rfl := chain0.unique chain
  obtain ⟨j, found, same, older⟩ := find?_newest equal sorted newest (every.mem_iff.mpr (List.mem_range.mpr inside))
  exact ⟨j, by rw [findGreatOrEqual_first good chain0 key enough, found], same, older⟩

theorem equal_keys_newest_first_duplicates :
    (∀ op ∈ ([.insert 5 1, .insert 5 2, .insert 3 1, .insert 5 1] : List (Op Nat)), op.HeightInRange) ∧
    ∃ s l, (init : SkipList Nat).run compare [.insert 5 1, .insert 5 2, .insert 3 1, .insert 5 1] = some s ∧
      Chain s 0 (s.next .head 0) l ∧ (l.Pairwise fun i j => compare (s.keyOf i) (s.keyOf j) = .eq → j < i) ∧
      ∀ key fuel, s.searchFuel ≤ fuel → ∀ i < s.nodes.length, compare (s.keyOf i) key = .eq →
        ∃ j, s.findGreatOrEqual compare key none fuel = some (some j, none) ∧ compare (s.keyOf j) key = .eq ∧ i ≤ j :=
  ⟨by decide, equal_keys_newest_first compare _ (by decide)⟩

/-! ## The fast path on ascending inserts -/

/-- `prev_[0]` is `head_` or a node, and nothing follows it on level 0: where an insert of a
key above every node's goes. -/
def AtEnd (s : SkipList Key) : Prop :=
  s.next (s.prev.getD 0 .head) 0 = none ∧ ∀ j, s.prev.getD 0 .head = .node j → j < s.nodes.length

section Ascending

variable {cmp : Key → Key → Ordering} [TransCmp cmp]

/-- With `prev_[0]` at the end of level 0, `FindGreatOrEqual(key, prev_)` for a key above
every node's returns null from its fast path, leaving `prev_` as it is. -/
theorem findGreatOrEqual_atEnd {s : SkipList Key} (atEnd : AtEnd s) {key : Key}
    (above : ∀ j < s.nodes.length, cmp (s.keyOf j) key = .lt) (fuel : Nat) :
    s.findGreatOrEqual cmp key (some s.prev) fuel = some (none, some s.prev) := by
  have before : s.headOrBefore cmp key (s.prev.getD 0 .head) = true := by
    cases first : s.prev.getD 0 .head with
    | head => rfl
    | node j => simp [headOrBefore, above j (atEnd.2 j first)]
  simp only [findGreatOrEqual, fastPath, atEnd.1, keyIsAfterNode, Bool.not_false, if_true, before]

/-- An insert of a key above every node's leaves `prev_[0]` at the new node, last on level 0. -/
theorem insert_atEnd {s : SkipList Key} (good : Good cmp s) {key : Key} {height : Nat} (low : 0 < height)
    (high : height ≤ kMaxHeight) (above : ∀ j < s.nodes.length, cmp (s.keyOf j) key = .lt) :
    ∃ s', s.insert cmp key height = some s' ∧ AtEnd s' := by
  obtain ⟨l, chain, every, -⟩ := good.level0
  obtain ⟨s', inserted, -, -, -, first, chain'⟩ := insert_level0 good key low high chain
  have none_after : l.dropWhile (fun j => Before cmp key (s.keyOf j)) = [] :=
    List.dropWhile_eq_nil_iff.mpr fun j member => by
      simpa using above j (chain.lt_length member)
  rw [none_after] at chain'
  refine ⟨s', inserted, by rw [first]; exact chain'.suffix.start, fun j same => ?_⟩
  rw [first] at same
  cases same
  exact chain'.lt_length (List.mem_append_right _ (List.mem_singleton_self _))

theorem run_atEnd {s : SkipList Key} (good : Good cmp s) (atEnd : AtEnd s) (ops : List (Op Key))
    (valid : ∀ op ∈ ops, op.HeightInRange) (ascending : (s.keys ++ insertedKeys ops).Pairwise fun a b => cmp a b = .lt) :
    ∃ s', s.run cmp ops = some s' ∧ s'.keys = s.keys ++ insertedKeys ops ∧ AtEnd s' := by
  induction ops generalizing s with
  | nil => exact ⟨s, rfl, (List.append_nil _).symm, atEnd⟩
  | cons op ops ih =>
      have first := valid op (List.mem_cons_self _ _)
      obtain ⟨s₁, stepped, good₁, keys₁, -⟩ := step_good good op first
      have atEnd₁ : AtEnd s₁ := by
        cases op with
        | insert key height =>
            have above : ∀ j < s.nodes.length, cmp (s.keyOf j) key = .lt := fun j below =>
              (List.pairwise_append.mp ascending).2.2 _ (List.mem_map_of_mem _ (List.mem_range.mpr below)) key
                (List.mem_cons_self _ _)
            obtain ⟨s', inserted, atEnd'⟩ := insert_atEnd good first.1 first.2 above
            rw [step, inserted] at stepped
            obtain rfl := Option.some.inj stepped
            exact atEnd'
        | contains _ | findLessThan _ | findLast =>
            obtain ⟨_, -, rfl⟩ := Option.map_eq_some'.mp stepped
            exact atEnd
      obtain ⟨s₂, ran, keys₂, atEnd₂⟩ := ih good₁ atEnd₁ (fun op member => valid op (List.mem_cons_of_mem _ member))
        (by rw [keys₁, List.append_assoc, ← insertedKeys_cons]; exact ascending)
      exact ⟨s₂, by rw [run, stepped]; exact ran, by rw [keys₂, keys₁, List.append_assoc, ← insertedKeys_cons], atEnd₂⟩

end Ascending

/-- **Ascending inserts take the fast path.** After any run from a fresh list whose inserts
come in strictly increasing key order, with any heights `RandomHeight()` may return and
lookups anywhere between, `FindGreatOrEqual(key, prev_)` for a key above every inserted one,
as the next `Insert` of such a run calls it, returns null from its fast path, whatever fuel
the descent would have: `prev_[0]` is the last node of level 0. -/
theorem ascending_inserts_take_fast_path (cmp : Key → Key → Ordering) [TransCmp cmp] (ops : List (Op Key))
    (valid : ∀ op ∈ ops, op.HeightInRange) (ascending : (insertedKeys ops).Pairwise fun a b => cmp a b = .lt) :
    ∃ s, (init : SkipList Key).run cmp ops = some s ∧
      ∀ key fuel, (∀ k ∈ insertedKeys ops, cmp k key = .lt) →
        s.findGreatOrEqual cmp key (some s.prev) fuel = some (none, some s.prev) := by
  have start : AtEnd (init : SkipList Key) := ⟨next_init _ _, fun j first => by
    rw [show (init : SkipList Key).prev.getD 0 .head = .head from getD_replicate _ _ _] at first
    cases first⟩
  obtain ⟨s, ran, keys, atEnd⟩ := run_atEnd (good_init : Good cmp init) start ops valid ascending
  refine ⟨s, ran, fun key fuel above => findGreatOrEqual_atEnd atEnd (fun j below => above _ ?_) fuel⟩
  have member : s.keyOf j ∈ s.keys := List.mem_map_of_mem _ (List.mem_range.mpr below)
  rwa [keys] at member

theorem ascending_inserts_take_fast_path_three_inserts :
    (∀ op ∈ ([.insert 1 2, .insert 3 1, .contains 2, .insert 7 3] : List (Op Nat)), op.HeightInRange) ∧
    (insertedKeys ([.insert 1 2, .insert 3 1, .contains 2, .insert 7 3] : List (Op Nat))).Pairwise
      (fun a b => compare a b = .lt) ∧
    ∃ s, (init : SkipList Nat).run compare [.insert 1 2, .insert 3 1, .contains 2, .insert 7 3] = some s ∧
      ∀ key fuel, (∀ k ∈ insertedKeys ([.insert 1 2, .insert 3 1, .contains 2, .insert 7 3] : List (Op Nat)),
          compare k key = .lt) →
        s.findGreatOrEqual compare key (some s.prev) fuel = some (none, some s.prev) :=
  ⟨by decide, by decide, ascending_inserts_take_fast_path compare _ (by decide) (by decide)⟩

/-! ## `max_height_` -/

theorem le_foldl_max (l : List Nat) : ∀ init, init ≤ l.foldl max init := by
  induction l with
  | nil => exact fun init => le_rfl
  | cons a l ih => exact fun init => (Nat.le_max_left init a).trans (ih _)

theorem getD_le_foldl_max (l : List Nat) : ∀ i init, l.getD i 0 ≤ l.foldl max init := by
  induction l with
  | nil => exact fun i init => by rw [List.getD_nil]; exact Nat.zero_le _
  | cons a l ih =>
      intro i init
      cases i with
      | zero => exact (Nat.le_max_right init a).trans (le_foldl_max l _)
      | succ i => exact ih i _

section MaxHeight

variable {cmp : Key → Key → Ordering} [TransCmp cmp]

/-- A call raises `max_height_` to the height it draws, if that is higher, and leaves it
alone otherwise. -/
theorem maxHeight_step {s s' : SkipList Key} (good : Good cmp s) {op : Op Key} (valid : op.HeightInRange)
    (stepped : s.step cmp op = some s') : s'.maxHeight = (insertedHeights [op]).foldl max s.maxHeight := by
  cases op with
  | insert key height =>
      obtain ⟨p, prepared, -⟩ := prepare_ready good key valid.1 valid.2
      rw [step, insert_eq_prepare, prepared] at stepped
      cases stepped
      rw [maxHeight_place]
      rfl
  | contains _ | findLessThan _ | findLast =>
      obtain ⟨_, -, rfl⟩ := Option.map_eq_some'.mp stepped
      rfl

theorem maxHeight_run {s : SkipList Key} (good : Good cmp s) (ops : List (Op Key))
    (valid : ∀ op ∈ ops, op.HeightInRange) :
    ∃ s', s.run cmp ops = some s' ∧ s'.maxHeight = (insertedHeights ops).foldl max s.maxHeight := by
  induction ops generalizing s with
  | nil => exact ⟨s, rfl, rfl⟩
  | cons op ops ih =>
      have first := valid op (List.mem_cons_self _ _)
      obtain ⟨s₁, stepped, good₁, -⟩ := step_good good op first
      obtain ⟨s₂, ran, top⟩ := ih good₁ fun op member => valid op (List.mem_cons_of_mem _ member)
      refine ⟨s₂, by rw [run, stepped]; exact ran, ?_⟩
      rw [top, maxHeight_step good first stepped, insertedHeights_cons op ops, List.foldl_append]

end MaxHeight

/-- **`max_height_` is the tallest node's height.** After any run from a fresh list, with any
total preorder and any heights `RandomHeight()` may return, `max_height_` is the largest height
an `Insert` drew, or 1 if none did; and no forward pointer at or above it, of `head_` or of any
node, is set. So the searches, which start at level `max_height_ - 1`, skip only empty levels. -/
theorem maxHeight_is_tallest (cmp : Key → Key → Ordering) [TransCmp cmp] (ops : List (Op Key))
    (valid : ∀ op ∈ ops, op.HeightInRange) :
    ∃ s, (init : SkipList Key).run cmp ops = some s ∧ s.maxHeight = (insertedHeights ops).foldl max 1 ∧
      ∀ y level, s.maxHeight ≤ level → s.next y level = none := by
  obtain ⟨s, ran, good, -, -, heights⟩ := run_bounds (good_init : Good cmp init) threaded_init ops valid
  obtain ⟨s', ran', top⟩ := maxHeight_run (good_init : Good cmp init) ops valid
  obtain rfl : s = s' := Option.some.inj (ran.symm.trans ran')
  replace heights : s.heights = insertedHeights ops := heights
  refine ⟨s, ran, top, fun y level above => ?_⟩
  cases points : s.next y level with
  | none => rfl
  | some i =>
      have slot := good.targets y level i points
      have tall : s.slots (.node i) ≤ s.maxHeight := by
        rw [← getD_heights s (lt_length_of_slots s slot), heights, top]
        exact getD_le_foldl_max _ _ _
      omega

theorem maxHeight_is_tallest_three_inserts :
    (∀ op ∈ ([.insert 5 2, .insert 3 4, .contains 3, .insert 4 1] : List (Op Nat)), op.HeightInRange) ∧
    ∃ s, (init : SkipList Nat).run compare [.insert 5 2, .insert 3 4, .contains 3, .insert 4 1] = some s ∧
      s.maxHeight = (insertedHeights ([.insert 5 2, .insert 3 4, .contains 3, .insert 4 1] : List (Op Nat))).foldl
        max 1 ∧
      ∀ y level, s.maxHeight ≤ level → s.next y level = none :=
  ⟨by decide, maxHeight_is_tallest compare _ (by decide)⟩

end SkipList

end Rockscopy.SkipList
