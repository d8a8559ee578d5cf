/-
# Rockscopy.SkipList.Concurrent.Writer — the writer's stages

`WriterInv` says what the memory is at each stage of the writer: a good list
between inserts, a list ready for the node (`Ready`) before `NewNode`, and, while
the writer links, a ready list `t` part way through `place`:
`(t.newNode key height).linkAll x level` before the successor store at `level`,
and `setSucc` of that after it.

* `search_writerInv`, `write_writerInv`: the search and every writer step keep it.
* `run_insert`: the steps of one `Insert`, with no reader step between them, end
  where the sequential `Insert` ends.
* `visible_of_writerInv`: what a reader may rely on at every stage (`Visible`):
  the level-0 chain is sorted and holds every linked node, and every forward
  pointer names a linked node, tall enough for its level, whose pointers up to
  that level are written.
* `writerStep_mono`: a writer step never unlinks a node or unwrites a pointer,
  and the count of completed inserts only grows.
* `writerStep_keys`: a writer step keeps the keys of the nodes, followed by the key
  of the insert not yet at `NewNode` (`pendingKey`).
-/
import Rockscopy.SkipList.Concurrent.Steps
import Rockscopy.SkipList.Insert

namespace Rockscopy.SkipList.Concurrent

open Batteries SkipList

set_option autoImplicit false
set_option linter.unusedSectionVars false

variable {Key : Type} [Inhabited Key] {cmp : Key → Key → Ordering} [TransCmp cmp]

variable (cmp) in
/-- The memory at each stage of the writer. -/
def WriterInv (s : SkipList Key) : Option (Stage Key) → Prop
  | none => Good cmp s
  | some (.store key height) => Ready cmp s key height
  | some (.alloc key height) => Ready cmp s key height
  | some (.setSucc x height level) => ∃ t key, Ready cmp t key height ∧ x = t.nodes.length ∧ level < height ∧
      s = (t.newNode key height).linkAll x level
  | some (.link x height level) => ∃ t key, Ready cmp t key height ∧ x = t.nodes.length ∧ level < height ∧
      s = setSucc ((t.newNode key height).linkAll x level) x level

/-! ## The writer keeps its invariant -/

/-- The search that begins `Insert` returns and leaves the list ready. -/
theorem search_writerInv {s : SkipList Key} (good : Good cmp s) (key : Key) {height : Nat} (low : 0 < height)
    (high : height ≤ kMaxHeight) : ∃ s', search cmp s key = some s' ∧ WriterInv cmp s' (some (.store key height)) := by
  obtain ⟨next, p, found, ready⟩ := search_ready good key low high
  exact ⟨_, by rw [search, found]; rfl, ready⟩

/-- The last turn of the linking loop and `prev_[0] = x` end where `place` ends. -/
theorem place_succ (t : SkipList Key) (key : Key) (level : Nat) :
    t.place key (level + 1) =
      let s := ((t.newNode key (level + 1)).linkAll t.nodes.length level).link t.nodes.length level
      { s with prev := s.prev.set 0 (.node t.nodes.length) } := by
  simp only [place, linkAll_succ]

theorem write_writerInv {s : SkipList Key} {stage : Stage Key} (inv : WriterInv cmp s (some stage)) :
    WriterInv cmp (writerStep s stage).1 (writerStep s stage).2 := by
  cases stage with
  | store key height =>
      obtain ⟨p, m, raised, ready⟩ := store_ready (show Ready cmp s key height from inv)
      show Ready cmp (if height > s.maxHeight then s.raise height else s) key height
      rw [raised]; exact ready
  | alloc key height =>
      have ready : Ready cmp s key height := inv
      simp only [writerStep, if_pos ready.low]
      exact ⟨s, key, ready, rfl, ready.low, rfl⟩
  | setSucc x height level =>
      obtain ⟨t, key, ready, rfl, below, rfl⟩ := inv
      exact ⟨t, key, ready, rfl, below, rfl⟩
  | link x height level =>
      obtain ⟨t, key, ready, rfl, below, rfl⟩ := inv
      simp only [writerStep]
      split_ifs with more
      · exact ⟨t, key, ready, rfl, more, by rw [linkAll_succ]; rfl⟩
      · obtain rfl : height = level + 1 := by omega
        have placed := (place_good ready).1
        rw [place_succ] at placed
        exact placed

/-! ## What a reader may rely on -/

variable (cmp) in
/-- What a reader may rely on at every stage of the writer. -/
structure Visible (s : SkipList Key) (stage : Option (Stage Key)) : Prop where
  headSlots : s.head.length = kMaxHeight
  maxHeightPos : 0 < s.maxHeight
  maxHeightLe : s.maxHeight ≤ kMaxHeight
  level0 : ∃ l, Chain s 0 (s.next .head 0) l ∧ Sorted cmp (l.map s.keyOf) ∧ ∀ n, Linked s stage n → n ∈ l
  targets : ∀ y level n, s.next y level = some n →
    level < s.slots (.node n) ∧ Linked s stage n ∧ ∀ below ≤ level, ¬ Pending stage n below

/-- A linked node is one `NewNode` allocated. -/
theorem Visible.allocated {s : SkipList Key} {stage : Option (Stage Key)} (visible : Visible cmp s stage) {n : Nat}
    (linked : Linked s stage n) : n < s.nodes.length := by
  obtain ⟨l, chain, -, every⟩ := visible.level0
  exact chain.lt_length (every n linked)

/-- Between inserts and before `NewNode` the list is good, every node is linked,
and every forward pointer is written. -/
theorem visible_of_good {s : SkipList Key} (good : Good cmp s) {stage : Option (Stage Key)}
    (linked : ∀ n, Linked s stage n ↔ n < s.nodes.length) (written : ∀ n level, ¬ Pending stage n level) :
    Visible cmp s stage := by
  obtain ⟨l, chain, every, sorted⟩ := good.level0
  refine ⟨good.headSlots, good.maxHeightPos, good.maxHeightLe,
    ⟨l, chain, sorted, fun n isLinked => every.mem_iff.mpr (List.mem_range.mpr ((linked n).mp isLinked))⟩,
    fun y level n points => ⟨good.targets y level n points, ?_, fun below _ => written n below⟩⟩
  exact (linked n).mpr (lt_length_of_slots s (good.targets y level n points))

section Linking

variable {t : SkipList Key} {key : Key} {height : Nat} (ready : Ready cmp t key height)
include ready

/-- Before it is linked, the new node is named by no forward pointer, so every
forward pointer names an old node, tall enough for its level. -/
theorem newNode_target {y : Ref} {level n : Nat} (points : (t.newNode key height).next y level = some n) :
    level < t.slots (.node n) ∧ n < t.nodes.length := by
  have old : y ≠ .node t.nodes.length := fun same => by
    rw [same, next_newNode_self] at points; cases points
  rw [next_newNode _ _ _ _ _ old] at points
  have slot := ready.good.targets y level n points
  exact ⟨slot, lt_length_of_slots t slot⟩

/-- Part way through the linking loop a forward pointer names the new node at a
level already linked, or an old node. -/
theorem linkAll_target (m : Nat) {y : Ref} {level n : Nat}
    (points : ((t.newNode key height).linkAll t.nodes.length m).next y level = some n) :
    (n = t.nodes.length ∧ level < m) ∨ (level < t.slots (.node n) ∧ n < t.nodes.length) := by
  rw [next_linkAll] at points
  split_ifs at points with below
  · rw [next_link] at points
    split_ifs at points with isPrev isNew
    · exact .inl ⟨(Option.some.inj points).symm, below⟩
    · exact .inr (newNode_target ready points)
    · exact .inr (newNode_target ready points)
  · exact .inr (newNode_target ready points)

/-- The successor store at level `m` writes a pointer the linking loop had already. -/
theorem setSucc_target (m : Nat) {y : Ref} {level n : Nat}
    (points : (setSucc ((t.newNode key height).linkAll t.nodes.length m) t.nodes.length m).next y level = some n) :
    (n = t.nodes.length ∧ level < m) ∨ (level < t.slots (.node n) ∧ n < t.nodes.length) := by
  rw [setSucc, next_setNext] at points
  split_ifs at points with isNew
  · obtain ⟨-, rfl, -⟩ := isNew
    rcases linkAll_target ready level points with ⟨-, low⟩ | old
    · exact absurd low (Nat.lt_irrefl _)
    · exact .inr old
  · exact linkAll_target ready m points

/-- The level-0 chain part way through the linking loop: the old chain, with the
new node in its place once level 0 is linked. -/
theorem linkAll_level0 (m : Nat) :
    ∃ l, Chain ((t.newNode key height).linkAll t.nodes.length m) 0
        (((t.newNode key height).linkAll t.nodes.length m).next .head 0) l ∧
      Sorted cmp (l.map (t.newNode key height).keyOf) ∧
      (∀ n, n < t.nodes.length ∨ (n = t.nodes.length ∧ 0 < m) → n ∈ l) ∧ (m = 0 → t.nodes.length ∉ l) := by
  obtain ⟨l0, chain0, every, sorted⟩ := ready.good.level0
  have old : ∀ n < t.nodes.length, n ∈ l0 := fun n below => every.mem_iff.mpr (List.mem_range.mpr below)
  cases m with
  | zero =>
      have keys : l0.map (t.newNode key height).keyOf = l0.map t.keyOf :=
        List.map_congr_left fun j member => keyOf_newNode _ _ _ (chain0.lt_length member)
      refine ⟨l0, newNode_chain ready.good key height chain0 (fun same => nomatch same), by rw [keys]; exact sorted,
        fun n linked => ?_, fun _ member => Nat.lt_irrefl _ (chain0.lt_length member)⟩
      rcases linked with below | ⟨-, never⟩
      · exact old n below
      · exact absurd never (Nat.lt_irrefl 0)
  | succ m =>
      refine ⟨l0.takeWhile (fun j => Before cmp key (t.keyOf j)) ++ t.nodes.length ::
        l0.dropWhile (fun j => Before cmp key (t.keyOf j)), ?_, ?_, fun n linked => ?_, fun same => nomatch same⟩
      · rw [next_linkAll, if_pos (Nat.succ_pos m)]
        exact chain_linkAll _ _ (Nat.succ_pos m) (chain_link_zero ready chain0)
      · rw [map_keyOf_insertion t key height chain0]; exact sorted_insertKey sorted
      · rw [List.mem_append, List.mem_cons]
        rcases linked with below | ⟨rfl, -⟩
        · have member := old n below
          rw [← List.takeWhile_append_dropWhile (fun j => Before cmp key (t.keyOf j)) l0, List.mem_append] at member
          exact member.imp_right .inr
        · exact .inr (.inl rfl)

theorem keyOf_linkAll_newNode (m : Nat) :
    ((t.newNode key height).linkAll t.nodes.length m).keyOf = (t.newNode key height).keyOf :=
  funext (keyOf_linkAll _ _ _)

/-- While the writer links level `m`, before the successor store. -/
theorem visible_setSucc {m : Nat} (below : m < height) :
    Visible cmp ((t.newNode key height).linkAll t.nodes.length m) (some (.setSucc t.nodes.length height m)) := by
  obtain ⟨l, chain, sorted, linked, -⟩ := linkAll_level0 ready m
  refine ⟨by simp [newNode, ready.good.headSlots], by simpa using ready.good.maxHeightPos,
    by simpa using ready.good.maxHeightLe, ⟨l, chain, by rwa [keyOf_linkAll_newNode ready], linked⟩,
    fun y level n points => ?_⟩
  rcases linkAll_target ready m points with ⟨rfl, low⟩ | ⟨slot, old⟩
  · exact ⟨by rw [slots_linkAll, slots_newNode_self]; omega, .inr ⟨rfl, by omega⟩,
      fun _ lower pending => by have := pending.2; omega⟩
  · exact ⟨by rwa [slots_linkAll, slots_newNode _ _ _ _ fun same => by cases same; exact Nat.lt_irrefl _ old],
      .inl old, fun _ _ pending => by have := pending.1; omega⟩

/-- While the writer links level `m`, after the successor store. -/
theorem visible_link {m : Nat} (below : m < height) :
    Visible cmp (setSucc ((t.newNode key height).linkAll t.nodes.length m) t.nodes.length m)
      (some (.link t.nodes.length height m)) := by
  obtain ⟨l, chain, sorted, linked, fresh⟩ := linkAll_level0 ready m
  have start : (setSucc ((t.newNode key height).linkAll t.nodes.length m) t.nodes.length m).next .head 0 =
      ((t.newNode key height).linkAll t.nodes.length m).next .head 0 :=
    next_setNext_of_ne _ _ _ _ _ _ (.inl fun same => nomatch same)
  have chain' : Chain (setSucc ((t.newNode key height).linkAll t.nodes.length m) t.nodes.length m) 0
      (((t.newNode key height).linkAll t.nodes.length m).next .head 0) l :=
    chain.congr (fun i member => next_setNext_of_ne _ _ _ _ _ _ (by
      by_cases first : m = 0
      · exact .inl fun same => fresh first (Ref.node.inj same ▸ member)
      · exact .inr (Ne.symm first))) (by simp)
  have keys : (setSucc ((t.newNode key height).linkAll t.nodes.length m) t.nodes.length m).keyOf =
      (t.newNode key height).keyOf := funext fun j => by rw [setSucc_keyOf, keyOf_linkAll]
  refine ⟨by simp [newNode, ready.good.headSlots], by simpa using ready.good.maxHeightPos,
    by simpa using ready.good.maxHeightLe, ⟨l, by rw [start]; exact chain', by rwa [keys], linked⟩,
    fun y level n points => ?_⟩
  rcases setSucc_target ready m points with ⟨rfl, low⟩ | ⟨slot, old⟩
  · exact ⟨by rw [setSucc_slots, slots_linkAll, slots_newNode_self]; omega, .inr ⟨rfl, by omega⟩,
      fun _ lower pending => by have := pending.2; omega⟩
  · exact ⟨by rwa [setSucc_slots, slots_linkAll, slots_newNode _ _ _ _ fun same => by
        cases same; exact Nat.lt_irrefl _ old], .inl old, fun _ _ pending => by have := pending.1; omega⟩

end Linking

/-- **What a reader may rely on**, at every stage of the writer. -/
theorem visible_of_writerInv {s : SkipList Key} {stage : Option (Stage Key)} (inv : WriterInv cmp s stage) :
    Visible cmp s stage := by
  cases stage with
  | none => exact visible_of_good inv (fun _ => Iff.of_eq (or_false _)) fun _ _ never => never
  | some stage =>
      cases stage with
      | store key height =>
          exact visible_of_good (show Ready cmp s key height from inv).good (fun _ => Iff.of_eq (or_false _))
            fun _ _ never => never
      | alloc key height =>
          exact visible_of_good (show Ready cmp s key height from inv).good (fun _ => Iff.of_eq (or_false _))
            fun _ _ never => never
      | setSucc x height level =>
          obtain ⟨t, key, ready, rfl, below, rfl⟩ := inv
          exact visible_setSucc ready below
      | link x height level =>
          obtain ⟨t, key, ready, rfl, below, rfl⟩ := inv
          exact visible_link ready below

/-! ## A writer step unlinks nothing and unwrites nothing -/

/-- A writer step never unlinks a node or unwrites a forward pointer of a linked
node, and the count of completed inserts only grows. -/
theorem writerStep_mono {s : SkipList Key} {stage : Stage Key} (inv : WriterInv cmp s (some stage)) :
    completed s (some stage) ≤ completed (writerStep s stage).1 (writerStep s stage).2 ∧
      (∀ n, Linked s (some stage) n → Linked (writerStep s stage).1 (writerStep s stage).2 n) ∧
      ∀ n level, Linked s (some stage) n → Pending (writerStep s stage).2 n level → Pending (some stage) n level := by
  cases stage with
  | store key height =>
      simp only [writerStep]
      split_ifs <;> exact ⟨Nat.le_refl _, fun _ linked => linked, fun _ _ _ never => never⟩
  | alloc key height =>
      have ready : Ready cmp s key height := inv
      simp only [writerStep, if_pos ready.low]
      have allocated : ∀ n, Linked s (some (.alloc key height)) n → n < s.nodes.length :=
        fun _ linked => linked.resolve_right id
      exact ⟨Nat.le_refl _, fun n linked => .inl (allocated n linked),
        fun n level linked pending => absurd pending.1 (Nat.ne_of_lt (allocated n linked))⟩
  | setSucc x height level =>
      exact ⟨Nat.le_refl _, fun _ linked => linked, fun _ _ _ pending => ⟨pending.1, Nat.le_of_lt pending.2⟩⟩
  | link x height level =>
      obtain ⟨t, key, ready, rfl, below, rfl⟩ := inv
      simp only [writerStep]
      split_ifs with more
      · refine ⟨Nat.le_refl _, fun n linked => ?_, fun _ _ _ pending => ⟨pending.1, pending.2⟩⟩
        rcases linked with early | ⟨same, _⟩
        · exact .inl early
        · exact .inr ⟨same, Nat.succ_pos _⟩
      · refine ⟨Nat.le_of_lt (by simp [completed]), fun n linked => .inl ?_,
          fun _ _ _ never => False.elim never⟩
        rcases linked with early | ⟨rfl, _⟩
        · exact lt_trans early (by simp [completed])
        · simp [completed]

/-! ## The keys of the inserts begun -/

/-- The key of the insert begun and not yet at `NewNode`. -/
def pendingKey : Option (Stage Key) → List Key
  | some (.store key _) => [key]
  | some (.alloc key _) => [key]
  | _ => []

theorem keys_of_frame {s s' : SkipList Key} (length : s'.nodes.length = s.nodes.length)
    (kept : ∀ j < s.nodes.length, s'.keyOf j = s.keyOf j) : s'.keys = s.keys := by
  rw [keys, keys, length]
  exact List.map_congr_left fun j member => kept j (List.mem_range.mp member)

theorem keys_newNode (s : SkipList Key) (key : Key) (height : Nat) :
    (s.newNode key height).keys = s.keys ++ [key] := by
  rw [keys, keys, nodes_length_newNode, List.range_succ, List.map_append, List.map_singleton, keyOf_newNode_self]
  congr 1
  exact List.map_congr_left fun j member => keyOf_newNode s key height (List.mem_range.mp member)

/-- A writer step keeps the keys of the nodes followed by the key of the insert not yet
at `NewNode`: `NewNode` moves that key into the nodes, and no other step changes a key. -/
theorem writerStep_keys (s : SkipList Key) (stage : Stage Key) :
    (writerStep s stage).1.keys ++ pendingKey (writerStep s stage).2 = s.keys ++ pendingKey (some stage) := by
  cases stage with
  | store key height => simp only [writerStep]; split_ifs <;> rfl
  | alloc key height =>
      simp only [writerStep]
      split_ifs <;> exact (keys_newNode s key height).symm ▸ List.append_nil _
  | setSucc x height level =>
      exact congrArg (· ++ []) (keys_of_frame (setSucc_nodes_length s x level) fun j _ => setSucc_keyOf s x level j)
  | link x height level =>
      simp only [writerStep]
      split_ifs <;> exact congrArg (· ++ []) (keys_of_frame (nodes_length_setNext ..) fun j _ => keyOf_setNext ..)

/-! ## One insert, with no reader step between its steps -/

theorem step_write {w : World Key} {stage : Stage Key} (staged : w.stage = some stage) :
    w.step cmp .write = some { w with mem := (writerStep w.mem stage).1, stage := (writerStep w.mem stage).2 } := by
  rw [World.step, staged]; rfl

/-- The linking loop from level `height - k` on, two steps a level, ends where `place` ends. -/
theorem run_links (t : SkipList Key) (key : Key) (height : Nat) :
    ∀ k level (w : World Key), level + k = height → 0 < k →
      w.mem = (t.newNode key height).linkAll t.nodes.length level →
      w.stage = some (.setSucc t.nodes.length height level) →
      w.run cmp (List.replicate (2 * k) .write) = some { w with mem := t.place key height, stage := none } := by
  intro k
  induction k with
  | zero => exact fun _ _ _ never => absurd never (Nat.lt_irrefl 0)
  | succ k ih =>
      intro level w total _ current staged
      rw [show 2 * (k + 1) = 2 * k + 1 + 1 by omega, List.replicate_succ, World.run, step_write staged,
        Option.some_bind, List.replicate_succ, World.run, step_write rfl, Option.some_bind]
      simp only [writerStep, current]
      split_ifs with more
      · exact ih (level + 1) _ (by omega) (by omega) (by rw [linkAll_succ]; rfl) rfl
      · obtain rfl : k = 0 := by omega
        subst total
        rw [place_succ]
        rfl

/-- **The writer refines `Insert`.** From a good list, with the writer between
inserts, the search and the `2 * height + 2` writer steps of one `Insert` end,
with the writer between inserts again, where the sequential `Insert` ends. -/
theorem run_insert {w : World Key} (good : Good cmp w.mem) (idle : w.stage = none) (key : Key) {height : Nat}
    (low : 0 < height) (high : height ≤ kMaxHeight) :
    w.run cmp (.insert key height :: List.replicate (2 * height + 2) .write) =
      (w.mem.insert cmp key height).map fun mem => { w with mem := mem, stage := none, begun := w.begun ++ [key] } := by
  obtain ⟨next, p, found, ready⟩ := search_ready good key low high
  obtain ⟨q, m, raised, stored⟩ := store_ready ready
  have searched : search cmp w.mem key = some { w.mem with prev := p } := by rw [search, found]; rfl
  have inserted : w.mem.insert cmp key height =
      some (({ { w.mem with prev := p } with prev := q, maxHeight := m } : SkipList Key).place key height) := by
    rw [SkipList.insert, found]
    show some ((if height > ({ w.mem with prev := p } : SkipList Key).maxHeight then
      ({ w.mem with prev := p } : SkipList Key).raise height else { w.mem with prev := p }).place key height) = _
    rw [raised]
  rw [inserted, Option.map_some', World.run, World.step, idle, searched, Option.map_some', Option.some_bind,
    show 2 * height + 2 = 2 * height + 1 + 1 by omega, List.replicate_succ, World.run, step_write rfl,
    Option.some_bind, List.replicate_succ, World.run, step_write rfl, Option.some_bind]
  simp only [writerStep, raised, if_pos low]
  exact run_links _ key height height 0 _ (Nat.zero_add _) low rfl rfl

end Rockscopy.SkipList.Concurrent
