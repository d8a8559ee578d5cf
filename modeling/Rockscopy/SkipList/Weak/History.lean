/-
# Rockscopy.SkipList.Weak.History — the writer's past

The writer runs alone: its states are a run of the writer of
`Rockscopy.SkipList.Concurrent` from a fresh list (`Chained`). What a reader may rely
on in one of them stays true in every later one, and a load, whichever state from
its `sync` on it reads, returns the value its word has in the state it
synchronises with.

* `move_writerInv`, `move_stands`, `move_keyOf`: a writer step keeps the writer's
  invariant, every place a reader may stand (`Stands`), and every node's key;
* `move_next`: a writer step stores to one pointer word at most, the one
  `pointerStore` names;
* `relaxed_pending`: the relaxed store to a word, `NoBarrier_SetNext`, is its first
  store, so every later one is a release;
* `load_source`, `load_stands`: a load of a word stored at or before `sync` reads the
  value the word has in the state its acquire synchronises with, so the node it
  names stands, in that state, where a reader may stand.
* `World.begunBy`, `World.returnedBy`: the keys of the inserts begun, and returned,
  by a writer state, read off the writer's stages: an insert begins at the one step
  that leaves the stage `none`, the harness's `Insert`, and has returned once the
  stage is `none` again. `chained_keys` keeps them in step with the nodes, and
  `mem_returnedBy` finds a returned key among the nodes completed.
-/
import Rockscopy.SkipList.Weak.Steps
import Rockscopy.SkipList.Concurrent.Readers

namespace Rockscopy.SkipList.Weak

open Batteries SkipList
open Concurrent (Stage Pc writerStep search readerStep Linked Pending Stands WriterInv Visible completed returnedOf
  pendingKey visible_of_writerInv search_writerInv write_writerInv writerStep_mono writerStep_frame writerStep_keys
  returnedOf_eq_completed mem_take_completed)

set_option autoImplicit false
set_option linter.unusedSectionVars false

variable {Key : Type} [Inhabited Key] {cmp : Key → Key → Ordering} [TransCmp cmp]

namespace World

/-- The key of the insert the writer began at its step from state `i`: `Insert(key)`'s
search is the one step that takes the writer from between inserts to its first stage. -/
def beganAt (w : World Key) (i : Nat) : Option Key :=
  match (w.stateAt i).2, (w.stateAt (i + 1)).2 with
  | none, some (.store key _) => some key
  | _, _ => none

/-- The keys of the inserts the writer began before state `p`, in order. -/
def begunBy (w : World Key) (p : Nat) : List Key :=
  (List.range p).filterMap w.beganAt

/-- The keys of the inserts that had returned in state `p`: those begun before it, but
the one still in flight. -/
def returnedBy (w : World Key) (p : Nat) : List Key :=
  (w.begunBy p).take (returnedOf (w.stateAt p).2 (w.begunBy p).length)

end World

variable (cmp) in
/-- One writer step: the search that begins an insert of a height `RandomHeight()`
may return, or a step inside an insert. -/
def Move (a b : State Key) : Prop :=
  (a.2 = none ∧ ∃ key height, 0 < height ∧ height ≤ kMaxHeight ∧
      (search cmp a.1 key).map (fun mem => (mem, some (.store key height))) = some b) ∨
    ∃ stage, a.2 = some stage ∧ writerStep a.1 stage = b

/-! ## One writer step -/

section Move

variable {a b : State Key}

/-- What one writer step can do: the search that begins an insert, which moves only
`prev_`, or a step inside one. -/
theorem move_cases (move : Move cmp a b) :
    (a.2 = none ∧ ∃ key height prev, 0 < height ∧ height ≤ kMaxHeight ∧
        search cmp a.1 key = some { a.1 with prev := prev } ∧
        b = ({ a.1 with prev := prev }, some (.store key height))) ∨
      ∃ stage, a.2 = some stage ∧ b = writerStep a.1 stage := by
  rcases move with ⟨idle, key, height, low, high, searched⟩ | ⟨stage, staged, rfl⟩
  · obtain ⟨mem, found, rfl⟩ := Option.map_eq_some'.mp searched
    obtain ⟨prev, rfl⟩ := Concurrent.search_prev found
    exact .inl ⟨idle, key, height, prev, low, high, found, rfl⟩
  · exact .inr ⟨stage, staged, rfl⟩

theorem move_writerInv (inv : WriterInv cmp a.1 a.2) (move : Move cmp a b) : WriterInv cmp b.1 b.2 := by
  rcases move with ⟨idle, key, height, low, high, searched⟩ | ⟨stage, staged, rfl⟩
  · rw [idle] at inv
    obtain ⟨s', found, ready⟩ := search_writerInv inv key low high
    rw [found, Option.map_some'] at searched
    cases searched
    exact ready
  · rw [staged] at inv
    exact write_writerInv inv

/-- A writer step keeps the key of every node there was, and allocates only more. -/
theorem move_keyOf (move : Move cmp a b) :
    a.1.nodes.length ≤ b.1.nodes.length ∧ ∀ j < a.1.nodes.length, b.1.keyOf j = a.1.keyOf j := by
  rcases move_cases move with ⟨-, -, -, -, -, -, -, rfl⟩ | ⟨stage, -, rfl⟩
  · exact ⟨le_rfl, fun _ _ => rfl⟩
  · obtain ⟨grown, -, kept⟩ := writerStep_frame a.1 stage
    exact ⟨grown, fun j old => (kept j old).1⟩

/-- A writer step unlinks no node. -/
theorem move_linked (inv : WriterInv cmp a.1 a.2) (move : Move cmp a b) {n : Nat} (linked : Linked a.1 a.2 n) :
    Linked b.1 b.2 n := by
  rcases move_cases move with ⟨idle, -, -, -, -, -, -, rfl⟩ | ⟨stage, staged, rfl⟩
  · rw [idle] at linked
    exact .inl (linked.resolve_right id)
  · rw [staged] at inv linked
    exact (writerStep_mono inv).2.1 n linked

/-- A writer step keeps every place a reader may stand: it unlinks no node, unwrites no
pointer and changes no height. -/
theorem move_stands (inv : WriterInv cmp a.1 a.2) (move : Move cmp a b) {x : Ref} {level : Nat}
    (stands : Stands a.1 a.2 x level) : Stands b.1 b.2 x level := by
  cases x with
  | head => exact stands
  | node j =>
      obtain ⟨linked, slot, written⟩ := stands
      rcases move_cases move with ⟨idle, -, -, -, -, -, -, rfl⟩ | ⟨stage, staged, rfl⟩
      · rw [idle] at linked
        exact ⟨.inl (linked.resolve_right id), slot, fun _ _ never => never⟩
      · rw [staged] at inv linked written
        obtain ⟨-, stillLinked, stillWritten⟩ := writerStep_mono inv
        obtain ⟨-, -, kept⟩ := writerStep_frame a.1 stage
        have old := (visible_of_writerInv inv).allocated linked
        exact ⟨stillLinked j linked, by rw [(kept j old).2]; exact slot,
          fun below low pending => written below low (stillWritten j below linked pending)⟩

/-- A writer step stores to one pointer word at most, the one `pointerStore` names. -/
theorem move_next (move : Move cmp a b) {y : Ref} {level : Nat}
    (other : ∀ release, pointerStore a ≠ some (y, level, release)) : b.1.next y level = a.1.next y level := by
  rcases move_cases move with ⟨-, -, -, -, -, -, -, rfl⟩ | ⟨stage, staged, rfl⟩
  · rfl
  · obtain ⟨s, stage'⟩ := a
    dsimp only at staged ⊢
    subst staged
    cases stage with
    | store key height => simp only [writerStep]; split_ifs <;> rfl
    | alloc key height =>
        have fresh : (s.newNode key height).next y level = s.next y level := by
          by_cases new : y = .node s.nodes.length
          · rw [new, next_newNode_self]
            simp [SkipList.next, nodeAt_of_le s (le_refl _)]
          · exact next_newNode _ _ _ _ _ new
        simp only [writerStep]
        split_ifs
        · exact fresh
        · exact fresh
    | setSucc x height l =>
        exact next_setNext_of_ne _ _ _ _ _ _ (by
          by_cases same : y = .node x ∧ level = l
          · exact absurd (by rw [same.1, same.2]; rfl) (other false)
          · tauto)
    | link x height l =>
        have untouched := next_setNext_of_ne s (s.prev.getD l .head) l (some x) y level (by
          by_cases same : y = s.prev.getD l .head ∧ level = l
          · exact absurd (by rw [same.1, same.2]; rfl) (other true)
          · tauto)
        simp only [writerStep]
        split_ifs
        · exact untouched
        · exact untouched

/-- The relaxed store to a word is `x->NoBarrier_SetNext(level, _)` for the node being
linked, whose word at `level` is unwritten until then. -/
theorem relaxed_pending {y : Ref} {level : Nat} (relaxed : pointerStore a = some (y, level, false)) :
    ∃ x, y = .node x ∧ Pending a.2 x level := by
  obtain ⟨s, _ | stage⟩ := a
  · simp [pointerStore] at relaxed
  · cases stage with
    | setSucc x height l =>
        obtain ⟨rfl, rfl⟩ : Ref.node x = y ∧ l = level := by simpa [pointerStore] using relaxed
        exact ⟨x, rfl, rfl, le_rfl⟩
    | _ => simp [pointerStore] at relaxed

end Move

/-! ## The writer's states -/

variable (cmp) in
/-- The writer's states are a run of the writer from a fresh list. -/
def Chained (w : World Key) : Prop :=
  w.stateAt 0 = (SkipList.init, none) ∧ ∀ i < w.past.length, Move cmp (w.stateAt i) (w.stateAt (i + 1))

section Chained

variable {w : World Key} (chained : Chained cmp w)
include chained

theorem chained_writerInv : ∀ i ≤ w.past.length, WriterInv cmp (w.stateAt i).1 (w.stateAt i).2
  | 0, _ => by rw [chained.1]; exact SkipList.good_init
  | i + 1, inside => move_writerInv (chained_writerInv i (by omega)) (chained.2 i inside)

theorem chained_visible {i : Nat} (inside : i ≤ w.past.length) : Visible cmp (w.stateAt i).1 (w.stateAt i).2 :=
  visible_of_writerInv (chained_writerInv chained i inside)

theorem chained_stands {i j : Nat} (early : i ≤ j) (inside : j ≤ w.past.length) {x : Ref} {level : Nat}
    (stands : Stands (w.stateAt i).1 (w.stateAt i).2 x level) : Stands (w.stateAt j).1 (w.stateAt j).2 x level := by
  induction j, early using Nat.le_induction with
  | base => exact stands
  | succ j _ ih =>
      exact move_stands (chained_writerInv chained j (by omega)) (chained.2 j inside) (ih (by omega))

theorem chained_keyOf {i j : Nat} (early : i ≤ j) (inside : j ≤ w.past.length) :
    (w.stateAt i).1.nodes.length ≤ (w.stateAt j).1.nodes.length ∧
      ∀ n < (w.stateAt i).1.nodes.length, (w.stateAt j).1.keyOf n = (w.stateAt i).1.keyOf n := by
  induction j, early using Nat.le_induction with
  | base => exact ⟨le_rfl, fun _ _ => rfl⟩
  | succ j _ ih =>
      obtain ⟨grown, kept⟩ := ih (by omega)
      obtain ⟨grown', kept'⟩ := move_keyOf (chained.2 j inside)
      exact ⟨grown.trans grown', fun n old => (kept' n (Nat.lt_of_lt_of_le old grown)).trans (kept n old)⟩

theorem chained_linked {i j : Nat} (early : i ≤ j) (inside : j ≤ w.past.length) {n : Nat}
    (linked : Linked (w.stateAt i).1 (w.stateAt i).2 n) : Linked (w.stateAt j).1 (w.stateAt j).2 n := by
  induction j, early using Nat.le_induction with
  | base => exact linked
  | succ j _ ih =>
      exact move_linked (chained_writerInv chained j (by omega)) (chained.2 j inside) (ih (by omega))

/-- **What a load reads.** A load of a word stored at or before `sync`, where a reader
may stand, reads in any state `p` from `sync` on the value the word has in the state
its acquire synchronises with: every store to it after `sync` is a release. -/
theorem load_source {s p : Nat} (early : s ≤ p) (inside : p ≤ w.past.length) {x : Ref} {level : Nat}
    (stands : Stands (w.stateAt s).1 (w.stateAt s).2 x level) :
    (w.stateAt p).1.next x level = (w.stateAt (max s (acquired w.states x level p))).1.next x level := by
  induction p, early using Nat.le_induction with
  | base => rw [Nat.max_eq_left (acquired_le _ _ _ s)]
  | succ p early ih =>
      have standsHere := chained_stands chained early (by omega) stands
      have stored : w.states.getD p (SkipList.init, none) = w.stateAt p := rfl
      rw [acquired, stored]
      split_ifs with release relaxed
      · rw [Nat.max_eq_right (by omega)]
      · obtain ⟨y, same, pending⟩ := relaxed_pending relaxed
        subst same
        exact absurd pending (standsHere.2.2 level le_rfl)
      · rw [move_next (chained.2 p inside) (fun b => by cases b <;> assumption), ih (by omega)]

/-- **What a load names.** The node a load returns stands, in the state its acquire
synchronises with, where a reader may stand: linked at level 0, tall enough, and with
its forward pointers up to `level` stored. -/
theorem load_stands {s p : Nat} (early : s ≤ p) (inside : p ≤ w.past.length) {x : Ref} {level : Nat}
    (stands : Stands (w.stateAt s).1 (w.stateAt s).2 x level) {n : Nat}
    (points : (w.stateAt p).1.next x level = some n) :
    Stands (w.stateAt (max s (acquired w.states x level p))).1 (w.stateAt (max s (acquired w.states x level p))).2
      (.node n) level := by
  rw [load_source chained early inside stands] at points
  have synced : max s (acquired w.states x level p) ≤ w.past.length :=
    Nat.max_le.mpr ⟨by omega, (acquired_le w.states x level p).trans inside⟩
  obtain ⟨slot, linked, written⟩ := (chained_visible chained synced).targets x level n points
  exact ⟨linked, slot, written⟩

/-- **The inserts begun, in step with the nodes.** In every writer state the keys of
the nodes, then the key of the insert not yet at `NewNode`, are the keys of the inserts
begun before it. -/
theorem chained_keys : ∀ p ≤ w.past.length, (w.stateAt p).1.keys ++ pendingKey (w.stateAt p).2 = w.begunBy p
  | 0, _ => by rw [chained.1]; rfl
  | p + 1, inside => by
      have before := chained_keys p (by omega)
      rw [World.begunBy, List.range_succ, List.filterMap_append, ← World.begunBy, ← before]
      rcases move_cases (chained.2 p inside) with ⟨idle, key, height, prev, -, -, -, after⟩ | ⟨stage, staged, after⟩
      · have began : w.beganAt p = some key := by simp only [World.beganAt, idle, after]
        simp only [List.filterMap_cons, List.filterMap_nil, began, after, idle, pendingKey, List.append_nil]
        rfl
      · have began : w.beganAt p = none := by simp only [World.beganAt, staged]
        simp only [List.filterMap_cons, List.filterMap_nil, began, after, staged, List.append_nil]
        exact writerStep_keys _ stage

/-- A key of an insert returned by state `p` is the key, in `p`, of a node that state
counts as completed. -/
theorem mem_returnedBy {p : Nat} (inside : p ≤ w.past.length) {k : Key} (returned : k ∈ w.returnedBy p) :
    ∃ e < completed (w.stateAt p).1 (w.stateAt p).2, (w.stateAt p).1.keyOf e = k := by
  have keys := chained_keys chained p inside
  rw [World.returnedBy, returnedOf_eq_completed (chained_writerInv chained p inside) keys] at returned
  exact mem_take_completed (chained_visible chained inside) keys le_rfl returned

end Chained

end Rockscopy.SkipList.Weak
