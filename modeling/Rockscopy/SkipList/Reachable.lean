/-
# Rockscopy.SkipList.Reachable — what holds after any run from a fresh list

`Rockscopy.SkipList.Insert` proves that a fresh list is good and that every call
keeps a list good. This module packages that into what holds of every state a
run of `Insert`, `Contains`, `FindLessThan` and `FindLast` calls from
`SkipList(cmp, arena)` reaches, for every total preorder `cmp` and every height
`RandomHeight()` may return.

* `run_refines_insertKeys`: the keys of the level-0 chain are what the abstract
  model `insertKeys` makes of the inserted keys.
* `level0_chain_sorted_complete`: the level-0 chain is finite and acyclic, sorted,
  and holds one node per `Insert`, carrying that call's key.
* `level1_chain_unsorted_after_fast_path`: the higher levels are not kept
  sorted; two inserts of height 2 in increasing order link the second before the
  first at level 1.
* `fastPath_keeps_stale_prev`: the fast path returns the node the full descent
  would, but keeps `prev_[1 ..]` from the last insert where the descent would
  record the predecessors of the new key.
* `lookups_follow_level0_chain`: the three descents and `Contains` answer from the
  level-0 chain, whatever order the higher levels are in.
-/
import Rockscopy.SkipList.Insert

namespace Rockscopy.SkipList

open Batteries

set_option autoImplicit false
set_option linter.dupNamespace false
set_option linter.unusedSectionVars false

namespace SkipList

variable {Key : Type} [Inhabited Key]

/-- **The pointer model refines the sorted-list model**: after a run, the keys
along the level-0 chain are the inserted keys put in one by one with `insertKey`. -/
theorem run_refines_insertKeys (cmp : Key → Key → Ordering) [TransCmp cmp] (ops : List (Op Key))
    (valid : ∀ op ∈ ops, op.HeightInRange) :
    ∃ s l, (init : SkipList Key).run cmp ops = some s ∧ Good cmp s ∧ s.keys = insertedKeys ops ∧
      Chain s 0 (s.next .head 0) l ∧ l.map s.keyOf = insertKeys cmp (insertedKeys ops) [] := by
  obtain ⟨s, ran, good, keys, refines⟩ := run_good (good_init : Good cmp init) ops valid
  obtain ⟨l, chain, mapped⟩ := refines [] (by rw [next_init]; exact .nil)
  exact ⟨s, l, ran, good, keys, chain, mapped⟩

/-- **The level-0 invariant over whole runs.** From a fresh list, after any run
whose inserts draw heights in `[1, kMaxHeight]`, the level-0 chain from `head_`
is a finite list of distinct nodes, sorted by the comparator; it holds each node
once, node `i` being the one the `i`-th `Insert` allocated, with that call's key,
so its keys are the inserted keys up to order. -/
theorem level0_chain_sorted_complete (cmp : Key → Key → Ordering) [TransCmp cmp] (ops : List (Op Key))
    (valid : ∀ op ∈ ops, op.HeightInRange) :
    ∃ s l, (init : SkipList Key).run cmp ops = some s ∧ Chain s 0 (s.next .head 0) l ∧ l.Nodup ∧
      Sorted cmp (l.map s.keyOf) ∧ l.Perm (List.range (insertedKeys ops).length) ∧
      s.keys = insertedKeys ops ∧ (l.map s.keyOf).Perm (insertedKeys ops) := by
  obtain ⟨s, l, ran, good, keys, chain, mapped⟩ := run_refines_insertKeys cmp ops valid
  obtain ⟨l0, chain0, every, -⟩ := good.level0
  obtain rfl := chain0.unique chain
  have count : s.nodes.length = (insertedKeys ops).length := by
    rw [← keys, SkipList.keys, List.length_map, List.length_range]
  refine ⟨s, l0, ran, chain0, chain0.nodup, ?_, count ▸ every, keys, ?_⟩
  · rw [mapped]; exact sorted_insertKeys _ List.Pairwise.nil
  · rw [mapped]; exact insertKeys_perm cmp _ _

theorem level0_chain_sorted_complete_five_calls :
    (∀ op ∈ ([.insert 5 1, .insert 3 2, .insert 8 1, .contains 3, .insert 1 3] : List (Op Nat)), op.HeightInRange) ∧
    ∃ s l, (init : SkipList Nat).run compare [.insert 5 1, .insert 3 2, .insert 8 1, .contains 3, .insert 1 3] =
        some s ∧ Chain s 0 (s.next .head 0) l ∧ l.Nodup ∧ Sorted compare (l.map s.keyOf) ∧
      l.Perm (List.range (insertedKeys [.insert 5 1, .insert 3 2, .insert 8 1, .contains 3, .insert 1 3]).length) ∧
      s.keys = insertedKeys [.insert 5 1, .insert 3 2, .insert 8 1, .contains 3, .insert 1 3] ∧
      (l.map s.keyOf).Perm (insertedKeys [.insert 5 1, .insert 3 2, .insert 8 1, .contains 3, .insert 1 3]) :=
  ⟨by decide, level0_chain_sorted_complete compare _ (by decide)⟩

/-- **The higher levels are not kept sorted.** The fast path of `FindGreatOrEqual`
returns without refreshing `prev_[1 ..]`, so the second of two inserts of height
2, with the larger key, is linked at level 1 right after `head_`, before the
first: the level-1 chain is out of order and is not a subsequence of the level-0
chain. -/
theorem level1_chain_unsorted_after_fast_path :
    ∃ s, (init : SkipList Nat).run compare [.insert 1 2, .insert 2 2] = some s ∧ 1 < s.maxHeight ∧
      Chain s 0 (s.next .head 0) [0, 1] ∧ Chain s 1 (s.next .head 1) [1, 0] ∧
      ¬ Sorted compare ([1, 0].map s.keyOf) ∧ ¬ ([1, 0] : List Nat).Sublist [0, 1] := by
  refine ⟨_, rfl, by decide, .cons (by decide) (.cons (by decide) .nil), .cons (by decide) (.cons (by decide) .nil),
    ?_, by decide⟩
  unfold Sorted
  decide

/-- **The fast path leaves `prev_` stale.** After `Insert(1)` at height 2, the call
`FindGreatOrEqual(2, prev_)` that `Insert(2)` makes takes the fast path: it returns the
node the full descent from `head_` returns (none: `2` is after every key), but it leaves
`prev_[1] = head_`, where the full descent records the node of key 1, the last node before
`2` at level 1. -/
theorem fastPath_keeps_stale_prev :
    ∃ s p p', (init : SkipList Nat).run compare [.insert 1 2] = some s ∧ 1 < s.maxHeight ∧
      s.findGreatOrEqual compare 2 (some s.prev) s.searchFuel = some (none, some p) ∧
      s.descend (fun _ => true) (s.keyIsAfterNode compare 2) s.searchFuel .head (s.maxHeight - 1) (some s.prev) =
        some (.node 0, none, some p') ∧
      p.getD 1 .head = .head ∧ p'.getD 1 .head = .node 0 := by
  refine ⟨_, _, _, rfl, by decide, rfl, rfl, ?_, ?_⟩ <;> decide

/-- **Lookups in every reachable state.** After any run from a fresh list,
`FindGreatOrEqual(key, nullptr)` returns the first node of the level-0 chain not
before `key`, `FindLessThan(key)` the last node before `key` or `head_` (its
assertion never failing), `FindLast()` the last node or `head_`, and `Contains(key)`
whether some inserted key compares equal to `key`. Nothing is assumed of the
higher levels. -/
theorem lookups_follow_level0_chain (cmp : Key → Key → Ordering) [TransCmp cmp] (ops : List (Op Key))
    (valid : ∀ op ∈ ops, op.HeightInRange) :
    ∃ s l, (init : SkipList Key).run cmp ops = some s ∧ Chain s 0 (s.next .head 0) l ∧
      ∀ key fuel, s.searchFuel ≤ fuel →
        s.findGreatOrEqual cmp key none fuel = some (l.find? (fun j => !Before cmp key (s.keyOf j)), none) ∧
        s.findLessThan cmp key fuel = some (Ref.ofLast (l.filter fun j => Before cmp key (s.keyOf j)).getLast?) ∧
        s.findLast fuel = some (Ref.ofLast l.getLast?) ∧
        s.contains cmp key = some ((insertedKeys ops).any fun k => cmp key k == .eq) := by
  obtain ⟨s, l, ran, good, keys, chain, -⟩ := run_refines_insertKeys cmp ops valid
  refine ⟨s, l, ran, chain, fun key fuel enough => ⟨findGreatOrEqual_first good chain key enough,
    findLessThan_last good chain key enough, findLast_last good chain enough, ?_⟩⟩
  rw [contains_spec good key, keys]

theorem lookups_follow_level0_chain_five_calls :
    (∀ op ∈ ([.insert 5 1, .insert 3 2, .insert 8 1, .contains 3, .insert 1 3] : List (Op Nat)), op.HeightInRange) ∧
    ∃ s l, (init : SkipList Nat).run compare [.insert 5 1, .insert 3 2, .insert 8 1, .contains 3, .insert 1 3] =
        some s ∧ Chain s 0 (s.next .head 0) l ∧
      ∀ key fuel, s.searchFuel ≤ fuel →
        s.findGreatOrEqual compare key none fuel = some (l.find? (fun j => !Before compare key (s.keyOf j)), none) ∧
        s.findLessThan compare key fuel =
          some (Ref.ofLast (l.filter fun j => Before compare key (s.keyOf j)).getLast?) ∧
        s.findLast fuel = some (Ref.ofLast l.getLast?) ∧
        s.contains compare key =
          some ((insertedKeys [.insert 5 1, .insert 3 2, .insert 8 1, .contains 3, .insert 1 3]).any
            fun k => compare key k == .eq) :=
  ⟨by decide, lookups_follow_level0_chain compare _ (by decide)⟩

end SkipList

end Rockscopy.SkipList
