/-
# Rockscopy.SkipList.Trace — the skip list is a sorted list, call by call

`Rockscopy.SkipList.SortedKeys` says what a skip list stands for: a list of keys
sorted by the comparator, into which `Insert(k)` puts `k` before the first key not
less than it. This module makes that the specification of the whole interface.
`SortedList` is the abstract machine: its state is the key list, and each call
answers from it (`SortedList.answer`): `Contains(k)` whether some key compares
equal to `k`, `FindLessThan(k)` the last key before `k`, `FindLast()` the last
key. The skip list's side reads the node a descent returns as its key, `head_` as
no key (`SkipList.answer`), and `SkipList.trace` collects the answers of a run.

* `answer_eq`: in a good state whose level-0 chain carries `keys`, every call
  answers as the abstract machine on `keys`;
* `step_refines`: one call takes the chain's keys to the abstract machine's next
  state;
* `trace_refines_sortedList`: from a fresh list, every run of calls gives the
  answers the abstract machine gives, whatever order the higher levels are in.
* `answers_independent_of_insert_order`: when only equal keys compare equal, two
  runs that insert the same keys, in any order and with any heights, answer every
  later run of calls alike, though their towers differ.
-/
import Rockscopy.SkipList.Reachable

namespace Rockscopy.SkipList

open Batteries

set_option autoImplicit false
set_option linter.dupNamespace false
set_option linter.unusedSectionVars false

/-- What a call returns, a node read as its key: nothing for `Insert`, a flag for
`Contains`, and for `FindLessThan` and `FindLast` a node's key, or none for `head_`. -/
inductive Answer (Key : Type) where
  | inserted
  | found (present : Bool)
  | node (key : Option Key)
deriving DecidableEq, Repr

namespace SortedList

variable {Key : Type} (cmp : Key → Key → Ordering)

/-- The abstract machine's answer to a call, on the sorted key list `keys`. -/
def answer (keys : List Key) : Op Key → Answer Key
  | .insert _ _ => .inserted
  | .contains key => .found (keys.any fun k => cmp key k == .eq)
  | .findLessThan key => .node (keys.filter (Before cmp key)).getLast?
  | .findLast => .node keys.getLast?

/-- The abstract machine's next state: only `Insert` changes the keys. -/
def apply (keys : List Key) : Op Key → List Key
  | .insert key _ => insertKey cmp key keys
  | .contains _ | .findLessThan _ | .findLast => keys

/-- The answers of a run of calls from `keys`. -/
def trace (keys : List Key) : List (Op Key) → List (Answer Key)
  | [] => []
  | op :: ops => answer cmp keys op :: trace (apply cmp keys op) ops

example : trace compare [] [.insert 5 1, .insert 3 2, .findLessThan 5, .contains 4, .findLast] =
    [.inserted, .inserted, .node (some 3), .found false, .node (some 5)] := by decide

theorem apply_eq_insertKeys (keys : List Key) (op : Op Key) :
    apply cmp keys op = insertKeys cmp (insertedKeys [op]) keys := by
  cases op <;> rfl

end SortedList

namespace SkipList

variable {Key : Type} [Inhabited Key] (cmp : Key → Key → Ordering)

/-- The key of the node a descent returns; none for `head_`. -/
def refKey (s : SkipList Key) : Ref → Option Key
  | .head => none
  | .node i => some (s.keyOf i)

/-- A call's answer as the skip list computes it; `none` if a descent runs out of fuel. -/
def answer (s : SkipList Key) : Op Key → Option (Answer Key)
  | .insert _ _ => some .inserted
  | .contains key => (s.contains cmp key).map .found
  | .findLessThan key => (s.findLessThan cmp key s.searchFuel).map fun r => .node (s.refKey r)
  | .findLast => (s.findLast s.searchFuel).map fun r => .node (s.refKey r)

/-- The answers of a run of calls; `none` if one of them runs out of fuel. -/
def trace (s : SkipList Key) : List (Op Key) → Option (List (Answer Key))
  | [] => some []
  | op :: ops => (s.answer cmp op).bind fun a => (s.step cmp op).bind fun s' => (s'.trace ops).map (a :: ·)

theorem refKey_ofLast (s : SkipList Key) (last : Option Nat) : s.refKey (Ref.ofLast last) = last.map s.keyOf := by
  cases last <;> rfl

theorem any_eq_of_perm {α : Type} {l l' : List α} (p : α → Bool) (perm : l.Perm l') : l.any p = l'.any p := by
  rw [Bool.eq_iff_iff, List.any_eq_true, List.any_eq_true]
  exact exists_congr fun a => and_congr_left fun _ => perm.mem_iff

variable {cmp} [TransCmp cmp] {s : SkipList Key}

/-- **One answer.** In a good state whose level-0 chain is `l`, every call answers as
the abstract machine on the keys along `l`. -/
theorem answer_eq (good : Good cmp s) {l : List Nat} (chain : Chain s 0 (s.next .head 0) l) (op : Op Key) :
    s.answer cmp op = some (SortedList.answer cmp (l.map s.keyOf) op) := by
  cases op with
  | insert => rfl
  | contains key =>
      obtain ⟨l0, chain0, every, -⟩ := good.level0
      obtain rfl := chain0.unique chain
      rw [answer, contains_spec good key, keys, any_eq_of_perm _ (every.map s.keyOf).symm]
      rfl
  | findLessThan key =>
      rw [answer, findLessThan_last good chain key le_rfl, Option.map_some', refKey_ofLast, SortedList.answer, List.filter_map,
        List.getLast?_map]
      rfl
  | findLast =>
      rw [answer, findLast_last good chain le_rfl, Option.map_some', refKey_ofLast, SortedList.answer, List.getLast?_map]

/-- **One step.** A call from a good state reaches a good state whose level-0 chain
carries the abstract machine's next keys. -/
theorem step_refines (good : Good cmp s) {l : List Nat} (chain : Chain s 0 (s.next .head 0) l) (op : Op Key)
    (valid : op.HeightInRange) :
    ∃ s' l', s.step cmp op = some s' ∧ Good cmp s' ∧ Chain s' 0 (s'.next .head 0) l' ∧
      l'.map s'.keyOf = SortedList.apply cmp (l.map s.keyOf) op := by
  obtain ⟨s', stepped, good', -, refines⟩ := step_good good op valid
  obtain ⟨l', chain', keys'⟩ := refines l chain
  exact ⟨s', l', stepped, good', chain', by rw [keys', SortedList.apply_eq_insertKeys]⟩

/-- **A whole run.** From a good state whose level-0 chain carries `l`'s keys, a run
gives the answers the abstract machine gives from those keys. -/
theorem trace_eq (ops : List (Op Key)) (valid : ∀ op ∈ ops, op.HeightInRange) :
    ∀ {s : SkipList Key} {l : List Nat}, Good cmp s → Chain s 0 (s.next .head 0) l →
      s.trace cmp ops = some (SortedList.trace cmp (l.map s.keyOf) ops) := by
  induction ops with
  | nil => exact fun _ _ => rfl
  | cons op ops ih =>
      intro s l good chain
      have first := valid op (List.mem_cons_self _ _)
      obtain ⟨s', l', stepped, good', chain', keys'⟩ := step_refines good chain op first
      rw [trace, answer_eq good chain op, Option.some_bind, stepped, Option.some_bind,
        ih (fun op member => valid op (List.mem_cons_of_mem _ member)) good' chain', keys']
      rfl

end SkipList

/-- **The skip list refines the sorted list.** For every total preorder and every run of
`Insert`, `Contains`, `FindLessThan` and `FindLast` calls from `SkipList(cmp, arena)`
whose inserts draw heights `RandomHeight()` may return, no descent runs out of fuel,
and the answers are those of the abstract sorted-list machine started empty: the
higher levels, whatever order the fast path leaves them in, change no answer. -/
theorem trace_refines_sortedList {Key : Type} [Inhabited Key] (cmp : Key → Key → Ordering) [TransCmp cmp]
    (ops : List (Op Key)) (valid : ∀ op ∈ ops, op.HeightInRange) :
    (SkipList.init : SkipList Key).trace cmp ops = some (SortedList.trace cmp [] ops) := by
  have empty : SkipList.Chain (SkipList.init : SkipList Key) 0 ((SkipList.init : SkipList Key).next .head 0) [] := by
    rw [SkipList.next_init]; exact .nil
  exact SkipList.trace_eq ops valid SkipList.good_init empty

theorem trace_refines_sortedList_five_calls :
    (∀ op ∈ ([.insert 5 1, .insert 3 2, .findLessThan 5, .insert 4 3, .findLast] : List (Op Nat)),
      op.HeightInRange) ∧
    (SkipList.init : SkipList Nat).trace compare [.insert 5 1, .insert 3 2, .findLessThan 5, .insert 4 3, .findLast] =
      some (SortedList.trace compare [] [.insert 5 1, .insert 3 2, .findLessThan 5, .insert 4 3, .findLast]) :=
  ⟨by decide, trace_refines_sortedList compare _ (by decide)⟩

/-- **History independence.** For a comparator under which only equal keys compare equal,
two runs from a fresh list that insert the same keys, in any order, with any heights
`RandomHeight()` may return and lookups anywhere between, answer every later run of calls
alike: the towers they built differ, but no answer shows it. -/
theorem answers_independent_of_insert_order {Key : Type} [Inhabited Key] (cmp : Key → Key → Ordering) [TransCmp cmp]
    (antisymm : ∀ a b, cmp a b = .eq → a = b) (ops ops' : List (Op Key))
    (valid : ∀ op ∈ ops, op.HeightInRange) (valid' : ∀ op ∈ ops', op.HeightInRange)
    (same : (insertedKeys ops).Perm (insertedKeys ops')) :
    ∃ s s', (SkipList.init : SkipList Key).run cmp ops = some s ∧ (SkipList.init : SkipList Key).run cmp ops' = some s' ∧
      ∀ later : List (Op Key), (∀ op ∈ later, op.HeightInRange) → s.trace cmp later = s'.trace cmp later := by
  obtain ⟨s, l, ran, good, -, chain, keys⟩ := SkipList.run_refines_insertKeys cmp ops valid
  obtain ⟨s', l', ran', good', -, chain', keys'⟩ := SkipList.run_refines_insertKeys cmp ops' valid'
  refine ⟨s, s', ran, ran', fun later validLater => ?_⟩
  rw [SkipList.trace_eq later validLater good chain, SkipList.trace_eq later validLater good' chain', keys, keys',
    insertKeys_eq_of_perm antisymm same]

theorem answers_independent_of_insert_order_reordered :
    (∀ a b : Nat, compare a b = .eq → a = b) ∧
    (∀ op ∈ ([.insert 5 1, .contains 3, .insert 3 2, .insert 8 1] : List (Op Nat)), op.HeightInRange) ∧
    (∀ op ∈ ([.insert 8 3, .insert 3 1, .insert 5 4] : List (Op Nat)), op.HeightInRange) ∧
    (insertedKeys ([.insert 5 1, .contains 3, .insert 3 2, .insert 8 1] : List (Op Nat))).Perm
      (insertedKeys ([.insert 8 3, .insert 3 1, .insert 5 4] : List (Op Nat))) ∧
    ∃ s s', (SkipList.init : SkipList Nat).run compare [.insert 5 1, .contains 3, .insert 3 2, .insert 8 1] = some s ∧
      (SkipList.init : SkipList Nat).run compare [.insert 8 3, .insert 3 1, .insert 5 4] = some s' ∧
      ∀ later : List (Op Nat), (∀ op ∈ later, op.HeightInRange) → s.trace compare later = s'.trace compare later :=
  ⟨fun _ _ => compare_eq_iff_eq.mp, by decide, by decide, by decide,
    answers_independent_of_insert_order compare (fun _ _ => compare_eq_iff_eq.mp) _ _ (by decide) (by decide) (by decide)⟩

end Rockscopy.SkipList
