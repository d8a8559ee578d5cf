/-
# Rockscopy.SkipList.Concurrent.Refinement — every interleaving refines the sequential list

`contains_under_one_writer` says what each reader sees. This module says what
the writer leaves behind. A reader's steps read and never write, so they change
neither the list nor the writer's stage, and the writer's steps run as they
would alone; by `run_insert`, each insert then ends where the sequential
`Insert` ends.

`Tracks ops w` relates a world to the calls `ops` of the sequential list: either
the writer is between inserts and the memory is the list `ops` leave, or the
writer is part way into the last insert of `ops`, and its steps so far, taken
alone from the list the calls before it leave, reach `w`.

* `finish_pending`: part way into an insert, the writer's remaining steps end
  where the sequential `Insert` ends; so the writer is busy until its last step.
* `step_tracks`, `run_tracks`: every step keeps `Tracks`, so every interleaving
  does. A reader's step keeps it because `Tracks` reads the readers only through
  the writer's steps, which carry them unchanged (`run_writer_readers`).
* `interleaving_refines_sequential`: after any interleaving from a fresh list,
  the sequential list, given the inserts in the order the writer began them,
  ends at a list `s`; the writer, left alone, reaches `s` within
  `2 * kMaxHeight + 2` steps and changes nothing else; and whenever the writer
  is between inserts, the memory is `s`.
-/
import Rockscopy.SkipList.Concurrent.Writer

namespace Rockscopy.SkipList.Concurrent

open Batteries SkipList

set_option autoImplicit false
set_option linter.unusedSectionVars false

variable {Key : Type} [Inhabited Key] {cmp : Key → Key → Ordering} [TransCmp cmp]

/-- The sequential call a step stands for: the insert the writer begins, and no call for
the writer's later steps or a reader's. -/
def Act.insertOp : Act Key → List (Op Key)
  | .insert key height => [.insert key height]
  | .write => []
  | .contains _ => []
  | .read _ => []

/-- The inserts an interleaving begins, in order, as calls of the sequential list. -/
def insertOps (acts : List (Act Key)) : List (Op Key) :=
  acts.flatMap Act.insertOp

/-- The writer's steps: beginning an insert, and each step inside it. -/
def Act.Writes : Act Key → Prop
  | .insert _ _ => True
  | .write => True
  | .contains _ => False
  | .read _ => False

/-! ## Runs -/

theorem World.run_append (w : World Key) (first rest : List (Act Key)) :
    w.run cmp (first ++ rest) = (w.run cmp first).bind fun w => w.run cmp rest := by
  induction first generalizing w with
  | nil => rfl
  | cons act first ih =>
      simp only [List.cons_append, World.run]
      cases w.step cmp act with
      | none => rfl
      | some w => exact ih w

theorem run_ops_append (s : SkipList Key) (first rest : List (Op Key)) :
    s.run cmp (first ++ rest) = (s.run cmp first).bind fun s => s.run cmp rest := by
  induction first generalizing s with
  | nil => rfl
  | cons op first ih =>
      simp only [List.cons_append, SkipList.run]
      cases s.step cmp op with
      | none => rfl
      | some s => exact ih s

/-- The sequential list after one more insert. -/
theorem run_snoc_insert {done : List (Op Key)} {s s' : SkipList Key} {key : Key} {height : Nat}
    (ran : SkipList.init.run cmp done = some s) (inserted : s.insert cmp key height = some s') :
    SkipList.init.run cmp (done ++ [.insert key height]) = some s' := by
  rw [run_ops_append, ran, Option.some_bind, SkipList.run, SkipList.step, inserted]
  rfl

variable (cmp) in
/-- The writer's steps read only the memory and the stage, and carry the readers along. -/
theorem step_writer_readers (w : World Key) (r : List (Reader Key)) {act : Act Key} (writes : act.Writes) :
    { w with readers := r }.step cmp act = (w.step cmp act).map fun w => { w with readers := r } := by
  obtain ⟨mem, stage, readers, begun⟩ := w
  cases act with
  | insert key height => cases stage <;> simp only [World.step, Option.map_map] <;> rfl
  | write => cases stage <;> rfl
  | contains _ => exact writes.elim
  | read _ => exact writes.elim

variable (cmp) in
theorem run_writer_readers (r : List (Reader Key)) (acts : List (Act Key)) (writes : ∀ act ∈ acts, act.Writes)
    (w : World Key) :
    { w with readers := r }.run cmp acts = (w.run cmp acts).map fun w => { w with readers := r } := by
  induction acts generalizing w with
  | nil => rfl
  | cons act acts ih =>
      rw [World.run, World.run, step_writer_readers cmp w r (writes act (List.mem_cons_self _ _))]
      cases w.step cmp act with
      | none => rfl
      | some w => exact ih (fun act member => writes act (List.mem_cons_of_mem _ member)) w

/-- One insert: its search, then its writer steps. -/
theorem block_writes (key : Key) (height j : Nat) :
    ∀ act ∈ (.insert key height :: List.replicate j .write : List (Act Key)), act.Writes := by
  intro act member
  rcases List.mem_cons.mp member with rfl | later
  · trivial
  · rw [List.eq_of_mem_replicate later]; trivial

/-! ## Part way into an insert -/

/-- **The writer finishes what it began.** From a good list with the writer between
inserts, after the search and `j ≤ 2 * height + 2` of its steps, the remaining
`2 * height + 2 - j` steps end where the sequential `Insert` ends. -/
theorem finish_pending {w₀ w : World Key} (good : Good cmp w₀.mem) (idle : w₀.stage = none) {key : Key}
    {height j : Nat} (low : 0 < height) (high : height ≤ kMaxHeight) (partway : j ≤ 2 * height + 2)
    (ran : w₀.run cmp (.insert key height :: List.replicate j .write) = some w) :
    ∃ s', w₀.mem.insert cmp key height = some s' ∧ Good cmp s' ∧
      w.run cmp (List.replicate (2 * height + 2 - j) .write) =
        some { w₀ with mem := s', stage := none, begun := w₀.begun ++ [key] } := by
  obtain ⟨s', inserted, good', -⟩ := insert_spec good key low high
  have split : List.replicate (2 * height + 2) (Act.write : Act Key) =
      List.replicate j .write ++ List.replicate (2 * height + 2 - j) .write := by
    rw [← List.replicate_add, Nat.add_sub_cancel' partway]
  have full := run_insert good idle key low high
  rw [inserted, Option.map_some', split, ← List.cons_append, World.run_append, ran, Option.some_bind] at full
  exact ⟨s', inserted, good', full⟩

/-- Until its last step, the writer is inside the insert: no other insert can begin. -/
theorem pending_busy {w₀ w : World Key} (good : Good cmp w₀.mem) (idle : w₀.stage = none) {key : Key}
    {height j : Nat} (low : 0 < height) (high : height ≤ kMaxHeight) (partway : j < 2 * height + 2)
    (ran : w₀.run cmp (.insert key height :: List.replicate j .write) = some w) : w.stage ≠ none := by
  intro stopped
  obtain ⟨s', -, -, finish⟩ := finish_pending good idle low high partway.le ran
  rw [show 2 * height + 2 - j = (2 * height + 2 - j - 1) + 1 by omega, List.replicate_succ, World.run,
    World.step, stopped] at finish
  cases finish

/-! ## The invariant -/

variable (cmp) in
/-- A world after the calls `ops` of the sequential list, begun from a fresh list: the
writer is between inserts and the memory is the good list `ops` leave; or the last call of
`ops` is an insert the writer is `j` steps into, begun on the good list the calls before it
leave, after the inserts `begun` records before it, and those steps, taken alone with the
readers `w` has, reach `w`. -/
def Tracks (ops : List (Op Key)) (w : World Key) : Prop :=
  (w.stage = none ∧ Good cmp w.mem ∧ SkipList.init.run cmp ops = some w.mem) ∨
  ∃ done key height j s b, ops = done ++ [.insert key height] ∧ 0 < height ∧ height ≤ kMaxHeight ∧
    j < 2 * height + 2 ∧ Good cmp s ∧ SkipList.init.run cmp done = some s ∧ w.begun = b ++ [key] ∧
    { w with mem := s, stage := none, begun := b }.run cmp (.insert key height :: List.replicate j .write) = some w

theorem tracks_init : Tracks cmp [] (World.init : World Key) :=
  .inl ⟨rfl, (good_init : Good cmp _), rfl⟩

/-- `Tracks` reads the readers only through the writer's steps, which carry them along. -/
theorem Tracks.withReaders {ops : List (Op Key)} {w : World Key} (tracks : Tracks cmp ops w)
    (r : List (Reader Key)) : Tracks cmp ops { w with readers := r } := by
  rcases tracks with idle | ⟨done, key, height, j, s, b, rfl, low, high, partway, good, ran, last, block⟩
  · exact .inl idle
  · refine .inr ⟨done, key, height, j, s, b, rfl, low, high, partway, good, ran, last, ?_⟩
    have moved := run_writer_readers cmp r _ (block_writes key height j) { w with mem := s, stage := none, begun := b }
    rw [block, Option.map_some'] at moved
    exact moved

/-- What the calls `ops` leave, and how the writer gets there: with its remaining steps, at
most `2 * kMaxHeight + 2` of them, and none if it is between inserts. -/
theorem Tracks.finish {ops : List (Op Key)} {w : World Key} (tracks : Tracks cmp ops w) :
    ∃ s, SkipList.init.run cmp ops = some s ∧ (w.stage = none → w.mem = s) ∧
      ∃ n, n ≤ 2 * kMaxHeight + 2 ∧ w.run cmp (List.replicate n .write) = some { w with mem := s, stage := none } := by
  obtain ⟨mem, stage, readers, begun⟩ := w
  rcases tracks with ⟨idle, -, ran⟩ | ⟨done, key, height, j, s, b, rfl, low, high, partway, good, ran, last, block⟩
  · subst idle
    exact ⟨mem, ran, fun _ => rfl, 0, Nat.zero_le _, rfl⟩
  · obtain ⟨s', inserted, -, finish⟩ := finish_pending good rfl low high partway.le block
    dsimp only at last
    subst last
    exact ⟨s', run_snoc_insert ran inserted, fun idle => absurd idle (pending_busy good rfl low high partway block),
      _, by omega, finish⟩

/-! ## Every step keeps it -/

/-- The writer begins an insert only between inserts, and from there `Tracks` moves to the
new insert, zero steps in. -/
theorem insert_tracks {ops : List (Op Key)} {w w' : World Key} (tracks : Tracks cmp ops w) {key : Key}
    {height : Nat} (valid : 0 < height ∧ height ≤ kMaxHeight) (stepped : w.step cmp (.insert key height) = some w') :
    Tracks cmp (ops ++ [.insert key height]) w' := by
  obtain ⟨mem, stage, readers, begun⟩ := w
  rcases tracks with ⟨idle, good, ran⟩ | ⟨done, key', height', j, s, b, rfl, low, high, partway, good, ran, -, block⟩
  · subst idle
    obtain ⟨m, -, rfl⟩ := Option.map_eq_some'.mp stepped
    refine .inr ⟨ops, key, height, 0, mem, begun, rfl, valid.1, valid.2, by omega, good, ran, rfl, ?_⟩
    rw [List.replicate_zero, World.run, stepped]
    rfl
  · obtain ⟨current, staged⟩ := Option.ne_none_iff_exists'.mp (pending_busy good rfl low high partway block)
    subst staged
    simp [World.step] at stepped

/-- A writer step moves `Tracks` one step further into the insert, and back between
inserts, at the list the sequential `Insert` leaves, after the last step. -/
theorem write_tracks {ops : List (Op Key)} {w w' : World Key} (tracks : Tracks cmp ops w)
    (stepped : w.step cmp .write = some w') : Tracks cmp ops w' := by
  rcases tracks with ⟨idle, -⟩ | ⟨done, key, height, j, s, b, rfl, low, high, partway, good, ran, last, block⟩
  · rw [World.step, idle] at stepped
    cases stepped
  · obtain ⟨stage, staged⟩ := Option.ne_none_iff_exists'.mp (pending_busy good rfl low high partway block)
    rw [step_write staged] at stepped
    cases stepped
    have block' : { w with mem := s, stage := none, begun := b }.run cmp (.insert key height :: List.replicate (j + 1) .write) =
        some { w with mem := (writerStep w.mem stage).1, stage := (writerStep w.mem stage).2 } := by
      rw [List.replicate_succ', ← List.cons_append, World.run_append, block, Option.some_bind, World.run,
        step_write staged]
      rfl
    by_cases more : j + 1 < 2 * height + 2
    · exact .inr ⟨done, key, height, j + 1, s, b, rfl, low, high, more, good, ran, last, block'⟩
    · obtain ⟨s', inserted, good', finish⟩ := finish_pending good rfl low high (by omega) block'
      rw [show 2 * height + 2 - (j + 1) = 0 by omega] at finish
      have finished := Option.some.inj finish
      refine .inl ⟨congrArg World.stage finished, by rwa [congrArg World.mem finished], ?_⟩
      rw [congrArg World.mem finished]
      exact run_snoc_insert ran inserted

/-- **Every step keeps `Tracks`**, with the sequential list given the insert a step begins. -/
theorem step_tracks {ops : List (Op Key)} {w w' : World Key} (tracks : Tracks cmp ops w) {act : Act Key}
    (valid : act.HeightInRange) (stepped : w.step cmp act = some w') : Tracks cmp (ops ++ act.insertOp) w' := by
  cases act with
  | insert key height => exact insert_tracks tracks valid stepped
  | write => rw [Act.insertOp, List.append_nil]; exact write_tracks tracks stepped
  | contains key =>
      cases stepped
      rw [Act.insertOp, List.append_nil]
      exact tracks.withReaders _
  | read r =>
      obtain ⟨reader, -, rfl⟩ := Option.map_eq_some'.mp stepped
      rw [Act.insertOp, List.append_nil]
      exact tracks.withReaders _

theorem run_tracks {ops : List (Op Key)} {w w' : World Key} (tracks : Tracks cmp ops w) (acts : List (Act Key))
    (valid : ∀ act ∈ acts, act.HeightInRange) (ran : w.run cmp acts = some w') :
    Tracks cmp (ops ++ insertOps acts) w' := by
  induction acts generalizing ops w with
  | nil => cases ran; rw [insertOps, List.flatMap_nil, List.append_nil]; exact tracks
  | cons act acts ih =>
      rw [World.run] at ran
      obtain ⟨w₁, stepped, rest⟩ := Option.bind_eq_some.mp ran
      have next := ih (step_tracks tracks (valid act (List.mem_cons_self _ _)) stepped)
        (fun act member => valid act (List.mem_cons_of_mem _ member)) rest
      rw [insertOps, List.flatMap_cons, ← List.append_assoc]
      exact next

/-- **Every interleaving refines the sequential list.** After any interleaving of the
writer's and the readers' steps from a fresh list, with any total preorder and any heights
`RandomHeight()` may return, the sequential list, given the inserts in the order the writer
began them, ends at a list `s`. Whenever the writer is between inserts the memory is `s`;
and otherwise the writer, left alone, reaches `s` within `2 * kMaxHeight + 2` steps,
changing nothing else. The readers never change what the writer builds. -/
theorem interleaving_refines_sequential (cmp : Key → Key → Ordering) [TransCmp cmp] (acts : List (Act Key))
    (valid : ∀ act ∈ acts, act.HeightInRange) {w : World Key} (ran : World.init.run cmp acts = some w) :
    ∃ s, SkipList.init.run cmp (insertOps acts) = some s ∧ (w.stage = none → w.mem = s) ∧
      ∃ n, n ≤ 2 * kMaxHeight + 2 ∧ w.run cmp (List.replicate n .write) = some { w with mem := s, stage := none } :=
  (run_tracks tracks_init acts valid ran).finish

/-- Three of the four writer steps of an insert done, a reader started and stepped between
them: one step later the writer is between inserts, at the sequential list. -/
theorem interleaving_refines_sequential_mid_insert :
    (∀ act ∈ ([.insert 5 1, .write, .contains 5, .write, .read 0, .write] : List (Act Nat)), act.HeightInRange) ∧
    ∃ w, World.init.run compare ([.insert 5 1, .write, .contains 5, .write, .read 0, .write] : List (Act Nat)) =
        some w ∧
      ∃ s, SkipList.init.run compare (insertOps ([.insert 5 1, .write, .contains 5, .write, .read 0, .write] :
          List (Act Nat))) = some s ∧ (w.stage = none → w.mem = s) ∧
        ∃ n, n ≤ 2 * kMaxHeight + 2 ∧ w.run compare (List.replicate n .write) = some { w with mem := s, stage := none } :=
  ⟨by decide, (World.init.run compare [.insert 5 1, .write, .contains 5, .write, .read 0, .write]).getD World.init,
    by decide, interleaving_refines_sequential compare _ (by decide) (by decide)⟩

end Rockscopy.SkipList.Concurrent
