/-
# Rockscopy.SkipList.Weak.Linearizable — under release/acquire, still a sequential history

`Rockscopy.SkipList.Concurrent.Linearizable` shows that the lock-free list is the sorted
list of `SortedList`, call for call, when every load reads the newest store. Under
release/acquire a `Contains` may read older states of the writer, so the order in which
calls complete is no longer the order in which they take effect; the writer's history
gives that order. Each call takes effect at one writer state (`Event.point`): an
`Insert` at the state its link at level 0 makes, and a `Contains` at the state its
returning load read, which the semantics keeps no older than the state its reader had
synchronised with. Ordered by those states, the calls are a history of the abstract list.

* `Event`, `World.event`, `World.history`: the calls an interleaving completes, each with
  its answer and the writer state at which it takes effect.
* `publishedBy h p`: the abstract list after the inserts of `h` that took effect by the
  writer state `p`, in the order they did.
* `load_answer`: a load that returns answers as the abstract list of the state it read.
* `step_linearized`, `run_linearized`: every step keeps every writer state carrying
  `publishedBy` at it, and every completed call with the abstract list's answer there.
* `step_unpublished`, `step_answers`: the inserts that take effect are those the writer
  began, in order, but for the one in flight; and the step that completes a `Contains`
  is the load that returns its reader.
* `release_acquire_linearizes`: from a fresh list, every interleaving's history is so,
  its inserts are the inserts begun, and its `Contains` calls are the readers that have
  returned.
-/
import Rockscopy.SkipList.Weak.Readers
import Rockscopy.SkipList.Concurrent.Linearizable

namespace Rockscopy.SkipList.Weak

open Batteries SkipList
open Concurrent (Stage readerStep Carries publishes writerStep_carries result_answer inserts inserts_append unpublishedOf
  writerStep_unpublished filterMap_set_perm filterMap_cons_toList)

set_option autoImplicit false
set_option linter.unusedSectionVars false

variable {Key : Type} [Inhabited Key] {cmp : Key → Key → Ordering}

/-- A call an interleaving completed, with its answer and the writer state at which it
takes effect. -/
structure Event (Key : Type) where
  op : Op Key
  answer : Answer Key
  point : Nat
deriving DecidableEq, Repr

/-- A `Contains` of a history, with its key and answer. -/
def Event.containsCall : Event Key → Option (Key × Bool)
  | ⟨.contains key, .found found, _⟩ => some (key, found)
  | _ => none

/-- A reader that has returned, with its key and answer. -/
def Reader.answer (reader : Reader Key) : Option (Key × Bool) :=
  match reader.pc with
  | .done found => some (reader.key, found)
  | _ => none

/-- The insert an act begins. -/
def Act.insertOp : Act Key → List (Op Key)
  | .insert key height => [.insert key height]
  | .write | .contains _ _ | .read _ _ => []

/-- The inserts an interleaving begins, in order, each with its key and height. -/
def insertOps (acts : List (Act Key)) : List (Op Key) :=
  acts.flatMap Act.insertOp

namespace World

/-- The insert the writer has begun and not yet linked at level 0. -/
def unpublished (w : World Key) : Option (Op Key) :=
  unpublishedOf w.mem w.stage

variable (cmp)

/-- The call a step completes, with its answer and the writer state at which it takes
effect: the writer's link at level 0 completes an `Insert` at the state it makes, and a
reader's load that returns completes its `Contains` at the state it read. -/
def event (w : World Key) : Act Key → Option (Event Key)
  | .write => (publishes w.mem w.stage).map fun inserted =>
      ⟨.insert inserted.1 inserted.2, .inserted, w.past.length + 1⟩
  | .read r p =>
      match w.readers[r]? with
      | some reader =>
          (Concurrent.Reader.result cmp (w.stateAt p).1 ⟨reader.key, reader.pc, 0⟩).map fun found =>
            ⟨.contains reader.key, .found found, p⟩
      | none => none
  | .insert _ _ | .contains _ _ => none

/-- The calls an interleaving completes, in the order they complete, each with its answer
and the writer state at which it takes effect; `none` if a step is not possible. -/
def history (w : World Key) : List (Act Key) → Option (List (Event Key))
  | [] => some []
  | act :: acts => (w.step cmp act).bind fun w' => (w'.history acts).map ((w.event cmp act).toList ++ ·)

end World

variable (cmp) in
/-- The abstract list after the inserts of `h` that take effect by the writer state `p`,
in the order they do. -/
def publishedBy (h : List (Event Key)) (p : Nat) : List Key :=
  ((h.filter fun e => e.point ≤ p).map Event.op).foldl (SortedList.apply cmp) []

variable (cmp) in
/-- The calls `h` are linearized in `w`: every writer state carries the abstract list of
the inserts that took effect by it, and every call took effect at a state that has
happened, with the abstract list's answer there. -/
def Linearized (w : World Key) (h : List (Event Key)) : Prop :=
  (∀ p ≤ w.past.length, Carries (w.stateAt p).1 (publishedBy cmp h p)) ∧
    ∀ e ∈ h, e.point ≤ w.past.length ∧ e.answer = SortedList.answer cmp (publishedBy cmp h e.point) e.op

/-! ## The abstract list at each writer state -/

/-- Calls that take effect after `p` leave the list at `p`. -/
theorem publishedBy_append_of_lt {h evs : List (Event Key)} {p : Nat} (late : ∀ e ∈ evs, p < e.point) :
    publishedBy cmp (h ++ evs) p = publishedBy cmp h p := by
  have gone : evs.filter (fun e => decide (e.point ≤ p)) = [] :=
    List.filter_eq_nil_iff.mpr fun e member => by simpa using late e member
  rw [publishedBy, List.filter_append, gone, List.append_nil]
  rfl

/-- A `Contains` changes the list at no state. -/
theorem publishedBy_append_contains (h : List (Event Key)) (key : Key) (answer : Answer Key) (point p : Nat) :
    publishedBy cmp (h ++ [⟨.contains key, answer, point⟩]) p = publishedBy cmp h p := by
  by_cases late : point ≤ p <;> simp [publishedBy, List.filter_append, late, SortedList.apply]

/-- Once every call of `h` has taken effect, by `n`, the list is the same at every later
state. -/
theorem publishedBy_of_le {h : List (Event Key)} {n p : Nat} (taken : ∀ e ∈ h, e.point ≤ n) (late : n ≤ p) :
    publishedBy cmp h p = publishedBy cmp h n := by
  have same : h.filter (fun e => decide (e.point ≤ p)) = h.filter (fun e => decide (e.point ≤ n)) :=
    List.filter_congr fun e member => by simp [taken e member, (taken e member).trans late]
  rw [publishedBy, publishedBy, same]

/-- A call that takes effect at the next state moves the list there as the abstract list moves. -/
theorem publishedBy_append_next {h : List (Event Key)} {n : Nat} (taken : ∀ e ∈ h, e.point ≤ n) (op : Op Key)
    (answer : Answer Key) :
    publishedBy cmp (h ++ [⟨op, answer, n + 1⟩]) (n + 1) = SortedList.apply cmp (publishedBy cmp h n) op := by
  rw [← publishedBy_of_le taken (Nat.le_succ n)]
  simp [publishedBy, List.filter_append]

/-! ## One step -/

section Linearized

variable [TransCmp cmp]

/-- **A returning load** answers as the abstract list of the state it read. -/
theorem load_answer {w : World Key} (inv : Inv cmp w) {reader : Reader Key} (member : reader ∈ w.readers) {p : Nat}
    (early : reader.sync ≤ p) (inside : p ≤ w.past.length) {keys : List Key} (carries : Carries (w.stateAt p).1 keys)
    {found : Bool} (returned : Concurrent.Reader.result cmp (w.stateAt p).1 ⟨reader.key, reader.pc, 0⟩ = some found) :
    found = keys.any fun k => cmp reader.key k == .eq := by
  obtain ⟨-, now⟩ := inv.2 reader member
  obtain ⟨key, pc, sync⟩ := reader
  have standing : Concurrent.ReaderInv cmp (w.stateAt p).1 (w.stateAt p).2 ⟨key, pc, 0⟩ := by
    refine ⟨Nat.zero_le _, ?_⟩
    cases pc with
    | start => trivial
    | visit x level => exact ⟨chained_stands inv.1 early inside now.1, chained_before inv.1 early inside now.1 now.2⟩
    | done _ => simp [Concurrent.Reader.result] at returned
  exact result_answer (chained_visible inv.1 inside) standing carries returned

/-- A writer step adds one state: when it carries the abstract list of the inserts that
took effect by it, and the calls the step completes take effect at it with the abstract
list's answers, the history stays linearized. -/
theorem grow_linearized {w : World Key} {h evs : List (Event Key)} (lin : Linearized cmp w h) {mem : SkipList Key}
    {stage : Option (Stage Key)} (carries : Carries mem (publishedBy cmp (h ++ evs) (w.past.length + 1)))
    (completes : ∀ e ∈ evs, e.point = w.past.length + 1 ∧
      e.answer = SortedList.answer cmp (publishedBy cmp (h ++ evs) e.point) e.op) :
    Linearized cmp { w with mem := mem, stage := stage, past := w.states } (h ++ evs) := by
  have kept : ∀ {p}, p ≤ w.past.length → publishedBy cmp (h ++ evs) p = publishedBy cmp h p :=
    fun old => publishedBy_append_of_lt fun e member => by rw [(completes e member).1]; omega
  have present : World.stateAt { w with mem := mem, stage := stage, past := w.states } (w.past.length + 1) =
      (mem, stage) := by
    rw [← length_states]; exact stateAt_length _
  have grown : ({ w with mem := mem, stage := stage, past := w.states } : World Key).past.length = w.past.length + 1 :=
    length_states w
  refine ⟨fun p inside => ?_, fun e member => ?_⟩
  · rw [grown] at inside
    rcases Nat.lt_or_eq_of_le inside with old | rfl
    · rw [stateAt_grow w mem stage (by omega), kept (by omega)]
      exact lin.1 p (by omega)
    · rw [present]
      exact carries
  · rw [grown]
    rcases List.mem_append.mp member with old | new
    · obtain ⟨inside, answer⟩ := lin.2 e old
      exact ⟨by omega, by rw [kept inside]; exact answer⟩
    · exact ⟨(completes e new).1.le, (completes e new).2⟩

/-- **One step keeps the history linearized.** -/
theorem step_linearized {w w' : World Key} (inv : Inv cmp w) {h : List (Event Key)} (lin : Linearized cmp w h)
    {act : Act Key} (stepped : w.step cmp act = some w') : Linearized cmp w' (h ++ (w.event cmp act).toList) := by
  have present : Carries w.mem (publishedBy cmp h w.past.length) := by
    have here := lin.1 _ le_rfl
    rwa [stateAt_length] at here
  have taken : ∀ e ∈ h, e.point ≤ w.past.length := fun e member => (lin.2 e member).1
  rcases step_cases stepped with ⟨-, -, prev, rfl, -, -, rfl⟩ | ⟨stage, rfl, staged, rfl⟩ | ⟨-, -, rfl, -, rfl⟩ |
    ⟨r, p, reader, rfl, found, early, late, rfl⟩
  · refine grow_linearized lin ?_ (fun _ never => nomatch never)
    rw [World.event, Option.toList_none, List.append_nil, publishedBy_of_le taken (Nat.le_succ _)]
    exact present.withPrev _
  · have writer : Concurrent.WriterInv cmp w.mem (some stage) := by
      have now := chained_writerInv inv.1 _ le_rfl
      rwa [stateAt_length, staged] at now
    have moved := writerStep_carries writer present
    rw [World.event, staged]
    cases published : publishes w.mem (some stage) with
    | none =>
        rw [published] at moved
        refine grow_linearized lin ?_ (fun _ never => nomatch never)
        rw [Option.map_none', Option.toList_none, List.append_nil, publishedBy_of_le taken (Nat.le_succ _)]
        exact moved
    | some inserted =>
        rw [published] at moved
        refine grow_linearized lin ?_ fun e member => ?_
        · rw [Option.map_some', Option.toList_some, publishedBy_append_next taken]
          exact moved
        · rw [Option.map_some', Option.toList_some, List.mem_singleton.mp member]
          exact ⟨rfl, rfl⟩
  · rw [World.event, Option.toList_none, List.append_nil]
    exact lin
  · rw [World.event, found]
    dsimp only
    cases returned : Concurrent.Reader.result cmp (w.stateAt p).1 ⟨reader.key, reader.pc, 0⟩ with
    | none => rw [Option.map_none', Option.toList_none, List.append_nil]; exact lin
    | some answer =>
        rw [Option.map_some', Option.toList_some]
        obtain ⟨inside, rfl⟩ := List.getElem?_eq_some_iff.mp found
        refine ⟨fun q reached => ?_, fun e member => ?_⟩
        · rw [publishedBy_append_contains]
          exact lin.1 q reached
        · rw [publishedBy_append_contains]
          rcases List.mem_append.mp member with old | new
          · exact lin.2 e old
          · rw [List.mem_singleton.mp new]
            refine ⟨late, ?_⟩
            show Answer.found answer = .found ((publishedBy cmp h p).any fun k => cmp w.readers[r].key k == .eq)
            rw [load_answer inv (List.getElem_mem inside) early late (lin.1 p late) returned]

/-- **One step, the inserts.** The inserts that take effect are those the writer
begins, in order, each with its key and height, and the one begun and not yet linked
at level 0 waits in `unpublished`. -/
theorem step_unpublished {w w' : World Key} (inv : Inv cmp w) {act : Act Key} (stepped : w.step cmp act = some w') :
    inserts ((w.event cmp act).toList.map Event.op) ++ w'.unpublished.toList = w.unpublished.toList ++ act.insertOp := by
  rcases step_cases stepped with ⟨key, height, -, rfl, staged, -, rfl⟩ | ⟨stage, rfl, staged, rfl⟩ | ⟨-, -, rfl, -, rfl⟩ |
    ⟨r, p, reader, rfl, found, -, -, rfl⟩
  · simp only [World.unpublished, unpublishedOf, staged]
    rfl
  · have writer := chained_writerInv inv.1 _ le_rfl
    rw [stateAt_length, staged] at writer
    have moved := writerStep_unpublished writer
    simp only [World.event, World.unpublished, staged, Act.insertOp, List.append_nil]
    revert moved
    cases publishes w.mem (some stage) <;> exact id
  · rw [Act.insertOp, List.append_nil]
    rfl
  · rw [World.event, found, Act.insertOp, List.append_nil]
    dsimp only
    cases Concurrent.Reader.result cmp (w.stateAt p).1 ⟨reader.key, reader.pc, 0⟩ <;> rfl

/-- **One step, the answers.** The step that completes a `Contains` is the load that
returns its reader, with that reader's key and answer; no other step completes one,
and no step takes a returned reader's answer back. -/
theorem step_answers {w w' : World Key} {act : Act Key} (stepped : w.step cmp act = some w') :
    (w.readers.filterMap Reader.answer ++ (w.event cmp act).toList.filterMap Event.containsCall).Perm
      (w'.readers.filterMap Reader.answer) := by
  rcases step_cases stepped with ⟨-, -, -, rfl, -, -, rfl⟩ | ⟨stage, rfl, -, rfl⟩ | ⟨key, sync, rfl, -, rfl⟩ |
    ⟨r, p, reader, rfl, found, -, -, rfl⟩
  · simp [World.event]
  · rw [World.event]
    cases publishes w.mem w.stage <;> simp [Event.containsCall]
  · simp [World.event, Reader.answer]
  · rw [World.event, found]
    have swapped := filterMap_set_perm Reader.answer found (reader.load cmp w.states p)
    obtain ⟨key, pc, sync⟩ := reader
    simp only [Reader.load, World.stateAt] at swapped ⊢
    cases pc with
    | done answer =>
        simpa [Concurrent.Reader.result, readerStep, Reader.answer] using
          ((List.perm_append_right_iff _).mp swapped).symm
    | start => simpa [Reader.answer, Concurrent.Reader.result, readerStep] using swapped.symm
    | visit x level =>
        simp only [Reader.answer, Concurrent.Reader.result] at swapped ⊢
        generalize readerStep cmp (w.states.getD p (SkipList.init, none)).1 key (.visit x level) = next at swapped ⊢
        cases next <;> simpa [Event.containsCall] using swapped.symm

/-- **Every interleaving keeps the history linearized**, takes effect with the inserts
the writer begins, and completes the `Contains` of the readers it returns. -/
theorem run_linearized {w w' : World Key} (inv : Inv cmp w) {h : List (Event Key)} (lin : Linearized cmp w h)
    (acts : List (Act Key)) (valid : ∀ act ∈ acts, act.HeightInRange) (ran : w.run cmp acts = some w') :
    ∃ h', w.history cmp acts = some h' ∧ Linearized cmp w' (h ++ h') ∧
      inserts (h'.map Event.op) ++ w'.unpublished.toList = w.unpublished.toList ++ insertOps acts ∧
      (w.readers.filterMap Reader.answer ++ h'.filterMap Event.containsCall).Perm
        (w'.readers.filterMap Reader.answer) := by
  induction acts generalizing w h with
  | nil =>
      cases ran
      exact ⟨[], rfl, by rw [List.append_nil]; exact lin, by rw [insertOps, List.flatMap_nil, List.append_nil]; rfl,
        by simp⟩
  | cons act acts ih =>
      rw [World.run] at ran
      obtain ⟨w1, stepped, rest⟩ := Option.bind_eq_some.mp ran
      obtain ⟨h', history, lin', inserted, contained⟩ := ih (step_inv inv (valid act (List.mem_cons_self _ _)) stepped)
        (step_linearized inv lin stepped) (fun a member => valid a (List.mem_cons_of_mem _ member)) rest
      refine ⟨(w.event cmp act).toList ++ h', by rw [World.history, stepped, Option.some_bind, history]; rfl,
        by rwa [← List.append_assoc], ?_, ?_⟩
      · rw [insertOps, List.flatMap_cons, ← insertOps, ← List.append_assoc, ← step_unpublished inv stepped,
          List.append_assoc, ← inserted, List.map_append, inserts_append, List.append_assoc]
      · rw [List.filterMap_append, ← List.append_assoc]
        exact ((step_answers stepped).append_right _).trans contained

end Linearized

/-- **Linearizable under release/acquire.** In every interleaving from a fresh list of one
writer's inserts, with heights `RandomHeight()` can return, and any readers' `Contains`,
where every load may read any store the release/acquire semantics allows, each completed
call takes effect at one writer state that has happened: an `Insert` at the state its link
at level 0 makes, a `Contains` at the state its returning load read. Every writer state is
the abstract sorted list of the inserts that took effect by it, in the order they did, and
every call got that list's answer at its state. The inserts take effect in the order the
writer began them, each once, with its own key and height, all but the one in flight
when it has not reached level 0 yet; and the `Contains` calls are the readers that have
returned, each once, with its own key and answer. -/
theorem release_acquire_linearizes (cmp : Key → Key → Ordering) [TransCmp cmp] (acts : List (Act Key))
    (valid : ∀ act ∈ acts, act.HeightInRange) {w : World Key} (ran : World.init.run cmp acts = some w) :
    ∃ h, World.init.history cmp acts = some h ∧
      (∀ p ≤ w.past.length, Carries (w.stateAt p).1 (publishedBy cmp h p)) ∧
      (∀ e ∈ h, e.point ≤ w.past.length ∧ e.answer = SortedList.answer cmp (publishedBy cmp h e.point) e.op) ∧
      (∃ pending : List (Op Key), inserts (h.map Event.op) ++ pending = insertOps acts ∧ pending.length ≤ 1 ∧
        (w.stage = none → pending = [])) ∧
      (h.filterMap Event.containsCall).Perm (w.readers.filterMap Reader.answer) := by
  have start : Linearized cmp (World.init : World Key) [] := by
    refine ⟨fun p inside => ?_, fun _ never => nomatch never⟩
    obtain rfl : p = 0 := Nat.le_zero.mp inside
    exact ⟨[], by rw [show (World.init.stateAt 0 : State Key).1 = SkipList.init from rfl, next_init]; exact .nil, rfl⟩
  obtain ⟨h, history, lin, inserted, contained⟩ := run_linearized inv_init start acts valid ran
  rw [List.nil_append] at lin
  refine ⟨h, history, lin.1, lin.2, ⟨w.unpublished.toList, inserted, ?_, fun idle => ?_⟩, contained⟩
  · cases w.unpublished <;> simp
  · rw [World.unpublished, idle]
    rfl

/-- A `Contains(5)` that began synchronised only with the constructor, still running when
`Insert(5)` completes, reads a state before the link and takes effect there; one
synchronised with the present takes effect at the link's state and finds the key. -/
example : World.init.history compare ([.insert 5 1, .write, .write, .write, .write, .contains 5 0, .read 0 3,
    .read 0 2, .contains 5 5, .read 1 5, .read 1 5] : List (Act Nat)) =
      some [⟨.insert 5 1, .inserted, 5⟩, ⟨.contains 5, .found false, 2⟩, ⟨.contains 5, .found true, 5⟩] := by
  decide

theorem release_acquire_linearizes_stale_contains :
    (∀ act ∈ ([.insert 5 1, .write, .write, .write, .write, .contains 5 0, .read 0 3, .read 0 2] : List (Act Nat)),
      act.HeightInRange) ∧
    ∃ w, World.init.run compare ([.insert 5 1, .write, .write, .write, .write, .contains 5 0, .read 0 3, .read 0 2] :
        List (Act Nat)) = some w ∧
      ∃ h, World.init.history compare ([.insert 5 1, .write, .write, .write, .write, .contains 5 0, .read 0 3,
          .read 0 2] : List (Act Nat)) = some h ∧
        (∀ p ≤ w.past.length, Carries (w.stateAt p).1 (publishedBy compare h p)) ∧
        (∀ e ∈ h, e.point ≤ w.past.length ∧ e.answer = SortedList.answer compare (publishedBy compare h e.point) e.op) ∧
        (∃ pending : List (Op Nat), inserts (h.map Event.op) ++ pending = insertOps ([.insert 5 1, .write, .write,
          .write, .write, .contains 5 0, .read 0 3, .read 0 2] : List (Act Nat)) ∧ pending.length ≤ 1 ∧
          (w.stage = none → pending = [])) ∧
        (h.filterMap Event.containsCall).Perm (w.readers.filterMap Reader.answer) :=
  ⟨by decide, _, rfl,
    release_acquire_linearizes compare [.insert 5 1, .write, .write, .write, .write, .contains 5 0, .read 0 3, .read 0 2]
      (by decide) rfl⟩

end Rockscopy.SkipList.Weak
