/-
# Rockscopy.SkipList.Weak.Steps — the readers under release/acquire

`Rockscopy.SkipList.Concurrent` runs the writer and the readers under sequential
consistency: every load reads the newest store. The code's atomics promise less.
`Node::Next` is an acquire load and `Node::SetNext` a release store;
`NoBarrier_Next`, `NoBarrier_SetNext` and `max_height_`'s load and store are
relaxed; a node's `key` is a plain word, written by `NewNode` and read by
`KeyIsAfterNode` and `Equal`. Under release/acquire a load may return any store
to its word that is not older than the newest store to it the reader has
synchronised with, and an acquire load that reads a release store synchronises
the reader with everything the writer did before that store.

There is one writer, so its program orders every store to a shared word.
`World.past` is the writer's states, one before each of its steps; with the
present state they are `World.states`. A reader carries `sync`, the writer state
it has synchronised with. `Contains` begins with what the caller's own
synchronisation gave it (`Act.contains key sync`), and each load reads its word
in some writer state `p` from `sync` on (`Act.read r p`): the stores to a word
from the newest one before `sync` on are exactly its values in those states. A
load of `x->Next(level)` that reads a release store moves `sync` to the state
after that store (`acquired`). Loads of words the writer has not stored yet are
not excluded: `Rockscopy.SkipList.Weak.Readers` shows that none happens.
-/
import Mathlib.Data.Nat.Defs
import Rockscopy.SkipList.Concurrent.Steps

namespace Rockscopy.SkipList.Weak

open SkipList
open Concurrent (Stage Pc writerStep search readerStep)

set_option autoImplicit false
set_option linter.unusedSectionVars false

/-- A writer state: the memory and the writer's stage. -/
abbrev State (Key : Type) := SkipList Key × Option (Stage Key)

/-- A reader inside `Contains(key)`; `sync` is the writer state it has synchronised with. -/
structure Reader (Key : Type) where
  key : Key
  pc : Pc
  sync : Nat
deriving DecidableEq, Repr

/-- The writer's memory and stage, its states before each of its steps, and the readers. -/
structure World (Key : Type) where
  mem : SkipList Key
  stage : Option (Stage Key)
  past : List (State Key)
  readers : List (Reader Key)
deriving DecidableEq, Repr

/-- One step of an interleaving. -/
inductive Act (Key : Type) where
  /-- the writer begins `Insert(key)`, `RandomHeight()` having drawn `height`: the search -/
  | insert (key : Key) (height : Nat)
  /-- the writer's next step inside `Insert` -/
  | write
  /-- a reader begins `Contains(key)`, synchronised with the writer state `sync` -/
  | contains (key : Key) (sync : Nat)
  /-- the next load of the `r`-th reader, which reads the writer state `p` -/
  | read (r p : Nat)
deriving DecidableEq, Repr

/-- An insert's height is one `RandomHeight()` can return. -/
def Act.HeightInRange {Key : Type} : Act Key → Prop
  | .insert _ height => 0 < height ∧ height ≤ kMaxHeight
  | _ => True

instance {Key : Type} : (act : Act Key) → Decidable act.HeightInRange
  | .insert _ height => inferInstanceAs (Decidable (0 < height ∧ height ≤ kMaxHeight))
  | .write => isTrue trivial
  | .contains _ _ => isTrue trivial
  | .read _ _ => isTrue trivial

variable {Key : Type} [Inhabited Key] (cmp : Key → Key → Ordering)

/-- The pointer word a writer step stores to, and whether with release:
`x->NoBarrier_SetNext(level, _)` is relaxed, `prev_[level]->SetNext(level, x)` a release. -/
def pointerStore (state : State Key) : Option (Ref × Nat × Bool) :=
  match state.2 with
  | some (.setSucc x _ level) => some (.node x, level, false)
  | some (.link _ _ level) => some (state.1.prev.getD level .head, level, true)
  | _ => none

/-- The writer state an acquire load of `x->Next(level)` reading state `p` synchronises
with: the state after the newest store to the word before `p`, when that store is a
release; `0`, the constructor's state, when it is relaxed or there is none. -/
def acquired (states : List (State Key)) (x : Ref) (level : Nat) : Nat → Nat
  | 0 => 0
  | p + 1 =>
      if pointerStore (states.getD p (SkipList.init, none)) = some (x, level, true) then p + 1
      else if pointerStore (states.getD p (SkipList.init, none)) = some (x, level, false) then 0
      else acquired states x level p

/-- The reader after its next load reads the writer state `p`: one turn of `Contains`'s
loop on that state, and for `x->Next(level)` the synchronisation its acquire brings. -/
def Reader.load (states : List (State Key)) (p : Nat) (reader : Reader Key) : Reader Key :=
  { reader with
    pc := readerStep cmp (states.getD p (SkipList.init, none)).1 reader.key reader.pc
    sync :=
      match reader.pc with
      | .visit x level => max reader.sync (acquired states x level p)
      | _ => reader.sync }

namespace World

/-- A fresh list, the writer between inserts, no past, and no reader. -/
def init : World Key :=
  ⟨SkipList.init, none, [], []⟩

/-- The writer's states so far, the present one last. -/
def states (w : World Key) : List (State Key) :=
  w.past ++ [(w.mem, w.stage)]

/-- The writer state `p`. -/
def stateAt (w : World Key) (p : Nat) : State Key :=
  w.states.getD p (SkipList.init, none)

/-- One step; `none` when the step is not possible: an insert begun inside an insert, a
writer step between inserts, a reader that does not exist, a synchronisation with a
state that has not happened, or a load of a state before the reader's `sync` or after the
present. -/
def step (w : World Key) : Act Key → Option (World Key)
  | .insert key height =>
      match w.stage with
      | none => (search cmp w.mem key).map fun mem =>
          { w with mem := mem, stage := some (.store key height), past := w.states }
      | some _ => none
  | .write => w.stage.map fun stage =>
      { w with mem := (writerStep w.mem stage).1, stage := (writerStep w.mem stage).2, past := w.states }
  | .contains key sync =>
      if sync ≤ w.past.length then some { w with readers := w.readers ++ [⟨key, .start, sync⟩] } else none
  | .read r p =>
      match w.readers[r]? with
      | some reader =>
          if reader.sync ≤ p ∧ p ≤ w.past.length then
            some { w with readers := w.readers.set r (reader.load cmp w.states p) }
          else none
      | none => none

/-- An interleaving of steps. -/
def run (w : World Key) : List (Act Key) → Option (World Key)
  | [] => some w
  | act :: acts => (w.step cmp act).bind fun w => w.run acts

end World

/-! ## The writer's states -/

variable {cmp}

theorem length_states (w : World Key) : w.states.length = w.past.length + 1 := by
  simp [World.states]

theorem stateAt_length (w : World Key) : w.stateAt w.past.length = (w.mem, w.stage) := by
  simp [World.stateAt, World.states]

/-- A writer step keeps every state there was. -/
theorem stateAt_grow (w : World Key) (mem : SkipList Key) (stage : Option (Stage Key)) {p : Nat}
    (old : p ≤ w.past.length) : World.stateAt { w with mem := mem, stage := stage, past := w.states } p = w.stateAt p := by
  simp only [World.stateAt, World.states]
  rw [List.getD_append _ _ _ _ (by simp; omega)]

theorem acquired_le (states : List (State Key)) (x : Ref) (level : Nat) : ∀ p, acquired states x level p ≤ p
  | 0 => Nat.le_refl 0
  | p + 1 => by
      have := acquired_le states x level p
      unfold acquired
      split_ifs <;> omega

theorem World.run_append (w : World Key) (first rest : List (Act Key)) :
    w.run cmp (first ++ rest) = (w.run cmp first).bind fun w => w.run cmp rest := by
  induction first generalizing w with
  | nil => rfl
  | cons act first ih =>
      simp only [List.cons_append, World.run]
      cases w.step cmp act with
      | none => rfl
      | some w => exact ih w

/-! ## What one step can do -/

/-- Begin an insert between inserts, its search moving only `prev_`; take the writer's
next step inside one; start a reader synchronised with a state there has been; or take
a reader's next load, of a state from its `sync` to the present. Each writer step pushes
the state before it onto the past. -/
theorem step_cases {w w' : World Key} {act : Act Key} (stepped : w.step cmp act = some w') :
    (∃ key height prev, act = .insert key height ∧ w.stage = none ∧
        search cmp w.mem key = some { w.mem with prev := prev } ∧
        w' = { w with mem := { w.mem with prev := prev }, stage := some (.store key height), past := w.states }) ∨
      (∃ stage, act = .write ∧ w.stage = some stage ∧
        w' = { w with mem := (writerStep w.mem stage).1, stage := (writerStep w.mem stage).2, past := w.states }) ∨
      (∃ key sync, act = .contains key sync ∧ sync ≤ w.past.length ∧
        w' = { w with readers := w.readers ++ [⟨key, .start, sync⟩] }) ∨
      ∃ r p reader, act = .read r p ∧ w.readers[r]? = some reader ∧ reader.sync ≤ p ∧ p ≤ w.past.length ∧
        w' = { w with readers := w.readers.set r (reader.load cmp w.states p) } := by
  cases act with
  | insert key height =>
      cases staged : w.stage with
      | some _ => rw [World.step, staged] at stepped; cases stepped
      | none =>
          rw [World.step, staged] at stepped
          obtain ⟨mem, searched, rfl⟩ := Option.map_eq_some'.mp stepped
          obtain ⟨prev, rfl⟩ := Concurrent.search_prev searched
          exact .inl ⟨key, height, prev, rfl, rfl, searched, rfl⟩
  | write =>
      cases staged : w.stage with
      | none => rw [World.step, staged] at stepped; cases stepped
      | some stage =>
          rw [World.step, staged] at stepped
          exact .inr (.inl ⟨stage, rfl, rfl, (Option.some.inj stepped).symm⟩)
  | contains key sync =>
      rw [World.step] at stepped
      split_ifs at stepped with happened
      exact .inr (.inr (.inl ⟨key, sync, rfl, happened, (Option.some.inj stepped).symm⟩))
  | read r p =>
      rw [World.step] at stepped
      cases found : w.readers[r]? with
      | none => rw [found] at stepped; cases stepped
      | some reader =>
          rw [found] at stepped
          dsimp only at stepped
          split_ifs at stepped with loadable
          exact .inr (.inr (.inr ⟨r, p, reader, rfl, found, loadable.1, loadable.2, (Option.some.inj stepped).symm⟩))

end Rockscopy.SkipList.Weak
