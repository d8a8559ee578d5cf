/-
# Rockscopy.SkipList.Concurrent.Steps — one writer and lock-free readers, step by step

The skip list's thread-safety comment: writes need external synchronisation, so
there is one writer at a time; reads need none. This module cuts `Insert` and
`Contains` into the single-word steps they are made of and lets the writer and
any number of readers interleave them, under sequential consistency.

The writer's `Insert(key)` is
* the search `FindGreatOrEqual(key, prev_)`, one step: it only reads, and only
  the writer writes, so no other step can change what it reads;
* `Stage.store`: `prev_[i] = head_` for the new levels and the store of
  `max_height_`, when the height is above it;
* `Stage.alloc`: `NewNode(key, height)`, which writes the key and leaves the
  forward pointers unwritten;
* for each level `i` below the height, `Stage.setSucc`, the store of the new
  node's level-`i` successor (`setSucc`), and `Stage.link`, the store in
  `prev_[i]->next_[i]` that links it; `prev_[0] = x` belongs to the writer alone
  and goes with the last link.

A reader's `Contains(key)` runs the loop of `FindGreatOrEqual(key, nullptr)`
one turn a step: `GetMaxHeight()`, then `x->Next(level)` together with the key
of the node it names, which no step writes after `NewNode`; at level 0 the turn
that stops also makes `Contains`'s test.

`Pending` says which forward pointers the writer has not written yet, and
`Linked` which nodes the writer has linked at level 0; both are read off the
writer's stage. Two things in a world are not the code's, and no step reads them:
`World.begun`, the keys of the inserts the writer has begun, in order, recorded
when each `Insert` begins; and in each reader, how many of those inserts had
returned when its `Contains` began. `Rockscopy.SkipList.Concurrent.Readers` states
what a `Contains` returns in terms of them.
-/
import Rockscopy.SkipList.Basic

namespace Rockscopy.SkipList.Concurrent

open SkipList

set_option autoImplicit false
set_option linter.unusedSectionVars false

/-- The writer's next step inside `Insert`, once the search has filled `prev_`. -/
inductive Stage (Key : Type) where
  /-- raise `max_height_` to `height` if it is below -/
  | store (key : Key) (height : Nat)
  /-- `x = NewNode(key, height)` -/
  | alloc (key : Key) (height : Nat)
  /-- `x->NoBarrier_SetNext(level, prev_[level]->NoBarrier_Next(level))` -/
  | setSucc (x height level : Nat)
  /-- `prev_[level]->SetNext(level, x)` -/
  | link (x height level : Nat)
deriving DecidableEq, Repr

/-- Where a `Contains(key)` is. -/
inductive Pc where
  /-- about to read `max_height_` -/
  | start
  /-- at `x` on `level`, about to read `x->Next(level)` -/
  | visit (x : Ref) (level : Nat)
  /-- returned `found` -/
  | done (found : Bool)
deriving DecidableEq, Repr

/-- A reader inside `Contains(key)`; the first `completedBefore` inserts begun had returned
when it began. -/
structure Reader (Key : Type) where
  key : Key
  pc : Pc
  completedBefore : Nat
deriving DecidableEq, Repr

/-- The shared list, the writer's stage (`none` between inserts), the readers, and the
keys of the inserts the writer has begun, in order. -/
structure World (Key : Type) where
  mem : SkipList Key
  stage : Option (Stage Key)
  readers : List (Reader Key)
  begun : List Key
deriving DecidableEq, Repr

/-- One step of an interleaving. -/
inductive Act (Key : Type) where
  /-- the writer begins `Insert(key)`, `RandomHeight()` having drawn `height`: the search -/
  | insert (key : Key) (height : Nat)
  /-- the writer's next step inside `Insert` -/
  | write
  /-- a reader begins `Contains(key)` -/
  | contains (key : Key)
  /-- the next step of the `r`-th reader -/
  | read (r : Nat)
deriving DecidableEq, Repr

/-- An insert's height is one `RandomHeight()` can return. -/
def Act.HeightInRange {Key : Type} : Act Key → Prop
  | .insert _ height => 0 < height ∧ height ≤ kMaxHeight
  | _ => True

instance {Key : Type} : (act : Act Key) → Decidable act.HeightInRange
  | .insert _ height => inferInstanceAs (Decidable (0 < height ∧ height ≤ kMaxHeight))
  | .write => isTrue trivial
  | .contains _ => isTrue trivial
  | .read _ => isTrue trivial

variable {Key : Type} [Inhabited Key] (cmp : Key → Key → Ordering)

/-! ## The writer -/

/-- `x->NoBarrier_SetNext(i, prev_[i]->NoBarrier_Next(i))`: the first half of a turn of the linking loop. -/
def setSucc (s : SkipList Key) (x i : Nat) : SkipList Key :=
  s.setNext (.node x) i (s.next (s.prev.getD i .head) i)

theorem link_eq_setSucc (s : SkipList Key) (x i : Nat) :
    s.link x i = (setSucc s x i).setNext (s.prev.getD i .head) i (some x) := rfl

/-- `Node* x = FindGreatOrEqual(key, prev_)`: the search that begins `Insert`. -/
def search (s : SkipList Key) (key : Key) : Option (SkipList Key) := do
  let (_, prev) ← s.findGreatOrEqual cmp key (some s.prev) s.searchFuel
  pure { s with prev := prev.getD s.prev }

/-- The writer's next step, and its stage after it: `none` once `Insert` has returned. -/
def writerStep (s : SkipList Key) : Stage Key → SkipList Key × Option (Stage Key)
  | .store key height => (if height > s.maxHeight then s.raise height else s, some (.alloc key height))
  | .alloc key height =>
      let x := s.nodes.length
      let s := s.newNode key height
      if 0 < height then (s, some (.setSucc x height 0)) else ({ s with prev := s.prev.set 0 (.node x) }, none)
  | .setSucc x height level => (setSucc s x level, some (.link x height level))
  | .link x height level =>
      let s := s.setNext (s.prev.getD level .head) level (some x)
      if level + 1 < height then (s, some (.setSucc x height (level + 1)))
      else ({ s with prev := s.prev.set 0 (.node x) }, none)

/-- How many inserts have completed: every node but the one the writer is linking. -/
def completed (s : SkipList Key) : Option (Stage Key) → Nat
  | some (.setSucc x _ _) => x
  | some (.link x _ _) => x
  | _ => s.nodes.length

/-- The forward pointer at `level` of node `x` has not been written yet. -/
def Pending : Option (Stage Key) → Nat → Nat → Prop
  | some (.setSucc y _ l), x, level => x = y ∧ l ≤ level
  | some (.link y _ l), x, level => x = y ∧ l < level
  | _, _, _ => False

/-- Node `x` is linked at level 0: its insert completed, or got past the first link. -/
def Linked (s : SkipList Key) (stage : Option (Stage Key)) (x : Nat) : Prop :=
  x < completed s stage ∨
    match stage with
    | some (.setSucc y _ l) => x = y ∧ 0 < l
    | some (.link y _ l) => x = y ∧ 0 < l
    | _ => False

/-! ## The readers -/

/-- A reader's next step: one turn of the loop of `FindGreatOrEqual(key, nullptr)`,
and at the stop `x != nullptr && Equal(key, x->key)`. -/
def readerStep (s : SkipList Key) (key : Key) : Pc → Pc
  | .start => .visit .head (s.maxHeight - 1)
  | .visit x level =>
      let next := s.next x level
      match next, s.keyIsAfterNode cmp key next with
      | some n, true => .visit (.node n) level
      | _, _ =>
          if level = 0 then .done (next.any fun n => cmp key (s.keyOf n) == .eq) else .visit x (level - 1)
  | .done found => .done found

/-- What one turn of a reader's loop does: it moves right to the node `x->Next(level)`
names when that node is before its key, and otherwise goes down a level or, on
level 0, returns. -/
theorem readerStep_visit (s : SkipList Key) (key : Key) (x : Ref) (level : Nat) :
    (∃ n, s.next x level = some n ∧ s.keyIsAfterNode cmp key (some n) = true ∧
        readerStep cmp s key (.visit x level) = .visit (.node n) level) ∨
      (s.keyIsAfterNode cmp key (s.next x level) = false ∧
        readerStep cmp s key (.visit x level) =
          if level = 0 then .done ((s.next x level).any fun n => cmp key (s.keyOf n) == .eq)
          else .visit x (level - 1)) := by
  cases points : s.next x level with
  | none => exact .inr ⟨rfl, by simp only [readerStep, points]⟩
  | some n =>
      cases after : s.keyIsAfterNode cmp key (some n) with
      | true => exact .inl ⟨n, rfl, after, by simp only [readerStep, points, after]⟩
      | false => exact .inr ⟨rfl, by simp only [readerStep, points, after]⟩

/-! ## Interleavings -/

/-- How many of `begun` inserts begun have returned, read off the writer's stage: all of
them between inserts, all but the one in progress inside one. -/
def returnedOf (stage : Option (Stage Key)) (begun : Nat) : Nat :=
  match stage with
  | none => begun
  | some _ => begun - 1

namespace World

/-- A fresh list, the writer between inserts, no reader, and no insert begun. -/
def init : World Key :=
  ⟨SkipList.init, none, [], []⟩

/-- How many of the inserts begun have returned. -/
def returned (w : World Key) : Nat :=
  returnedOf w.stage w.begun.length

/-- One step; `none` when the step is not possible: an insert begun inside an
insert, a writer step between inserts, a reader that does not exist, or a search
out of fuel. -/
def step (w : World Key) : Act Key → Option (World Key)
  | .insert key height =>
      match w.stage with
      | none => (search cmp w.mem key).map fun mem =>
          { w with mem := mem, stage := some (.store key height), begun := w.begun ++ [key] }
      | some _ => none
  | .write => w.stage.map fun stage => { w with mem := (writerStep w.mem stage).1, stage := (writerStep w.mem stage).2 }
  | .contains key => some { w with readers := w.readers ++ [⟨key, .start, w.returned⟩] }
  | .read r =>
      w.readers[r]?.map fun reader =>
        { w with readers := w.readers.set r { reader with pc := readerStep cmp w.mem reader.key reader.pc } }

/-- An interleaving of steps. -/
def run (w : World Key) : List (Act Key) → Option (World Key)
  | [] => some w
  | act :: acts => (w.step cmp act).bind fun w => w.run acts

end World

/-! ## What one step can do -/

variable {cmp} in
/-- The search that begins `Insert` moves only `prev_`. -/
theorem search_prev {s s' : SkipList Key} {key : Key} (searched : search cmp s key = some s') :
    ∃ prev, s' = { s with prev := prev } := by
  obtain ⟨⟨_, _⟩, -, found⟩ := Option.bind_eq_some.mp searched
  cases found
  exact ⟨_, rfl⟩

variable {cmp} in
/-- What one step can do: begin an insert between inserts, its search moving only `prev_`;
take the writer's next step inside one; start a reader; or take a reader's next turn. -/
theorem step_cases {w w' : World Key} {act : Act Key} (stepped : w.step cmp act = some w') :
    (∃ key height prev, act = .insert key height ∧ w.stage = none ∧
        search cmp w.mem key = some { w.mem with prev := prev } ∧
        w' = { w with mem := { w.mem with prev := prev }, stage := some (.store key height), begun := w.begun ++ [key] }) ∨
      (∃ stage, act = .write ∧ w.stage = some stage ∧
        w' = { w with mem := (writerStep w.mem stage).1, stage := (writerStep w.mem stage).2 }) ∨
      (∃ key, act = .contains key ∧ w' = { w with readers := w.readers ++ [⟨key, .start, w.returned⟩] }) ∨
      ∃ r reader, act = .read r ∧ w.readers[r]? = some reader ∧
        w' = { w with readers := w.readers.set r { reader with pc := readerStep cmp w.mem reader.key reader.pc } } := by
  cases act with
  | insert key height =>
      cases staged : w.stage with
      | some _ => rw [World.step, staged] at stepped; cases stepped
      | none =>
          rw [World.step, staged] at stepped
          obtain ⟨mem, searched, rfl⟩ := Option.map_eq_some'.mp stepped
          obtain ⟨prev, rfl⟩ := search_prev searched
          exact .inl ⟨key, height, prev, rfl, rfl, searched, rfl⟩
  | write =>
      cases staged : w.stage with
      | none => rw [World.step, staged] at stepped; cases stepped
      | some stage =>
          rw [World.step, staged] at stepped
          exact .inr (.inl ⟨stage, rfl, rfl, (Option.some.inj stepped).symm⟩)
  | contains key => exact .inr (.inr (.inl ⟨key, rfl, (Option.some.inj stepped).symm⟩))
  | read r =>
      obtain ⟨reader, found, rfl⟩ := Option.map_eq_some'.mp stepped
      exact .inr (.inr (.inr ⟨r, reader, rfl, found, rfl⟩))

/-! ## What a writer step leaves alone -/

section Frame

variable (s : SkipList Key)

@[simp] theorem setSucc_nodes_length (x i : Nat) : (setSucc s x i).nodes.length = s.nodes.length := by
  simp [setSucc]

@[simp] theorem setSucc_keyOf (x i j : Nat) : (setSucc s x i).keyOf j = s.keyOf j := by
  simp [setSucc]

@[simp] theorem setSucc_slots (x i : Nat) (y : Ref) : (setSucc s x i).slots y = s.slots y := by
  simp [setSucc]

@[simp] theorem setSucc_prev (x i : Nat) : (setSucc s x i).prev = s.prev := by
  simp [setSucc]

@[simp] theorem setSucc_maxHeight (x i : Nat) : (setSucc s x i).maxHeight = s.maxHeight := by
  simp [setSucc]

@[simp] theorem setSucc_head_length (x i : Nat) : (setSucc s x i).head.length = s.head.length := by
  simp [setSucc]

/-- A writer step only adds nodes, keeps the key and height of every node there
was, and keeps `head_`'s `kMaxHeight` pointers. -/
theorem writerStep_frame (stage : Stage Key) :
    s.nodes.length ≤ (writerStep s stage).1.nodes.length ∧ (writerStep s stage).1.head.length = s.head.length ∧
      ∀ j < s.nodes.length,
        (writerStep s stage).1.keyOf j = s.keyOf j ∧ (writerStep s stage).1.slots (.node j) = s.slots (.node j) := by
  have new : ∀ (key : Key) (height j : Nat), j < s.nodes.length →
      (s.newNode key height).keyOf j = s.keyOf j ∧ (s.newNode key height).slots (.node j) = s.slots (.node j) :=
    fun key height j old => ⟨keyOf_newNode _ _ _ old, slots_newNode _ _ _ _ fun same => by
      cases same; exact Nat.lt_irrefl _ old⟩
  cases stage with
  | store key height =>
      simp only [writerStep]
      split_ifs
      · exact ⟨Nat.le_refl _, rfl, fun _ _ => ⟨rfl, rfl⟩⟩
      · exact ⟨Nat.le_refl _, rfl, fun _ _ => ⟨rfl, rfl⟩⟩
  | alloc key height =>
      simp only [writerStep]
      split_ifs
      · exact ⟨by simp, by simp [newNode], new key height⟩
      · exact ⟨by simp [newNode], by simp [newNode], new key height⟩
  | setSucc x height level => exact ⟨by simp [writerStep], by simp [writerStep], fun j _ => by simp [writerStep]⟩
  | link x height level =>
      simp only [writerStep]
      split_ifs
      · exact ⟨by simp, by simp, fun j _ => by simp⟩
      · exact ⟨Nat.le_of_eq (nodes_length_setNext ..).symm, head_length_setNext .., fun j _ =>
          ⟨keyOf_setNext .., slots_setNext _ _ _ _ (.node j)⟩⟩

end Frame

end Rockscopy.SkipList.Concurrent
