/-
# Rockscopy.SkipList.Weak.Readers — `Contains` under release/acquire

A reader that loads a stale value is not lost: the node it reads was published by a
release store its acquire synchronises with, or already stood where a reader may
stand in the state the reader had synchronised with. So every load reads a pointer
word the writer has stored, below the height of its node, and names a node whose key
is written in the state the load synchronises with; and a `Contains` finds every key
whose insert had returned in the state it synchronised with, and only keys of inserts
begun and linked in the state its returning load read.

* `ReaderInv`: a reader's `sync` is a state that has happened; where it stands, in
  that state, is before its key; and once it has returned, its answer agrees with the
  nodes completed in that state and linked now.
* `load_returns`: what a load that returns answers.
* `load_inv`: a load keeps the invariant, whichever state from `sync` on it reads.
* `run_inv`: every interleaving from a fresh list keeps the writer's states a run of
  the writer, and every reader's invariant.
* `release_acquire_readers`: no load reads an unwritten word or a key its reader has
  not synchronised with, and every `Contains`, returning or returned, answers as
  `Agrees` says, in terms of the inserts begun and returned (`World.begunBy`,
  `World.returnedBy`).
* `sequential_interleavings_embed`: every interleaving of the sequentially
  consistent model is one here, in which every `Contains` begins synchronised with
  the present and every load reads it.
-/
import Rockscopy.SkipList.Weak.History

namespace Rockscopy.SkipList.Weak

open Batteries SkipList
open Concurrent (Stage Pc writerStep search readerStep readerStep_visit Linked Pending Stands Visible
  completed stop_answer getElem?_begun visible_of_writerInv)

set_option autoImplicit false
set_option linter.unusedSectionVars false

variable {Key : Type} [Inhabited Key] {cmp : Key → Key → Ordering}

variable (cmp) in
/-- What holds of a reader: its `sync` is a writer state that has happened; where it
stands, in that state, is before its key; and once it has returned `found`, `found` is
`true` if a node the state `sync` counts as completed has a key equal to its key, and
only if a node linked at level 0 now has. -/
def ReaderInv (w : World Key) (r : Reader Key) : Prop :=
  r.sync ≤ w.past.length ∧
    match r.pc with
    | .start => True
    | .visit x level =>
        Stands (w.stateAt r.sync).1 (w.stateAt r.sync).2 x level ∧
          (w.stateAt r.sync).1.headOrBefore cmp r.key x = true
    | .done found =>
        ((∃ e < completed (w.stateAt r.sync).1 (w.stateAt r.sync).2,
            cmp r.key ((w.stateAt r.sync).1.keyOf e) = .eq) → found = true) ∧
          (found = true → ∃ j, Linked w.mem w.stage j ∧ cmp r.key (w.mem.keyOf j) = .eq)

variable (cmp) in
/-- The invariant of a world: the writer's states are a run of the writer, and every
reader keeps its invariant. -/
def Inv (w : World Key) : Prop :=
  Chained cmp w ∧ ∀ r ∈ w.readers, ReaderInv cmp w r

theorem load_visit (states : List (State Key)) (p : Nat) (key : Key) (x : Ref) (level sync : Nat) :
    (⟨key, .visit x level, sync⟩ : Reader Key).load cmp states p =
      ⟨key, readerStep cmp (states.getD p (SkipList.init, none)).1 key (.visit x level),
        max sync (acquired states x level p)⟩ := rfl

section Safety

variable [TransCmp cmp]

/-! ## A load -/

/-- One level down at the same node is a place a reader may stand. -/
theorem stands_lower {s : SkipList Key} {stage : Option (Stage Key)} {x : Ref} {level : Nat}
    (stands : Stands s stage x level) : Stands s stage x (level - 1) := by
  cases x with
  | head => exact Nat.lt_of_le_of_lt (Nat.sub_le _ _) stands
  | node j => exact ⟨stands.1, by have := stands.2.1; omega, fun below low => stands.2.2 below (by omega)⟩

section Load

variable {w : World Key} (chained : Chained cmp w)
include chained

/-- A place before a reader's key stays before it in every later state. -/
theorem chained_before {i j : Nat} (early : i ≤ j) (inside : j ≤ w.past.length) {key : Key} {x : Ref}
    {level : Nat} (stands : Stands (w.stateAt i).1 (w.stateAt i).2 x level)
    (before : (w.stateAt i).1.headOrBefore cmp key x = true) : (w.stateAt j).1.headOrBefore cmp key x = true := by
  cases x with
  | head => rfl
  | node n =>
      have old := (chained_visible chained (by omega)).allocated stands.1
      simp only [headOrBefore] at before ⊢
      rw [(chained_keyOf chained early inside).2 n old]
      exact before

/-- A node linked at level 0 stays linked, with its key, in every later state. -/
theorem chained_linked_key {i j : Nat} (early : i ≤ j) (inside : j ≤ w.past.length) {key : Key} {n : Nat}
    (linked : Linked (w.stateAt i).1 (w.stateAt i).2 n) (same : cmp key ((w.stateAt i).1.keyOf n) = .eq) :
    Linked (w.stateAt j).1 (w.stateAt j).2 n ∧ cmp key ((w.stateAt j).1.keyOf n) = .eq := by
  have allocated := (chained_visible chained (early.trans inside)).allocated linked
  rw [(chained_keyOf chained early inside).2 n allocated]
  exact ⟨chained_linked chained early inside linked, same⟩

/-- **What a returning load answers.** A load of state `p`, from the reader's `sync`
on, that returns `found`: `found` is `true` if a node of a key equal to the reader's is
completed in any state `q` from `sync` to `p`, and only if one is linked at level 0 in
`p`. -/
theorem load_returns {r : Reader Key} (inv : ReaderInv cmp w r) {p : Nat} (early : r.sync ≤ p)
    (inside : p ≤ w.past.length) (running : ∀ f, r.pc ≠ .done f) {found : Bool}
    (returns : readerStep cmp (w.stateAt p).1 r.key r.pc = .done found) {q : Nat} (synced : r.sync ≤ q)
    (read : q ≤ p) :
    ((∃ e < completed (w.stateAt q).1 (w.stateAt q).2, cmp r.key ((w.stateAt q).1.keyOf e) = .eq) →
        found = true) ∧
      (found = true → ∃ j, Linked (w.stateAt p).1 (w.stateAt p).2 j ∧ cmp r.key ((w.stateAt p).1.keyOf j) = .eq) := by
  obtain ⟨key, pc, s⟩ := r
  obtain ⟨-, now⟩ := inv
  cases pc with
  | start => cases returns
  | done f => exact absurd rfl (running f)
  | visit x level =>
      obtain ⟨stands, before⟩ := now
      have visible := chained_visible chained inside
      rcases readerStep_visit cmp (w.stateAt p).1 key x level with ⟨n, -, -, moved⟩ | ⟨stays, stopped⟩
      · rw [moved] at returns; cases returns
      · rw [stopped] at returns
        split_ifs at returns with bottom
        subst bottom
        cases returns
        refine ⟨fun ⟨e, done, same⟩ => ?_, fun yes => ?_⟩
        · obtain ⟨linked, same⟩ := chained_linked_key chained read inside (.inl done) same
          exact stop_answer visible (chained_stands chained early inside stands)
            (chained_before chained early inside stands before) stays linked same
        · cases points : (w.stateAt p).1.next x 0 with
          | none => rw [points] at yes; cases yes
          | some n =>
              rw [points] at yes
              exact ⟨n, (visible.targets x 0 n points).2.1, by simpa using yes⟩

/-- **A load keeps a reader's invariant**, whichever state from its `sync` on it reads. -/
theorem load_inv {r : Reader Key} (inv : ReaderInv cmp w r) {p : Nat} (early : r.sync ≤ p)
    (inside : p ≤ w.past.length) : ReaderInv cmp w (r.load cmp w.states p) := by
  obtain ⟨key, pc, s⟩ := r
  obtain ⟨synced, now⟩ := inv
  have visible := chained_visible chained inside
  cases pc with
  | start =>
      refine ⟨synced, ?_, rfl⟩
      show (w.stateAt p).1.maxHeight - 1 < kMaxHeight
      have := visible.maxHeightLe
      have := visible.maxHeightPos
      omega
  | visit x level =>
      obtain ⟨stands, before⟩ := now
      have within : max s (acquired w.states x level p) ≤ w.past.length :=
        Nat.max_le.mpr ⟨synced, (acquired_le w.states x level p).trans inside⟩
      have later : s ≤ max s (acquired w.states x level p) := Nat.le_max_left _ _
      rw [load_visit]
      rcases readerStep_visit cmp (w.stateAt p).1 key x level with ⟨n, points, after, moved⟩ | ⟨-, stopped⟩
      · rw [show (w.states.getD p (SkipList.init, none)).1 = (w.stateAt p).1 from rfl, moved]
        have target := load_stands chained early inside stands points
        have old := (chained_visible chained within).allocated target.1
        refine ⟨within, target, ?_⟩
        simp only [headOrBefore]
        rw [← (chained_keyOf chained (Nat.max_le.mpr ⟨early, acquired_le w.states x level p⟩) inside).2 n old]
        exact after
      · rw [show (w.states.getD p (SkipList.init, none)).1 = (w.stateAt p).1 from rfl, stopped]
        split_ifs with bottom
        · subst bottom
          obtain ⟨complete, sound⟩ := load_returns chained ⟨synced, stands, before⟩ early inside
            (fun _ never => nomatch never) (by rw [stopped, if_pos rfl]) later
            (Nat.max_le.mpr ⟨early, acquired_le w.states x 0 p⟩)
          refine ⟨within, complete, fun yes => ?_⟩
          obtain ⟨j, linked, same⟩ := sound yes
          have present := chained_linked_key chained inside le_rfl linked same
          rw [stateAt_length] at present
          exact ⟨j, present⟩
        · exact ⟨within, chained_stands chained later within (stands_lower stands),
            chained_before chained later within stands before⟩
  | done _ => exact ⟨synced, now⟩

end Load

/-! ## Interleavings -/

theorem inv_init : Inv cmp (World.init : World Key) :=
  ⟨⟨rfl, fun _ inside => absurd inside (Nat.not_lt_zero _)⟩, fun _ member => nomatch member⟩

/-- A writer step from the present to `(mem, stage)` keeps the invariant: the states
the readers have synchronised with stay as they were. -/
theorem grow_inv {w : World Key} (inv : Inv cmp w) {mem : SkipList Key} {stage : Option (Stage Key)}
    (move : Move cmp (w.mem, w.stage) (mem, stage)) :
    Inv cmp { w with mem := mem, stage := stage, past := w.states } := by
  obtain ⟨⟨start, moves⟩, readers⟩ := inv
  have longer : (World.past { w with mem := mem, stage := stage, past := w.states }).length = w.past.length + 1 :=
    length_states w
  refine ⟨⟨by rw [stateAt_grow _ _ _ (Nat.zero_le _)]; exact start, fun i inside => ?_⟩, fun r member => ?_⟩
  · rw [longer] at inside
    rw [stateAt_grow _ _ _ (by omega)]
    rcases Nat.lt_or_ge i w.past.length with old | present
    · rw [stateAt_grow _ _ _ (by omega)]
      exact moves i old
    · obtain rfl : i = w.past.length := by omega
      rw [stateAt_length, ← longer, stateAt_length]
      exact move
  · obtain ⟨synced, now⟩ := readers r member
    refine ⟨by rw [longer]; omega, ?_⟩
    obtain ⟨key, _ | ⟨x, level⟩ | found, sync⟩ := r
    · trivial
    · rw [stateAt_grow _ _ _ synced]
      exact now
    · obtain ⟨complete, sound⟩ := now
      have writer := chained_writerInv ⟨start, moves⟩ _ le_rfl
      rw [stateAt_length] at writer
      refine ⟨by rw [stateAt_grow _ _ _ synced]; exact complete, fun yes => ?_⟩
      obtain ⟨j, linked, same⟩ := sound yes
      have allocated := (visible_of_writerInv writer).allocated linked
      exact ⟨j, move_linked writer move linked, by rw [(move_keyOf move).2 j allocated]; exact same⟩

/-- **Every step keeps the invariant.** -/
theorem step_inv {w w' : World Key} (inv : Inv cmp w) {act : Act Key} (valid : act.HeightInRange)
    (stepped : w.step cmp act = some w') : Inv cmp w' := by
  rcases step_cases stepped with ⟨key, height, _, rfl, staged, found, rfl⟩ | ⟨stage, rfl, staged, rfl⟩ |
    ⟨key, sync, rfl, happened, rfl⟩ | ⟨i, p, reader, rfl, found, early, late, rfl⟩
  · exact grow_inv inv (.inl ⟨staged, key, height, valid.1, valid.2, by rw [found]; rfl⟩)
  · exact grow_inv inv (.inr ⟨stage, staged, rfl⟩)
  · refine ⟨inv.1, fun r member => ?_⟩
    rcases List.mem_append.mp member with old | new
    · exact inv.2 r old
    · rw [List.mem_singleton.mp new]
      exact ⟨happened, trivial⟩
  · refine ⟨inv.1, fun r member => ?_⟩
    rcases List.mem_or_eq_of_mem_set member with old | rfl
    · exact inv.2 r old
    · obtain ⟨inside, rfl⟩ := List.getElem?_eq_some_iff.mp found
      exact load_inv inv.1 (inv.2 _ (List.getElem_mem inside)) early late

/-- **Every interleaving keeps the invariant.** -/
theorem run_inv {w w' : World Key} (inv : Inv cmp w) (acts : List (Act Key))
    (valid : ∀ act ∈ acts, act.HeightInRange) (ran : w.run cmp acts = some w') : Inv cmp w' := by
  induction acts generalizing w with
  | nil => cases ran; exact inv
  | cons act acts ih =>
      rw [World.run] at ran
      obtain ⟨w₁, stepped, rest⟩ := Option.bind_eq_some.mp ran
      exact ih (step_inv inv (valid act (List.mem_cons_self _ _)) stepped)
        (fun act member => valid act (List.mem_cons_of_mem _ member)) rest

/-! ## Lock-free readers under release/acquire -/

/-- Every load a reader can make next reads a word the writer has stored at or before
the state the reader has synchronised with. A reader about to start reads
`max_height_`, in any state from its `sync` on, a height at which `head_` has a forward
pointer. A reader visiting `x` on `level` reads a pointer word of `head_`, or of an
allocated node, below its height; and the node it names, whichever state from `sync`
on the load reads, is allocated in the state the load synchronises with, so the key the
reader reads with it was written before. A reader that has returned reads nothing. -/
def LoadsWritten (w : World Key) : Prop :=
  ∀ r ∈ w.readers,
    (r.pc = .start → ∀ p, r.sync ≤ p → p ≤ w.past.length →
      0 < (w.stateAt p).1.maxHeight ∧ (w.stateAt p).1.maxHeight ≤ (w.stateAt p).1.head.length) ∧
    ∀ x level, r.pc = .visit x level →
      (x = .head ∧ level < (w.stateAt r.sync).1.head.length ∨
        ∃ j, x = .node j ∧ j < (w.stateAt r.sync).1.nodes.length ∧ level < (w.stateAt r.sync).1.slots x ∧
          ¬ Pending (w.stateAt r.sync).2 j level) ∧
      ∀ p, r.sync ≤ p → p ≤ w.past.length → ∀ n, (w.stateAt p).1.next x level = some n →
        n < (w.stateAt (max r.sync (acquired w.states x level p))).1.nodes.length

variable (cmp) in
/-- A `Contains(key)` synchronised with the writer state `sync` that returns `found`,
read against the state `p`, answers as the inserts say: `true` if an insert of a key
equal to `key` had returned in `sync`, and only if one was begun by `p` whose node is
linked at level 0 in `p`. -/
def Agrees (w : World Key) (key : Key) (sync p : Nat) (found : Bool) : Prop :=
  ((∃ k ∈ w.returnedBy sync, cmp key k = .eq) → found = true) ∧
    (found = true → ∃ e k, Linked (w.stateAt p).1 (w.stateAt p).2 e ∧ (w.begunBy p)[e]? = some k ∧ cmp key k = .eq)

variable (cmp) in
/-- The answer of every `Contains`: one that has returned agrees with the inserts read
against the present; one whose next load, of any writer state `p` from its `sync` on,
returns, agrees with them read against `p`. -/
def AnswersAgree (w : World Key) : Prop :=
  ∀ r ∈ w.readers,
    (∀ found, r.pc = .done found → Agrees cmp w r.key r.sync w.past.length found) ∧
    ∀ p found, r.sync ≤ p → p ≤ w.past.length → (∀ f, r.pc ≠ .done f) →
      readerStep cmp (w.stateAt p).1 r.key r.pc = .done found → Agrees cmp w r.key r.sync p found

/-- What a `Contains` answers, read off the memory of the states `sync` and `p`, agrees
with the inserts begun and returned. -/
theorem agrees_of_memory {w : World Key} (chained : Chained cmp w) {key : Key} {sync p : Nat}
    (synced : sync ≤ w.past.length) (inside : p ≤ w.past.length) {found : Bool}
    (complete : (∃ e < completed (w.stateAt sync).1 (w.stateAt sync).2,
      cmp key ((w.stateAt sync).1.keyOf e) = .eq) → found = true)
    (sound : found = true → ∃ j, Linked (w.stateAt p).1 (w.stateAt p).2 j ∧ cmp key ((w.stateAt p).1.keyOf j) = .eq) :
    Agrees cmp w key sync p found := by
  refine ⟨fun ⟨k, returned, same⟩ => complete ?_, fun yes => ?_⟩
  · obtain ⟨e, done, rfl⟩ := mem_returnedBy chained synced returned
    exact ⟨e, done, same⟩
  · obtain ⟨j, linked, same⟩ := sound yes
    exact ⟨j, _, linked, getElem?_begun (chained_keys chained p inside)
      ((chained_visible chained inside).allocated linked), same⟩

/-- **Lock-free readers under release/acquire.** In every interleaving from a fresh list
of one writer's inserts, with heights `RandomHeight()` can return, and any readers'
`Contains`, each begun with whatever synchronisation its caller had, where every load
may read any store the C++ release/acquire semantics allows: no load reads a word the
writer has not stored or a key whose store it has not synchronised with; and every
`Contains`, when its load returns and after, finds every key whose insert had returned
in the state it synchronised with, and only keys of inserts begun and linked at level 0
in the state its returning load read. -/
theorem release_acquire_readers (cmp : Key → Key → Ordering) [TransCmp cmp] (acts : List (Act Key))
    (valid : ∀ act ∈ acts, act.HeightInRange) {w : World Key} (ran : World.init.run cmp acts = some w) :
    LoadsWritten w ∧ AnswersAgree cmp w := by
  obtain ⟨chained, readers⟩ := run_inv inv_init acts valid ran
  refine ⟨fun r member => ⟨fun _ p _ inside => ?_, fun x level standing => ?_⟩, fun r member =>
    ⟨fun found done => ?_, fun p found early inside running returns => ?_⟩⟩
  · have visible := chained_visible chained inside
    exact ⟨visible.maxHeightPos, by rw [visible.headSlots]; exact visible.maxHeightLe⟩
  · obtain ⟨synced, now⟩ := readers r member
    rw [standing] at now
    obtain ⟨stands, -⟩ := now
    have visible := chained_visible chained synced
    refine ⟨?_, fun p early inside n points => ?_⟩
    · cases x with
      | head => exact .inl ⟨rfl, by rw [visible.headSlots]; exact stands⟩
      | node j => exact .inr ⟨j, rfl, visible.allocated stands.1, stands.2.1, stands.2.2 level le_rfl⟩
    · have within : max r.sync (acquired w.states x level p) ≤ w.past.length :=
        Nat.max_le.mpr ⟨synced, (acquired_le w.states x level p).trans inside⟩
      exact (chained_visible chained within).allocated (load_stands chained early inside stands points).1
  · obtain ⟨synced, now⟩ := readers r member
    rw [done] at now
    exact agrees_of_memory chained synced le_rfl now.1 (by rw [stateAt_length]; exact now.2)
  · have inv := readers r member
    obtain ⟨complete, sound⟩ := load_returns chained inv early inside running returns le_rfl early
    exact agrees_of_memory chained inv.1 inside complete sound

/-- Two `Contains(5)` after `Insert(5)` completed: the one synchronised only with the
constructor reads a state before the insert and misses it; the one synchronised with
the present finds it. -/
example : (World.init.run compare ([.insert 5 1, .write, .write, .write, .write, .contains 5 0, .read 0 3, .read 0 2,
    .contains 5 5, .read 1 5, .read 1 5] : List (Act Nat))).map (fun w => w.readers.map Reader.pc) =
      some [.done false, .done true] := by decide

theorem release_acquire_readers_stale_load :
    (∀ act ∈ ([.insert 5 1, .write, .write, .write, .write, .contains 5 0, .read 0 3] : List (Act Nat)),
      act.HeightInRange) ∧
    ∃ w, World.init.run compare ([.insert 5 1, .write, .write, .write, .write, .contains 5 0, .read 0 3] :
        List (Act Nat)) = some w ∧ LoadsWritten w ∧ AnswersAgree compare w :=
  ⟨by decide, _, rfl,
    release_acquire_readers compare [.insert 5 1, .write, .write, .write, .write, .contains 5 0, .read 0 3]
      (by decide) rfl⟩

end Safety

/-! ## Sequential consistency is one case -/

/-- The step here that a sequentially consistent step stands for, `n` writer steps in:
a `Contains` begins synchronised with the present state, and a load reads it. -/
def embedAct (n : Nat) : Concurrent.Act Key → Act Key
  | .insert key height => .insert key height
  | .write => .write
  | .contains key => .contains key n
  | .read r => .read r n

/-- How many writer steps a step is. -/
def writerSteps : Concurrent.Act Key → Nat
  | .insert _ _ | .write => 1
  | .contains _ | .read _ => 0

/-- The steps here that a sequentially consistent interleaving stands for, `n` writer
steps in. -/
def embed : Nat → List (Concurrent.Act Key) → List (Act Key)
  | _, [] => []
  | n, act :: acts => embedAct n act :: embed (n + writerSteps act) acts

/-- A world here that stands for the sequentially consistent world `w`: the same memory
and writer stage, and readers with the same keys at the same places, each synchronised
with a state that has happened. -/
def Embeds (w : Concurrent.World Key) (v : World Key) : Prop :=
  v.mem = w.mem ∧ v.stage = w.stage ∧
    v.readers.map (fun r => (r.key, r.pc)) = w.readers.map (fun r => (r.key, r.pc)) ∧
    ∀ r ∈ v.readers, r.sync ≤ v.past.length

theorem load_sync_le (states : List (State Key)) {reader : Reader Key} {p n : Nat} (synced : reader.sync ≤ n)
    (early : p ≤ n) : (reader.load cmp states p).sync ≤ n := by
  obtain ⟨key, _ | ⟨x, level⟩ | found, sync⟩ := reader
  · exact synced
  · exact Nat.max_le.mpr ⟨synced, (acquired_le states x level p).trans early⟩
  · exact synced

/-- **One step.** A sequentially consistent step is a step here, from a world that stands
for it to one that stands for where it goes. -/
theorem step_embeds {w w' : Concurrent.World Key} {v : World Key} (embeds : Embeds w v)
    {act : Concurrent.Act Key} (stepped : w.step cmp act = some w') :
    ∃ v', v.step cmp (embedAct v.past.length act) = some v' ∧ Embeds w' v' ∧
      v'.past.length = v.past.length + writerSteps act := by
  obtain ⟨mem, stage, keys, synced⟩ := embeds
  have grown : ∀ r ∈ v.readers, r.sync ≤ v.states.length := fun r member => by
    rw [length_states]
    exact Nat.le_succ_of_le (synced r member)
  rcases Concurrent.step_cases stepped with ⟨key, height, prev, rfl, staged, found, rfl⟩ | ⟨st, rfl, staged, rfl⟩ |
    ⟨key, rfl, rfl⟩ | ⟨r, reader, rfl, found, rfl⟩
  · exact ⟨{ v with mem := { w.mem with prev := prev }, stage := some (.store key height), past := v.states },
      by rw [embedAct, World.step, stage, staged, mem, found]; rfl, ⟨rfl, rfl, keys, grown⟩, length_states v⟩
  · exact ⟨{ v with mem := (writerStep w.mem st).1, stage := (writerStep w.mem st).2, past := v.states },
      by rw [embedAct, World.step, stage, staged, mem]; rfl, ⟨rfl, rfl, keys, grown⟩, length_states v⟩
  · refine ⟨{ v with readers := v.readers ++ [⟨key, .start, v.past.length⟩] },
      by rw [embedAct, World.step, if_pos le_rfl], ⟨mem, stage, ?_, fun r member => ?_⟩, rfl⟩
    · rw [List.map_append, List.map_append, keys]
      rfl
    · rcases List.mem_append.mp member with old | new
      · exact synced r old
      · rw [List.mem_singleton.mp new]
  · have same := congrArg (·[r]?) keys
    simp only [List.getElem?_map, found, Option.map_some'] at same
    obtain ⟨reader', found', agree⟩ := Option.map_eq_some'.mp same
    have present : reader' ∈ v.readers := by
      obtain ⟨inside, rfl⟩ := List.getElem?_eq_some_iff.mp found'
      exact List.getElem_mem inside
    have readerSynced := synced reader' present
    refine ⟨{ v with readers := v.readers.set r (reader'.load cmp v.states v.past.length) },
      by rw [embedAct, World.step, found']; exact if_pos ⟨readerSynced, le_rfl⟩,
      ⟨mem, stage, ?_, fun q member => ?_⟩, rfl⟩
    · obtain ⟨sameKey, samePc⟩ := Prod.mk.inj agree
      rw [List.map_set, List.map_set, keys]
      congr 1
      show (reader'.key, readerStep cmp (v.stateAt v.past.length).1 reader'.key reader'.pc) =
        (reader.key, readerStep cmp w.mem reader.key reader.pc)
      rw [stateAt_length, mem, sameKey, samePc]
    · rcases List.mem_or_eq_of_mem_set member with old | rfl
      · exact synced q old
      · exact load_sync_le v.states readerSynced le_rfl

/-- **A whole interleaving.** -/
theorem run_embeds (acts : List (Concurrent.Act Key)) :
    ∀ {w w' : Concurrent.World Key} {v : World Key}, Embeds w v → w.run cmp acts = some w' →
      ∃ v', v.run cmp (embed v.past.length acts) = some v' ∧ Embeds w' v' := by
  induction acts with
  | nil => exact fun embeds ran => ⟨_, rfl, by cases ran; exact embeds⟩
  | cons act acts ih =>
      intro w w' v embeds ran
      rw [Concurrent.World.run] at ran
      obtain ⟨w₁, stepped, rest⟩ := Option.bind_eq_some.mp ran
      obtain ⟨v₁, stepped', embeds₁, longer⟩ := step_embeds embeds stepped
      obtain ⟨v', ran', embeds'⟩ := ih embeds₁ rest
      refine ⟨v', ?_, embeds'⟩
      rw [embed, World.run, stepped', Option.some_bind, ← longer]
      exact ran'

/-- **Sequential consistency is one case of release/acquire.** Every interleaving of the
sequentially consistent model from a fresh list, with any comparator and any heights, is
an interleaving here, the one in which every `Contains` begins synchronised with the
present state and every load reads it: it reaches the same memory and writer stage, with
the same readers at the same places. So what holds here of every interleaving holds of
those of the sequentially consistent model. -/
theorem sequential_interleavings_embed (cmp : Key → Key → Ordering) (acts : List (Concurrent.Act Key))
    {w : Concurrent.World Key} (ran : Concurrent.World.init.run cmp acts = some w) :
    ∃ v, World.init.run cmp (embed 0 acts) = some v ∧ v.mem = w.mem ∧ v.stage = w.stage ∧
      v.readers.map (fun r => (r.key, r.pc)) = w.readers.map (fun r => (r.key, r.pc)) := by
  have start : Embeds (Concurrent.World.init : Concurrent.World Key) (World.init : World Key) :=
    ⟨rfl, rfl, rfl, fun _ member => nomatch member⟩
  obtain ⟨v, ran', mem, stage, keys, -⟩ := run_embeds acts start ran
  exact ⟨v, ran', mem, stage, keys⟩

end Rockscopy.SkipList.Weak
