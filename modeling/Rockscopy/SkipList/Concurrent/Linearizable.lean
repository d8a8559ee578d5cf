/-
# Rockscopy.SkipList.Concurrent.Linearizable — every interleaving is a sequential history

`Rockscopy.SkipList.Trace` says what the skip list is for: the sorted list of keys
of `SortedList`, which answers each call. This module shows that the lock-free
list, one writer's `Insert` steps interleaved with any readers' `Contains` steps,
is that list, call for call. Each call takes effect at one step of its own
(`World.event`): `Insert(key)` at the writer's `prev_[0]->SetNext(0, x)`, which
puts the new node on the level-0 chain (`publishes`), and `Contains(key)` at the
turn that returns (`Reader.result`). In an interleaving, step order is real-time
order, so `World.history`, the calls in the order their effects take place,
orders them as real time does.

* `Carries s keys`: the level-0 chain of `s` carries `keys`. It is the
  abstraction from the memory to the abstract list.
* `result_answer`: a reader that returns answers whether some key on the level-0
  chain, at the moment of its last read, compares equal to its key.
* `writerStep_carries`: a writer step keeps the chain's keys, but for the link at
  level 0, which puts the new key where `insertKey` puts it.
* `step_effect`, `step_unpublished`: every step either completes no call and
  keeps the chain's keys, or completes one, with the abstract list's answer, and
  moves the keys as the abstract list does; and the inserts that take effect are
  the ones the writer began, in order, but for the one in flight.
* `step_answers`: a step that completes a `Contains` is the step that returns its
  reader, so the history's `Contains` calls are the returned readers' answers.
* `interleavings_linearize`: from a fresh list, every interleaving's history gets
  the answers the abstract list gives to its calls in that order, and holds every
  `Contains` that has returned.
-/
import Rockscopy.SkipList.Trace
import Rockscopy.SkipList.Concurrent.Readers
import Rockscopy.SkipList.Concurrent.Refinement

namespace Rockscopy.SkipList.Concurrent

open Batteries SkipList

set_option autoImplicit false
set_option linter.unusedSectionVars false

variable {Key : Type} [Inhabited Key]

/-- The inserts among some calls. -/
def inserts : List (Op Key) → List (Op Key)
  | [] => []
  | .insert key height :: ops => .insert key height :: inserts ops
  | _ :: ops => inserts ops

theorem inserts_append (ops ops' : List (Op Key)) : inserts (ops ++ ops') = inserts ops ++ inserts ops' := by
  induction ops with
  | nil => rfl
  | cons op ops ih => cases op <;> simp only [List.cons_append, inserts, ih, List.append_eq]

theorem filterMap_cons_toList {α β : Type} (f : α → Option β) (a : α) (l : List α) :
    (a :: l).filterMap f = (f a).toList ++ l.filterMap f := by
  cases h : f a <;> simp [List.filterMap_cons, h]

/-- Setting one element of a list changes what `filterMap` keeps of it by exactly what
the old and the new element give. -/
theorem filterMap_set_perm {α β : Type} (f : α → Option β) :
    ∀ {l : List α} {i : Nat} {a : α}, l[i]? = some a → ∀ x : α,
      ((l.set i x).filterMap f ++ (f a).toList).Perm (l.filterMap f ++ (f x).toList)
  | [], _, _, at_, _ => nomatch at_
  | b :: l, 0, a, at_, x => by
      obtain rfl : b = a := by simpa using at_
      simp only [List.set_cons_zero, filterMap_cons_toList, List.append_assoc]
      exact (List.perm_append_comm_assoc _ _ _).trans
        ((List.perm_append_comm.append_left _).trans (List.perm_append_comm_assoc _ _ _))
  | b :: l, i + 1, a, at_, x => by
      simp only [List.set_cons_succ, filterMap_cons_toList, List.append_assoc]
      exact (filterMap_set_perm f (l := l) (by simpa using at_) x).append_left _

/-! ## The effects of the steps -/

variable (cmp : Key → Key → Ordering)

/-- The key and height of the insert a writer step completes: the link at level 0,
`prev_[0]->SetNext(0, x)`, puts the node on the level-0 chain. -/
def publishes (s : SkipList Key) : Option (Stage Key) → Option (Key × Nat)
  | some (.link x height 0) => some (s.keyOf x, height)
  | _ => none

/-- What the reader's next turn returns, if that turn returns: whatever turn it is, but
a `Contains` that has returned makes no more. -/
def Reader.result (s : SkipList Key) (reader : Reader Key) : Option Bool :=
  match reader.pc, readerStep cmp s reader.key reader.pc with
  | .done _, _ => none
  | _, .done found => some found
  | _, _ => none

/-- A reader that has returned, with its key and answer. -/
def Reader.answer (reader : Reader Key) : Option (Key × Bool) :=
  match reader.pc with
  | .done found => some (reader.key, found)
  | _ => none

/-- A `Contains` of a history, with its key and answer. -/
def containsCall : Op Key × Answer Key → Option (Key × Bool)
  | (.contains key, .found found) => some (key, found)
  | _ => none

/-- The insert a writer at `stage` on `s` has begun and not yet linked at level 0. -/
def unpublishedOf (s : SkipList Key) : Option (Stage Key) → Option (Op Key)
  | some (.store key height) => some (.insert key height)
  | some (.alloc key height) => some (.insert key height)
  | some (.setSucc x height 0) => some (.insert (s.keyOf x) height)
  | some (.link x height 0) => some (.insert (s.keyOf x) height)
  | _ => none

namespace World

/-- The call of the abstract list a step completes, with the answer the concurrent
list gives it: the writer's link at level 0 completes an `Insert`, and a reader's
turn that returns completes its `Contains`. -/
def event (w : World Key) : Act Key → Option (Op Key × Answer Key)
  | .write => (publishes w.mem w.stage).map fun inserted => (.insert inserted.1 inserted.2, .inserted)
  | .read r =>
      match w.readers[r]? with
      | some reader => (reader.result cmp w.mem).map fun found => (.contains reader.key, .found found)
      | none => none
  | .insert _ _ | .contains _ => none

/-- The calls an interleaving completes, in the order they take effect, each with
its answer; `none` if a step is not possible. -/
def history (w : World Key) : List (Act Key) → Option (List (Op Key × Answer Key))
  | [] => some []
  | act :: acts => (w.step cmp act).bind fun w' => (w'.history acts).map ((w.event cmp act).toList ++ ·)

/-- The insert the writer has begun and not yet linked at level 0. -/
def unpublished (w : World Key) : Option (Op Key) :=
  unpublishedOf w.mem w.stage

end World

/-! ## The abstraction -/

/-- The level-0 chain of `s`, from `head_`, carries `keys`. -/
def Carries (s : SkipList Key) (keys : List Key) : Prop :=
  ∃ l, Chain s 0 (s.next .head 0) l ∧ l.map s.keyOf = keys

namespace Carries

variable {cmp} {s : SkipList Key} {keys : List Key}

theorem unique {keys' : List Key} (carries : Carries s keys) (carries' : Carries s keys') : keys = keys' := by
  obtain ⟨l, chain, rfl⟩ := carries
  obtain ⟨l', chain', rfl⟩ := carries'
  rw [chain.unique chain']

/-- The chain's keys survive a change that keeps `head_`'s level-0 pointer and, on
the chain, every node's level-0 pointer and key. -/
theorem congr {t : SkipList Key} (carries : Carries s keys) (start : t.next .head 0 = s.next .head 0)
    (grown : s.nodes.length ≤ t.nodes.length)
    (same : ∀ l, Chain s 0 (s.next .head 0) l → ∀ i ∈ l, t.next (.node i) 0 = s.next (.node i) 0 ∧ t.keyOf i = s.keyOf i) :
    Carries t keys := by
  obtain ⟨l, chain, rfl⟩ := carries
  refine ⟨l, ?_, List.map_congr_left fun i member => (same l chain i member).2⟩
  rw [start]
  exact chain.congr (fun i member => (same l chain i member).1) grown

/-- `prev_` is the writer's alone: no pointer of the chain lives there. -/
theorem withPrev (carries : Carries s keys) (prev : List Ref) : Carries { s with prev := prev } keys :=
  carries.congr rfl le_rfl fun _ _ _ _ => ⟨rfl, rfl⟩

theorem raise (carries : Carries s keys) (height : Nat) : Carries (s.raise height) keys :=
  carries.congr rfl le_rfl fun _ _ _ _ => ⟨rfl, rfl⟩

/-- `NewNode` adds a node that no pointer names. -/
theorem newNode (carries : Carries s keys) (key : Key) (height : Nat) : Carries (s.newNode key height) keys :=
  carries.congr (next_newNode _ _ _ _ _ fun same => nomatch same) (by simp) fun _ chain i member =>
    ⟨next_newNode _ _ _ _ _ fun same => Nat.lt_irrefl _ (Ref.node.inj same ▸ chain.lt_length member),
      keyOf_newNode _ _ _ (chain.lt_length member)⟩

/-- A forward pointer written above level 0, or at a node the chain does not reach,
leaves the chain's keys. -/
theorem setNext (carries : Carries s keys) (y : Ref) (level : Nat) (v : Option Nat)
    (away : level ≠ 0 ∨ ∃ x, y = .node x ∧ ∀ z, s.next z 0 ≠ some x) : Carries (s.setNext y level v) keys := by
  refine carries.congr (next_setNext_of_ne _ _ _ _ _ _ ?_) (by simp) fun l chain i member =>
    ⟨next_setNext_of_ne _ _ _ _ _ _ ?_, keyOf_setNext _ _ _ _ _⟩
  · rcases away with above | ⟨x, rfl, -⟩
    · exact .inr (Ne.symm above)
    · exact .inl fun same => nomatch same
  · rcases away with above | ⟨x, rfl, unlinked⟩
    · exact .inr (Ne.symm above)
    · exact .inl fun same => chain.not_mem unlinked (unlinked _) (by cases same; exact member)

end Carries

variable {cmp} [TransCmp cmp]

/-- **The publish.** The link at level 0 of the node `NewNode` made on a ready list
puts its key into the chain's keys where `insertKey` puts it. -/
theorem publish_carries {t : SkipList Key} {key : Key} {height : Nat} (ready : Ready cmp t key height)
    {keys : List Key} (carries : Carries (setSucc (t.newNode key height) t.nodes.length 0) keys) :
    Carries ((t.newNode key height).link t.nodes.length 0) (insertKey cmp key keys) := by
  obtain ⟨l0, chain0, -, -⟩ := ready.good.level0
  have before : Carries (setSucc (t.newNode key height) t.nodes.length 0) (l0.map t.keyOf) :=
    (Carries.newNode ⟨l0, chain0, rfl⟩ key height).setNext _ _ _
      (.inr ⟨_, rfl, fun z => newNode_unlinked ready.good key height z 0⟩)
  obtain rfl := before.unique carries
  have keys : ((t.newNode key height).link t.nodes.length 0).keyOf = (t.newNode key height).keyOf :=
    funext fun j => keyOf_link _ _ _ j
  exact ⟨_, chain_link_zero ready chain0, by rw [keys, map_keyOf_insertion t key height chain0]⟩

/-- **A writer step** keeps the chain's keys, but for the link at level 0, which puts
the new node's key where the abstract list puts it. -/
theorem writerStep_carries {s : SkipList Key} {stage : Stage Key} (inv : WriterInv cmp s (some stage))
    {keys : List Key} (carries : Carries s keys) :
    Carries (writerStep s stage).1 ((publishes s (some stage)).elim keys fun inserted => insertKey cmp inserted.1 keys) := by
  cases stage with
  | store key height =>
      simp only [writerStep]
      split_ifs
      · exact carries.raise height
      · exact carries
  | alloc key height =>
      simp only [writerStep]
      split_ifs
      · exact carries.newNode key height
      · exact (carries.newNode key height).withPrev _
  | setSucc x height level =>
      show Carries (setSucc s x level) keys
      refine carries.setNext _ _ _ ?_
      by_cases zero : level = 0
      · subst zero
        refine .inr ⟨x, rfl, fun y points => ?_⟩
        rcases ((visible_of_writerInv inv).targets y 0 x points).2.1 with early | ⟨-, never⟩
        · exact Nat.lt_irrefl x early
        · exact Nat.lt_irrefl 0 never
      · exact .inl zero
  | link x height level =>
      cases level with
      | zero =>
          obtain ⟨t, key, ready, rfl, -, rfl⟩ := inv
          have linked := publish_carries ready carries
          rw [link_eq_setSucc, ← setSucc_prev _ t.nodes.length 0] at linked
          simp only [writerStep, publishes, Option.elim, linkAll_zero, setSucc_keyOf, keyOf_newNode_self]
          split_ifs
          · exact linked
          · exact linked.withPrev _
      | succ level =>
          simp only [writerStep]
          split_ifs
          · exact carries.setNext _ _ _ (.inl (Nat.succ_ne_zero level))
          · exact (carries.setNext _ _ _ (.inl (Nat.succ_ne_zero level))).withPrev _

/-- **A reader's answer.** A reader whose next turn returns answers whether some key
on the level-0 chain, at that moment, compares equal to its key. -/
theorem result_answer {s : SkipList Key} {stage : Option (Stage Key)} (visible : Visible cmp s stage)
    {reader : Reader Key} (inv : ReaderInv cmp s stage reader) {keys : List Key} (carries : Carries s keys)
    {found : Bool} (returned : reader.result cmp s = some found) :
    found = keys.any fun k => cmp reader.key k == .eq := by
  obtain ⟨key, pc, began⟩ := reader
  obtain ⟨-, now⟩ := inv
  cases pc with
  | start => simp [Reader.result, readerStep] at returned
  | done _ => cases returned
  | visit x level =>
      obtain ⟨stands, before⟩ := now
      rcases readerStep_visit cmp s key x level with ⟨n, -, -, moved⟩ | ⟨stays, stopped⟩
      · simp only [Reader.result, moved] at returned
        cases returned
      · simp only [Reader.result, stopped] at returned
        split_ifs at returned with bottom
        subst bottom
        cases returned
        obtain ⟨l, chain, sorted, every⟩ := visible.level0
        obtain ⟨l', chain', rfl⟩ := carries
        obtain rfl := chain.unique chain'
        have onChain : ∀ q, x = .node q → q ∈ l := fun q at_ => by
          subst at_
          exact every q stands.1
        rw [(stop_split_of_mem chain sorted onChain before stays).1, any_dropWhile s.keyOf key sorted,
          Bool.eq_iff_iff]
        simp

/-- **A writer step and the insert in flight.** The link at level 0 publishes the
insert in flight, with the key and height it was begun with; every other step keeps it
in flight. -/
theorem writerStep_unpublished {s : SkipList Key} {stage : Stage Key} (inv : WriterInv cmp s (some stage)) :
    (publishes s (some stage)).elim [] (fun inserted => [.insert inserted.1 inserted.2]) ++
      (unpublishedOf (writerStep s stage).1 (writerStep s stage).2).toList = (unpublishedOf s (some stage)).toList := by
  cases stage with
  | store key height => rfl
  | alloc key height =>
      simp only [writerStep, if_pos (show Ready cmp s key height from inv).low, unpublishedOf, keyOf_newNode_self]
      rfl
  | setSucc x height level =>
      cases level with
      | zero => simp only [writerStep, unpublishedOf, setSucc_keyOf]; rfl
      | succ level => rfl
  | link x height level =>
      cases level with
      | zero => simp only [writerStep]; split_ifs <;> rfl
      | succ level => simp only [writerStep]; split_ifs <;> rfl

/-! ## One step -/

/-- **One step.** A step that completes a call gets the abstract list's answer to it,
and moves the chain's keys as the abstract list moves; any other step keeps them. -/
theorem step_effect {w w' : World Key} (inv : Inv cmp w) {keys : List Key} (carries : Carries w.mem keys)
    {act : Act Key} (stepped : w.step cmp act = some w') :
    (∀ e ∈ w.event cmp act, e.2 = SortedList.answer cmp keys e.1) ∧
      Carries w'.mem ((w.event cmp act).elim keys fun e => SortedList.apply cmp keys e.1) := by
  rcases step_cases stepped with ⟨-, -, -, rfl, -, -, rfl⟩ | ⟨stage, rfl, staged, rfl⟩ | ⟨-, rfl, rfl⟩ |
    ⟨r, reader, rfl, found, rfl⟩
  · exact ⟨(fun _ never => nomatch never), carries.withPrev _⟩
  · have writer := inv.writer
    rw [staged] at writer
    have moved := writerStep_carries writer carries
    rw [World.event, staged]
    refine ⟨fun e member => ?_, ?_⟩
    · obtain ⟨_, -, rfl⟩ := Option.mem_map.mp member
      rfl
    · revert moved
      cases publishes w.mem (some stage) <;> exact id
  · exact ⟨(fun _ never => nomatch never), carries⟩
  · rw [World.event, found]
    dsimp only
    refine ⟨fun e member => ?_, ?_⟩
    · obtain ⟨answer, returned, rfl⟩ := Option.mem_map.mp member
      have inside := List.getElem?_eq_some_iff.mp found
      have member := inside.2 ▸ List.getElem_mem inside.1
      rw [result_answer (visible_of_writerInv inv.writer) (inv.readers reader member) carries returned]
      rfl
    · cases reader.result cmp w.mem <;> exact carries

/-- **One step, the inserts.** The inserts that take effect are those the writer
begins, in order, each with its key and height, and the one begun and not yet
linked at level 0 waits in `unpublished`. -/
theorem step_unpublished {w w' : World Key} (inv : Inv cmp w) {act : Act Key} (stepped : w.step cmp act = some w') :
    inserts ((w.event cmp act).toList.map Prod.fst) ++ w'.unpublished.toList = w.unpublished.toList ++ act.insertOp := by
  rcases step_cases stepped with ⟨key, height, -, rfl, staged, -, rfl⟩ | ⟨stage, rfl, staged, rfl⟩ | ⟨-, rfl, rfl⟩ |
    ⟨r, reader, rfl, found, rfl⟩
  · simp only [World.unpublished, unpublishedOf, staged]
    rfl
  · have writer := inv.writer
    rw [staged] at writer
    have moved := writerStep_unpublished writer
    simp only [World.event, World.unpublished, staged, Act.insertOp, List.append_nil]
    revert moved
    cases publishes w.mem (some stage) <;> exact id
  · rw [Act.insertOp, List.append_nil]
    rfl
  · rw [World.event, found, Act.insertOp, List.append_nil]
    dsimp only
    cases reader.result cmp w.mem <;> rfl

/-- **One step, the answers.** The step that completes a `Contains` is the turn that
returns its reader, with that reader's key and answer; no other step completes one,
and no step takes a returned reader's answer back. -/
theorem step_answers {w w' : World Key} {act : Act Key} (stepped : w.step cmp act = some w') :
    (w.readers.filterMap Reader.answer ++ (w.event cmp act).toList.filterMap containsCall).Perm
      (w'.readers.filterMap Reader.answer) := by
  rcases step_cases stepped with ⟨-, -, -, rfl, -, -, rfl⟩ | ⟨stage, rfl, -, rfl⟩ | ⟨key, rfl, rfl⟩ |
    ⟨r, reader, rfl, found, rfl⟩
  · simp [World.event]
  · rw [World.event]
    cases publishes w.mem w.stage <;> simp [containsCall]
  · simp [World.event, Reader.answer]
  · rw [World.event, found]
    have swapped := filterMap_set_perm Reader.answer found { reader with pc := readerStep cmp w.mem reader.key reader.pc }
    obtain ⟨key, pc, began⟩ := reader
    cases pc with
    | done answer => simpa [Reader.result, readerStep] using ((List.perm_append_right_iff _).mp swapped).symm
    | start => simpa [Reader.answer, Reader.result, readerStep] using swapped.symm
    | visit x level =>
        simp only [Reader.answer, Reader.result] at swapped ⊢
        generalize readerStep cmp w.mem key (.visit x level) = next at swapped ⊢
        cases next <;> simpa [containsCall] using swapped.symm

/-! ## Whole interleavings -/

/-- **A whole interleaving.** From a world that keeps the invariant, with its level-0
chain carrying `keys`, the history of an interleaving gets the answers the abstract
list gives from `keys`, the chain carries the abstract list's keys after it, its
inserts are those begun, and its `Contains` calls are the readers that return. -/
theorem history_linearizes (acts : List (Act Key)) (valid : ∀ act ∈ acts, act.HeightInRange) :
    ∀ {w w' : World Key} {keys : List Key}, Inv cmp w → Carries w.mem keys → w.run cmp acts = some w' →
      ∃ h, w.history cmp acts = some h ∧ h.map Prod.snd = SortedList.trace cmp keys (h.map Prod.fst) ∧
        Carries w'.mem ((h.map Prod.fst).foldl (SortedList.apply cmp) keys) ∧
        inserts (h.map Prod.fst) ++ w'.unpublished.toList = w.unpublished.toList ++ insertOps acts ∧
        (w.readers.filterMap Reader.answer ++ h.filterMap containsCall).Perm (w'.readers.filterMap Reader.answer) := by
  induction acts with
  | nil =>
      intro w w' keys _ carries ran
      cases ran
      exact ⟨[], rfl, rfl, carries, by rw [insertOps, List.flatMap_nil, List.append_nil]; rfl, by simp⟩
  | cons act acts ih =>
      intro w w' keys inv carries ran
      rw [World.run] at ran
      obtain ⟨w₁, stepped, rest⟩ := Option.bind_eq_some.mp ran
      have tail : ∀ act ∈ acts, act.HeightInRange := fun act member => valid act (List.mem_cons_of_mem _ member)
      have inv₁ := step_inv inv (valid act (List.mem_cons_self _ _)) stepped
      obtain ⟨answered, carries₁⟩ := step_effect inv carries stepped
      have began := step_unpublished inv stepped
      have returned := step_answers stepped
      rw [insertOps, List.flatMap_cons, ← insertOps, ← List.append_assoc, ← began, List.append_assoc]
      cases happened : w.event cmp act with
      | none =>
          rw [happened] at carries₁ began returned
          obtain ⟨h, history, answers, carries', inserted, contained⟩ := ih tail inv₁ carries₁ rest
          refine ⟨h, ?_, answers, carries', by rw [← inserted]; rfl, ?_⟩
          · rw [World.history, stepped, Option.some_bind, history, happened]
            rfl
          · simpa using (returned.append_right _).trans contained
      | some e =>
          rw [happened] at carries₁ returned
          obtain ⟨h, history, answers, carries', inserted, contained⟩ := ih tail inv₁ carries₁ rest
          refine ⟨e :: h, ?_, ?_, carries', ?_, ?_⟩
          · rw [World.history, stepped, Option.some_bind, history, happened]
            rfl
          · rw [List.map_cons, List.map_cons, answers, answered e (by rw [happened]; rfl)]
            rfl
          · rw [← inserted, ← List.append_assoc, ← inserts_append]
            rfl
          · rw [filterMap_cons_toList, ← List.append_assoc]
            exact (returned.append_right _).trans contained

/-- **Linearizability.** In every interleaving of one writer's inserts, with heights
`RandomHeight()` may return, and any readers' `Contains`, from a fresh list, take
each `Insert` to happen at its link at level 0 and each `Contains` at the turn that
returns. Then the calls, in that order, get the answers the abstract sorted list
gives them: every `Contains` answers whether a key equal to its key was inserted
before it. The level-0 chain carries, at every moment, the abstract list's keys;
the inserts happen in the order the writer began them, each once, with its own
key and height, all but the one in flight when it has not reached level 0 yet; and
the `Contains` calls are the readers that have returned, each once, with its own
key and answer. -/
theorem interleavings_linearize (cmp : Key → Key → Ordering) [TransCmp cmp] (acts : List (Act Key))
    (valid : ∀ act ∈ acts, act.HeightInRange) {w : World Key} (ran : World.init.run cmp acts = some w) :
    ∃ h, World.init.history cmp acts = some h ∧ h.map Prod.snd = SortedList.trace cmp [] (h.map Prod.fst) ∧
      Carries w.mem ((h.map Prod.fst).foldl (SortedList.apply cmp) []) ∧
      (∃ pending : List (Op Key), inserts (h.map Prod.fst) ++ pending = insertOps acts ∧ pending.length ≤ 1 ∧
        (w.stage = none → pending = [])) ∧
      (h.filterMap containsCall).Perm (w.readers.filterMap Reader.answer) := by
  have empty : Carries (World.init : World Key).mem [] := ⟨[], by rw [World.init, SkipList.next_init]; exact .nil, rfl⟩
  obtain ⟨h, history, answers, carries, inserted, contained⟩ := history_linearizes acts valid inv_init empty ran
  refine ⟨h, history, answers, carries, ⟨w.unpublished.toList, inserted, ?_, fun idle => ?_⟩, contained⟩
  · cases w.unpublished <;> simp
  · rw [World.unpublished, idle]
    rfl

/-- A `Contains(5)` that begins before `Insert(5)` takes effect and returns after it
finds the key: the history orders it after the insert. -/
example : World.init.history compare ([.insert 5 2, .contains 5, .write, .write, .read 0, .write, .write, .read 0,
    .read 0] : List (Act Nat)) = some [(.insert 5 2, .inserted), (.contains 5, .found true)] := by decide

theorem interleavings_linearize_reader_overlaps :
    (∀ act ∈ ([.insert 5 2, .contains 5, .write, .write, .read 0, .write, .write, .read 0, .read 0] : List (Act Nat)),
      act.HeightInRange) ∧
    ∃ w, World.init.run compare ([.insert 5 2, .contains 5, .write, .write, .read 0, .write, .write, .read 0,
        .read 0] : List (Act Nat)) = some w ∧
      ∃ h, World.init.history compare ([.insert 5 2, .contains 5, .write, .write, .read 0, .write, .write, .read 0,
          .read 0] : List (Act Nat)) = some h ∧ h.map Prod.snd = SortedList.trace compare [] (h.map Prod.fst) ∧
        Carries w.mem ((h.map Prod.fst).foldl (SortedList.apply compare) []) ∧
        (∃ pending : List (Op Nat), inserts (h.map Prod.fst) ++ pending = insertOps ([.insert 5 2, .contains 5, .write,
          .write, .read 0, .write, .write, .read 0, .read 0] : List (Act Nat)) ∧ pending.length ≤ 1 ∧
          (w.stage = none → pending = [])) ∧
        (h.filterMap containsCall).Perm (w.readers.filterMap Reader.answer) :=
  ⟨by decide, _, rfl,
    interleavings_linearize compare [.insert 5 2, .contains 5, .write, .write, .read 0, .write, .write, .read 0, .read 0]
      (by decide) rfl⟩

end Rockscopy.SkipList.Concurrent
