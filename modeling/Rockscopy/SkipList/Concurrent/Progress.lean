/-
# Rockscopy.SkipList.Concurrent.Progress — readers return

The thread-safety comment of the skip list says that reads "progress without any
internal locking or synchronization". A reader never waits for the writer: its
`Contains` is a walk along forward pointers, and every chain of forward pointers
is finite in every world an interleaving reaches, also part way into an insert,
with the new node linked on some levels and not yet on others. So a reader that
is left to run returns, however the writer's and the other readers' steps were
interleaved before.

* `finite_of_writerInv`: in every state the writer's invariant allows, every chain,
  at every level and from every node, is finite.
* `readerStep_level`, `readerStep_done`: on such a list a reader at `x` on `level`
  moves right at most as often as the chain after `x` is long and then leaves the
  level; so it returns within `(level + 1) * (nodes + 1)` of its steps.
* `run_short`: no node has more than `kMaxHeight` forward pointers; so
  `reader_returns`: every reader's step function returns within
  `kMaxHeight * (nodes + 1) + 1` steps.
* `readers_progress`: in every world reached from a fresh list, a reader that takes
  `kMaxHeight * (nodes + 1) + 1` steps of its own has returned, and those steps change
  nothing but that reader.
-/
import Rockscopy.SkipList.Concurrent.Readers

namespace Rockscopy.SkipList.Concurrent

open Batteries SkipList

set_option autoImplicit false
set_option linter.unusedSectionVars false

variable {Key : Type} [Inhabited Key] {cmp : Key → Key → Ordering} [TransCmp cmp]

/-! ## Every chain is finite -/

section Finite

variable {t : SkipList Key} {key : Key} {height : Nat}

/-- Part way through the linking loop, every chain is finite. -/
theorem linkAll_finite (ready : Ready cmp t key height) {m : Nat} (partway : m ≤ height) (y : Ref) (level : Nat) :
    ∃ l, Chain ((t.newNode key height).linkAll t.nodes.length m) level
      (((t.newNode key height).linkAll t.nodes.length m).next y level) l := by
  set u := t.newNode key height
  rw [next_linkAll]
  split_ifs with below
  · have slotNew : level < u.slots (.node t.nodes.length) := by rw [slots_newNode_self]; omega
    have prevOk := newNode_prev ready.good key height (show level < kMaxHeight by have := ready.high; omega)
    obtain ⟨l, chain⟩ := finite_link u t.nodes.length level slotNew prevOk.2 prevOk.1
      (newNode_finite ready.good key height · level) (newNode_unlinked ready.good key height · level) y
    exact ⟨l, chain_linkAll u t.nodes.length below chain⟩
  · obtain ⟨l, chain⟩ := newNode_finite ready.good key height y level
    exact ⟨l, chain_linkAll_above u t.nodes.length (by omega) chain⟩

/-- Writing the new node's forward pointer at the level being linked, where nothing
points to the node yet, keeps every chain finite. -/
theorem setSucc_finite (ready : Ready cmp t key height) {m : Nat} (below : m < height) (y : Ref) (level : Nat) :
    ∃ l, Chain (setSucc ((t.newNode key height).linkAll t.nodes.length m) t.nodes.length m) level
      ((setSucc ((t.newNode key height).linkAll t.nodes.length m) t.nodes.length m).next y level) l := by
  set u := (t.newNode key height).linkAll t.nodes.length m
  set x := t.nodes.length
  have unlinked : ∀ z, u.next z m ≠ some x := fun z => by
    rw [next_linkAll, if_neg (Nat.lt_irrefl m)]; exact newNode_unlinked ready.good key height z m
  have keep : ∀ {o : Option Nat} {l : List Nat}, Chain u level o l → (level ≠ m ∨ x ∉ l) →
      Chain (setSucc u x m) level o l := fun chain away =>
    chain.congr (fun i member => by
      rw [setSucc, next_setNext_of_ne]
      rcases away with other | absent
      · exact .inr other
      · exact .inl fun same => absent (by cases same; exact member)) (by simp)
  have unchanged : ∀ z, (z ≠ .node x ∨ level ≠ m) → (setSucc u x m).next z level = u.next z level :=
    fun z other => by rw [setSucc, next_setNext_of_ne _ _ _ _ _ _ other]
  by_cases atNew : y = .node x ∧ level = m
  · obtain ⟨rfl, rfl⟩ := atNew
    have slot : level < u.slots (.node x) := by rw [slots_linkAll, slots_newNode_self]; exact below
    obtain ⟨l, chain⟩ := linkAll_finite ready below.le (u.prev.getD level .head) level
    have start : (setSucc u x level).next (.node x) level = u.next (u.prev.getD level .head) level := by
      rw [setSucc]; exact next_setNext_self _ _ _ _ slot
    rw [start]
    exact ⟨l, keep chain (.inr (chain.not_mem unlinked (unlinked _)))⟩
  · obtain ⟨l, chain⟩ := linkAll_finite ready below.le y level
    rw [unchanged y (by tauto)]
    by_cases same : level = m
    · subst same
      exact ⟨l, keep chain (.inr (chain.not_mem unlinked (unlinked y)))⟩
    · exact ⟨l, keep chain (.inl same)⟩

end Finite

/-- **Every chain is finite** in every state the writer's invariant allows: between inserts,
before `NewNode`, and at every turn of the linking loop. -/
theorem finite_of_writerInv {s : SkipList Key} {stage : Option (Stage Key)} (inv : WriterInv cmp s stage)
    (y : Ref) (level : Nat) : ∃ l, Chain s level (s.next y level) l := by
  cases stage with
  | none => exact (show Good cmp s from inv).finite y level
  | some stage =>
      cases stage with
      | store key height => exact (show Ready cmp s key height from inv).good.finite y level
      | alloc key height => exact (show Ready cmp s key height from inv).good.finite y level
      | setSucc =>
          obtain ⟨_, _, ready, rfl, below, rfl⟩ := inv
          exact linkAll_finite ready below.le y level
      | link =>
          obtain ⟨_, _, ready, rfl, below, rfl⟩ := inv
          exact setSucc_finite ready below y level

/-! ## A reader left to run -/

/-- Where a reader is once it leaves `level`: returned, from level 0, or on the level below. -/
def LeftLevel : Nat → Pc → Prop
  | 0, pc => ∃ found, pc = .done found
  | level + 1, pc => ∃ x, pc = .visit x level

theorem leftLevel_stop (level : Nat) (x : Ref) (found : Bool) :
    LeftLevel level (if level = 0 then .done found else .visit x (level - 1)) := by
  cases level with
  | zero => exact ⟨found, rfl⟩
  | succ level => exact ⟨x, rfl⟩

section Solo

variable (cmp) (s : SkipList Key) (key : Key)

/-- **Along one level.** A reader at `x` moves right at most as often as the chain after
`x` is long, and then leaves the level. -/
theorem readerStep_level (level : Nat) {l : List Nat} :
    ∀ {x : Ref}, Chain s level (s.next x level) l →
      ∃ k ≤ l.length, LeftLevel level ((readerStep cmp s key)^[k + 1] (.visit x level)) := by
  induction l with
  | nil =>
      intro x chain
      rcases readerStep_visit cmp s key x level with ⟨n, points, -, -⟩ | ⟨-, stopped⟩
      · rw [points] at chain; cases chain
      · exact ⟨0, le_rfl, by rw [Function.iterate_one, stopped]; exact leftLevel_stop level x _⟩
  | cons i l ih =>
      intro x chain
      rcases readerStep_visit cmp s key x level with ⟨n, points, -, moved⟩ | ⟨-, stopped⟩
      · rw [points] at chain
        cases chain with
        | cons _ rest =>
            obtain ⟨k, short, left⟩ := ih rest
            exact ⟨k + 1, by simp only [List.length_cons]; omega,
              by rw [Function.iterate_succ_apply, moved]; exact left⟩
      · exact ⟨0, Nat.zero_le _, by rw [Function.iterate_one, stopped]; exact leftLevel_stop level x _⟩

/-- **Down to the return.** When every chain is finite, a reader at any node on `level`
returns within `(level + 1) * (nodes + 1)` of its steps. -/
theorem readerStep_done (finite : ∀ y level, ∃ l, Chain s level (s.next y level) l) :
    ∀ level x, ∃ k ≤ (level + 1) * (s.nodes.length + 1), ∃ found,
      (readerStep cmp s key)^[k] (.visit x level) = .done found := by
  intro level
  induction level with
  | zero =>
      intro x
      obtain ⟨l, chain⟩ := finite x 0
      obtain ⟨k, short, found, done⟩ := readerStep_level cmp s key 0 chain
      exact ⟨k + 1, by have := chain.length_le; omega, found, done⟩
  | succ level ih =>
      intro x
      obtain ⟨l, chain⟩ := finite x (level + 1)
      obtain ⟨k, short, x', down⟩ := readerStep_level cmp s key (level + 1) chain
      obtain ⟨k', bounded, found, done⟩ := ih x'
      refine ⟨k' + (k + 1), ?_, found, by rw [Function.iterate_add_apply, down, done]⟩
      have := chain.length_le
      rw [Nat.succ_mul]
      omega

/-- A returned reader stays returned. -/
theorem readerStep_iterate_done (found : Bool) (n : Nat) :
    (readerStep cmp s key)^[n] (.done found) = .done found :=
  Function.iterate_fixed rfl n

end Solo

/-! ## No node is taller than `kMaxHeight` -/

/-- Every node has at most `kMaxHeight` forward pointers. -/
def Short (s : SkipList Key) : Prop :=
  ∀ j < s.nodes.length, s.slots (.node j) ≤ kMaxHeight

theorem writerStep_short {s : SkipList Key} {stage : Stage Key} (inv : WriterInv cmp s (some stage)) (short : Short s) :
    Short (writerStep s stage).1 := by
  obtain ⟨grown, -, kept⟩ := writerStep_frame s stage
  intro j inside
  by_cases old : j < s.nodes.length
  · rw [(kept j old).2]; exact short j old
  · cases stage with
    | alloc key height =>
        have new : j = s.nodes.length := by
          simp only [writerStep] at inside; split_ifs at inside <;> simp [newNode] at inside <;> omega
        subst new
        have high : height ≤ kMaxHeight := (show Ready cmp s key height from inv).high
        simp only [writerStep]
        split_ifs
        · rw [slots_newNode_self]; exact high
        · show (s.newNode key height).slots (.node s.nodes.length) ≤ kMaxHeight
          rw [slots_newNode_self]; exact high
    | store _ _ => simp only [writerStep] at inside; split_ifs at inside <;> exact absurd inside old
    | setSucc _ _ _ => simp [writerStep] at inside; exact absurd inside old
    | link _ _ _ =>
        simp only [writerStep] at inside; split_ifs at inside <;> simp at inside <;> exact absurd inside old

theorem step_short {w w' : World Key} (inv : Inv cmp w) (short : Short w.mem) {act : Act Key}
    (stepped : w.step cmp act = some w') : Short w'.mem := by
  rcases step_cases stepped with ⟨-, -, -, -, -, -, rfl⟩ | ⟨stage, -, staged, rfl⟩ | ⟨-, -, rfl⟩ | ⟨-, -, -, -, rfl⟩
  · exact short
  · exact writerStep_short (staged ▸ inv.writer) short
  · exact short
  · exact short

theorem run_short {w w' : World Key} (inv : Inv cmp w) (short : Short w.mem) (acts : List (Act Key))
    (valid : ∀ act ∈ acts, act.HeightInRange) (ran : w.run cmp acts = some w') : Short w'.mem := by
  induction acts generalizing w with
  | nil => cases ran; exact short
  | cons act acts ih =>
      rw [World.run] at ran
      obtain ⟨w₁, stepped, rest⟩ := Option.bind_eq_some.mp ran
      have first := valid act (List.mem_cons_self _ _)
      exact ih (step_inv inv first stepped) (step_short inv short stepped)
        (fun act member => valid act (List.mem_cons_of_mem _ member)) rest

/-- **A reader's own steps.** In a world that keeps its invariant and whose nodes are
short, every reader's step function reaches a return within
`kMaxHeight * (nodes + 1) + 1` steps, whether the reader is yet to start, on a level,
or returned. -/
theorem reader_returns {w : World Key} (inv : Inv cmp w) (short : Short w.mem) {reader : Reader Key}
    (member : reader ∈ w.readers) :
    ∃ k ≤ kMaxHeight * (w.mem.nodes.length + 1) + 1, ∃ found,
      (readerStep cmp w.mem reader.key)^[k] reader.pc = .done found := by
  have visible := visible_of_writerInv inv.writer
  have finite := finite_of_writerInv inv.writer
  have standing := (inv.readers reader member).2
  cases pc : reader.pc with
  | start =>
      obtain ⟨k, bounded, found, done⟩ := readerStep_done cmp w.mem reader.key finite (w.mem.maxHeight - 1) .head
      refine ⟨k + 1, ?_, found, by rw [Function.iterate_succ_apply]; exact done⟩
      rw [Nat.sub_add_cancel visible.maxHeightPos] at bounded
      have := Nat.mul_le_mul_right (w.mem.nodes.length + 1) visible.maxHeightLe
      omega
  | visit x level =>
      rw [pc] at standing
      have below : level < kMaxHeight := by
        cases x with
        | head => exact standing.1
        | node j => exact Nat.lt_of_lt_of_le standing.1.2.1 (short j (visible.allocated standing.1.1))
      obtain ⟨k, bounded, found, done⟩ := readerStep_done cmp w.mem reader.key finite level x
      refine ⟨k, ?_, found, done⟩
      have := Nat.mul_le_mul_right (w.mem.nodes.length + 1) (show level + 1 ≤ kMaxHeight from below)
      omega
  | done found => exact ⟨0, Nat.zero_le _, found, rfl⟩

/-! ## Readers progress -/

/-- `n` steps of the `r`-th reader, and no other step, advance that reader `n` turns and
change nothing else. -/
theorem run_reads {r : Nat} (n : Nat) : ∀ (w : World Key) {reader : Reader Key}, w.readers[r]? = some reader →
    w.run cmp (List.replicate n (.read r)) =
      some { w with readers := w.readers.set r { reader with pc := (readerStep cmp w.mem reader.key)^[n] reader.pc } } := by
  induction n with
  | zero =>
      intro w reader found
      have same : w.readers.set r { reader with pc := reader.pc } = w.readers := by
        apply List.ext_getElem?
        intro i
        rw [List.getElem?_set]
        split_ifs with here inside
        · subst here; rw [found]
        · subst here; rw [List.getElem?_eq_none (by omega)]
        · rfl
      rw [Function.iterate_zero, id, same]
      rfl
  | succ n ih =>
      intro w reader found
      have inside : r < w.readers.length := (List.getElem?_eq_some_iff.mp found).1
      rw [List.replicate_succ, World.run, World.step, found, Option.map_some', Option.some_bind,
        ih _ (List.getElem?_set_self inside)]
      simp only [List.set_set, Function.iterate_succ_apply]

/-- **Readers progress.** In every world an interleaving of the writer's inserts, with
heights `RandomHeight()` may return, and any readers' `Contains` reaches from a fresh list,
each reader that takes `kMaxHeight * (n + 1) + 1` steps of its own, `n` the number of nodes
allocated, has returned, and those steps change nothing but that reader: no interleaving
before leaves it waiting for the writer. -/
theorem readers_progress (cmp : Key → Key → Ordering) [TransCmp cmp] (acts : List (Act Key))
    (valid : ∀ act ∈ acts, act.HeightInRange) {w : World Key} (ran : World.init.run cmp acts = some w) {r : Nat}
    {reader : Reader Key} (member : w.readers[r]? = some reader) :
    ∃ found, w.run cmp (List.replicate (kMaxHeight * (w.mem.nodes.length + 1) + 1) (.read r)) =
      some { w with readers := w.readers.set r { reader with pc := .done found } } := by
  have inv := run_inv inv_init acts valid ran
  have short := run_short inv_init (fun j inside => absurd inside (Nat.not_lt_zero j)) acts valid ran
  obtain ⟨inside, rfl⟩ := List.getElem?_eq_some_iff.mp member
  obtain ⟨k, bounded, found, done⟩ := reader_returns inv short (List.getElem_mem inside)
  refine ⟨found, ?_⟩
  rw [run_reads _ w member, ← Nat.sub_add_cancel bounded, Function.iterate_add_apply, done,
    readerStep_iterate_done cmp]

theorem readers_progress_mid_insert :
    (∀ act ∈ ([.insert 5 2, .write, .contains 5, .write, .write, .read 0] : List (Act Nat)), act.HeightInRange) ∧
    ∃ w, World.init.run compare ([.insert 5 2, .write, .contains 5, .write, .write, .read 0] : List (Act Nat)) =
        some w ∧ w.readers[0]? = some ⟨5, .visit .head 1, 0⟩ ∧
      ∃ found, w.run compare (List.replicate (kMaxHeight * (w.mem.nodes.length + 1) + 1) (.read 0)) =
        some { w with readers := w.readers.set 0 { (⟨5, .visit .head 1, 0⟩ : Reader Nat) with pc := .done found } } :=
  have ran : World.init.run compare ([.insert 5 2, .write, .contains 5, .write, .write, .read 0] : List (Act Nat)) =
      some _ := rfl
  ⟨by decide, _, ran, rfl, readers_progress compare _ (by decide) ran rfl⟩

end Rockscopy.SkipList.Concurrent
