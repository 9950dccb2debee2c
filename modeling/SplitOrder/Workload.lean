import SplitOrder.Key
import SplitOrder.Table.KeySet

/-!
# Workloads

Several workers on one collection of numbers, in phases. In each phase every worker has a row of
jobs, and a job treats the numbers of a range one by one. What is reported after a phase is what
does not depend on how the workers take turns, as long as their jobs are such that no order
matters; the jobs are then run one worker after the other.

* `Shared` — the collection: a list, a key set, or a table whose values are the squares of its
  keys.
* `Shared.runPhases` — the report on each phase.
-/

namespace SplitOrder

/-- What a job does with each of its numbers. -/
inductive Task where
  | insert
  | delete
  | contains
deriving DecidableEq, Repr

/-- A task for every number of a range. -/
structure Job where
  task : Task
  range : Range
deriving DecidableEq, Repr

/-- A collection that workers share. -/
inductive Shared where
  | list (l : SortedList Int64)
  | set (s : KeySet Int64)
  | table (t : Table Int64 Int64)

/-- What a collection holds, in ascending order. -/
inductive Contents where
  | keys (keys : List Int64)
  | entries (entries : List (Int64 × Int64))
deriving DecidableEq, Repr

/-- The state after a phase. -/
structure PhaseReport where
  /-- How often each task that was done in the phase had its effect, or found its number. -/
  successes : List (Task × Nat)
  length : Nat
  contents : Contents
deriving DecidableEq, Repr

namespace Shared

def square (n : Int64) : Int64 :=
  n * n

/-- One task on one number. In a table, a deletion or a look counts only with the right value. -/
def perform : Shared → Task → Int64 → Checked (Bool × Shared)
  | .list l, .insert, n => do
    let (b, l) ← l.insert n
    return (b, .list l)
  | .list l, .delete, n => do
    let (b, l) ← l.delete n
    return (b, .list l)
  | .list l, .contains, n => do
    let (b, l) ← l.contains n
    return (b, .list l)
  | .set s, .insert, n => do
    let (b, s) ← KeySet.insert s n
    return (b, .set s)
  | .set s, .delete, n => do
    let (b, s) ← KeySet.delete s n
    return (b, .set s)
  | .set s, .contains, n => do
    let (b, s) ← KeySet.contains s n
    return (b, .set s)
  | .table t, .insert, n => do
    let (b, t) ← t.insert n (square n)
    return (b, .table t)
  | .table t, .delete, n => do
    let (value, t) ← t.remove n
    return (value == some (square n), .table t)
  | .table t, .contains, n => do
    let (value, t) ← t.get n
    return (value == some (square n), .table t)

/-- Jobs one after the other. Answers each task with its count. -/
def runJobs : Shared → List Job → Checked (List (Task × Nat) × Shared)
  | s, [] => .ok ([], s)
  | s, job :: jobs => do
    let (count, s) ← Checked.countTrue (·.perform job.task) s job.range.numbers
    let (counts, s) ← runJobs s jobs
    return ((job.task, count) :: counts, s)

def length : Shared → Checked Nat
  | .list l => l.length
  | .set s => .ok s.size.toNat
  | .table t => .ok t.size.toNat

def contents : Shared → Checked Contents
  | .list l => do return .keys (← l.toList)
  | .set s => do return .keys ((← s.keys).mergeSort (· ≤ ·))
  | .table t => do return .entries ((← t.toList).mergeSort fun a b => a.1 ≤ b.1)

/-- One phase: the jobs of all workers, and the report on them. -/
def runPhase (s : Shared) (workers : List (List Job)) : Checked (PhaseReport × Shared) := do
  let (counts, s) ← s.runJobs workers.flatten
  let tasks := (counts.map Prod.fst).eraseDups
  let total := fun task => ((counts.filter (·.1 = task)).map Prod.snd).foldl (· + ·) 0
  return (⟨tasks.map fun task => (task, total task), ← s.length, ← s.contents⟩, s)

def runPhases : Shared → List (List (List Job)) → Checked (List PhaseReport)
  | _, [] => .ok []
  | s, phase :: phases => do
    let (report, s) ← s.runPhase phase
    return report :: (← s.runPhases phases)

end Shared

end SplitOrder
