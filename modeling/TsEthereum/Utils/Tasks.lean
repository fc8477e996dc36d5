-- SUMMARY: The executor that the trie walk uses: tasks in a pool, and a queue by priority.
import Mathlib.Algebra.Order.Ring.Rat
import Mathlib.Data.List.Perm.Basic
import Mathlib.Tactic.Linarith

/-!
# Prioritized tasks

`utils/src/tasks.ts`. The executor does nothing after it has called a task, so that what a
task calls before it returns is the next event, whether it started from the queue or not.
-/

structure PrioritizedTaskExecutor.Task (Fn : Type) where
  priority : Rat
  fn : Fn

structure PrioritizedTaskExecutor (Fn : Type) where
  maxPoolSize : Int
  currentPoolSize : Int
  queue : List (PrioritizedTaskExecutor.Task Fn)

namespace PrioritizedTaskExecutor

open List

variable {Fn : Type}

def new (maxPoolSize : Int) : PrioritizedTaskExecutor Fn := ⟨maxPoolSize, 0, []⟩

/-- With the task that is called, if there is a spot for it. -/
def executeOrQueue (e : PrioritizedTaskExecutor Fn) (priority : Rat) (fn : Fn) :
    PrioritizedTaskExecutor Fn × Option Fn :=
  if e.currentPoolSize < e.maxPoolSize then
    ({ e with currentPoolSize := e.currentPoolSize + 1 }, some fn)
  else ({ e with queue := e.queue ++ [⟨priority, fn⟩] }, none)

/-- The callback of a task. -/
def complete (e : PrioritizedTaskExecutor Fn) : PrioritizedTaskExecutor Fn × Option Fn :=
  let e := { e with currentPoolSize := e.currentPoolSize - 1 }
  match e.queue.mergeSort fun a b => b.priority - a.priority ≤ 0 with
  | [] => (e, none)
  | item :: queue => { e with queue := queue }.executeOrQueue item.priority item.fn

def finished (e : PrioritizedTaskExecutor Fn) : Bool := e.currentPoolSize = 0

/-! ## Runs -/

inductive Event where
  | executeOrQueue (priority : Rat)
  | complete (task : Nat)

/-- A task is the number of the call that passes it. -/
structure Run where
  executor : PrioritizedTaskExecutor Nat
  calls : Nat
  started : List Nat
  /-- Those started and not completed. -/
  running : List Nat

def Run.start (s : Run) (r : PrioritizedTaskExecutor Nat × Option Nat) : Run :=
  { s with
    executor := r.1, started := s.started ++ r.2.toList, running := s.running ++ r.2.toList }

/-- A task that has been started completes once. -/
def Run.step (s : Run) : Event → Option Run
  | .executeOrQueue priority =>
    some { s.start (s.executor.executeOrQueue priority s.calls) with calls := s.calls + 1 }
  | .complete task =>
    if task ∈ s.running then
      some ({ s with running := s.running.erase task }.start s.executor.complete)
    else none

inductive Runs (maxPoolSize : Int) : Run → Prop
  | new : Runs maxPoolSize ⟨.new maxPoolSize, 0, [], []⟩
  | event {s s' : Run} {event : Event} (h : Runs maxPoolSize s) (hstep : s.step event = some s') :
    Runs maxPoolSize s'

variable {maxPoolSize : Int} {s s' : Run} {item : Task Nat} {queue : List (Task Nat)}

/-- A task is queued when the pool is full, and every task is started or queued. -/
structure Pooled (maxPoolSize : Int) (s : Run) : Prop where
  size : s.executor.maxPoolSize = maxPoolSize
  pool : s.executor.currentPoolSize = s.running.length
  bound : s.running.length ≤ maxPoolSize
  full : s.executor.queue ≠ [] → s.running.length = maxPoolSize
  tasks : (s.started ++ s.executor.queue.map Task.fn).Perm (range s.calls)

theorem start_none (e : PrioritizedTaskExecutor Nat) :
    s.start (e, none) = { s with executor := e } := by simp [Run.start]

/-- A task is started or queued, where the pool has at most one spot while tasks are queued. -/
theorem pooled_start {fn calls : Nat} (priority : Rat) (hsize : s.executor.maxPoolSize = maxPoolSize)
    (hpool : s.executor.currentPoolSize = s.running.length) (hbound : s.running.length ≤ maxPoolSize)
    (hspot : s.executor.queue ≠ [] → maxPoolSize ≤ s.running.length + 1)
    (htasks : (fn :: (s.started ++ s.executor.queue.map Task.fn)).Perm (range calls)) :
    Pooled maxPoolSize
      { s.start (s.executor.executeOrQueue priority fn) with calls := calls } := by
  unfold PrioritizedTaskExecutor.executeOrQueue
  rw [hsize, hpool]
  split
  · rename_i hfree
    have hlength : ((s.running ++ [fn]).length : Int) = s.running.length + 1 := by simp
    refine ⟨rfl, hlength.symm, hlength.trans_le hfree, ?_, ?_⟩
    · exact fun hne => hlength.trans (Int.le_antisymm hfree (hspot hne))
    · refine Perm.trans ?_ htasks
      rw [← cons_append]
      exact (perm_append_singleton fn s.started).append_right _
  · rename_i hfull
    rw [start_none]
    refine ⟨rfl, rfl, hbound, fun _ => Int.le_antisymm hbound (Int.not_lt.mp hfull), ?_⟩
    refine Perm.trans ?_ htasks
    simp [← append_assoc, perm_append_singleton]

/-- The task at the front of the sorted queue has the highest priority. -/
theorem of_sorted (h : s.executor.queue.mergeSort (fun a b => b.priority - a.priority ≤ 0) =
    item :: queue) : (item :: queue).Perm s.executor.queue ∧
      ∀ other ∈ s.executor.queue, other.priority ≤ item.priority := by
  have hperm := h ▸ mergeSort_perm s.executor.queue fun a b => b.priority - a.priority ≤ 0
  refine ⟨hperm, fun other hmem => ?_⟩
  have hsorted := h ▸ @pairwise_mergeSort _ (fun a b : Task Nat => b.priority - a.priority ≤ 0)
    (fun a b c hab hbc => by simp only [decide_eq_true_eq] at *; linarith)
    (fun a b => by simp [le_total]) s.executor.queue
  obtain rfl | hmem := mem_cons.mp (hperm.mem_iff.mpr hmem)
  · exact le_refl _
  · simpa using (pairwise_cons.mp hsorted).1 other hmem

theorem complete_spec (h : Pooled maxPoolSize s) {task : Nat}
    (hstep : s.step (.complete task) = some s') : Pooled maxPoolSize s' ∧
      (s.executor.queue ≠ [] → ∃ item, (item :: s'.executor.queue).Perm s.executor.queue ∧
        (∀ other ∈ s.executor.queue, other.priority ≤ item.priority) ∧
        s'.started = s.started ++ [item.fn]) := by
  by_cases hmem : task ∈ s.running
  swap
  · cases (if_neg hmem).symm.trans hstep
  obtain rfl := Option.some.inj ((if_pos hmem).symm.trans hstep)
  have hlength : ((s.running.erase task).length : Int) = s.running.length - 1 := by
    have := length_pos_of_mem hmem
    rw [length_erase_of_mem hmem]
    omega
  obtain ⟨hsize, hpool, hbound, hfull, htasks⟩ := h
  unfold complete
  dsimp only
  split
  · rename_i hsorted
    have hnil : s.executor.queue = [] := by
      rw [← length_eq_zero_iff, ← length_mergeSort, hsorted, length_nil]
    rw [start_none]
    refine ⟨⟨hsize, ?_, ?_, fun hne => absurd hnil hne, htasks⟩, fun hne => absurd hnil hne⟩
    · exact (congrArg (· - 1) hpool).trans hlength.symm
    · dsimp only
      omega
  · rename_i item queue hsorted
    obtain ⟨hperm, hfirst⟩ := of_sorted hsorted
    have hne : s.executor.queue ≠ [] := ne_nil_of_mem (hperm.mem_iff.mp mem_cons_self)
    have hfree : s.executor.currentPoolSize - 1 < s.executor.maxPoolSize := by omega
    refine ⟨pooled_start (s := ⟨⟨s.executor.maxPoolSize, s.executor.currentPoolSize - 1, queue⟩,
      s.calls, s.started, s.running.erase task⟩) item.priority hsize ?_ ?_ ?_ ?_,
      fun _ => ⟨item, ?_, hfirst, ?_⟩⟩
    · exact (congrArg (· - 1) hpool).trans hlength.symm
    · dsimp only
      omega
    · have := hfull hne
      dsimp only
      omega
    · exact perm_middle.symm.trans (((hperm.map Task.fn).append_left _).trans htasks)
    all_goals
      rw [PrioritizedTaskExecutor.executeOrQueue, if_pos hfree]
      first | exact hperm | rfl

theorem Runs.pooled (hmax : 1 ≤ maxPoolSize) (h : Runs maxPoolSize s) : Pooled maxPoolSize s := by
  induction h with
  | new => exact ⟨rfl, rfl, by simp; omega, fun hne => absurd rfl hne, .refl _⟩
  | @event s s' event _ hstep ih =>
    cases event with
    | complete task => exact (complete_spec ih hstep).1
    | executeOrQueue priority =>
      obtain rfl := Option.some.inj hstep
      refine pooled_start priority ih.size ih.pool ih.bound (fun hne => ?_) ?_
      · rw [ih.full hne]
        exact Int.le_add_one (Int.le_refl _)
      · rw [range_succ]
        exact (ih.tasks.cons _).trans (perm_append_singleton _ _).symm

end PrioritizedTaskExecutor
