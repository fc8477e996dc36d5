-- SUMMARY: The lock that tries, chain, execution and pool use: one holder, in the order of the calls.
import Mathlib.Data.List.Basic

/-!
# Lock

`utils/src/lock.ts`. A resolver stands for the task that waits for it. A task in
`runWithLock` calls `acquire`, goes on when that has resolved, and calls `release` also
when its action throws.
-/

namespace Locks

structure Lock (Task : Type) where
  permits : Int
  promiseResolverQueue : List Task

/-- What `release` does beside the permits. -/
inductive Released (Task : Type) where
  | nothing
  | warned (message : String)
  | resolved (nextResolver : Task)

namespace Lock

open List

variable {Task : Type}

def new : Lock Task := ⟨1, []⟩

/-- The promise is resolved at once, or its resolver waits. -/
def acquire (lock : Lock Task) (resolver : Task) : Lock Task × Bool :=
  if lock.permits > 0 then ({ lock with permits := lock.permits - 1 }, true)
  else ({ lock with promiseResolverQueue := lock.promiseResolverQueue ++ [resolver] }, false)

def release (lock : Lock Task) : Lock Task × Released Task :=
  let permits := lock.permits + 1
  match lock.promiseResolverQueue with
  | [] => ({ lock with permits := permits }, .nothing)
  | nextResolver :: rest =>
    if permits > 1 then
      ({ lock with permits := permits },
        .warned "Lock.permits should never be > 0 when there is someone waiting.")
    else if permits = 1 then (⟨permits - 1, rest⟩, .resolved nextResolver)
    else ({ lock with permits := permits }, .nothing)

/-! ## Runs -/

inductive Call (Task : Type) where
  | acquire (task : Task)
  | release (task : Task)

def Call.acquiring : Call Task → Option Task
  | .acquire task => some task
  | .release _ => none

/-- The tasks whose calls of `acquire` have resolved, and those of them that are to release. -/
structure Use (Task : Type) where
  lock : Lock Task
  obtained : List Task
  holding : List Task

variable [DecidableEq Task]

/-- A task releases once for each call that has resolved. -/
def Use.step (s : Use Task) : Call Task → Option (Use Task)
  | .acquire task =>
    let (lock, resolved) := s.lock.acquire task
    let resolved := if resolved then [task] else []
    some ⟨lock, s.obtained ++ resolved, s.holding ++ resolved⟩
  | .release task =>
    if task ∈ s.holding then
      let (lock, released) := s.lock.release
      let resolved := match released with
        | .resolved nextResolver => [nextResolver]
        | _ => []
      some ⟨lock, s.obtained ++ resolved, s.holding.erase task ++ resolved⟩
    else none

inductive Runs : List (Call Task) → Use Task → Prop
  | new : Runs [] ⟨.new, [], []⟩
  | call {calls : List (Call Task)} {call : Call Task} {s s' : Use Task} (h : Runs calls s)
      (hstep : s.step call = some s') : Runs (calls ++ [call]) s'

/-- Either nobody holds the lock or waits for it, or one task holds it. -/
structure Exclusive (calls : List (Call Task)) (s : Use Task) : Prop where
  holder : s.holding = [] ∧ s.lock = .new ∨
    ∃ holder waiting, s.holding = [holder] ∧ s.lock = ⟨0, waiting⟩
  order : calls.filterMap Call.acquiring = s.obtained ++ s.lock.promiseResolverQueue

variable {calls : List (Call Task)} {s s' : Use Task} {task holder : Task}
  {waiting obtained : List Task}

theorem Exclusive.acquire (h : Exclusive calls s) (hstep : s.step (.acquire task) = some s') :
    Exclusive (calls ++ [.acquire task]) s' := by
  obtain ⟨lock, obtained, holding⟩ := s
  obtain ⟨⟨rfl, rfl⟩ | ⟨holder, waiting, rfl, rfl⟩, horder⟩ := h
  · obtain rfl : s' = ⟨⟨0, []⟩, obtained ++ [task], [task]⟩ := (Option.some.inj hstep).symm
    exact ⟨.inr ⟨task, [], rfl, rfl⟩, by rw [filterMap_append, horder]; simp [Call.acquiring, new]⟩
  · obtain rfl : s' = ⟨⟨0, waiting ++ [task]⟩, obtained ++ [], [holder] ++ []⟩ :=
      (Option.some.inj hstep).symm
    exact ⟨.inr ⟨holder, _, rfl, rfl⟩, by rw [filterMap_append, horder]; simp [Call.acquiring]⟩

/-- The first that waits is woken. -/
def passed (obtained : List Task) : List Task → Use Task
  | [] => ⟨.new, obtained, []⟩
  | first :: rest => ⟨⟨0, rest⟩, obtained ++ [first], [first]⟩

theorem release_spec (hstep : Use.step ⟨⟨0, waiting⟩, obtained, [holder]⟩ (.release task) = some s') :
    s' = passed obtained waiting := by
  by_cases hmem : task ∈ [holder]
  · obtain rfl := mem_singleton.mp hmem
    simp only [Use.step, if_pos hmem, erase_cons_head] at hstep
    cases waiting with
    | nil => exact (Option.some.inj hstep).symm.trans (by simp [release, passed, new])
    | cons first rest => exact (Option.some.inj hstep).symm
  · cases (if_neg hmem).symm.trans hstep

theorem Exclusive.release (h : Exclusive calls s) (hstep : s.step (.release task) = some s') :
    Exclusive (calls ++ [.release task]) s' := by
  obtain ⟨lock, obtained, holding⟩ := s
  obtain ⟨⟨rfl, rfl⟩ | ⟨holder, waiting, rfl, rfl⟩, horder⟩ := h
  · cases hstep
  · obtain rfl := release_spec hstep
    have hcalls : (calls ++ [Call.release task]).filterMap Call.acquiring = obtained ++ waiting := by
      rw [← horder, filterMap_append]
      exact append_nil _
    cases waiting with
    | nil => exact ⟨.inl ⟨rfl, rfl⟩, hcalls⟩
    | cons first rest => exact ⟨.inr ⟨first, rest, rfl, rfl⟩, hcalls.trans (append_cons ..)⟩

theorem Runs.exclusive (h : Runs calls s) : Exclusive calls s := by
  induction h with
  | new => exact ⟨.inl ⟨rfl, rfl⟩, rfl⟩
  | @call _ call _ _ _ hstep ih =>
    cases call with
    | acquire task => exact ih.acquire hstep
    | release task => exact ih.release hstep

/-- One task at most holds the lock, they obtain it in the order of their calls, a release
wakes the first that waits, and with no holder nobody waits and there is one permit. -/
theorem runs_one_holder (h : Runs calls s) :
    s.holding.length ≤ 1 ∧
    calls.filterMap Call.acquiring = s.obtained ++ s.lock.promiseResolverQueue ∧
    (∀ task s' first rest, s.lock.promiseResolverQueue = first :: rest →
      s.step (.release task) = some s' →
      s'.holding = [first] ∧ s'.obtained = s.obtained ++ [first] ∧
        s'.lock.promiseResolverQueue = rest) ∧
    (s.holding = [] → s.lock.promiseResolverQueue = [] ∧ s.lock.permits = 1) := by
  have horder := h.exclusive.order
  obtain ⟨lock, obtained, holding⟩ := s
  obtain ⟨rfl, rfl⟩ | ⟨holder, waiting, rfl, rfl⟩ := h.exclusive.holder
  · exact ⟨Nat.zero_le 1, horder, fun _ _ _ _ => nofun, fun _ => ⟨rfl, rfl⟩⟩
  · refine ⟨Nat.le_refl 1, horder, fun task s' first rest hqueue hstep => ?_, nofun⟩
    obtain rfl : waiting = first :: rest := hqueue
    obtain rfl := release_spec hstep
    exact ⟨rfl, rfl, rfl⟩

/-- Two tasks call `acquire`: the second waits. -/
theorem runs_one_holder_two : ∃ s : Use Nat, Runs [.acquire 1, .acquire 2] s ∧
    s.lock.promiseResolverQueue = [2] ∧ s.holding.length ≤ 1 :=
  have h : Runs [.acquire 1, .acquire 2] (⟨⟨0, [2]⟩, [1], [1]⟩ : Use Nat) :=
    .call (.call .new rfl) rfl
  ⟨_, h, rfl, (runs_one_holder h).1⟩

end Lock

end Locks
