-- SUMMARY: When at most one run of `assembleBlock` is in progress without an interrupt, and `assembling` is false where there is none.
import TsEthereum.ExecutionClient.Miner.Assembly

/-!
# Exclusive assemblies

The run that is live holds the flag up to the step in which it seals its block or settles.
Four kinds of steps break this: a run that throws leaves the flag set, an interrupted run
and the timeout of a settled run reset the flag of another run, and an assembly may start
while a sealed block is being added.
-/

open List Option Bool

namespace Miner

open Run

variable {getGasPrice : TypedTransaction → Int} {config : Config}

/-! ## Steps of a run -/

/-- An error that nothing catches. -/
def Run.throws (r : Run) : Outcome → Bool
  | .thrown => true
  | .rejected _ => r.await ≠ some .setStateRoot && r.await ≠ some .addTransaction
  | _ => false

/-- The exits that reset `assembling` without asking for an interrupt. -/
def Run.resets (r : Run) : Outcome → Bool
  | .rejected _ => r.await = some .setStateRoot
  | .solution found => r.await = some .iterate && !found
  | .resolved => r.await = some .saveReceipts
  | _ => false

/-- What a step does with a run; the flag tells whether it resets `assembling`. -/
inductive Resumed (r : Run) (outcome : Outcome) : Run × Bool → Prop where
  /-- It waits again. -/
  | waits {r'} (hinterrupt : r'.interrupt = r.interrupt) (hlistening : r'.listening = r.listening)
      (htimeout : r'.timeoutInterrupt = r.timeoutInterrupt) (hawait : r'.await.isSome = true)
      (hsealed : r'.sealed = r.sealed) : Resumed r outcome (r', false)
  /-- It has sealed its block. -/
  | seals {r'} (hlive : r.interrupt = false) (hinterrupt : r'.interrupt = r.interrupt)
      (hlistening : r'.listening = r.listening) (hsealed : r'.sealed = true)
      (hunsealed : r.sealed = false) : Resumed r outcome (r', true)
  /-- It resets the flag and returns. -/
  | resets {r'} (hsettled : r'.await = none) (hinterrupt : r'.interrupt = r.interrupt)
      (htimeout : r'.timeoutInterrupt = r.timeoutInterrupt) (hunsealed : r.sealed = false)
      (hresets : r.interrupt = true → r.resets outcome = true) : Resumed r outcome (r', true)
  /-- It returns or throws without a reset. -/
  | settles {r'} (hsettled : r'.await = none) (hinterrupt : r'.interrupt = r.interrupt)
      (htimeout : r'.timeoutInterrupt = true → r.timeoutInterrupt = true)
      (hthrows : r.live = true → r.sealed = true ∨ r.throws outcome = true) :
      Resumed r outcome (r', false)

variable {r : Run}

theorem Run.live_iff : r.live = true ↔ r.await.isSome = true ∧ r.interrupt = false := by
  simp [Run.live]

variable {r' : Run} {outcome : Outcome}

theorem endSelection_resumed (hinterrupt : r'.interrupt = r.interrupt)
    (hlistening : r'.listening = r.listening) (htimeout : r'.timeoutInterrupt = r.timeoutInterrupt)
    (hsealed : r.sealed = false) : Resumed r outcome (r'.endSelection, false) := by
  unfold endSelection
  split
  · rename_i hset
    refine .settles rfl hinterrupt (fun h => htimeout ▸ h) (fun hlive => ?_)
    rw [hinterrupt, (live_iff.mp hlive).2] at hset
    cases hset
  · exact .waits hinterrupt hlistening htimeout rfl hsealed.symm

/-- The loop ends at an await of the assembly, or it returns for an interrupt. -/
theorem select_resumed (hsealed : r.sealed = false) (rounds : Nat)
    (hinterrupt : r'.interrupt = r.interrupt) (hlistening : r'.listening = r.listening)
    (htimeout : r'.timeoutInterrupt = r.timeoutInterrupt) :
    Resumed r outcome (r'.select getGasPrice rounds, false) := by
  induction rounds generalizing r' with
  | zero => exact endSelection_resumed hinterrupt hlistening htimeout hsealed
  | succ rounds ih =>
    unfold select
    split
    · exact endSelection_resumed hinterrupt hlistening htimeout hsealed
    · split
      · exact endSelection_resumed hinterrupt hlistening htimeout hsealed
      · dsimp only
        split
        · exact ih hinterrupt hlistening htimeout
        · exact .waits hinterrupt hlistening htimeout rfl hsealed.symm

variable (getGasPrice) in
theorem skip_fields (r : Run) (message : String) :
    (r.skip getGasPrice message).interrupt = r.interrupt ∧
      (r.skip getGasPrice message).listening = r.listening ∧
      (r.skip getGasPrice message).timeoutInterrupt = r.timeoutInterrupt := by
  unfold Run.skip
  split
  · exact ⟨rfl, rfl, rfl⟩
  · split
    · exact ⟨rfl, rfl, rfl⟩
    · split <;> exact ⟨rfl, rfl, rfl⟩

theorem resume_spec {res : Run × Bool} (h : r.resume getGasPrice config outcome = some res) :
    Resumed r outcome res := by
  have hsealed (a : Await) (hawait : r.await = some a)
      (ha : a ≠ .handleNewBlock ∧ a ≠ .demoteUnexecutables ∧ a ≠ .promoteExecutables) :
      r.sealed = false := by
    simp [sealed, hawait, ha]
  unfold resume at h
  split at h
  · cases h
  · rename_i hawait
    obtain rfl := some.inj h
    exact .resets rfl rfl rfl (hsealed _ hawait (by simp)) (fun _ => by simp [resets, hawait])
  · rename_i message hawait
    obtain rfl := some.inj h
    obtain ⟨hinterrupt, hlistening, htimeout⟩ := skip_fields getGasPrice r message
    exact select_resumed (hsealed _ hawait (by simp)) _ hinterrupt hlistening htimeout
  · rename_i a message hroot htransaction hawait
    obtain rfl := some.inj h
    refine .settles rfl rfl id (fun _ => .inr ?_)
    simp only [throws, hawait]
    cases a <;> simp_all
  · obtain rfl := some.inj h
    exact .settles rfl rfl id (fun _ => .inr rfl)
  · rename_i hawait
    obtain rfl := some.inj h
    exact .waits rfl rfl rfl rfl (hsealed _ hawait (by simp)).symm
  · rename_i hawait
    obtain rfl := some.inj h
    exact .waits rfl rfl rfl rfl (hsealed _ hawait (by simp)).symm
  · rename_i hawait
    obtain rfl := some.inj h
    exact .waits rfl rfl rfl rfl (hsealed _ hawait (by simp)).symm
  · rename_i hawait
    obtain rfl := some.inj h
    exact select_resumed (hsealed _ hawait (by simp)) _ rfl rfl rfl
  · rename_i hawait
    obtain rfl := some.inj h
    exact select_resumed (hsealed _ hawait (by simp)) _ rfl rfl rfl
  · rename_i hawait
    obtain rfl := some.inj h
    split
    · rename_i hset
      refine .settles rfl rfl id (fun hlive => ?_)
      rw [(live_iff.mp hlive).2] at hset
      cases hset
    · exact .waits rfl rfl rfl rfl (hsealed _ hawait (by simp)).symm
  · rename_i hawait
    obtain rfl := some.inj h
    exact .resets rfl rfl rfl (hsealed _ hawait (by simp)) (fun _ => by simp [resets, hawait])
  · rename_i hawait
    split at h
    · rename_i hset
      obtain rfl := some.inj h
      refine .settles rfl rfl id (fun hlive => ?_)
      rw [(live_iff.mp hlive).2] at hset
      cases hset
    · rename_i hset
      split at h
      · obtain rfl := some.inj h
        exact .waits rfl rfl rfl rfl (hsealed _ hawait (by simp)).symm
      · obtain rfl := some.inj h
        exact .seals (eq_false_of_not_eq_true hset) rfl rfl rfl (hsealed _ hawait (by simp))
  · rename_i hawait
    obtain rfl := some.inj h
    split
    · exact .resets rfl rfl rfl (hsealed _ hawait (by simp)) (fun _ => by simp [resets, hawait])
    · rename_i hset
      exact .seals (eq_false_of_not_eq_true hset) rfl rfl rfl (hsealed _ hawait (by simp))
  · rename_i hawait
    obtain rfl := some.inj h
    exact .waits rfl rfl rfl rfl (by simp [sealed, waitFor, hawait])
  · rename_i hawait
    obtain rfl := some.inj h
    exact .waits rfl rfl rfl rfl (by simp [sealed, waitFor, hawait])
  · rename_i hawait
    obtain rfl := some.inj h
    exact .settles rfl rfl nofun (fun _ => .inl (by simp [sealed, hawait]))
  · cases h

/-! ## The condition -/

/-- A live run that has not sealed its block. -/
def State.holder (m : State) : Prop := ∃ r ∈ m.runs, r.live = true ∧ r.sealed = false

/-- An assembly starts with a latest block and while no block is added. -/
def State.mayAssemble (m : State) (gasLimit : Option Nat) : Prop :=
  m.assembling = true ∨ (gasLimit.isSome = true ∧ ∀ r ∈ m.runs, r.live = true → r.sealed = false)

/-- The step takes none of the branches that lose the flag or leave it set. -/
def Clean (m : State) : Step → Prop
  | .assembleBlock gasLimit => m.mayAssemble gasLimit
  | .nextAssembly gasLimit => m.mayAssemble gasLimit
  | .buildTimeout id => ∀ r, m.runs[id]? = some r → r.await = none → ¬ m.holder
  | .resume id outcome => ∀ r, m.runs[id]? = some r →
      (r.live = true → r.sealed = true ∨ r.throws outcome = false) ∧
      (r.interrupt = true → r.resets outcome = true → ¬ m.holder)
  | _ => True

def CleanSteps (getGasPrice : TypedTransaction → Int) (config : Config) (m : State) : List Step → Prop
  | [] => True
  | s :: steps => Clean m s ∧ ∀ m', step getGasPrice config m s = some m' →
      CleanSteps getGasPrice config m' steps

/-! ## The invariant -/

structure Exclusive (m : State) : Prop where
  unique : ∀ (i j : Nat) (r s : Run), m.runs[i]? = some r → m.runs[j]? = some s → r.live = true → s.live = true → i = j
  /-- The live run holds the flag up to the sealing of its block. -/
  flag : ∀ r ∈ m.runs, r.live = true → m.assembling = !r.sealed
  free : (∀ r ∈ m.runs, r.live = false) → m.assembling = false
  listening : ∀ r ∈ m.runs, r.live = true → r.listening = true
  cleared : ∀ r ∈ m.runs, r.interrupt = true → r.timeoutInterrupt = false

theorem exclusive_new : Exclusive new where
  unique := fun _ _ _ _ hr => nomatch hr
  flag := fun _ hr => nomatch hr
  free := fun _ => rfl
  listening := fun _ hr => nomatch hr
  cleared := fun _ hr => nomatch hr

variable {m : State}

/-- With the flag free and no block being added, no run is live. -/
theorem Exclusive.none_live (h : Exclusive m) (hfree : m.assembling = false)
    (hsealed : ∀ r ∈ m.runs, r.live = true → r.sealed = false) : ∀ r ∈ m.runs, r.live = false := by
  intro r hr
  by_contra hlive
  have hflag := h.flag r hr (eq_true_of_not_eq_false hlive)
  rw [hfree, hsealed r hr (eq_true_of_not_eq_false hlive)] at hflag
  cases hflag

theorem Exclusive.assembleBlock (h : Exclusive m) {gasLimit : Option Nat}
    (hmay : m.mayAssemble gasLimit) : Exclusive (assembleBlock config m gasLimit) := by
  unfold Miner.assembleBlock
  split
  · exact h
  · rename_i hfree
    have hfree := eq_false_of_not_eq_true hfree
    obtain ⟨gasLimit, rfl⟩ : ∃ g, gasLimit = some g := by
      rcases hmay with hset | ⟨hsome, -⟩
      · rw [hfree] at hset
        cases hset
      · exact isSome_iff_exists.mp hsome
    have hnone := h.none_live hfree (hmay.resolve_left (by rw [hfree]; exact Bool.false_ne_true)).2
    dsimp only
    have hlast (i : Nat) (r : Run) (hr : (m.runs ++ [Run.start config gasLimit])[i]? = some r)
        (hlive : r.live = true) : i = m.runs.length ∧ r = Run.start config gasLimit := by
      rw [getElem?_append] at hr
      split at hr
      · rw [hnone r (mem_of_getElem? hr)] at hlive
        cases hlive
      · rename_i hle
        obtain ⟨hlt, hget⟩ := List.getElem?_eq_some_iff.mp hr
        rw [length_singleton] at hlt
        refine ⟨by omega, ?_⟩
        rw [← hget]
        exact mem_singleton.mp (getElem_mem hlt)
    have hmem (r : Run) (hr : r ∈ m.runs ++ [Run.start config gasLimit]) (hlive : r.live = true) :
        r = Run.start config gasLimit := by
      obtain ⟨i, hi⟩ := getElem?_of_mem hr
      exact (hlast i r hi hlive).2
    constructor
    · exact fun i j r s hr hs hlr hls => (hlast i r hr hlr).1.trans (hlast j s hs hls).1.symm
    · intro r hr hlive
      rw [hmem r hr hlive]
      rfl
    · intro hall
      have hstart := hall (Run.start config gasLimit) (mem_append_right _ (mem_singleton_self _))
      cases hstart
    · intro r hr hlive
      rw [hmem r hr hlive]
      rfl
    · intro r hr hset
      rcases mem_append.mp hr with hr | hr
      · exact h.cleared r hr hset
      · rw [mem_singleton.mp hr] at hset
        cases hset

variable {id : Nat}

section

variable (h : Exclusive m)
include h

/-- One run is replaced and the flag is written. -/
theorem Exclusive.set {assembling : Bool} (hr : m.runs[id]? = some r)
    (hlive : r'.live = true → r.live = true) (hflag : r'.live = true → assembling = !r'.sealed)
    (hothers : ∀ j s, j ≠ id → m.runs[j]? = some s → s.live = true → assembling = !s.sealed)
    (hfree : r'.live = false → (∀ j s, j ≠ id → m.runs[j]? = some s → s.live = false) →
      assembling = false) (hlistening : r'.live = true → r'.listening = true)
    (hcleared : r'.interrupt = true → r'.timeoutInterrupt = false) :
    Exclusive { m with assembling := assembling, runs := m.runs.set id r' } := by
  have hlt : id < m.runs.length := (List.getElem?_eq_some_iff.mp hr).1
  have hself : (m.runs.set id r')[id]? = some r' := getElem?_set_self hlt
  have hother {j : Nat} (hj : j ≠ id) : (m.runs.set id r')[j]? = m.runs[j]? :=
    getElem?_set_ne (Ne.symm hj)
  -- a run of the new list stands for a run of the old one that is live if it is
  have hold (j : Nat) (s : Run) (hs : (m.runs.set id r')[j]? = some s) (hls : s.live = true) :
      ∃ s', m.runs[j]? = some s' ∧ s'.live = true := by
    rcases eq_or_ne j id with rfl | hj
    · obtain rfl := some.inj (hself.symm.trans hs)
      exact ⟨r, hr, hlive hls⟩
    · exact ⟨s, (hother hj).symm.trans hs, hls⟩
  have hmem (s : Run) (hs : s ∈ m.runs.set id r') : s = r' ∨ ∃ j, j ≠ id ∧ m.runs[j]? = some s := by
    obtain ⟨j, hj⟩ := getElem?_of_mem hs
    rcases eq_or_ne j id with rfl | hne
    · exact .inl (some.inj (hj.symm.trans hself))
    · exact .inr ⟨j, hne, (hother hne).symm.trans hj⟩
  constructor
  · intro i j s t hs ht hls hlt
    obtain ⟨s', hs', hls'⟩ := hold i s hs hls
    obtain ⟨t', ht', hlt'⟩ := hold j t ht hlt
    exact h.unique i j s' t' hs' ht' hls' hlt'
  · intro s hs hls
    rcases hmem s hs with rfl | ⟨j, hj, hget⟩
    · exact hflag hls
    · exact hothers j s hj hget hls
  · intro hall
    refine hfree (hall r' (mem_of_getElem? hself)) (fun j s hj hs => ?_)
    exact hall s (mem_of_getElem? ((hother hj).trans hs))
  · intro s hs hls
    rcases hmem s hs with rfl | ⟨j, hj, hget⟩
    · exact hlistening hls
    · exact h.listening s (mem_of_getElem? hget) hls
  · intro s hs hset
    rcases hmem s hs with rfl | ⟨j, hj, hget⟩
    · exact hcleared hset
    · exact h.cleared s (mem_of_getElem? hget) hset

/-- Where the flag is reset, another live run has sealed its block. -/
theorem Exclusive.others_sealed (hr : m.runs[id]? = some r)
    (hholder : r.live = false → ¬ m.holder) (j : Nat) (s : Run) (hj : j ≠ id)
    (hs : m.runs[j]? = some s) (hls : s.live = true) : false = !s.sealed := by
  cases hlive : r.live with
  | true => exact absurd (h.unique j id s r hs hr hls hlive) hj
  | false =>
    cases hsealed : s.sealed with
    | true => rfl
    | false => exact absurd ⟨s, mem_of_getElem? hs, hls, hsealed⟩ (hholder hlive)

theorem Exclusive.resume {res : Run × Bool} (hr : m.runs[id]? = some r)
    (hclean : Clean m (.resume id outcome)) (hawait : r.await.isSome = true)
    (hres : Resumed r outcome res) :
    Exclusive { m with assembling := m.assembling && !res.2, runs := m.runs.set id res.1 } := by
  have hmem := mem_of_getElem? hr
  obtain ⟨hthrown, hreset⟩ := hclean r hr
  cases hres with
  | @waits r' hinterrupt hlistening htimeout hawait' hsealed =>
    have hlive : r'.live = r.live := by simp [Run.live, hinterrupt, hawait, hawait']
    rw [Bool.not_false, Bool.and_true]
    refine h.set hr (fun hl => hlive ▸ hl) (fun hl => ?_) (fun _ s _ hs => h.flag s (mem_of_getElem? hs))
      (fun hl hall => ?_) (fun hl => ?_) (fun hset => ?_)
    · rw [hsealed]
      exact h.flag r hmem (hlive ▸ hl)
    · refine h.free (fun s hs => ?_)
      obtain ⟨j, hj⟩ := getElem?_of_mem hs
      rcases eq_or_ne j id with rfl | hne
      · obtain rfl := some.inj (hr.symm.trans hj)
        exact hlive ▸ hl
      · exact hall j s hne hj
    · rw [hlistening]
      exact h.listening r hmem (hlive ▸ hl)
    · rw [htimeout]
      exact h.cleared r hmem (hinterrupt ▸ hset)
  | @seals r' hfree hinterrupt hlistening hsealed hunsealed =>
    have hlive : r.live = true := live_iff.mpr ⟨hawait, hfree⟩
    rw [Bool.not_true, Bool.and_false]
    refine h.set hr (fun _ => hlive) (fun _ => by rw [hsealed]; rfl) (h.others_sealed hr (fun hl => ?_))
      (fun _ _ => rfl) (fun _ => hlistening.trans (h.listening r hmem hlive)) (fun hset => ?_)
    · rw [hlive] at hl
      cases hl
    · rw [hinterrupt, hfree] at hset
      cases hset
  | @resets r' hsettled hinterrupt htimeout hunsealed hresets =>
    have hlive : r'.live = false := by simp [Run.live, hsettled]
    rw [Bool.not_true, Bool.and_false]
    refine h.set hr (fun hl => ?_) (fun hl => ?_) (h.others_sealed hr (fun hl => ?_))
      (fun _ _ => rfl) (fun hl => ?_) (fun hset => ?_)
    · rw [hlive] at hl
      cases hl
    · rw [hlive] at hl
      cases hl
    · have hset : r.interrupt = true := by simpa [Run.live, hawait] using hl
      exact hreset hset (hresets hset)
    · rw [hlive] at hl
      cases hl
    · exact htimeout.trans (h.cleared r hmem (hinterrupt ▸ hset))
  | @settles r' hsettled hinterrupt htimeout hthrows =>
    have hlive : r'.live = false := by simp [Run.live, hsettled]
    rw [Bool.not_false, Bool.and_true]
    refine h.set hr (fun hl => ?_) (fun hl => ?_) (fun _ s _ hs => h.flag s (mem_of_getElem? hs))
      (fun _ hall => ?_) (fun hl => ?_) (fun hset => ?_)
    · rw [hlive] at hl
      cases hl
    · rw [hlive] at hl
      cases hl
    · cases hl : r.live with
      | true =>
        -- a live run that returns without a reset has sealed its block
        have hsealed : r.sealed = true := by
          rcases hthrown hl with hs | hs
          · exact hs
          · exact (hthrows hl).resolve_right (by rw [hs]; exact Bool.false_ne_true)
        rw [h.flag r hmem hl, hsealed]
        rfl
      | false =>
        refine h.free (fun s hs => ?_)
        obtain ⟨j, hj⟩ := getElem?_of_mem hs
        rcases eq_or_ne j id with rfl | hne
        · obtain rfl := some.inj (hr.symm.trans hj)
          exact hl
        · exact hall j s hne hj
    · rw [hlive] at hl
      cases hl
    · cases ht : r'.timeoutInterrupt with
      | false => rfl
      | true =>
        have hpending := htimeout ht
        rw [h.cleared r hmem (hinterrupt ▸ hset)] at hpending
        cases hpending

theorem Exclusive.buildTimeout (hr : m.runs[id]? = some r)
    (hclean : Clean m (.buildTimeout id)) (htimeout : r.timeoutInterrupt = true) :
    Exclusive { m with assembling := false, runs := m.runs.set id r.setInterrupt } := by
  have hlive : r.setInterrupt.live = false := by simp [Run.live, setInterrupt]
  refine h.set hr (fun hl => ?_) (fun hl => ?_) (h.others_sealed hr (fun hl => ?_)) (fun _ _ => rfl)
    (fun hl => ?_) (fun _ => rfl)
  · rw [hlive] at hl
    cases hl
  · rw [hlive] at hl
    cases hl
  · -- the timer of an interrupted run is cleared, so the run has settled
    refine hclean r hr ?_
    cases hset : r.interrupt with
    | true =>
      rw [h.cleared r (mem_of_getElem? hr) hset] at htimeout
      cases htimeout
    | false => simpa [Run.live, hset] using hl
  · rw [hlive] at hl
    cases hl

/-- The event interrupts every live run. -/
theorem Exclusive.chainUpdated (nextAssembly : Bool) :
    Exclusive { m with
      nextAssembly := nextAssembly
      assembling := m.assembling && !m.runs.any Run.listening
      runs := m.runs.map (fun r => if r.listening then r.setInterrupt else r) } := by
  have hnone (s : Run) (hs : s ∈ m.runs.map (fun r => if r.listening then r.setInterrupt else r)) :
      s.live = false := by
    obtain ⟨r, hr, rfl⟩ := mem_map.mp hs
    split
    · simp [Run.live, Run.setInterrupt]
    · rename_i hlistening
      exact eq_false_iff.mpr (fun hlive => hlistening (h.listening r hr hlive))
  constructor
  · intro i j s t hs _ hlive
    rw [hnone s (mem_of_getElem? hs)] at hlive
    cases hlive
  · intro s hs hlive
    rw [hnone s hs] at hlive
    cases hlive
  · intro _
    cases hany : m.runs.any Run.listening with
    | true => simp
    | false =>
      have hfree : m.assembling = false := by
        refine h.free (fun r hr => eq_false_iff.mpr (fun hlive => ?_))
        exact any_eq_false.mp hany r hr (h.listening r hr hlive)
      simp [hfree]
  · intro s hs hlive
    rw [hnone s hs] at hlive
    cases hlive
  · intro s hs hset
    obtain ⟨r, hr, rfl⟩ := mem_map.mp hs
    split
    · rfl
    · rename_i hlistening
      rw [if_neg hlistening] at hset
      exact h.cleared r hr hset

end

/-! ## Runs -/

theorem step_exclusive {m' : State} {s : Step} (h : Exclusive m) (hclean : Clean m s)
    (hstep : step getGasPrice config m s = some m') : Exclusive m' := by
  have hother (running nextAssembly : Bool) :
      Exclusive { m with running := running, nextAssembly := nextAssembly } :=
    ⟨h.unique, h.flag, h.free, h.listening, h.cleared⟩
  cases s with
  | start =>
    dsimp only [step] at hstep
    split at hstep
    · exact some.inj hstep ▸ h
    · exact some.inj hstep ▸ hother _ _
  | stop =>
    obtain rfl := some.inj hstep
    split
    · exact hother _ _
    · exact h
  | assembleBlock gasLimit => exact some.inj hstep ▸ h.assembleBlock hclean
  | nextAssembly gasLimit =>
    dsimp only [step] at hstep
    split at hstep
    · exact some.inj hstep ▸ (hother m.running false).assembleBlock hclean
    · cases hstep
  | chainUpdated => exact some.inj hstep ▸ h.chainUpdated _
  | buildTimeout id =>
    dsimp only [step] at hstep
    split at hstep
    · cases hstep
    · rename_i r hr
      split at hstep
      · rename_i htimeout
        exact some.inj hstep ▸ h.buildTimeout hr hclean htimeout
      · cases hstep
  | resume id outcome =>
    dsimp only [step] at hstep
    split at hstep
    · cases hstep
    · rename_i r hr
      split at hstep
      · cases hstep
      · rename_i r' resets hresume
        have hawait : r.await.isSome = true := by
          cases hnone : r.await with
          | some a => rfl
          | none =>
            unfold Run.resume at hresume
            rw [hnone] at hresume
            cases hresume
        exact some.inj hstep ▸ h.resume hr hclean hawait (resume_spec hresume)

theorem runSteps_exclusive {steps : List Step} {m' : State} (h : Exclusive m)
    (hclean : CleanSteps getGasPrice config m steps)
    (hrun : runSteps getGasPrice config m steps = some m') : Exclusive m' := by
  induction steps generalizing m with
  | nil => exact some.inj hrun ▸ h
  | cons s steps ih =>
    obtain ⟨m₁, hstep, hrest⟩ := bind_eq_some_iff.mp hrun
    exact ih (step_exclusive h hclean.1 hstep) (hclean.2 m₁ hstep) hrest

/-- At most one live run, and where there is none the next call of `assembleBlock` proceeds. -/
theorem run_exclusive (steps : List Step) (m : State)
    (hclean : CleanSteps getGasPrice config new steps)
    (hrun : runSteps getGasPrice config new steps = some m) :
    (∀ (i j : Nat) (r s : Run), m.runs[i]? = some r → m.runs[j]? = some s →
      r.live = true → s.live = true → i = j) ∧
    ((∀ r ∈ m.runs, r.live = false) → m.assembling = false ∧
      ∀ gasLimit, (assembleBlock config m (some gasLimit)).runs = m.runs ++ [Run.start config gasLimit]) := by
  have h := runSteps_exclusive exclusive_new hclean hrun
  refine ⟨h.unique, fun hall => ?_⟩
  have hfree := h.free hall
  exact ⟨hfree, fun gasLimit => by simp [assembleBlock, hfree]⟩

/-- A run that is interrupted by an event, with its successor. -/
theorem run_exclusive_successor : ∃ m, runSteps (fun _ => 0) ⟨true, false, none⟩ new
        [.assembleBlock (some 30000000), .chainUpdated, .assembleBlock (some 30000000)] = some m ∧
      m.runs.map Run.live = [false, true] ∧
      ∀ (i j : Nat) (r s : Run), m.runs[i]? = some r → m.runs[j]? = some s →
        r.live = true → s.live = true → i = j := by
  refine ⟨_, rfl, rfl, (@run_exclusive (fun _ => 0) ⟨true, false, none⟩
    [.assembleBlock (some 30000000), .chainUpdated, .assembleBlock (some 30000000)] _ ?_ rfl).1⟩
  refine ⟨.inr ⟨rfl, fun _ hr => (nomatch hr)⟩, fun m hm => ?_⟩
  obtain rfl := some.inj hm
  refine ⟨trivial, fun m hm => ?_⟩
  obtain rfl := some.inj hm
  refine ⟨.inr ⟨rfl, fun r hr hlive => ?_⟩, fun _ _ => trivial⟩
  rw [mem_singleton.mp hr] at hlive
  cases hlive

/-- An error of `shallowCopy` leaves the flag set without a run; a proof of work that stops for
an event resets the flag of the successor, and two runs are live. -/
theorem run_not_exclusive : (runSteps (fun _ => 0) ⟨true, false, none⟩ new
        [.assembleBlock (some 30000000), .resume 0 (.rejected "disk full")]).map
      (fun m => (m.assembling, m.runs.map Run.live)) = some (true, [false]) ∧
    (runSteps (fun _ => 0) ⟨true, false, none⟩ new
        [.assembleBlock (some 30000000), .resume 0 .resolved, .resume 0 .resolved,
          .resume 0 .resolved, .resume 0 (.txSet ⟨.empty, Heap.empty⟩), .resume 0 .resolved,
          .chainUpdated, .assembleBlock (some 30000000), .resume 0 (.solution false),
          .assembleBlock (some 30000000)]).map
      (fun m => m.runs.map Run.live) = some [false, true, true] := by
  constructor <;> rfl

end Miner
