-- SUMMARY: Which hardfork of an ordered list a block gets, and which hardforks count as active on it.
import Mathlib.Data.List.TakeWhile
import TsEthereum.ChainConfig.HardforkSelection

/-!
# Active hardforks

The lookups of `GlobalConfig` by name, and the search of `getHardforkBy` on lists whose
block numbers and then timestamps do not decrease.
-/

open List Option Bool Int

namespace HardforkSelection

open HardforkTransitionConfig

namespace GlobalConfig

variable {α : Type}

/-- The map from names to hardforks, in which the last one of a name stays. -/
def lookupHardfork (c : GlobalConfig α) (hardfork : HardforkName) : Option HardforkTransitionConfig :=
  c.hardforks.reverse.find? fun hf => hf.name = hardfork

def getHardforkBlock (c : GlobalConfig α) (hardfork : HardforkName) : Option Int :=
  (c.lookupHardfork hardfork).bind HardforkTransitionConfig.block

def hardforkIsActiveOnBlock (c : GlobalConfig α) (hardfork : Option HardforkName) (blockNumber : Int) : Bool :=
  match c.getHardforkBlock (hardfork.getD c.currentHardfork) with
  | some hfBlock => hfBlock ≠ 0 && decide (blockNumber ≥ hfBlock)
  | none => false

end GlobalConfig

/-! ## Ordered lists -/

/-- The first hardfork is at block 0; block numbers do not decrease, and timestamps, which come
behind them, do not either. -/
structure Ordered (hardforks : List HardforkTransitionConfig) : Prop where
  start : ∃ first rest, hardforks = first :: rest ∧ first.block = some 0
  kinds : ∀ hf ∈ hardforks, hf.block = none ∨ hf.timestamp = none
  blocks : hardforks.Pairwise fun hf hf' => ∀ b ∈ hf.block, ∀ b' ∈ hf'.block, b ≤ b'
  timestamps : hardforks.Pairwise fun hf hf' => ∀ t ∈ hf.timestamp, ∀ t' ∈ hf'.timestamp, t.value ≤ t'.value
  blocksFirst : hardforks.Pairwise fun hf hf' => hf.timestamp.isSome → hf'.block = none

/-- The hardfork has started: at a block up to this one, or at a time up to the one given. -/
def Active (blockNumber : Int) (timestamp : Option Int) (hf : HardforkTransitionConfig) : Prop :=
  (∃ b ∈ hf.block, b ≤ blockNumber) ∨ ∃ t ∈ hf.timestamp, ∃ time ∈ timestamp, t.value ≤ time

/-- The hardforks that are looked at: those at a block, and those at a time if there is one. -/
def Considered (timestamp : Option Int) (hf : HardforkTransitionConfig) : Bool :=
  hf.block.isSome || (timestamp.isSome && hf.timestamp.isSome)

/-- The place of `hf` in the list: it and all that are considered in front of it have started,
and the next one has not. -/
structure LastStarted (hardforks : List HardforkTransitionConfig) (blockNumber : Int) (timestamp : Option Int)
    (before : List HardforkTransitionConfig) (hf : HardforkTransitionConfig)
    (after : List HardforkTransitionConfig) : Prop where
  place : hardforks = before ++ hf :: after
  active : Active blockNumber timestamp hf
  before : ∀ a ∈ before, Considered timestamp a = true → Active blockNumber timestamp a
  next : ∀ a ∈ (after.filter (Considered timestamp)).head?, ¬Active blockNumber timestamp a

/-! ## The search -/

/-- The index of the first element that passes, where it is known. -/
theorem findIdx?_split {β : Type} {p : β → Bool} {pre rest : List β} (hpre : ∀ a ∈ pre, p a = false)
    (hrest : ∀ a ∈ rest.head?, p a = true) :
    (pre ++ rest).findIdx? p = if rest = [] then none else some pre.length := by
  have hnone : pre.findIdx? p = none := List.findIdx?_eq_none_iff.mpr hpre
  rw [findIdx?_append, hnone, none_or]
  cases rest with
  | nil => rfl
  | cons a rest =>
    rw [findIdx?_cons, if_pos (hrest a rfl), if_neg (cons_ne_nil a rest)]
    exact congrArg some (Nat.zero_add _)

theorem lastOfSameStart_of_differs {hf : HardforkTransitionConfig} {hfs : List HardforkTransitionConfig}
    (h : ∀ next ∈ hfs.head?, hf.block ≠ next.block ∨ hf.timestamp ≠ next.timestamp) :
    lastOfSameStart (hf :: hfs) = .ok hf.name := by
  cases hfs with
  | nil => rfl
  | cons next hfs => exact if_pos (h next rfl)

theorem nameFrom_length (before : List HardforkTransitionConfig) (hfs : List HardforkTransitionConfig) :
    nameFrom (before ++ hfs) before.length = lastOfSameStart hfs := by
  unfold nameFrom
  rw [if_neg (Int.not_lt.mpr (natCast_nonneg _)), toNat_natCast, drop_left]

/-- Two hardforks of which one has started do not start together. -/
theorem differs_of_startsAfter {opts : HardforkByOpts} {hf hf' : HardforkTransitionConfig}
    (h : hf.startsAfter opts = false) (h' : hf'.startsAfter opts = true) :
    hf.block ≠ hf'.block ∨ hf.timestamp ≠ hf'.timestamp := by
  by_contra hsame
  obtain ⟨hblock, htime⟩ := not_or.mp hsame
  unfold startsAfter at h h'
  rw [not_not.mp hblock, not_not.mp htime, h'] at h
  cases h

section
variable {hardforks before pre rest : List HardforkTransitionConfig} {hf : HardforkTransitionConfig}
    {opts : HardforkByOpts}

theorem getHardforkBy_search (hne : pre ≠ [])
    (hsplit : hardforks.filter scheduled = pre ++ rest)
    (hpre : ∀ a ∈ pre, a.startsAfter opts = false) (hrest : ∀ a ∈ rest.head?, a.startsAfter opts = true) :
    getHardforkBy hardforks opts = nameFrom (pre ++ rest)
      ((if opts.timestamp = none then pre.length - stepBack (pre ++ rest) pre.length else pre.length) - 1) := by
  have hindex : (if rest = [] then none else some pre.length).getD (pre ++ rest).length = pre.length := by
    split
    · next hempty => rw [hempty, append_nil, getD_none]
    · rfl
  unfold getHardforkBy
  rw [hsplit]
  simp only [findIdx?_split hpre hrest]
  split
  · next hzero =>
    split at hzero
    · cases hzero
    · exact absurd (length_eq_zero_iff.mp (some.inj hzero)) hne
  · rw [hindex]

/-- The search with a timestamp takes the last one in front of the first that starts later. -/
theorem getHardforkBy_timed (hopts : opts.timestamp ≠ none)
    (hsplit : hardforks.filter scheduled = before ++ hf :: rest)
    (hpre : ∀ a ∈ before ++ [hf], a.startsAfter opts = false)
    (hrest : ∀ a ∈ rest.head?, a.startsAfter opts = true) : getHardforkBy hardforks opts = .ok hf.name := by
  have hlast : lastOfSameStart (hf :: rest) = .ok hf.name := by
    apply lastOfSameStart_of_differs
    intro next hnext
    exact differs_of_startsAfter (hpre hf (mem_append_right _ (mem_singleton_self hf))) (hrest next hnext)
  have hindex : (((before ++ [hf]).length : Nat) : Int) - 1 = before.length := by
    rw [length_append, length_singleton, natCast_add, Int.natCast_one, add_sub_cancel_right]
  rw [← singleton_append, ← append_assoc] at hsplit
  rw [getHardforkBy_search (by simp) hsplit hpre hrest, if_neg hopts, hindex, append_assoc,
    singleton_append, nameFrom_length, hlast]

/-- Without one it goes back over the hardforks at a time. -/
theorem getHardforkBy_untimed {times : List HardforkTransitionConfig} (hopts : opts.timestamp = none)
    (hsplit : hardforks.filter scheduled = before ++ hf :: (times ++ rest))
    (hpre : ∀ a ∈ before ++ hf :: times, a.startsAfter opts = false)
    (hrest : ∀ a ∈ rest.head?, a.startsAfter opts = true) (hblock : hf.block.isSome = true)
    (htimes : ∀ a ∈ times, a.block.isSome = false) : getHardforkBy hardforks opts = .ok hf.name := by
  have hlast : lastOfSameStart (hf :: (times ++ rest)) = .ok hf.name := by
    apply lastOfSameStart_of_differs
    intro next hnext
    cases times with
    | nil => exact differs_of_startsAfter (hpre hf (by simp)) (hrest next hnext)
    | cons time times =>
      obtain rfl := some.inj hnext
      refine .inl fun hsame => ?_
      rw [hsame, htimes _ mem_cons_self] at hblock
      cases hblock
  have hback : stepBack ((before ++ hf :: times) ++ rest) (before ++ hf :: times).length = times.length := by
    have hreverse : (before ++ hf :: times).reverse = times.reverse ++ hf :: before.reverse := by
      rw [reverse_append, reverse_cons, append_assoc, singleton_append]
    have hfirst : ∀ a ∈ (hf :: before.reverse).head?, a.block.isSome = true := fun a ha => by
      rwa [← some.inj ha]
    unfold stepBack
    rw [take_left, hreverse, findIdx?_split (fun a ha => htimes a (mem_reverse.mp ha)) hfirst,
      if_neg (cons_ne_nil _ _), length_reverse]
  have hindex : (((before ++ hf :: times).length : Nat) : Int) - times.length - 1 = before.length := by
    rw [length_append, length_cons]
    omega
  rw [← cons_append, ← append_assoc] at hsplit
  rw [getHardforkBy_search (by simp) hsplit hpre hrest, if_pos hopts, hback, hindex, append_assoc,
    cons_append, nameFrom_length, hlast]

end

/-! ## Ordered lists -/

section
variable {hardforks : List HardforkTransitionConfig} {blockNumber : Nat} {timestamp : Option Int}

theorem not_active_of_startsAfter {hf : HardforkTransitionConfig} {n : Int} (hkind : hf.block = none ∨ hf.timestamp = none)
    (h : hf.startsAfter ⟨some n, timestamp⟩ = true) : ¬Active n timestamp hf := by
  unfold startsAfter at h
  rintro (⟨b, hb, hle⟩ | ⟨t, ht, time, htime, hle⟩)
  · have hnone := hkind.resolve_left (by rw [hb]; nofun)
    rw [hb, hnone] at h
    simp at h
    omega
  · have hnone := hkind.resolve_right (by rw [ht]; nofun)
    rw [ht, hnone, htime] at h
    simp at h
    omega

theorem active_of_not_startsAfter {hf : HardforkTransitionConfig} {n : Int}
    (hconsidered : Considered timestamp hf = true) (h : hf.startsAfter ⟨some n, timestamp⟩ = false) :
    Active n timestamp hf := by
  unfold startsAfter at h
  unfold Considered at hconsidered
  cases hblock : hf.block with
  | some b =>
    rw [hblock] at h
    exact .inl ⟨b, hblock, by simp at h; omega⟩
  | none =>
    rw [hblock] at h hconsidered
    cases htimestamp : timestamp with
    | none =>
      rw [htimestamp] at hconsidered
      cases hconsidered
    | some time =>
      cases ht : hf.timestamp with
      | none =>
        rw [htimestamp, ht] at hconsidered
        cases hconsidered
      | some t =>
        rw [htimestamp, ht] at h
        exact .inr ⟨t, ht, time, rfl, by simpa using h⟩

/-- The hardforks that are scheduled, cut where the first one starts later. -/
theorem started_split (h : Ordered hardforks) (timestamp : Option Int) :
    ∃ pre rest, hardforks.filter scheduled = pre ++ rest ∧
      (∃ first ∈ pre, first.block = some 0) ∧
      (∀ a ∈ pre, a.startsAfter ⟨some (blockNumber : Int), timestamp⟩ = false) ∧
      ∀ a ∈ rest.head?, a.startsAfter ⟨some (blockNumber : Int), timestamp⟩ = true := by
  obtain ⟨first, list, rfl, hzero⟩ := h.start
  have hscheduled : first.scheduled = true := by
    unfold scheduled
    rw [hzero]
    rfl
  have hkind := (h.kinds first mem_cons_self).resolve_left (by rw [hzero]; nofun)
  have hnow : first.startsAfter ⟨some (blockNumber : Int), timestamp⟩ = false := by
    unfold startsAfter
    rw [hzero, hkind]
    simp
  rw [filter_cons_of_pos hscheduled]
  refine ⟨(first :: list.filter scheduled).takeWhile
      fun a => !a.startsAfter ⟨some (blockNumber : Int), timestamp⟩, _,
    (takeWhile_append_dropWhile ..).symm, ?_, ?_, ?_⟩
  · refine ⟨first, ?_, hzero⟩
    rw [takeWhile_cons_of_pos (by rw [hnow]; rfl)]
    exact mem_cons_self
  · intro a ha
    simpa using mem_takeWhile_imp ha
  · intro a ha
    have hhead := head?_dropWhile_not (fun a => !a.startsAfter ⟨some (blockNumber : Int), timestamp⟩)
      (first :: list.filter scheduled)
    rw [mem_def.mp ha] at hhead
    simpa using hhead

end

/-- The cut of a filtered list is one of the list. -/
theorem place_of_filter {β : Type} {p : β → Bool} {list pre rest : List β} {a : β}
    (h : list.filter p = pre ++ a :: rest) :
    ∃ before after, list = before ++ a :: after ∧ before.filter p = pre ∧ after.filter p = rest := by
  obtain ⟨front, back, rfl, hfront, hback⟩ := List.filter_eq_append_iff.mp h
  obtain ⟨skipped, after, rfl, hskipped, -, hafter⟩ := List.filter_eq_cons_iff.mp hback
  refine ⟨front ++ skipped, after, (append_assoc ..).symm, ?_, hafter⟩
  rw [filter_append, hfront, filter_eq_nil_iff.mpr hskipped, append_nil]

section
variable {hardforks before after : List HardforkTransitionConfig} {hf : HardforkTransitionConfig}
    {blockNumber : Nat} {timestamp : Option Int}

theorem considered_of_active {n : Int} (h : Active n timestamp hf) : Considered timestamp hf = true := by
  unfold Considered
  rcases h with ⟨b, hb, -⟩ | ⟨t, ht, time, htime, -⟩
  · rw [mem_def.mp hb]
    rfl
  · rw [mem_def.mp ht, mem_def.mp htime]
    exact Bool.or_true _

theorem considered_timed {time : Int} : Considered (some time) = scheduled :=
  funext fun hf => by
    unfold Considered scheduled
    rw [isSome_some, Bool.true_and]

theorem considered_untimed : Considered none = fun hf => hf.block.isSome :=
  funext fun _ => Bool.or_false _

/-- Nothing behind the last one has started either, as far as the two orders reach. -/
theorem LastStarted.after_not_active {n : Int} (hl : LastStarted hardforks n timestamp before hf after)
    (h : Ordered hardforks) (hblocks : timestamp = none ∨ ∀ a ∈ hardforks, ∀ b ∈ a.block, b ≤ n) :
    ∀ a ∈ after, ¬Active n timestamp a := by
  intro a ha hactive
  have hsub : (after.filter (Considered timestamp)).Sublist hardforks := by
    rw [hl.place]
    exact (filter_sublist ..).trans ((sublist_cons_self ..).trans (sublist_append_right ..))
  have hmem := mem_filter.mpr ⟨ha, considered_of_active hactive⟩
  have hnext := hl.next
  have hconsidered := fun x (hx : x ∈ after.filter (Considered timestamp)) => (mem_filter.mp hx).2
  generalize after.filter (Considered timestamp) = list at hsub hmem hnext hconsidered
  cases list with
  | nil => cases hmem
  | cons x list =>
    have hx : ¬Active n timestamp x := hnext x rfl
    rcases mem_cons.mp hmem with rfl | hmem
    · exact hx hactive
    have hle := (pairwise_cons.mp (h.blocks.sublist hsub)).1 a hmem
    have hletime := (pairwise_cons.mp (h.timestamps.sublist hsub)).1 a hmem
    have hfirst := (pairwise_cons.mp (h.blocksFirst.sublist hsub)).1 a hmem
    cases hblock : x.block with
    | some b =>
      rcases hactive with ⟨b', hb', hle'⟩ | ⟨t, ht, time, htime, hle'⟩
      · exact hx (.inl ⟨b, hblock, Int.le_trans (hle b hblock b' hb') hle'⟩)
      · have hall := hblocks.resolve_left (by rw [mem_def.mp htime]; nofun)
        exact hx (.inl ⟨b, hblock, hall x (hsub.subset mem_cons_self) b hblock⟩)
    | none =>
      have hsome : timestamp.isSome = true ∧ x.timestamp.isSome = true := by
        have hx := hconsidered x mem_cons_self
        unfold Considered at hx
        rwa [hblock, isSome_none, Bool.false_or, and_eq_true] at hx
      obtain ⟨start, hstart⟩ := isSome_iff_exists.mp hsome.2
      rcases hactive with ⟨b', hb', -⟩ | ⟨t, ht, time, htime, hle'⟩
      · rw [mem_def.mp hb'] at hfirst
        cases hfirst hsome.2
      · exact hx (.inr ⟨start, hstart, time, htime, Int.le_trans (hletime start hstart t ht) hle'⟩)

theorem started_of_place (hplace : hardforks = before ++ hf :: after)
    (hpre : ∀ a ∈ before.filter scheduled,
      a.startsAfter ⟨some (blockNumber : Int), timestamp⟩ = false)
    (hhf : Active blockNumber timestamp hf)
    (hnext : ∀ a ∈ (after.filter (Considered timestamp)).head?, ¬Active blockNumber timestamp a) :
    LastStarted hardforks blockNumber timestamp before hf after := by
  refine ⟨hplace, hhf, fun a ha hconsidered => ?_, hnext⟩
  apply active_of_not_startsAfter hconsidered
  refine hpre a (mem_filter.mpr ⟨ha, ?_⟩)
  unfold Considered at hconsidered
  unfold scheduled
  rcases Bool.or_eq_true_iff.mp hconsidered with hsome | hboth
  · rw [hsome, Bool.true_or]
  · rw [(Bool.and_eq_true_iff.mp hboth).2, Bool.or_true]

theorem getHardforkBy_last_timed (h : Ordered hardforks) (blockNumber : Nat) (time : Int) :
    ∃ before hf after, LastStarted hardforks blockNumber (some time) before hf after ∧
      getHardforkBy hardforks ⟨some (blockNumber : Int), some time⟩ = .ok hf.name := by
  obtain ⟨pre, rest, hsplit, ⟨first, hfirst, -⟩, hpre, hrest⟩ :=
    @started_split _ blockNumber h (some time)
  obtain ⟨front, hf, rfl⟩ := (eq_nil_or_concat pre).resolve_left (ne_nil_of_mem hfirst)
  rw [concat_eq_append] at hsplit hpre
  have hcut : hardforks.filter scheduled = front ++ hf :: rest := by
    rw [hsplit, append_assoc, singleton_append]
  obtain ⟨before, after, hplace, hbefore, hafter⟩ := place_of_filter hcut
  have hmem : hf ∈ hardforks.filter scheduled := by
    rw [hcut]
    exact mem_append_right _ mem_cons_self
  refine ⟨before, hf, after, started_of_place hplace ?_ ?_ ?_, getHardforkBy_timed nofun hcut hpre hrest⟩
  · intro a ha
    rw [hbefore] at ha
    exact hpre a (mem_append_left _ ha)
  · apply active_of_not_startsAfter _ (hpre hf (mem_append_right _ (mem_singleton_self hf)))
    rw [considered_timed]
    exact (mem_filter.mp hmem).2
  · intro a ha
    rw [considered_timed, hafter] at ha
    apply not_active_of_startsAfter _ (hrest a ha)
    have hscheduled : a ∈ after.filter scheduled := by
      rw [hafter]
      exact mem_of_mem_head? ha
    refine h.kinds a ?_
    rw [hplace]
    exact mem_append_right _ (mem_cons_of_mem hf (mem_filter.mp hscheduled).1)

theorem last_split {β : Type} {p : β → Bool} : ∀ {list : List β}, (∃ a ∈ list, p a = true) →
    ∃ pre a rest, list = pre ++ a :: rest ∧ p a = true ∧ ∀ x ∈ rest, p x = false
  | [], h => nomatch h
  | a :: list, h => by
    by_cases hlist : ∃ x ∈ list, p x = true
    · obtain ⟨pre, x, rest, rfl, hx, hrest⟩ := last_split hlist
      exact ⟨a :: pre, x, rest, rfl, hx, hrest⟩
    · have hrest : ∀ x ∈ list, p x = false := fun x hx => eq_false_iff.mpr fun hp => hlist ⟨x, hx, hp⟩
      obtain ⟨x, hx, hp⟩ := h
      rcases mem_cons.mp hx with rfl | hx
      · exact ⟨[], x, list, rfl, hp, hrest⟩
      · exact absurd ⟨x, hx, hp⟩ hlist

theorem getHardforkBy_last_untimed (h : Ordered hardforks) (blockNumber : Nat) :
    ∃ before hf after, LastStarted hardforks blockNumber none before hf after ∧
      getHardforkBy hardforks ⟨some (blockNumber : Int), none⟩ = .ok hf.name := by
  obtain ⟨pre, rest, hsplit, ⟨first, hfirst, hzero⟩, hpre, hrest⟩ :=
    @started_split _ blockNumber h none
  -- The step back ends at the last hardfork at a block.
  obtain ⟨front, hf, times, rfl, hblock, htimes⟩ := last_split (p := fun hf => hf.block.isSome)
    ⟨first, hfirst, by rw [hzero]; rfl⟩
  have hcut : hardforks.filter scheduled = front ++ hf :: (times ++ rest) := by
    rw [hsplit, List.append_assoc, List.cons_append]
  obtain ⟨before, after, hplace, hbefore, hafter⟩ := place_of_filter hcut
  have hlater : after.filter (Considered none) = rest.filter (Considered none) := by
    have hsub : ∀ list : List HardforkTransitionConfig, list.filter (Considered none) =
        (list.filter scheduled).filter (Considered none) := fun list => by
      rw [List.filter_filter]
      apply List.filter_congr
      intro a _
      unfold scheduled
      rw [considered_untimed]
      dsimp only
      cases a.block <;> rfl
    have hnone : times.filter (Considered none) = [] := by
      apply List.filter_eq_nil_iff.mpr
      intro a ha
      rw [considered_untimed]
      exact Bool.eq_false_iff.mp (htimes a ha)
    rw [hsub after, hafter, List.filter_append, hnone, List.nil_append]
  refine ⟨before, hf, after, started_of_place hplace ?_ ?_ ?_,
    getHardforkBy_untimed rfl hcut hpre hrest hblock htimes⟩
  · intro a ha
    rw [hbefore] at ha
    exact hpre a (List.mem_append_left _ ha)
  · apply active_of_not_startsAfter _ (hpre hf (List.mem_append_right _ List.mem_cons_self))
    rw [considered_untimed]
    exact hblock
  · intro a ha
    rw [hlater] at ha
    cases rest with
    | nil => cases ha
    | cons x rest =>
      have hstarts := hrest x rfl
      have hx : x.block.isSome = true := by
        unfold startsAfter at hstarts
        cases hblock : x.block with
        | some b => rfl
        | none =>
          rw [hblock] at hstarts
          cases hstarts
      rw [List.filter_cons_of_pos (by rw [considered_untimed]; exact hx)] at ha
      obtain rfl := Option.some.inj ha
      apply not_active_of_startsAfter _ hstarts
      have hscheduled : x ∈ after.filter scheduled := by
        rw [hafter]
        exact List.mem_append_right _ List.mem_cons_self
      apply h.kinds x
      rw [hplace]
      exact List.mem_append_right _ (List.mem_cons_of_mem hf (List.mem_filter.mp hscheduled).1)

end

/-! ## The two lookups -/

section
variable {α : Type} {c : GlobalConfig α} {before after : List HardforkTransitionConfig}
    {hf : HardforkTransitionConfig}

theorem lookupHardfork_mem {hardfork : HardforkName} {a : HardforkTransitionConfig}
    (h : c.lookupHardfork hardfork = some a) : a ∈ c.hardforks :=
  mem_reverse.mp (mem_of_find?_eq_some h)

theorem active_untimed {n : Int} : Active n none hf ↔ ∃ b ∈ hf.block, b ≤ n := by
  constructor
  · rintro (h | ⟨_, _, _, htime, _⟩)
    · exact h
    · cases htime
  · exact .inl

/-- A hardfork counts as active on a block where it is listed up to the last one that started
there, but for those at block 0. -/
theorem hardforkIsActiveOnBlock_iff {n : Int} (hl : LastStarted c.hardforks n none before hf after)
    (hafter : ∀ a ∈ after, ¬Active n none a) (hardfork : Option HardforkName) :
    c.hardforkIsActiveOnBlock hardfork n = true ↔
      ∃ a ∈ before ++ [hf], c.lookupHardfork (hardfork.getD c.currentHardfork) = some a ∧
        a.block.isSome = true ∧ a.block ≠ some 0 := by
  unfold GlobalConfig.hardforkIsActiveOnBlock GlobalConfig.getHardforkBlock
  constructor
  · intro h
    cases hlookup : c.lookupHardfork (hardfork.getD c.currentHardfork) with
    | none =>
      rw [hlookup] at h
      cases h
    | some a =>
      rw [hlookup, bind_some] at h
      cases hblock : a.block with
      | none =>
        rw [hblock] at h
        cases h
      | some b =>
        rw [hblock] at h
        simp only [and_eq_true, decide_eq_true_eq] at h
        have hmem := lookupHardfork_mem hlookup
        rw [hl.place] at hmem
        refine ⟨a, ?_, rfl, by rw [hblock]; rfl, fun hzero => h.1 (some.inj (hblock.symm.trans hzero))⟩
        rcases mem_append.mp hmem with hmem | hmem
        · exact mem_append_left _ hmem
        rcases mem_cons.mp hmem with rfl | hmem
        · exact mem_append_right _ (mem_singleton_self _)
        · exact absurd (active_untimed.mpr ⟨b, hblock, h.2⟩) (hafter a hmem)
  · rintro ⟨a, hmem, hlookup, hsome, hne⟩
    have hactive : Active n none a := by
      rcases mem_append.mp hmem with hmem | hmem
      · exact hl.before a hmem (by rw [considered_untimed]; exact hsome)
      · rw [mem_singleton.mp hmem]
        exact hl.active
    obtain ⟨b, hb, hle⟩ := active_untimed.mp hactive
    rw [hlookup, bind_some, mem_def.mp hb]
    have hb0 : b ≠ 0 := fun hzero => hne (by rw [mem_def.mp hb, hzero])
    simp only [and_eq_true, decide_eq_true_eq]
    exact ⟨hb0, hle⟩

/-- On an ordered list a block gets the last hardfork that started in front of the first one
that did not. -/
theorem getHardforkBy_ordered (h : Ordered c.hardforks) (blockNumber : Nat) :
    (∀ timestamp : Option Int, ∃ before hf after,
      LastStarted c.hardforks blockNumber timestamp before hf after ∧
      getHardforkBy c.hardforks ⟨some (blockNumber : Int), timestamp⟩ = .ok hf.name ∧
      ((timestamp = none ∨ ∀ a ∈ c.hardforks, ∀ b ∈ a.block, b ≤ blockNumber) →
        ∀ a ∈ after, ¬Active blockNumber timestamp a)) ∧
    ∃ before hf after, c.hardforks = before ++ hf :: after ∧
      getHardforkBy c.hardforks ⟨some (blockNumber : Int), none⟩ = .ok hf.name ∧
      ∀ hardfork : Option HardforkName, c.hardforkIsActiveOnBlock hardfork blockNumber = true ↔
        ∃ a ∈ before ++ [hf], c.lookupHardfork (hardfork.getD c.currentHardfork) = some a ∧
          a.block.isSome = true ∧ a.block ≠ some 0 := by
  constructor
  · intro timestamp
    cases timestamp with
    | none =>
      obtain ⟨before, hf, after, hl, hget⟩ := getHardforkBy_last_untimed h blockNumber
      exact ⟨before, hf, after, hl, hget, hl.after_not_active h⟩
    | some time =>
      obtain ⟨before, hf, after, hl, hget⟩ := getHardforkBy_last_timed h blockNumber time
      exact ⟨before, hf, after, hl, hget, hl.after_not_active h⟩
  · obtain ⟨before, hf, after, hl, hget⟩ := getHardforkBy_last_untimed h blockNumber
    exact ⟨before, hf, after, hl.place, hget, hardforkIsActiveOnBlock_iff hl (hl.after_not_active h (.inl rfl))⟩

end

/-- Homestead starts at block 10 and Shanghai at time 5. -/
def withShanghai : GlobalConfig Int :=
  .new [⟨.known .Chainstart, some 0, none⟩, ⟨.known .Homestead, some 10, none⟩,
    ⟨.known .Shanghai, none, some ⟨none, 5⟩⟩] none

theorem withShanghai_ordered : Ordered withShanghai.hardforks where
  start := ⟨_, _, rfl, rfl⟩
  kinds := by decide +kernel
  blocks := by decide +kernel
  timestamps := by decide +kernel
  blocksFirst := by decide +kernel

/-- A block in front of Homestead stays at the first hardfork, whatever its time is. -/
theorem getHardforkBy_ordered_shanghai :
    ∃ before hf after, LastStarted withShanghai.hardforks 3 (some 7) before hf after ∧
      getHardforkBy withShanghai.hardforks ⟨some 3, some 7⟩ = .ok hf.name := by
  obtain ⟨before, hf, after, hl, hget, -⟩ := (getHardforkBy_ordered withShanghai_ordered 3).1 (some 7)
  exact ⟨before, hf, after, hl, hget⟩

/-- Shanghai has started at time 7 and is passed over, and the first hardfork is not active on
a block. -/
theorem passed_over : Ordered withShanghai.hardforks ∧
    (∃ hf ∈ withShanghai.hardforks, hf.name = .known .Shanghai ∧ Active 3 (some 7) hf) ∧
    getHardforkBy withShanghai.hardforks ⟨some 3, some 7⟩ = .ok (.known .Chainstart) ∧
    getHardforkBy withShanghai.hardforks ⟨some 3, none⟩ = .ok (.known .Chainstart) ∧
    withShanghai.hardforkIsActiveOnBlock (some (.known .Chainstart)) 3 = false :=
  ⟨withShanghai_ordered, ⟨_, getLast_mem (by decide : withShanghai.hardforks ≠ []), rfl,
    .inr ⟨⟨none, 5⟩, rfl, 7, rfl, by decide⟩⟩, by decide +kernel, by decide +kernel, by decide +kernel⟩

end HardforkSelection
