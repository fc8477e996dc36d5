-- SUMMARY: The shape of Patricia trees: what storing and erasing keep of it, and that trees of the canonical shape are determined by their entries.
import TsEthereum.Base.PatriciaTree

/-!
# Shapes of Patricia trees

In a well-formed tree no extension is empty or stands above anything but a
branch, and no branch has fewer than two children unless it has a value. Trees
without branch values are then canonical: what they look up determines them.
-/

open List Function

namespace PatriciaTree

variable {r : Nat} {ν ρ : Type}

def WF : PatriciaTree r ν ρ → Prop
  | .empty | .stub _ => False
  | .leaf _ _ => True
  | .ext p c => p ≠ [] ∧ c.isBranch = true ∧ WF c
  | .branch cs v => (v = none → 2 ≤ (children cs).length) ∧ ∀ i, cs i ≠ .empty → WF (cs i)

/-- No branch has a value. -/
def NoValues : PatriciaTree r ν ρ → Prop
  | .empty | .stub _ | .leaf _ _ => True
  | .ext _ c => NoValues c
  | .branch cs v => v = none ∧ ∀ i, NoValues (cs i)

variable {t : PatriciaTree r ν ρ}

theorem WF.ne_empty (h : WF t) : t ≠ .empty := by
  rintro rfl
  exact h

theorem WF.ne_stub (h : WF t) (ref : ρ) : t ≠ .stub ref := by
  rintro rfl
  exact h

/-! ## Children -/

theorem nodup_children (cs : Fin r → PatriciaTree r ν ρ) : (children cs).Nodup :=
  (nodup_finRange r).filter _

variable {cs : Fin r → PatriciaTree r ν ρ}

theorem children_congr {cs' : Fin r → PatriciaTree r ν ρ}
    (h : ∀ i, (cs i).isEmpty = (cs' i).isEmpty) : children cs = children cs' := by
  unfold children
  congr 1
  funext i
  rw [h i]

variable {i : Fin r}

theorem two_le_children {j : Fin r} (hij : i ≠ j) (hi : cs i ≠ .empty) (hj : cs j ≠ .empty) :
    2 ≤ (children cs).length := by
  have hsub : [i, j] ⊆ children cs := by
    intro x hx
    rcases mem_cons.mp hx with rfl | hx
    · exact mem_children.mpr hi
    · rw [mem_singleton.mp hx]
      exact mem_children.mpr hj
  have hnodup : [i, j].Nodup := by simp [hij]
  exact (subperm_of_subset hnodup hsub).length_le

theorem exists_two_children (h : 2 ≤ (children cs).length) :
    ∃ i j, i ≠ j ∧ cs i ≠ .empty ∧ cs j ≠ .empty := by
  match hc : children cs with
  | [] => simp [hc] at h
  | [_] => simp [hc] at h
  | i :: j :: rest =>
    have hnodup := nodup_children cs
    rw [hc] at hnodup
    have hij : i ≠ j := fun hij => by simp [hij] at hnodup
    refine ⟨i, j, hij, mem_children.mp ?_, mem_children.mp ?_⟩
    · simp [hc]
    · simp [hc]

theorem length_children_le {cs' : Fin r → PatriciaTree r ν ρ}
    (h : ∀ i, cs i ≠ .empty → cs' i ≠ .empty) : (children cs).length ≤ (children cs').length := by
  have hsub : children cs ⊆ children cs' := fun i hi => mem_children.mpr (h i (mem_children.mp hi))
  exact (subperm_of_subset (nodup_children cs) hsub).length_le

/-- A branch that loses a child loses one. -/
theorem length_children_update_empty (hi : cs i ≠ .empty) :
    (children (Function.update cs i .empty)).length + 1 = (children cs).length := by
  have hset : children (update cs i .empty) = (children cs).erase i := by
    rw [(nodup_children cs).erase_eq_filter]
    unfold children
    rw [filter_filter]
    congr 1
    funext j
    by_cases hj : j = i
    · subst hj
      simp [isEmpty]
    · simp [hj]
  have hmem : i ∈ children cs := mem_children.mpr hi
  have hpos := length_pos_of_mem hmem
  rw [hset, length_erase_of_mem hmem]
  omega

/-! ## Keys -/

theorem WF.exists_key (h : WF t) : ∃ k v, lookup t k = some v := by
  induction t with
  | empty => exact h.elim
  | stub ref => exact h.elim
  | leaf p v => exact ⟨p, v, by simp⟩
  | ext p c ih =>
    obtain ⟨k, v, hk⟩ := ih h.2.2
    exact ⟨p ++ k, v, by rw [lookup_ext_append, hk]⟩
  | branch cs w ih =>
    cases w with
    | some v => exact ⟨[], v, rfl⟩
    | none =>
      obtain ⟨i, -, -, hi, -⟩ := exists_two_children (h.1 rfl)
      obtain ⟨k, v, hk⟩ := ih i (h.2 i hi)
      exact ⟨i :: k, v, hk⟩

/-- A canonical branch has keys that part at their first digit. -/
theorem WF.exists_two_keys (h : WF (.branch cs none)) :
    ∃ i j ki kj vi vj, i ≠ j ∧ lookup (.branch cs none) (i :: ki) = some vi ∧
      lookup (.branch cs none) (j :: kj) = some vj := by
  obtain ⟨i, j, hij, hi, hj⟩ := exists_two_children (h.1 rfl)
  obtain ⟨ki, vi, hki⟩ := (h.2 i hi).exists_key
  obtain ⟨kj, vj, hkj⟩ := (h.2 j hj).exists_key
  exact ⟨i, j, ki, kj, vi, vj, hij, hki, hkj⟩

variable {p k : List (Fin r)} {c : PatriciaTree r ν ρ}

theorem prefix_of_lookup_ext {v : ν} (h : lookup (.ext p c) k = some v) : p <+: k := by
  rw [lookup_ext] at h
  by_contra hp
  rw [if_neg hp] at h
  cases h

/-! ## Holes -/

theorem WF.fill_hole {f : Frame r ν ρ} (h : WF (f.fill t)) (ht : t ≠ .empty) : WF t := by
  cases f with
  | ext p => exact h.2.2
  | branch cs v i =>
    have hi := h.2 i
    simp only [update_self] at hi
    exact hi ht

theorem fill_ne_empty (f : Frame r ν ρ) (t : PatriciaTree r ν ρ) : f.fill t ≠ .empty := by
  cases f <;> exact fun h => nomatch h

variable {fs : List (Frame r ν ρ)}

theorem WF.hole (h : WF (plug fs t)) (ht : t ≠ .empty) : WF t := by
  induction fs generalizing t with
  | nil => exact h
  | cons f fs ih => exact (ih h (fill_ne_empty f t)).fill_hole ht

/-- Below an extension there is a branch. -/
theorem WF.isBranch_of_ext (h : WF (plug (.ext p :: fs) t)) : t.isBranch = true :=
  (WF.hole (t := .ext p t) h (fun h => nomatch h)).2.1

variable {t' : PatriciaTree r ν ρ}

theorem WF.fill {f : Frame r ν ρ} (h : WF (f.fill t)) (ht : t ≠ .empty) (ht' : WF t')
    (hext : ∀ p, f = .ext p → t'.isBranch = true) : WF (f.fill t') := by
  cases f with
  | ext p => exact ⟨h.1, hext p rfl, ht'⟩
  | branch cs v i =>
    have hchildren : children (update cs i t') = children (update cs i t) := by
      apply children_congr
      intro j
      by_cases hj : j = i
      · subst hj
        rw [update_self, update_self, isEmpty_eq_false.mpr ht,
          isEmpty_eq_false.mpr ht'.ne_empty]
      · simp only [update_of_ne hj]
    refine ⟨fun hv => hchildren ▸ h.1 hv, ?_⟩
    intro j hj
    by_cases hji : j = i
    · subst hji
      rw [update_self]
      exact ht'
    · have hold := h.2 j
      simp only [update_of_ne hji] at hj hold ⊢
      exact hold hj

/-- A node may be replaced by any well-formed one, below an extension by a branch. -/
theorem WF.replug (h : WF (plug fs t)) (ht : t ≠ .empty) (ht' : WF t')
    (hext : ∀ p gs, fs = .ext p :: gs → t'.isBranch = true) : WF (plug fs t') := by
  induction fs generalizing t t' with
  | nil => exact ht'
  | cons f fs ih =>
    have hfill : WF (f.fill t) := WF.hole h (fill_ne_empty f t)
    refine ih h (fill_ne_empty f t) (hfill.fill ht ht' (fun p hp => hext p fs (hp ▸ rfl))) ?_
    rintro p gs rfl
    have hbranch : (f.fill t).isBranch = true := WF.isBranch_of_ext h
    cases f with
    | ext q => cases hbranch
    | branch cs v i => rfl

theorem NoValues.hole (h : NoValues (plug fs t)) : NoValues t := by
  induction fs generalizing t with
  | nil => exact h
  | cons f fs ih =>
    have hfill := ih h
    cases f with
    | ext p => exact hfill
    | branch cs v i =>
      have hi := hfill.2 i
      rwa [update_self] at hi

theorem NoValues.replug (h : NoValues (plug fs t)) (ht' : NoValues t') : NoValues (plug fs t') := by
  induction fs generalizing t t' with
  | nil => exact ht'
  | cons f fs ih =>
    refine ih h ?_
    have hfill := NoValues.hole (t := f.fill t) h
    cases f with
    | ext p => exact ht'
    | branch cs v i =>
      refine ⟨hfill.1, fun j => ?_⟩
      by_cases hj : j = i
      · subst hj
        rw [update_self]
        exact ht'
      · have hold := hfill.2 j
        rw [update_of_ne hj] at hold ⊢
        exact hold

/-! ## Subtrees -/

/-- The entries of a subtree are entries of the tree. -/
theorem Sub.exists_prefix {s : PatriciaTree r ν ρ} (h : Sub s t) :
    ∃ q, ∀ k, lookup t (q ++ k) = lookup s k := by
  induction h with
  | refl => exact ⟨[], fun _ => rfl⟩
  | @ext c p _ ih =>
    obtain ⟨q, hq⟩ := ih
    exact ⟨p ++ q, fun k => by rw [append_assoc, lookup_ext_append, hq]⟩
  | @branch cs v i _ ih =>
    obtain ⟨q, hq⟩ := ih
    exact ⟨i :: q, fun k => by rw [cons_append, lookup_branch_cons, hq]⟩

theorem WF.sub {s : PatriciaTree r ν ρ} (h : WF t) (hs : Sub s t) (hne : s ≠ .empty) : WF s := by
  induction hs with
  | refl => exact h
  | ext p _ ih => exact ih h.2.2
  | @branch cs v i hsub ih =>
    refine ih (h.2 i ?_)
    intro hempty
    rw [hempty, sub_empty_iff] at hsub
    exact hne hsub

/-! ## Storing -/

variable {q : List (Fin r)}

theorem WF.extend (ht : WF t) (hbranch : t.isBranch = true) : WF (extend q t) := by
  unfold PatriciaTree.extend
  split
  · exact ht
  · rename_i hq
    exact ⟨hq, hbranch, ht⟩

theorem WF.withPath (h : WF t) (hbranch : t.isBranch = false) (q : List (Fin r)) :
    WF (t.withPath q) := by
  cases t with
  | empty => exact h
  | stub ref => exact h
  | leaf p v => trivial
  | ext p c => exact WF.extend h.2.2 h.2.1
  | branch cs v => cases hbranch

/-- A fork leaves something of a path that does not begin the other. -/
theorem fork_old_ne_nil (hp : ¬ p <+: k) : (fork p k).2.1 ≠ [] := by
  obtain ⟨hpath, hkey⟩ := fork_append p k
  intro hold
  rw [hold, append_nil] at hpath
  have hprefix : (fork p k).1 <+: k := ⟨_, hkey⟩
  rw [hpath] at hprefix
  exact hp hprefix

theorem fork_new_ne_nil (hk : ¬ k <+: p) : (fork p k).2.2 ≠ [] := by
  obtain ⟨hpath, hkey⟩ := fork_append p k
  intro hnew
  rw [hnew, append_nil] at hkey
  have hprefix : (fork p k).1 <+: p := ⟨_, hpath⟩
  rw [hkey] at hprefix
  exact hk hprefix

/-- The two parts behind a fork make a well-formed branch. -/
theorem wf_fork (v : ν) (h : WF t) (hbranch : t.isBranch = false)
    (hvalue : (fork p k).2.1 = [] → t.leafValue ≠ none) :
    WF (putInBranch (fork p k).2.2 v (forkBranch t (fork p k).2.1)) := by
  have hstuck := stuck_forkBranch t p k
  cases hold : (fork p k).2.1 with
  | nil =>
    have hleaf := hvalue hold
    cases (fork p k).2.2 with
    | nil => exact ⟨(fun hnone => by cases hnone), fun i hi => absurd rfl hi⟩
    | cons i s =>
      refine ⟨fun hnone => absurd hnone hleaf, fun j hj => ?_⟩
      by_cases hji : j = i
      · subst hji
        rw [update_self]
        trivial
      · rw [update_of_ne hji] at hj
        exact absurd rfl hj
  | cons j q =>
    have hnode := h.withPath hbranch q
    cases hnew : (fork p k).2.2 with
    | nil =>
      refine ⟨(fun hnone => by cases hnone), fun i hi => ?_⟩
      by_cases hij : i = j
      · subst hij
        rw [update_self]
        exact hnode
      · rw [update_of_ne hij] at hi
        exact absurd rfl hi
    | cons i s =>
      have hij : i ≠ j := fun hij => fork_parts p k j q s ⟨hold, hij ▸ hnew⟩
      refine ⟨fun _ => two_le_children hij ?_ ?_, fun x hx => ?_⟩
      · simp
      · rw [update_of_ne hij.symm, update_self]
        exact hnode.ne_empty
      · by_cases hxi : x = i
        · subst hxi
          rw [update_self]
          trivial
        · rw [update_of_ne hxi] at hx ⊢
          by_cases hxj : x = j
          · subst hxj
            rw [update_self]
            exact hnode
          · rw [update_of_ne hxj] at hx
            exact absurd rfl hx

theorem isBranch_putInBranch_forkBranch (t : PatriciaTree r ν ρ) (q k : List (Fin r)) (v : ν) :
    (putInBranch k v (forkBranch t q)).isBranch = true := by
  cases q <;> cases k <;> rfl

theorem WF.graft (v : ν) (h : WF t) (hstuck : Stuck t k) : WF (graft t k v) := by
  cases t with
  | empty => exact h.elim
  | stub ref => exact h.elim
  | leaf p w =>
    simp only [PatriciaTree.graft]
    split
    · trivial
    · exact WF.extend (wf_fork v h rfl (fun _ => by simp [leafValue]))
        (isBranch_putInBranch_forkBranch _ _ _ v)
  | ext p c =>
    refine WF.extend (wf_fork v h rfl ?_) (isBranch_putInBranch_forkBranch _ _ _ v)
    exact fun hold => absurd hold (fork_old_ne_nil hstuck)
  | branch cs w =>
    cases k with
    | nil => exact ⟨(fun hnone => by cases hnone), h.2⟩
    | cons i k =>
      refine ⟨fun hnone => (h.1 hnone).trans (length_children_le ?_), fun j hj => ?_⟩
      · intro j hj
        by_cases hji : j = i
        · subst hji
          simp
        · rwa [update_of_ne hji]
      · by_cases hji : j = i
        · subst hji
          rw [update_self]
          trivial
        · rw [update_of_ne hji] at hj ⊢
          exact h.2 j hj

variable {last : PatriciaTree r ν ρ}

/-- Storing a value keeps a tree well formed. -/
theorem Split.wf_graft {rest : List (Fin r)} (h : Split t k fs last rest) (ht : WF t)
    (hlast : last ≠ .empty) (v : ν) : WF (plug fs (graft last rest v)) := by
  have hplug : WF (plug fs last) := h.plug_eq ▸ ht
  refine hplug.replug hlast ((hplug.hole hlast).graft v h.stuck) ?_
  rintro p gs rfl
  have hbranch := hplug.isBranch_of_ext
  cases last with
  | branch cs w => cases rest <;> rfl
  | empty => cases hbranch
  | stub ref => cases hbranch
  | leaf q w => cases hbranch
  | ext q c => cases hbranch

/-! ## Erasing -/

theorem WF.prepend (h : WF t) (hq : q ≠ []) : WF (prepend q t) := by
  cases t with
  | empty => exact h.elim
  | stub ref => exact h.elim
  | leaf p v => trivial
  | ext p c => exact ⟨by simp [hq], h.2⟩
  | branch cs v => exact ⟨hq, rfl, h⟩

theorem WF.absorb (h : WF (plug fs t)) (ht : t ≠ .empty) (hc : WF c) (j : Fin r) :
    WF (absorb fs j c) := by
  match fs with
  | [] => exact hc.prepend (cons_ne_nil j [])
  | .ext p :: fs =>
    refine WF.replug (t := .ext p t) h (fun h => nomatch h) (hc.prepend (by simp)) ?_
    rintro q gs rfl
    cases WF.isBranch_of_ext (t := .ext p t) h
  | .branch cs v i :: fs =>
    refine WF.replug h ht (hc.prepend (cons_ne_nil j [])) ?_
    intro q gs hcons
    cases (List.cons.inj hcons).1

variable {v : Option ν}

/-- A branch that is closed up, or is left with enough children, leaves a well-formed tree. -/
theorem WF.closeUp (h : WF (plug fs t)) (ht : t.isBranch = true)
    (hchildren : v = none → 1 ≤ (children cs).length) (hcs : ∀ i, cs i ≠ .empty → WF (cs i)) :
    WF (closeUp fs cs v) := by
  have hne : t ≠ .empty := by
    rintro rfl
    cases ht
  by_cases hone : (children cs).length = 1
  · obtain ⟨j, hj, -, hclose⟩ := closeUp_of_length_eq hone fs v
    rw [hclose]
    exact h.absorb hne (hcs j hj) j
  · rw [closeUp_of_length_ne hone]
    refine h.replug hne ⟨fun hnone => ?_, hcs⟩ (fun _ _ _ => rfl)
    have hpos := hchildren hnone
    omega

theorem WF.erase_child (h : WF (plug (.branch cs v i :: fs) c)) (hc : c ≠ .empty) :
    WF (PatriciaTree.closeUp fs (Function.update cs i .empty) v) := by
  have hbranch : WF (.branch (update cs i c) v) :=
    WF.hole (t := .branch (update cs i c) v) h (fun h => nomatch h)
  refine WF.closeUp (t := .branch (update cs i c) v) h rfl ?_ ?_
  · intro hnone
    have htwo := hbranch.1 hnone
    have hi : update cs i c i ≠ .empty := by simpa using hc
    have hlen := length_children_update_empty hi
    rw [update_idem] at hlen
    omega
  · intro j hj
    by_cases hji : j = i
    · subst hji
      simp at hj
    · have hold := hbranch.2 j
      rw [update_of_ne hji] at hj hold ⊢
      exact hold hj

/-- Erasing leaves a well-formed tree or nothing. -/
theorem WF.erase (h : WF (plug fs last)) (hlast : last ≠ .empty) :
    PatriciaTree.erase fs last = .empty ∨ WF (PatriciaTree.erase fs last) := by
  match fs, last with
  | [], _ => exact .inl rfl
  | f :: fs, .branch cs v =>
    refine .inr ?_
    have hbranch : WF (.branch cs v) := h.hole (fun h => nomatch h)
    have herase : PatriciaTree.erase (f :: fs) (.branch cs v) =
        PatriciaTree.closeUp (f :: fs) cs v := by cases f <;> rfl
    rw [herase]
    exact h.closeUp rfl (fun hnone => (Nat.le_succ 1).trans (hbranch.1 hnone)) hbranch.2
  | .ext p :: fs, .leaf q w => cases h.isBranch_of_ext
  | .ext p :: fs, .ext q c => cases h.isBranch_of_ext
  | .ext p :: fs, .stub ref => cases h.isBranch_of_ext
  | .branch cs v i :: fs, .leaf q w => exact .inr (h.erase_child hlast)
  | .branch cs v i :: fs, .ext q c => exact .inr (h.erase_child hlast)
  | .branch cs v i :: fs, .stub ref => exact .inr (h.erase_child hlast)
  | _ :: _, .empty => exact absurd rfl hlast

/-! ## Values in branches -/

theorem NoValues.prepend (h : NoValues t) (q : List (Fin r)) : NoValues (prepend q t) := by
  cases t <;> exact h

theorem NoValues.closeUp (h : NoValues (plug fs t)) (hcs : ∀ i, NoValues (cs i)) :
    NoValues (closeUp fs cs none) := by
  unfold PatriciaTree.closeUp
  split
  · rename_i j hone
    match fs with
    | [] => exact (hcs j).prepend [j]
    | .ext p :: fs => exact NoValues.replug (t := .ext p t) h ((hcs j).prepend (p ++ [j]))
    | .branch ds w i :: fs =>
      have hplug : NoValues (plug (.branch ds w i :: fs) t) := h
      exact hplug.replug ((hcs j).prepend [j])
  · exact h.replug ⟨rfl, hcs⟩

theorem NoValues.erase_child (h : NoValues (plug (.branch cs v i :: fs) c)) :
    NoValues (PatriciaTree.closeUp fs (Function.update cs i .empty) v) := by
  obtain ⟨rfl, hcs⟩ := NoValues.hole (t := .branch (update cs i c) v) h
  refine NoValues.closeUp (t := .branch (update cs i c) none) h (fun j => ?_)
  by_cases hji : j = i
  · subst hji
    rw [update_self]
    trivial
  · have hold := hcs j
    rwa [update_of_ne hji] at hold ⊢

theorem NoValues.erase (h : NoValues (plug fs last)) : NoValues (erase fs last) := by
  match fs, last with
  | [], _ => trivial
  | f :: fs, .branch cs v =>
    obtain ⟨rfl, hcs⟩ := NoValues.hole h
    have herase : PatriciaTree.erase (f :: fs) (.branch cs none) =
        PatriciaTree.closeUp (f :: fs) cs none := by cases f <;> rfl
    rw [herase]
    exact h.closeUp hcs
  | .ext p :: fs, .leaf q w => exact h
  | .ext p :: fs, .ext q c => exact h
  | .ext p :: fs, .stub ref => exact h
  | .ext p :: fs, .empty => exact h
  | .branch cs v i :: fs, .leaf q w => exact h.erase_child
  | .branch cs v i :: fs, .ext q c => exact h.erase_child
  | .branch cs v i :: fs, .stub ref => exact h.erase_child
  | .branch cs v i :: fs, .empty => exact h.erase_child

/-- All keys have the length `n`. -/
def KeysOfLength (n : Nat) (t : PatriciaTree r ν ρ) : Prop :=
  ∀ k v, lookup t k = some v → k.length = n

theorem KeysOfLength.hole {n : Nat} (h : KeysOfLength n (plug fs t)) :
    KeysOfLength (n - (keyOf fs).length) t := by
  intro k v hk
  have hlen := h (keyOf fs ++ k) v (by rw [lookup_plug, hk])
  rw [length_append] at hlen
  omega

theorem noValues_fork (v : ν) (h : NoValues t) (hold : (fork p k).2.1 ≠ [])
    (hnew : (fork p k).2.2 ≠ []) :
    NoValues (extend (fork p k).1 (putInBranch (fork p k).2.2 v (forkBranch t (fork p k).2.1))) := by
  have hextend (q : List (Fin r)) {c : PatriciaTree r ν ρ} (hc : NoValues c) :
      NoValues (extend q c) := by
    unfold extend
    split <;> exact hc
  obtain ⟨j, q, hj⟩ := exists_cons_of_ne_nil hold
  obtain ⟨i, s, hi⟩ := exists_cons_of_ne_nil hnew
  rw [hj, hi]
  apply hextend
  refine ⟨rfl, fun x => ?_⟩
  by_cases hxi : x = i
  · subst hxi
    rw [update_self]
    trivial
  · rw [update_of_ne hxi]
    by_cases hxj : x = j
    · subst hxj
      rw [update_self]
      cases t with
      | empty => exact h
      | stub ref => exact h
      | leaf p w => trivial
      | ext p c => exact hextend q h
      | branch cs w => exact h
    · rw [update_of_ne hxj]
      trivial

theorem NoValues.graft (v : ν) (h : NoValues t) (hwf : WF t) (hkeys : KeysOfLength k.length t)
    (hstuck : Stuck t k) : NoValues (graft t k v) := by
  cases t with
  | empty => trivial
  | stub ref => trivial
  | leaf p w =>
    simp only [PatriciaTree.graft]
    split
    · trivial
    · rename_i hne
      have hlen : p.length = k.length := hkeys p w (by simp)
      exact noValues_fork v h (fork_old_ne_nil (fun hp => hne (hp.eq_of_length hlen)))
        (fork_new_ne_nil (fun hk => hne (hk.eq_of_length hlen.symm).symm))
  | ext p c =>
    obtain ⟨x, w, hx⟩ := hwf.2.2.exists_key
    have hlen := hkeys (p ++ x) w (by rw [lookup_ext_append, hx])
    rw [length_append] at hlen
    have hstuck' : ¬ p <+: k := hstuck
    have hnew : (fork p k).2.2 ≠ [] := by
      refine fork_new_ne_nil (fun hk => hstuck' ?_)
      have hkp := hk.eq_of_length_le (by omega)
      exact hkp ▸ prefix_refl k
    exact noValues_fork v h (fork_old_ne_nil hstuck') hnew
  | branch cs w =>
    obtain ⟨rfl, hcs⟩ := h
    cases k with
    | nil =>
      obtain ⟨i, -, ki, -, vi, -, -, hi, -⟩ := hwf.exists_two_keys
      cases hkeys (i :: ki) vi hi
    | cons i k =>
      refine ⟨rfl, fun j => ?_⟩
      by_cases hji : j = i
      · subst hji
        rw [update_self]
        trivial
      · rw [update_of_ne hji]
        exact hcs j

/-- Where all keys have the length of the new one, storing puts no value into a branch. -/
theorem Split.noValues_graft {rest : List (Fin r)} (h : Split t k fs last rest) (ht : NoValues t)
    (hwf : WF t) (hlast : last ≠ .empty) (hkeys : KeysOfLength k.length t) (v : ν) :
    NoValues (plug fs (graft last rest v)) := by
  have hplug : NoValues (plug fs last) := h.plug_eq ▸ ht
  have hwf' : WF (plug fs last) := h.plug_eq ▸ hwf
  have hkeys' : KeysOfLength k.length (plug fs last) := h.plug_eq ▸ hkeys
  have hlen : k.length - (keyOf fs).length = rest.length := by
    rw [← h.key_eq, length_append]
    omega
  exact hplug.replug (hplug.hole.graft v (hwf'.hole hlast) (hlen ▸ hkeys'.hole) h.stuck)

/-! ## Canonical trees -/

theorem prefix_of_two_prefixes {j : Fin r} {ki kj : List (Fin r)} (hij : i ≠ j)
    (hi : q <+: p ++ i :: ki) (hj : q <+: p ++ j :: kj) : q <+: p := by
  induction p generalizing q with
  | nil =>
    cases q with
    | nil => exact prefix_refl []
    | cons a q =>
      have ha : a = i := (cons_prefix_cons.mp hi).1
      have hb : a = j := (cons_prefix_cons.mp hj).1
      exact absurd (ha.symm.trans hb) hij
  | cons b p ih =>
    cases q with
    | nil => exact nil_prefix
    | cons a q =>
      obtain ⟨hab, hi⟩ := cons_prefix_cons.mp hi
      exact cons_prefix_cons.mpr ⟨hab, ih hi (cons_prefix_cons.mp hj).2⟩

/-- An extension of a canonical tree has keys that part right behind its path. -/
theorem WF.exists_two_keys_ext (h : WF (.ext p c)) (hv : NoValues (.ext p c)) :
    ∃ i j ki kj vi vj, i ≠ j ∧
      lookup (.ext p c) (p ++ i :: ki) = some vi ∧ lookup (.ext p c) (p ++ j :: kj) = some vj := by
  obtain ⟨-, hbranch, hc⟩ := h
  cases c with
  | branch cs v =>
    obtain rfl : v = none := hv.1
    obtain ⟨i, j, ki, kj, vi, vj, hij, hi, hj⟩ := hc.exists_two_keys
    refine ⟨i, j, ki, kj, vi, vj, hij, ?_, ?_⟩
    · rw [lookup_ext_append, hi]
    · rw [lookup_ext_append, hj]
  | empty => cases hbranch
  | stub ref => cases hbranch
  | leaf q w => cases hbranch
  | ext q d => cases hbranch

theorem ext_ne_of_lookup (h : WF (.ext p c)) (h' : WF (.branch cs none))
    (heq : ∀ k, lookup (.ext p c) k = lookup (.branch cs none) k) : False := by
  obtain ⟨i, j, ki, kj, vi, vj, hij, hi, hj⟩ := h'.exists_two_keys
  obtain ⟨a, p', hp⟩ := exists_cons_of_ne_nil h.1
  have hpi := prefix_of_lookup_ext ((heq (i :: ki)).trans hi)
  have hpj := prefix_of_lookup_ext ((heq (j :: kj)).trans hj)
  rw [hp] at hpi hpj
  exact hij ((cons_prefix_cons.mp hpi).1.symm.trans (cons_prefix_cons.mp hpj).1)

theorem key_eq_of_lookup_leaf {v : ν} {k' : List (Fin r)} {w w' : ν}
    (heq : ∀ x, lookup (.leaf p v : PatriciaTree r ν ρ) x = lookup t x) (hk : lookup t k = some w)
    (hk' : lookup t k' = some w') : k = k' := by
  have hp (x : List (Fin r)) (y : ν) (hx : lookup t x = some y) : p = x := by
    by_contra hne
    have hnone := heq x
    rw [lookup_leaf, if_neg hne, hx] at hnone
    cases hnone
  exact (hp k w hk).symm.trans (hp k' w' hk')

/-- Canonical trees with the same entries are the same. -/
theorem eq_of_lookup_eq (h : WF t) (hv : NoValues t) (h' : WF t') (hv' : NoValues t')
    (heq : ∀ k, lookup t k = lookup t' k) : t = t' := by
  induction t generalizing t' with
  | empty => exact h.elim
  | stub ref => exact h.elim
  | leaf p v =>
    cases t' with
    | empty => exact h'.elim
    | stub ref => exact h'.elim
    | leaf p' v' =>
      have hp := heq p
      rw [lookup_leaf, if_pos rfl, lookup_leaf] at hp
      by_cases hpp : p' = p
      · rw [if_pos hpp] at hp
        rw [hpp, Option.some.inj hp]
      · rw [if_neg hpp] at hp
        cases hp
    | ext p' c' =>
      obtain ⟨i, j, ki, kj, vi, vj, hij, hi, hj⟩ := h'.exists_two_keys_ext hv'
      have hsame := key_eq_of_lookup_leaf heq hi hj
      exact absurd (List.cons.inj (append_cancel_left hsame)).1 hij
    | branch cs' v' =>
      obtain rfl : v' = none := hv'.1
      obtain ⟨i, j, ki, kj, vi, vj, hij, hi, hj⟩ := h'.exists_two_keys
      exact absurd (List.cons.inj (key_eq_of_lookup_leaf heq hi hj)).1 hij
  | ext p c ih =>
    cases t' with
    | empty => exact h'.elim
    | stub ref => exact h'.elim
    | leaf p' v' =>
      obtain ⟨i, j, ki, kj, vi, vj, hij, hi, hj⟩ := h.exists_two_keys_ext hv
      have hsame := key_eq_of_lookup_leaf (fun x => (heq x).symm) hi hj
      exact absurd (List.cons.inj (append_cancel_left hsame)).1 hij
    | ext p' c' =>
      have hpp : p = p' := by
        obtain ⟨i, j, ki, kj, vi, vj, hij, hi, hj⟩ := h.exists_two_keys_ext hv
        obtain ⟨i', j', ki', kj', vi', vj', hij', hi', hj'⟩ := h'.exists_two_keys_ext hv'
        have hle : p' <+: p := prefix_of_two_prefixes hij
          (prefix_of_lookup_ext ((heq _).symm.trans hi))
          (prefix_of_lookup_ext ((heq _).symm.trans hj))
        have hge : p <+: p' := prefix_of_two_prefixes hij'
          (prefix_of_lookup_ext ((heq _).trans hi')) (prefix_of_lookup_ext ((heq _).trans hj'))
        exact hge.eq_of_length_le hle.length_le
      subst hpp
      have hc : c = c' := by
        refine ih h.2.2 hv h'.2.2 hv' (fun k => ?_)
        rw [← lookup_ext_append p c k, heq, lookup_ext_append]
      rw [hc]
    | branch cs' v' =>
      obtain rfl : v' = none := hv'.1
      exact (ext_ne_of_lookup h h' heq).elim
  | branch cs v ih =>
    obtain rfl : v = none := hv.1
    cases t' with
    | empty => exact h'.elim
    | stub ref => exact h'.elim
    | leaf p' v' =>
      obtain ⟨i, j, ki, kj, vi, vj, hij, hi, hj⟩ := h.exists_two_keys
      exact absurd (List.cons.inj (key_eq_of_lookup_leaf (fun x => (heq x).symm) hi hj)).1 hij
    | ext p' c' => exact (ext_ne_of_lookup h' h (fun k => (heq k).symm)).elim
    | branch cs' v' =>
      obtain rfl : v' = none := hv'.1
      have hcs : cs = cs' := by
        funext i
        have hi (k : List (Fin r)) : lookup (cs i) k = lookup (cs' i) k := heq (i :: k)
        by_cases hempty : cs i = .empty
        · by_contra hne
          have hne' : cs' i ≠ .empty := fun hempty' => hne (hempty.trans hempty'.symm)
          obtain ⟨k, w, hk⟩ := (h'.2 i hne').exists_key
          rw [← hi k, hempty, lookup_empty] at hk
          cases hk
        · have hne' : cs' i ≠ .empty := by
            intro hempty'
            obtain ⟨k, w, hk⟩ := (h.2 i hempty).exists_key
            rw [hi k, hempty', lookup_empty] at hk
            cases hk
          exact ih i (h.2 i hempty) (hv.2 i) (h'.2 i hne') (hv'.2 i) hi
      rw [hcs]

end PatriciaTree
