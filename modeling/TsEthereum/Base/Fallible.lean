-- SUMMARY: Computations that may throw: when a sequence of steps, a check or a loop of checks succeeds.

/-!
# Fallible computations

A value is returned exactly where every step before it returned one. The rules turn
the success of a sequence into the facts of its steps, and back.
-/

open List Except

namespace Except

variable {ε α β : Type}

variable {x : Except ε α} {f : α → Except ε β} {b : β}

theorem bind_eq_ok : (x >>= f) = .ok b ↔ ∃ a, x = .ok a ∧ f a = .ok b := by
  cases x with
  | error e => simp [bind, Except.bind]
  | ok a => simp [bind, Except.bind]

theorem map_eq_ok {f : α → β} : (f <$> x) = .ok b ↔ ∃ a, x = .ok a ∧ f a = b := by
  cases x with
  | error e => simp [Functor.map, Except.map]
  | ok a => simp [Functor.map, Except.map]

variable {a : α}

theorem mapError_eq_ok {ε' : Type} {f : ε → ε'} : x.mapError f = .ok a ↔ x = .ok a := by
  cases x with
  | error e => exact iff_of_false (by rintro ⟨⟩) (by rintro ⟨⟩)
  | ok b =>
    change (.ok b : Except ε' α) = .ok a ↔ _
    rw [Except.ok.injEq, Except.ok.injEq]

/-- A step that only checks, and the steps after it. -/
theorem andThen_eq_ok {x : Except ε Unit} {y : Except ε β} :
    (x >>= fun _ => y) = .ok b ↔ x = .ok () ∧ y = .ok b := by
  rw [bind_eq_ok]
  exact ⟨fun ⟨_, hx, hy⟩ => ⟨hx, hy⟩, fun ⟨hx, hy⟩ => ⟨(), hx, hy⟩⟩

theorem pure_eq_ok {b : α} : (pure a : Except ε α) = .ok b ↔ a = b :=
  ⟨ok.inj, congrArg Except.ok⟩

def throwWhen (c : Prop) [Decidable c] (e : ε) : Except ε Unit := if c then .error e else .ok ()

theorem throwWhen_eq_ok {c : Prop} [Decidable c] {e : ε} {u : Unit} :
    throwWhen c e = .ok u ↔ ¬c := by
  unfold throwWhen
  split
  · next h => exact ⟨nofun, fun hn => absurd h hn⟩
  · next h => exact ⟨fun _ => h, fun _ => rfl⟩

variable {l : List α}

/-- A loop of checks succeeds where each of them does. -/
theorem forM_eq_ok {f : α → Except ε Unit} : l.forM f = .ok () ↔ ∀ a ∈ l, f a = .ok () := by
  induction l with
  | nil => exact ⟨fun _ _ h => (nomatch h), fun _ => rfl⟩
  | cons a l ih =>
    apply andThen_eq_ok.trans
    rw [ih, forall_mem_cons]

theorem ok_bind (a : α) (f : α → Except ε β) : ((.ok a : Except ε α) >>= f) = f a := rfl

/-- Steps that all succeed. -/
theorem mapM_eq_map {g : α → β} (h : ∀ a ∈ l, f a = .ok (g a)) : l.mapM f = .ok (l.map g) := by
  induction l with
  | nil => rfl
  | cons a l ih =>
    obtain ⟨ha, hl⟩ := forall_mem_cons.mp h
    rw [mapM_cons, ha, ih hl]
    rfl

theorem mapM_map {f : α → β} {g : β → Except ε α} (h : ∀ a, g (f a) = .ok a) (l : List α) :
    (l.map f).mapM g = .ok l := by
  induction l with
  | nil => rfl
  | cons a l ih =>
    rw [map_cons, mapM_cons, h, ih]
    rfl

theorem mem_of_mapM {l' : List β} (h : l.mapM f = .ok l') (ha : a ∈ l) : ∃ b ∈ l', f a = .ok b := by
  induction l generalizing l' with
  | nil => cases ha
  | cons x l ih =>
    rw [mapM_cons] at h
    obtain ⟨b, hb, h⟩ := bind_eq_ok.mp h
    obtain ⟨bs, hbs, h⟩ := bind_eq_ok.mp h
    obtain rfl := ok.inj h
    rcases mem_cons.mp ha with rfl | ha
    · exact ⟨b, mem_cons_self, hb⟩
    · obtain ⟨c, hc, hfa⟩ := ih hbs ha
      exact ⟨c, mem_cons_of_mem b hc, hfa⟩

/-- What is written one by one is read back one by one. -/
theorem mapM_inverse {ε' : Type} {g : β → Except ε' α} {l' : List β}
    (hinv : ∀ a ∈ l, ∀ b, f a = .ok b → g b = .ok a) (h : l.mapM f = .ok l') :
    l'.mapM g = .ok l := by
  induction l generalizing l' with
  | nil =>
    rw [mapM_nil] at h
    obtain rfl := ok.inj h
    rfl
  | cons a l ih =>
    rw [mapM_cons] at h
    obtain ⟨b, hb, h⟩ := bind_eq_ok.mp h
    obtain ⟨bs, hbs, h⟩ := bind_eq_ok.mp h
    obtain rfl := ok.inj h
    rw [mapM_cons, hinv a mem_cons_self b hb,
      ih (fun a ha => hinv a (mem_cons_of_mem _ ha)) hbs]
    rfl

end Except
