-- SUMMARY: Programs over a state that is kept when they throw, and their weakest preconditions.
import Mathlib.Order.Defs.Unbundled

/-!
# Programs

A program reads and writes a state and can throw. What it wrote before it threw
stays written. `wp p Q E` holds of the states from which `p` ends in `Q`, or
throws in `E`.
-/

def Program (ε σ α : Type) := σ → Except ε α × σ

namespace Program

variable {ε σ τ α β : Type}

def ret (a : α) : Program ε σ α := fun s => (.ok a, s)

def andThen (p : Program ε σ α) (f : α → Program ε σ β) : Program ε σ β := fun s =>
  match p s with
  | (.ok a, s') => f a s'
  | (.error e, s') => (.error e, s')

instance : Monad (Program ε σ) where
  pure := ret
  bind := andThen

def throw (e : ε) : Program ε σ α := fun s => (.error e, s)

def get : Program ε σ σ := fun s => (.ok s, s)

def modify (f : σ → σ) : Program ε σ Unit := fun s => (.ok (), f s)

/-- The outcome as a value, also where the program throws. -/
def attempt (p : Program ε σ α) : Program ε σ (Except ε α) := fun s => (.ok (p s).1, (p s).2)

/-- A fallible value. -/
def ofExcept : Except ε α → Program ε σ α
  | .ok a => ret a
  | .error e => throw e

/-- A program that runs only where `c` holds. -/
def when (c : Prop) [Decidable c] (p : Program ε σ Unit) : Program ε σ Unit :=
  if c then p else ret ()

/-- A program that sees only a part of the state. -/
def onPart (part : τ → σ) (update : σ → τ → τ) (p : Program ε σ α) : Program ε τ α := fun t =>
  ((p (part t)).1, update (p (part t)).2 t)

/-- A program that has a larger state for as long as it runs. -/
def within (enter : σ → τ) (leave : τ → σ) (p : Program ε τ α) : Program ε σ (α × τ) := fun s =>
  match p (enter s) with
  | (.ok a, t) => (.ok (a, t), leave t)
  | (.error e, t) => (.error e, leave t)

/-! ## Sequences -/

theorem andThen_assoc {γ : Type} (p : Program ε σ α) (f : α → Program ε σ β) (g : β → Program ε σ γ) :
    p >>= f >>= g = p >>= fun a => f a >>= g := by
  funext s
  change andThen (andThen p f) g s = andThen p (fun a => andThen (f a) g) s
  unfold andThen
  rcases p s with ⟨_ | _, _⟩ <;> rfl

theorem andThen_ret (p : Program ε σ α) : (p >>= fun a => pure a) = p := by
  funext s
  change andThen p ret s = p s
  unfold andThen
  rcases p s with ⟨_ | _, _⟩ <;> rfl

theorem ret_andThen (a : α) (f : α → Program ε σ β) : (pure a : Program ε σ α) >>= f = f a := rfl

theorem throw_andThen (e : ε) (f : α → Program ε σ β) :
    (throw e : Program ε σ α) >>= f = throw e := rfl

theorem ite_andThen {c : Prop} [Decidable c] {p q : Program ε σ α} {f : α → Program ε σ β} :
    (if c then p else q) >>= f = if c then p >>= f else q >>= f := by
  split <;> rfl

theorem get_run (s : σ) : (get : Program ε σ σ) s = (.ok s, s) := rfl

section
variable {p : Program ε σ α} {f : α → Program ε σ β} {s s' : σ}

theorem bind_of_ok {a : α} (h : p s = (.ok a, s')) : (p >>= f) s = f a s' := by
  change andThen p f s = f a s'
  rw [andThen, h]

theorem bind_of_error {e : ε} (h : p s = (.error e, s')) : (p >>= f) s = (.error e, s') := by
  change andThen p f s = (.error e, s')
  rw [andThen, h]

/-- The steps of a sequence that succeeds. -/
theorem ok_of_bind {b : β} (h : (p >>= f) s = (.ok b, s')) :
    ∃ a s₁, p s = (.ok a, s₁) ∧ f a s₁ = (.ok b, s') := by
  change andThen p f s = (.ok b, s') at h
  unfold andThen at h
  rcases hrun : p s with ⟨e | a, s₁⟩ <;> rw [hrun] at h
  · cases h
  · exact ⟨a, s₁, rfl, h⟩

end

/-! ## Weakest preconditions -/

def wp (p : Program ε σ α) (Q : α → σ → Prop) (E : ε → σ → Prop) (s : σ) : Prop :=
  match p s with
  | (.ok a, s') => Q a s'
  | (.error e, s') => E e s'

variable {Q : α → σ → Prop} {E : ε → σ → Prop} {s : σ}

theorem wp_ok {p : Program ε σ α} {a : α} {s' : σ} (hrun : p s = (.ok a, s')) (h : p.wp Q E s) :
    Q a s' := by
  simpa only [wp, hrun] using h

theorem wp_error {p : Program ε σ α} {e : ε} {s' : σ} (hrun : p s = (.error e, s'))
    (h : p.wp Q E s) : E e s' := by
  simpa only [wp, hrun] using h

theorem wp_of_run {p : Program ε σ α} {a : α} {s' : σ} (hrun : p s = (.ok a, s')) (h : Q a s') :
    p.wp Q E s := by
  simpa only [wp, hrun] using h

theorem wp_of_error {p : Program ε σ α} {e : ε} {s' : σ} (hrun : p s = (.error e, s')) (h : E e s') :
    p.wp Q E s := by
  simpa only [wp, hrun] using h

/-- A program that does not throw comes to a result. -/
theorem wp_total {p : Program ε σ α} (h : p.wp Q (fun _ _ => False) s) :
    ∃ a s', p s = (.ok a, s') ∧ Q a s' := by
  unfold wp at h
  rcases hrun : p s with ⟨e | a, s'⟩ <;> rw [hrun] at h
  · exact h.elim
  · exact ⟨a, s', rfl, h⟩

theorem wp_mono {p : Program ε σ α} {Q' : α → σ → Prop} {E' : ε → σ → Prop} (h : p.wp Q E s)
    (hok : ∀ a s', Q a s' → Q' a s') (herror : ∀ e s', E e s' → E' e s') : p.wp Q' E' s := by
  unfold wp at h ⊢
  split at h
  · exact hok _ _ h
  · exact herror _ _ h

/-- What holds of every outcome. -/
theorem wp_of_forall {p : Program ε σ α} (hok : ∀ a s', Q a s') (herror : ∀ e s', E e s') :
    p.wp Q E s := by
  unfold wp
  split
  · exact hok _ _
  · exact herror _ _

theorem wp_and {p : Program ε σ α} {Q' : α → σ → Prop} {E' : ε → σ → Prop} (h : p.wp Q E s)
    (h' : p.wp Q' E' s) : p.wp (fun a s' => Q a s' ∧ Q' a s') (fun e s' => E e s' ∧ E' e s') s := by
  unfold wp at h h' ⊢
  rcases hrun : p s with ⟨e | a, s'⟩ <;> rw [hrun] at h h' <;> exact ⟨h, h'⟩

@[simp] theorem wp_pure (a : α) : (pure a : Program ε σ α).wp Q E s ↔ Q a s := Iff.rfl

@[simp] theorem wp_bind (p : Program ε σ β) (f : β → Program ε σ α) :
    (p >>= f).wp Q E s ↔ p.wp (fun b s' => (f b).wp Q E s') E s := by
  change (andThen p f).wp Q E s ↔ _
  unfold wp andThen
  rcases p s with ⟨_ | _, _⟩ <;> rfl

@[simp] theorem wp_throw (e : ε) : (throw e : Program ε σ α).wp Q E s ↔ E e s := Iff.rfl

@[simp] theorem wp_get {Q : σ → σ → Prop} : (get : Program ε σ σ).wp Q E s ↔ Q s s := Iff.rfl

@[simp] theorem wp_modify (f : σ → σ) {Q : Unit → σ → Prop} :
    (modify f : Program ε σ Unit).wp Q E s ↔ Q () (f s) := Iff.rfl

@[simp] theorem wp_attempt (p : Program ε σ α) {Q : Except ε α → σ → Prop} :
    (attempt p).wp Q E s ↔ p.wp (fun a s' => Q (.ok a) s') (fun e s' => Q (.error e) s') s := by
  unfold wp attempt
  rcases p s with ⟨_ | _, _⟩ <;> rfl

@[simp] theorem wp_ofExcept_ok (a : α) : (ofExcept (.ok a) : Program ε σ α).wp Q E s ↔ Q a s :=
  Iff.rfl

@[simp] theorem wp_ofExcept_error (e : ε) :
    (ofExcept (.error e) : Program ε σ α).wp Q E s ↔ E e s := Iff.rfl

@[simp] theorem wp_onPart (part : τ → σ) (update : σ → τ → τ) (p : Program ε σ α)
    {Q : α → τ → Prop} {E : ε → τ → Prop} {t : τ} : (onPart part update p).wp Q E t ↔
      p.wp (fun a s' => Q a (update s' t)) (fun e s' => E e (update s' t)) (part t) := by
  unfold wp onPart
  rcases p (part t) with ⟨_ | _, _⟩ <;> rfl

@[simp] theorem wp_within (enter : σ → τ) (leave : τ → σ) (p : Program ε τ α)
    {Q : α × τ → σ → Prop} : (within enter leave p).wp Q E s ↔
      p.wp (fun a t => Q (a, t) (leave t)) (fun e t => E e (leave t)) (enter s) := by
  unfold wp within
  rcases p (enter s) with ⟨_ | _, _⟩ <;> rfl

/-- A condition that holds on both branches. -/
theorem wp_ite {c : Prop} [Decidable c] {p q : Program ε σ α} (hp : c → p.wp Q E s)
    (hq : ¬c → q.wp Q E s) : (if c then p else q).wp Q E s := by
  split
  · exact hp ‹_›
  · exact hq ‹_›

theorem wp_when {c : Prop} [Decidable c] {p : Program ε σ Unit} {Q : Unit → σ → Prop}
    (hp : c → p.wp Q E s) (hnot : ¬c → Q () s) : (when c p).wp Q E s :=
  wp_ite hp hnot

/-! ## Relations that a program keeps -/

/-- The state that is left is related to the state before, whatever the outcome. -/
structure Keeps (R : σ → σ → Prop) (p : Program ε σ α) : Prop where
  outcome : ∀ s, R s (p s).2

section
variable {R : σ → σ → Prop}

theorem Keeps.wp {p : Program ε σ α} (h : p.Keeps R) (s : σ) :
    p.wp (fun _ s' => R s s') (fun _ s' => R s s') s := by
  have hs := h.outcome s
  unfold Program.wp
  rcases hrun : p s with ⟨_ | _, _⟩ <;> rw [hrun] at hs <;> exact hs

/-- What holds of both outcomes holds of the state that is left. -/
theorem outcome_of_wp {p : Program ε σ α} (P : σ → Prop)
    (h : p.wp (fun _ s' => P s') (fun _ s' => P s') s) : P (p s).2 := by
  unfold Program.wp at h
  rcases hrun : p s with ⟨_ | _, _⟩ <;> rw [hrun] at h <;> exact h

theorem keeps_modify {f : σ → σ} (h : ∀ s, R s (f s)) : (modify f : Program ε σ Unit).Keeps R := ⟨h⟩

theorem keeps_onPart {R' : τ → τ → Prop} {part : τ → σ} {update : σ → τ → τ}
    {p : Program ε σ α} (h : ∀ t, R' t (update (p (part t)).2 t)) :
    (onPart part update p).Keeps R' := ⟨h⟩

theorem keeps_attempt {p : Program ε σ α} (hp : p.Keeps R) : (attempt p).Keeps R := ⟨hp.outcome⟩

theorem keeps_ite {c : Prop} [Decidable c] {p q : Program ε σ α} (hp : p.Keeps R)
    (hq : q.Keeps R) : (if c then p else q).Keeps R := by
  split
  · exact hp
  · exact hq

variable [IsPreorder σ R]

theorem keeps_pure (a : α) : (pure a : Program ε σ α).Keeps R := ⟨fun s => refl_of R s⟩

theorem keeps_throw (e : ε) : (throw e : Program ε σ α).Keeps R := ⟨fun s => refl_of R s⟩

theorem keeps_get : (get : Program ε σ σ).Keeps R := ⟨fun s => refl_of R s⟩

theorem keeps_ofExcept (x : Except ε α) : (ofExcept x : Program ε σ α).Keeps R := by
  cases x <;> exact ⟨fun s => refl_of R s⟩

theorem keeps_bind {p : Program ε σ α} {f : α → Program ε σ β} (hp : p.Keeps R)
    (hf : ∀ a, (f a).Keeps R) : (p >>= f).Keeps R := by
  constructor
  intro s
  change R s (andThen p f s).2
  have hs := hp.outcome s
  unfold andThen
  rcases hrun : p s with ⟨e | a, s'⟩ <;> rw [hrun] at hs
  · exact hs
  · exact trans_of R hs ((hf a).outcome s')

theorem keeps_when {c : Prop} [Decidable c] {p : Program ε σ Unit} (hp : p.Keeps R) :
    (when c p).Keeps R :=
  keeps_ite hp (keeps_pure ())

end

end Program
