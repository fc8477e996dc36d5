-- SUMMARY: Readers that buffer a stream and step while enough of it is there, and the rule for streams that come in chunks.
import TsEthereum.Base.Program

/-!
# Stream readers

A reader buffers what arrives and takes steps for as long as it is ready. An
invariant that speaks of the buffer together with the part of the stream that is
still to come does not see where the stream was cut.
-/

structure StreamReader (ε σ : Type) where
  ready : σ → Bool
  step : Program ε σ Unit

namespace StreamReader

open Program

variable {ε σ β : Type}

/-- Steps while the reader is ready, `fuel` of them at most. -/
def drain (r : StreamReader ε σ) : Nat → Program ε σ Unit
  | 0 => Program.ret ()
  | fuel + 1 => do
    let s ← Program.get
    Program.when (r.ready s) (do r.step; r.drain fuel)

/-- The chunks of a stream, one after the other. -/
def feed (receive : List β → Program ε σ Unit) : List (List β) → Program ε σ Unit
  | [] => Program.ret ()
  | chunk :: chunks => do
    receive chunk
    feed receive chunks

variable {fuel : Nat} {s : σ}

theorem drain_ready {r : StreamReader ε σ} {s' : σ} (hready : r.ready s = true)
    (hstep : r.step s = (.ok (), s')) : r.drain (fuel + 1) s = r.drain fuel s' := by
  change (Program.when (r.ready s) (andThen r.step fun _ => r.drain fuel)) s = _
  simp only [Program.when, hready, if_true, andThen, hstep]

theorem drain_waiting {r : StreamReader ε σ} (hready : r.ready s = false) :
    r.drain fuel s = (.ok (), s) := by
  cases fuel with
  | zero => rfl
  | succ fuel =>
    change (Program.when (r.ready s) (andThen r.step fun _ => r.drain fuel)) s = _
    simp only [Program.when, hready, Bool.false_eq_true, if_false]
    rfl

/-- A step, and the rest of the loop from where that ends. -/
theorem wp_drain_ready {r : StreamReader ε σ} {Q : Unit → σ → Prop} {E : ε → σ → Prop}
    (hready : r.ready s = true) (h : r.step.wp (fun _ s' => (r.drain fuel).wp Q E s') E s) :
    (r.drain (fuel + 1)).wp Q E s := by
  simp only [drain, wp_bind, wp_get]
  apply wp_when
  · exact fun _ => (wp_bind _ _).mpr h
  · exact fun hnot => absurd hready hnot

/-- Steps that keep an invariant and lower a measure end where the reader waits. -/
theorem drain_spec {r : StreamReader ε σ} (Inv : σ → Prop) (measure : σ → Nat)
    (hstep : ∀ s, Inv s → r.ready s = true →
      ∃ s', r.step s = (.ok (), s') ∧ Inv s' ∧ measure s' < measure s) (hinv : Inv s)
    (hfuel : measure s ≤ fuel) :
    ∃ s', r.drain fuel s = (.ok (), s') ∧ Inv s' ∧ r.ready s' = false := by
  induction fuel generalizing s with
  | zero =>
    cases hready : r.ready s with
    | false => exact ⟨s, rfl, hinv, hready⟩
    | true =>
      obtain ⟨s', -, -, hlt⟩ := hstep s hinv hready
      exact absurd (Nat.lt_of_lt_of_le hlt hfuel) (Nat.not_lt_zero _)
  | succ fuel ih =>
    cases hready : r.ready s with
    | false => exact ⟨s, drain_waiting hready, hinv, hready⟩
    | true =>
      obtain ⟨s', hrun, hinv', hlt⟩ := hstep s hinv hready
      obtain ⟨s'', hrest, hdone⟩ :=
        ih hinv' (Nat.le_of_lt_succ (Nat.lt_of_lt_of_le hlt hfuel))
      exact ⟨s'', (drain_ready hready hrun).trans hrest, hdone⟩

/-! ## The loop without a bound -/

/-- The steps come to an end: the reader waits, or a step throws. -/
inductive Halts (r : StreamReader ε σ) : σ → Prop
  | waiting {s : σ} (hready : r.ready s = false) : Halts r s
  | threw {s s' : σ} {e : ε} (hready : r.ready s = true) (hstep : r.step s = (.error e, s')) : Halts r s
  | stepped {s s' : σ} (hready : r.ready s = true) (hstep : r.step s = (.ok (), s'))
    (hrest : Halts r s') : Halts r s

/-- Steps that keep an invariant and lower a measure come to an end. -/
theorem halts_of_measure {r : StreamReader ε σ} (Inv : σ → Prop) (measure : σ → Nat)
    (hstep : ∀ s s', Inv s → r.ready s = true → r.step s = (.ok (), s') →
      Inv s' ∧ measure s' < measure s) (hinv : Inv s) : r.Halts s := by
  induction hn : measure s using Nat.strongRecOn generalizing s with
  | ind n ih =>
    subst hn
    cases hready : r.ready s with
    | false => exact .waiting hready
    | true =>
      rcases hrun : r.step s with ⟨_ | _, s'⟩
      · exact .threw hready hrun
      · obtain ⟨hinv', hlt⟩ := hstep s s' hinv hready hrun
        exact .stepped hready hrun (ih _ hlt hinv' rfl)

/-- An invariant about what is still to come holds however the stream is cut. -/
theorem feed_spec {receive : List β → Program ε σ Unit} (Inv : List β → σ → Prop)
    (hreceive : ∀ chunk later s, Inv (chunk ++ later) s →
      ∃ s', receive chunk s = (.ok (), s') ∧ Inv later s') (chunks : List (List β)) {later : List β}
    (hinv : Inv (chunks.flatten ++ later) s) :
    ∃ s', feed receive chunks s = (.ok (), s') ∧ Inv later s' := by
  induction chunks generalizing s with
  | nil => exact ⟨s, rfl, hinv⟩
  | cons chunk chunks ih =>
    rw [List.flatten_cons, List.append_assoc] at hinv
    obtain ⟨s', hrun, hinv'⟩ := hreceive chunk _ s hinv
    obtain ⟨s'', hrest, hdone⟩ := ih hinv'
    refine ⟨s'', ?_, hdone⟩
    change andThen (receive chunk) (fun _ => feed receive chunks) s = _
    simp only [andThen, hrun, hrest]

/-! ## Packets that say how long they are -/

/-- How a reader takes a packet: once `first` bytes are there it learns the length, and then
waits for all of it. The states are given by the bytes in the buffer. -/
structure SizedPacket (r : StreamReader ε σ) (packet : List β) where
  unsized : List β → σ
  sized : List β → σ
  first : Nat
  first_le : first ≤ packet.length
  ready_unsized : ∀ b, r.ready (unsized b) = decide (first ≤ b.length)
  ready_sized : ∀ b, r.ready (sized b) = decide (packet.length ≤ b.length)
  step_unsized : ∀ b, first ≤ b.length → b <+: packet ∨ packet <+: b →
    r.step (unsized b) = (.ok (), sized b)

namespace SizedPacket

variable {r : StreamReader ε σ} {packet : List β} (p : SizedPacket r packet)

/-- The state in which the reader waits with a part of the packet. -/
def waiting (b : List β) : σ := if b.length < p.first then p.unsized b else p.sized b

/-- The states that the reader can be in when bytes have just arrived. -/
def Holds (b : List β) (s : σ) : Prop := s = p.unsized b ∨ s = p.sized b ∧ p.first ≤ b.length

theorem drain_part {b : List β} {s : σ} {fuel : Nat} (hs : p.Holds b s) (hb : b <+: packet)
    (hlt : b.length < packet.length) : r.drain (fuel + 1) s = (.ok (), p.waiting b) := by
  have hsized : r.ready (p.sized b) = false :=
    (p.ready_sized b).trans (decide_eq_false (Nat.not_le_of_lt hlt))
  rcases hs with rfl | ⟨rfl, hfirst⟩
  · cases Nat.lt_or_ge b.length p.first with
    | inl hless =>
      have hwait : r.ready (p.unsized b) = false :=
        (p.ready_unsized b).trans (decide_eq_false (Nat.not_le_of_lt hless))
      simp only [drain_waiting hwait, waiting, if_pos hless]
    | inr hfirst =>
      have hready : r.ready (p.unsized b) = true :=
        (p.ready_unsized b).trans (decide_eq_true hfirst)
      have hstep := p.step_unsized b hfirst (.inl hb)
      simp only [drain_ready hready hstep, drain_waiting hsized, waiting,
        if_neg (Nat.not_lt_of_le hfirst)]
  · simp only [drain_waiting hsized, waiting, if_neg (Nat.not_lt_of_le hfirst)]

/-- With all of the packet the reader takes it, and goes on with what is left. -/
theorem drain_whole {done : σ} {rest : List β} {s : σ}
    (hdone : r.step (p.sized (packet ++ rest)) = (.ok (), done))
    (hs : p.Holds (packet ++ rest) s) (fuel : Nat) : ∃ fuel', r.drain (fuel + 2) s = r.drain fuel' done := by
  have hlong : packet.length ≤ (packet ++ rest).length := (List.prefix_append packet rest).length_le
  have hsized : r.ready (p.sized (packet ++ rest)) = true :=
    (p.ready_sized _).trans (decide_eq_true hlong)
  rcases hs with rfl | ⟨rfl, -⟩
  · have hfirst := Nat.le_trans p.first_le hlong
    have hready : r.ready (p.unsized (packet ++ rest)) = true :=
      (p.ready_unsized _).trans (decide_eq_true hfirst)
    have hstep := p.step_unsized _ hfirst (.inr (List.prefix_append packet rest))
    exact ⟨fuel, (drain_ready hready hstep).trans (drain_ready hsized hdone)⟩
  · exact ⟨fuel + 1, drain_ready hsized hdone⟩

end SizedPacket

end StreamReader
