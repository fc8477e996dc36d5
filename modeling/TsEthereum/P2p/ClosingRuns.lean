-- SUMMARY: Runs of an RLPx connection: when it hands nothing over once it has stopped, and its socket is ended.
import TsEthereum.P2p.Closing
import TsEthereum.P2p.Onward

/-!
# Runs that stop

The steps of the loop are put together for a chunk, and what happens to a connection is put
together for a run. A stop with frame keys that is the last thing to do in its chunk closes
the connection, and a closed connection is not touched any more.
-/

open List

namespace Rlpx

open Program StreamReader

namespace Connection

variable {env : Env}

/-! ## The loop -/

theorem visited_ready {fuel : Nat} {c : Connection} (hready : (reader env).ready c = true) :
    visited env (fuel + 1) c = c :: match (reader env).step c with
      | (.ok _, c') => visited env fuel c'
      | (.error _, _) => [] := if_pos hready

variable {c : Connection}

theorem visited_waiting {fuel : Nat} (hready : (reader env).ready c = false) :
    visited env fuel c = [] := by
  cases fuel with
  | zero => rfl
  | succ fuel => exact if_neg (Bool.eq_false_iff.mp hready)

/-- The loop goes on behind a stop: it hands nothing over, and the connection stays as it is. -/
theorem drain_closing (fuel : Nat) (h : Closing c) (hlate : Late c)
    (horderly : ∀ c' ∈ visited env fuel c, Orderly env c') :
    (∀ m ∈ (visited env fuel c).map (mark env), m.delivers = false) ∧
      ((reader env).drain fuel).wp (fun _ c' => Closing c') (fun _ c' => Closing c') c := by
  induction fuel generalizing c with
  | zero => exact ⟨forall_mem_nil _, h⟩
  | succ fuel ih =>
    cases hready : (reader env).ready c with
    | false =>
      rw [visited_waiting hready]
      exact ⟨forall_mem_nil _, wp_of_run (drain_waiting hready) h⟩
    | true =>
      have hvisited := @visited_ready env fuel c hready
      rw [hvisited] at horderly ⊢
      have hnot := (horderly c mem_cons_self).last h.closed
      have hstep := @step_closing env c h (hlate.resolve_right hnot)
      have honward := (@laws_onward env).keeps_step.outcome c
      unfold wp at hstep
      rcases hrun : (reader env).step c with ⟨fault | _, c'⟩ <;> rw [hrun] at hstep honward horderly
      · refine ⟨forall_mem_singleton.mpr (silent_of_state hnot), ?_⟩
        exact wp_drain_ready hready (wp_of_error hrun hstep)
      · obtain ⟨hsilent, hrest⟩ := ih hstep (honward.late hlate) fun c'' hmem =>
          horderly c'' (mem_cons_of_mem _ hmem)
        refine ⟨forall_mem_cons.mpr ⟨silent_of_state hnot, hsilent⟩, ?_⟩
        exact wp_drain_ready hready (wp_of_run hrun hrest)

/-- What the steps for a chunk come to: the connection goes on, or one of them has stopped it
and the others hand nothing over. -/
inductive Drained (ms : List Mark) (drain : Action Unit) (c : Connection) : Prop
  | goes (hgoes : ∀ m ∈ ms, m.stops = false)
      (hopen : drain.wp (fun _ c' => c'.closed = false) (fun _ _ => False) c) : Drained ms drain c
  | stops (hquiet : ms.Pairwise fun m m' => m.stops = true → m'.delivers = false)
      (hclosing : drain.wp (fun _ c' => Closing c') (fun _ c' => Closable c') c) : Drained ms drain c

theorem drain_open (fuel : Nat) {c : Connection} (h : Steady c) (hopen : c.closed = false)
    (horderly : ∀ c' ∈ visited env fuel c, Orderly env c') :
    Drained ((visited env fuel c).map (mark env)) ((reader env).drain fuel) c := by
  induction fuel generalizing c with
  | zero => exact .goes (forall_mem_nil _) hopen
  | succ fuel ih =>
    cases hready : (reader env).ready c with
    | false =>
      rw [visited_waiting hready]
      exact .goes (forall_mem_nil _) (wp_of_run (drain_waiting hready) hopen)
    | true =>
      have hvisited := @visited_ready env fuel c hready
      rw [hvisited] at horderly ⊢
      have hnow := horderly c mem_cons_self
      cases hstops : (mark env c).stops with
      | false =>
        -- the rest of the loop starts in an open connection again
        obtain ⟨_, c', hrun, hopen'⟩ := wp_total (step_goes h hopen hstops)
        rw [hrun] at horderly ⊢
        rcases ih (h.step hrun) hopen' fun c'' hmem => horderly c'' (mem_cons_of_mem _ hmem) with
          ⟨hgoes, hrest⟩ | ⟨hquiet, hrest⟩
        · exact .goes (forall_mem_cons.mpr ⟨hstops, hgoes⟩)
            (wp_drain_ready hready (wp_of_run hrun hrest))
        · exact .stops (pairwise_cons.mpr ⟨fun _ _ hstop => absurd (hstops.symm.trans hstop) Bool.false_ne_true,
            hquiet⟩) (wp_drain_ready hready (wp_of_run hrun hrest))
      | true =>
        have hlate := hnow.late hopen hstops
        have hstep := step_stops h hopen hlate hstops (hnow.reason hopen)
        have honward := (@laws_onward env).keeps_step.outcome c
        unfold wp at hstep
        rcases hrun : (reader env).step c with ⟨fault | _, c'⟩ <;> rw [hrun] at hstep honward horderly
        · exact .stops (pairwise_singleton _ _)
            (wp_drain_ready hready (wp_of_error hrun hstep))
        · obtain ⟨hsilent, hrest⟩ := drain_closing fuel hstep (honward.late hlate) fun c'' hmem =>
            horderly c'' (mem_cons_of_mem _ hmem)
          refine .stops (pairwise_cons.mpr ⟨fun m hmem _ => hsilent m hmem, ?_⟩) ?_
          · exact pairwise_of_forall_mem_list fun _ _ m hmem _ => hsilent m hmem
          · exact wp_drain_ready hready (wp_of_run hrun
              (wp_mono hrest (fun _ _ hdone => hdone) fun _ _ hdone => .inl hdone))

/-! ## Inputs -/

theorem outgoing_sameEnd : Outgoing env SameEnd where
  session _ _ := ⟨rfl, rfl, rfl⟩
  write _ _ := ⟨rfl, rfl, rfl⟩
  emit _ _ := ⟨rfl, rfl, rfl⟩
  weHello _ _ := ⟨rfl, rfl, rfl⟩

theorem sendAck_end (draw : Draw) (pad : Bytes) : (sendAck env draw pad).Keeps SameEnd := by
  unfold sendAck
  apply keeps_bind keeps_get
  intro c
  apply keeps_when
  apply keeps_bind (outgoing_sameEnd.keeps_withSession (.createAck draw pad _))
  intro packet
  cases packet with
  | none => exact keeps_pure ()
  | some bytes =>
    apply keeps_bind ((@outgoing_sameEnd env).keeps_write bytes)
    intro _
    refine keeps_bind (keeps_modify fun _ => ⟨rfl, rfl, rfl⟩) fun _ => ?_
    exact outgoing_sameEnd.keeps_sendHello

theorem tick_end (c : Connection) (draw : Draw) (pad : Bytes) : SameEnd c (respond env c (.tick draw pad)) := by
  simp only [respond]
  split
  · exact refl_of SameEnd c
  · next callback rest _ =>
    have hdrop : SameEnd c { c with nextTick := rest } := ⟨rfl, rfl, rfl⟩
    refine trans_of SameEnd hdrop ?_
    cases callback with
    | sendAck => exact (sendAck_end draw pad).outcome _
    | sendHello => exact outgoing_sameEnd.keeps_sendHello.outcome _

theorem Started.isOpen (h : Started env c) : c.closed = false := by
  cases h with
  | inbound options privateKey nonce ephemeral _ => rfl
  | outbound options privateKey remoteId nonce ephemeral draw pad _ hdirection hnew =>
    have hkeeps : (sendAuth env draw pad).Keeps SameEnd := by
      unfold sendAuth
      apply keeps_bind keeps_get
      intro c
      apply keeps_when
      refine keeps_bind (keeps_onPart fun _ => ⟨rfl, rfl, rfl⟩) fun packet => ?_
      cases packet with
      | none => exact keeps_pure ()
      | some bytes =>
        refine keeps_bind ((@outgoing_sameEnd env).keeps_write bytes) fun _ => ?_
        exact keeps_modify fun _ => ⟨rfl, rfl, rfl⟩
    have hsame := hkeeps.outcome (created env options privateKey (some remoteId) nonce ephemeral)
    simp only [new, hdirection, Option.isSome_some, and_self, if_true] at hnew
    rw [hnew] at hsame
    exact hsame.closed

/-- No bytes are looked at any more. -/
def Stopped (c : Connection) : Prop := c.closed = true ∨ c.destroyed = true

variable {c' : Connection}

theorem SameEnd.stopped (h : SameEnd c c') (hc : Stopped c) : Stopped c' :=
  hc.imp h.closed.trans h.destroyed.trans

theorem Quiet.stopped (h : Quiet c c') (hc : Stopped c) : Stopped c' :=
  hc.imp h.closed h.destroyed.trans

theorem onSocketData_closed (h : c.closed = true) (chunk : Bytes) :
    onSocketData env chunk c = (.ok (), c) := by
  unfold onSocketData
  apply (bind_of_ok (get_run c)).trans
  simp only [h, Bool.true_eq_false, when, if_false]
  rfl

section

variable (h : Stopped c)
include h

theorem readingOf_stopped (chunk : Bytes) : readingOf env c chunk = [] := by
  unfold readingOf
  rcases h with h | h
  · rw [h, Bool.or_true, if_pos rfl]
  · rw [h, Bool.true_or, if_pos rfl]

theorem data_stopped (chunk : Bytes) : respond env c (.data chunk) = c := by
  simp only [respond]
  split
  · rfl
  · next halive =>
    have hclosed : c.closed = true := h.resolve_right halive
    rw [onSocketData_closed hclosed]

/-- Nothing opens a connection again. -/
theorem respond_stopped (input : Input) : Stopped (respond env c input) := by
  cases input with
  | data chunk => rwa [data_stopped h]
  | tick draw pad => exact (tick_end c draw pad).stopped h
  | ping => exact (outgoing_sameEnd.keeps_sendPing.outcome c).stopped h
  | pingTimeout => exact ((quiet_disconnect _).outcome c).stopped h
  | send code data => exact ((outgoing_sameEnd.keeps_sendMessage code data).outcome c).stopped h
  | disconnect reason => exact ((quiet_disconnect reason).outcome c).stopped h
  | close =>
    refine .inl (outcome_of_wp (fun c' : Connection => c'.closed = true) ?_)
    simp only [Connection.close, wp_bind, wp_get]
    apply wp_when
    · exact fun _ => rfl
    · exact fun hnot => Bool.eq_true_of_not_eq_false hnot
  | destroy => exact .inr rfl
  | socketClose => exact (quiet_onSocketClose.outcome c).stopped h

theorem run_stopped (inputs : List Input) : Stopped (run env c inputs) := by
  induction inputs generalizing c with
  | nil => exact h
  | cons input inputs ih => exact ih (respond_stopped h input)

/-- A connection that is stopped hands nothing over. -/
theorem trace_stopped (inputs : List Input) : ∀ m ∈ trace env c inputs, m.delivers = false := by
  induction inputs generalizing c with
  | nil => exact forall_mem_nil _
  | cons input inputs ih =>
    refine forall_mem_append.mpr ⟨?_, ih (respond_stopped h input)⟩
    cases input with
    | data chunk =>
      simp only [marks, readingOf_stopped h]
      exact forall_mem_nil _
    | pingTimeout => exact forall_mem_singleton.mpr rfl
    | disconnect reason => exact forall_mem_singleton.mpr rfl
    | tick => exact forall_mem_nil _
    | ping => exact forall_mem_nil _
    | send => exact forall_mem_nil _
    | close => exact forall_mem_nil _
    | destroy => exact forall_mem_nil _
    | socketClose => exact forall_mem_nil _

end

/-- What is so of the steps and calls that have led to a connection. -/
structure Answered (inputs : List Input) (ms : List Mark) (c : Connection) : Prop where
  quiet : ms.Pairwise fun m m' => m.stops = true → m'.delivers = false
  stopped : ∀ m ∈ ms, m.stops = true → Stopped c
  ended : c.closed = true → Ended inputs c

variable {before : List Input}

theorem Ended.more (h : Ended before c) (hsame : SameEnd c c') (input : Input) :
    Ended (before ++ [input]) c' := by
  unfold Ended at h ⊢
  rw [hsame.disconnectWe, hsame.destroyed]
  exact h.imp_right fun hgone => hgone.imp_right fun hmem => mem_append_left _ hmem

/-- An input that does not stop the connection. -/
theorem answered_same (hended : c.closed = true → Ended before c) (hsame : SameEnd c c')
    (input : Input) : Answered (before ++ [input]) [] c' where
  quiet := .nil
  stopped _ hmem := absurd hmem not_mem_nil
  ended hclosed := (hended (hsame.closed.symm.trans hclosed)).more hsame input

theorem answered_data (hsound : Sound c) (hkeyed : Keyed c)
    (hended : c.closed = true → Ended before c) (chunk : Bytes)
    (horderly : OrderlyInput env c (.data chunk)) :
    Answered (before ++ [.data chunk]) (marks env c (.data chunk)) (respond env c (.data chunk)) := by
  rcases hclosed : c.closed || c.destroyed with _ | _
  · obtain ⟨hopen, halive⟩ := Bool.or_eq_false_iff.mp hclosed
    have hreading : readingOf env c chunk =
        visited env (2 * (c.socketData.length + chunk.length) + 4) (c.received chunk) := by
      unfold readingOf
      rw [halive, hopen]
      rfl
    have hsteady : Steady (c.received chunk) :=
      ⟨((quiet_receive chunk).outcome c).sound hsound, ⟨hkeyed.paired, hkeyed.body⟩, halive⟩
    have hdrained := @drain_open env (2 * (c.socketData.length + chunk.length) + 4) _ hsteady hopen
      (hreading ▸ horderly)
    have hreceived : onSocketData env chunk c = orDisconnect env
        ((reader env).drain (2 * (c.socketData.length + chunk.length) + 4)) (c.received chunk) := by
      unfold onSocketData
      apply (bind_of_ok (get_run c)).trans
      simp only [hopen, when, if_true]
      rfl
    have hmarks : marks env c (.data chunk) = (readingOf env c chunk).map (mark env) := rfl
    simp only [respond, halive, Bool.false_eq_true, if_false, hreceived, hmarks, hreading]
    rcases hdrained with ⟨hgoes, hwp⟩ | ⟨hquiet, hwp⟩
    · have hopen' := outcome_of_wp (fun c' : Connection => c'.closed = false) (@orDisconnect_wp env _ _ _ _ hwp)
      refine ⟨pairwise_of_forall_mem_list fun m hmem _ _ hstops => ?_, fun m hmem hstops => ?_, fun hclosed' => ?_⟩
      · exact absurd ((hgoes m hmem).symm.trans hstops) Bool.false_ne_true
      · exact absurd ((hgoes m hmem).symm.trans hstops) Bool.false_ne_true
      · exact absurd (hopen'.symm.trans hclosed') Bool.false_ne_true
    · have hclosing := outcome_of_wp (fun c' : Connection => Closing c') (@orDisconnect_closing env _ _ _ hwp)
      exact ⟨hquiet, fun _ _ _ => .inl hclosing.closed, fun _ => .inl hclosing.ended⟩
  · have hstopped : Stopped c := (Bool.or_eq_true _ _).mp hclosed
    have hmarks : marks env c (.data chunk) = [] := by
      simp only [marks, readingOf_stopped hstopped, map_nil]
    rw [hmarks, data_stopped hstopped]
    exact answered_same hended (refl_of SameEnd c) _

/-- A call of `disconnect` once frames can be written, or where there is nothing to end. -/
theorem answered_disconnect (hended : c.closed = true → Ended before c) (reason : Nat)
    (horderly : c.closed = true ∨ c.destroyed = true ∨ CanWrite c.eciesSession) (input : Input) :
    Answered (before ++ [input]) [⟨true, false⟩] (Connection.disconnect env reason c).2 := by
  suffices hdone : Stopped (Connection.disconnect env reason c).2 ∧
      ((Connection.disconnect env reason c).2.closed = true →
        Ended (before ++ [input]) (Connection.disconnect env reason c).2) from
    ⟨pairwise_singleton _ _, fun _ _ _ => hdone.1, hdone.2⟩
  have hquiet := (@quiet_disconnect env reason).outcome c
  rcases horderly with hclosed | hdestroyed | hkeys
  · rw [disconnect_closed hclosed]
    exact ⟨.inl hclosed, fun _ => (hended hclosed).more (refl_of SameEnd c) input⟩
  · have hgone := hquiet.destroyed.trans hdestroyed
    exact ⟨.inr hgone, fun _ => .inr (.inl hgone)⟩
  · rcases hclosed : c.closed with _ | _
    · rcases hdestroyed : c.destroyed with _ | _
      · have hclosing := outcome_of_wp (fun c' : Connection => Closing c')
          (@disconnect_closable env c (.inr ⟨hclosed, hdestroyed, hkeys⟩) reason _)
        exact ⟨.inl hclosing.closed, fun _ => .inl hclosing.ended⟩
      · have hgone := hquiet.destroyed.trans hdestroyed
        exact ⟨.inr hgone, fun _ => .inr (.inl hgone)⟩
    · rw [disconnect_closed hclosed]
      exact ⟨.inl hclosed, fun _ => (hended hclosed).more (refl_of SameEnd c) input⟩

theorem answered (hsound : Sound c) (hkeyed : Keyed c) (hended : c.closed = true → Ended before c)
    (input : Input) (horderly : OrderlyInput env c input) :
    Answered (before ++ [input]) (marks env c input) (respond env c input) := by
  cases input with
  | data chunk => exact answered_data hsound hkeyed hended chunk horderly
  | pingTimeout => exact answered_disconnect hended _ horderly _
  | disconnect reason => exact answered_disconnect hended reason horderly _
  | tick draw pad => exact answered_same hended (tick_end c draw pad) _
  | ping => exact answered_same hended (outgoing_sameEnd.keeps_sendPing.outcome c) _
  | send code data => exact answered_same hended (outgoing_sameEnd.keeps_sendMessage code data |>.outcome c) _
  | close =>
    refine ⟨.nil, forall_mem_nil _, fun _ => ?_⟩
    refine outcome_of_wp (fun c' : Connection => Ended (before ++ [.close]) c') ?_
    simp only [Connection.close, wp_bind, wp_get]
    apply wp_when
    · exact fun _ => .inr (.inl rfl)
    · exact fun hnot => (hended (Bool.eq_true_of_not_eq_false hnot)).more (refl_of SameEnd c) _
  | destroy => exact ⟨.nil, forall_mem_nil _, fun _ => .inr (.inl rfl)⟩
  | socketClose =>
    exact ⟨.nil, forall_mem_nil _,
      fun _ => .inr (.inr (mem_append_right _ mem_cons_self))⟩

/-- What comes next goes on from there. -/
theorem run_answered {c : Connection} {before : List Input} (inputs : List Input) (hsound : Sound c)
    (hkeyed : Keyed c) (hended : c.closed = true → Ended before c) (horderly : OrderlyRun env c inputs) :
    Answered (before ++ inputs) (trace env c inputs) (run env c inputs) := by
  induction inputs generalizing c before with
  | nil =>
    rw [append_nil]
    exact ⟨.nil, forall_mem_nil _, hended⟩
  | cons input inputs ih =>
    have hfirst := answered hsound hkeyed hended input horderly.1
    have hkeyed' := ((@laws_keepsKeys env).respond c input).keyed hkeyed
    have hrest := ih (respond_sound hsound input).1 hkeyed' hfirst.ended horderly.2
    rw [append_assoc, singleton_append] at hrest
    refine ⟨pairwise_append.mpr ⟨hfirst.quiet, hrest.quiet, fun m hmem m' hmem' hstops => ?_⟩, ?_, hrest.ended⟩
    · exact trace_stopped (hfirst.stopped m hmem hstops) inputs m' hmem'
    · refine forall_mem_append.mpr ⟨fun m hmem hstops => ?_, hrest.stopped⟩
      exact run_stopped (hfirst.stopped m hmem hstops) inputs

/-- Once stopped, a connection hands nothing over, and its socket is ended. -/
theorem stopsCleanly_of_orderlyRun (hstart : Started env c) (inputs : List Input)
    (horderly : OrderlyRun env c inputs) : StopsCleanly env c inputs := by
  have hanswered := @run_answered env c [] inputs hstart.sound hstart.keyed
    (fun hclosed => absurd (hstart.isOpen.symm.trans hclosed) Bool.false_ne_true) horderly
  refine ⟨hanswered.quiet, fun m hmem hstops => ?_⟩
  rcases hanswered.stopped m hmem hstops with hclosed | hdestroyed
  · exact hanswered.ended hclosed
  · exact .inr (.inl hdestroyed)

end Connection
end Rlpx
