-- SUMMARY: What no action of an RLPx connection takes back: the frames are never left, and what was written stays written.
import TsEthereum.P2p.Changes

/-!
# Onward

Every basic change of a connection keeps both, and so does every run.
-/

namespace Rlpx

open Program

namespace Connection

variable {env : Env}

/-- The frames are never left, and what was written stays written. -/
structure Onward (c c' : Connection) : Prop where
  late : Late c → Late c'
  written : c.written <+: c'.written

instance : IsPreorder Connection Onward where
  refl _ := ⟨id, List.prefix_refl _⟩
  trans _ _ _ h h' := ⟨fun hl => h'.late (h.late hl), h.written.trans h'.written⟩

theorem onward_of_state {c c' : Connection} (hstate : c'.state = c.state) (hwritten : c.written <+: c'.written) :
    Onward c c' :=
  ⟨fun hlate => by
    unfold Late at hlate ⊢
    rwa [hstate], hwritten⟩

theorem laws_onward : StreamLaws env Onward where
  aside h := onward_of_state h.state h.written
  session _ _ := onward_of_state rfl (List.prefix_refl _)
  buffer hstate _ hwritten := onward_of_state hstate (hwritten ▸ List.prefix_refl _)
  toHeader hstate _ hwritten := ⟨fun _ => .inl hstate, hwritten ▸ List.prefix_refl _⟩
  toBody _ hstate hwritten := ⟨fun _ => .inr hstate, hwritten ▸ List.prefix_refl _⟩

end Connection
end Rlpx
