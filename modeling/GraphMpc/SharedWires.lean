import GraphMpc.SecureRun

namespace GraphMpc

open Tabulate Circuit Preprocessor GraphMpc.Valuation Servers Servers.Action

-- between the actions pre and post a wire is in use: the last action computed it, or it is computed
-- and still to be read
def InUse (nodes : ℕ) (pre post : List Action) (w : ℕ) : Prop :=
  (∃ front a, pre = front ++ [a] ∧ w ∈ a.writes) ∨
    (∃ a ∈ pre, w ∈ a.writes) ∧ ∃ a ∈ post, w ∈ a.reads nodes

section plan

variable {conf : ProtocolConfig} {P : Plan conf} {pre post : List Action} {w : ℕ}

theorem Plan.inUse_live (hs : schedule (layersOf P.gates) = pre ++ post)
    (h : InUse conf.nodes pre post w) : effects.Written pre w ∧ P.Live pre w := by
  rcases h with ⟨front, a, rfl, hw⟩ | ⟨hwritten, a, ha, hr⟩
  · refine ⟨⟨a, by simp, hw⟩, Or.inl ?_⟩
    cases a with
    | recv f =>
      simp only [Action.writes] at hw
      split at hw
      · cases hw
      · rw [List.append_assoc] at hs
        rw [List.mem_singleton.mp hw]
        exact unreleased P.wellFormed P.sourced hs
    | send f => cases hw
    | exchange => cases hw
    | clear => cases hw
  · refine ⟨hwritten, ?_⟩
    obtain ⟨mid, rest, rfl⟩ := List.append_of_mem ha
    rw [← List.append_assoc] at hs
    obtain ⟨f, hf⟩ := gate_of_reads hr
    exact (P.operand hs hf hr).2.of_append

end plan

section runs

variable (conf : ProtocolConfig) (circ : Circuit) (g0 g1 : Graph) (g : Streams)

def runUntil (pre : List Action) : Option Servers := do
  let dealer ← runDealer conf circ.circ g
  let s0 ← runParty conf circ.circ g dealer .p0
  let s1 ← runParty conf circ.circ g dealer .p1
  Servers.run conf ⟨Evaluator.init circ s0 g0, Evaluator.init circ s1 g1⟩ pre

-- the run computes the wire w, and the servers hold shares of v on it as long as it is in use
structure Reconstructs (w : ℕ) (v : Vec) : Prop where
  computed : ∃ a ∈ schedule circ.circ, w ∈ a.writes
  shares : ∀ pre post, schedule circ.circ = pre ++ post → InUse conf.nodes pre post w →
    ∃ s, runUntil conf circ g0 g1 g pre = some s ∧
      Shares (s.e0.online.wires w) (s.e1.online.wires w) v

variable {conf circ g0 g1 g} {w : ℕ} {v v' : Vec}

theorem Reconstructs.unique (h : Reconstructs conf circ g0 g1 g w v)
    (h' : Reconstructs conf circ g0 g1 g w v') : v = v' := by
  obtain ⟨a, ha, hw⟩ := h.computed
  obtain ⟨front, post, hs⟩ := List.append_of_mem ha
  rw [List.append_cons] at hs
  obtain ⟨s, hrun, hv⟩ := h.shares _ _ hs (Or.inl ⟨front, a, rfl, hw⟩)
  obtain ⟨s', hrun', hv'⟩ := h'.shares _ _ hs (Or.inl ⟨front, a, rfl, hw⟩)
  obtain rfl := Option.some.inj (hrun.symm.trans hrun')
  exact (zipWith_shares hv).symm.trans (zipWith_shares hv')

theorem Execution.reconstructs (X : Execution conf circ g g0 g1) (hw : Wire X.val.gates w)
    {x : ℕ → Ring} (hx : X.val.Holds w x) :
    Reconstructs conf circ g0 g1 g w (tab conf.size x) where
  computed := by
    obtain ⟨f, hf, rfl, ho⟩ := hw
    rw [X.layers]
    exact ⟨recv f, mem_schedule_recv.mpr ((mem_layersOf X.evaluates.wellFormed).mpr hf),
      by simp [Action.writes, ho]⟩
  shares pre post hs hu := by
    obtain ⟨s, hrun, sent, recvd, h⟩ := X.drives.along pre post hs
    refine ⟨s, ?_, ?_⟩
    · simp only [runUntil, X.dealer_run, X.party0, X.party1, Option.bind_eq_bind, Option.bind_some]
      exact hrun
    · obtain ⟨hwritten, hlive⟩ := Plan.inUse_live (P := X.evaluates.plan) (X.layers ▸ hs) hu
      have hrel := X.evaluates.related (h.wires w hwritten hlive)
      rwa [WiresRel, hx.1, hx.2] at hrel

end runs

end GraphMpc
