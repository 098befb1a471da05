import GraphMpc.SecureRun

namespace GraphMpc

open Tabulate Permutation Circuit GraphMpc.Valuation Servers Online Servers.Action

structure PermutesIndices (n : ℕ) (v : Vec) : Prop where
  length : v.length = n
  inRange : ∀ i < n, (v.getD i 0).toNat < n
  once : ∀ j < n, ∃! i, i < n ∧ (v.getD i 0).toNat = j

structure IndexSafe (conf : ProtocolConfig) (f : Gate) (wires : ℕ → Vec) : Prop where
  permutes : PermutesIndices conf.size (wires f.in2Idx)
  inRange : ∀ i < conf.size, ((wires f.in2Idx).getD i 0).toNat < (wires f.in1Idx).length

theorem ofPerm_permutes {n : ℕ} (hn : n ≤ 2 ^ 32) {σ : Equiv.Perm ℕ} (hσ : Keeps n σ) :
    PermutesIndices n (ofPerm n σ).permVec where
  length := tab_length ..
  inRange i hi := by
    rw [← entry, ofPerm_entry hn hσ hi]
    exact hσ.lt hi
  once j hj := by
    refine ⟨σ.symm j, ⟨hσ.symm_lt hj, ?_⟩, fun i hi => ?_⟩
    · have := ofPerm_entry hn hσ (hσ.symm_lt hj)
      rw [entry] at this
      rw [this, Equiv.apply_symm_apply]
    · have := ofPerm_entry hn hσ hi.1
      rw [entry, hi.2] at this
      rw [this, Equiv.symm_apply_apply]

-- the state before the actions post, after the actions pre
structure OpensSafely (conf : ProtocolConfig) (pre post : List Action) (s : Servers) : Prop where
  opened : ∀ f front, f.type = .reveal → pre = front ++ [recv f] →
    PermutesIndices conf.size (s.e0.online.wires f.outIdx) ∧
      s.e1.online.wires f.outIdx = s.e0.online.wires f.outIdx
  indexed : ∀ f rest, f.type = .permute ∨ f.type = .reversePermute → post = recv f :: rest →
    IndexSafe conf f s.e0.online.wires ∧ IndexSafe conf f s.e1.online.wires

section running

variable {conf : ProtocolConfig} {V : Valuation conf} {he : Evaluates V}
  {S : Supply conf he.plan.perm (layersOf he.plan.gates).flatten} {inp0 inp1 : ℕ → Vec}
  {pre post : List Action} {sent recvd : List Gate} {s : Servers} {f : Gate}

theorem Running.opened {front : List Action}
    (h : Running he.plan S inp0 inp1 (front ++ [recv f]) sent recvd s)
    (hs : schedule (layersOf he.plan.gates) = front ++ recv f :: post) (ht : f.type = .reveal) :
    PermutesIndices conf.size (s.e0.online.wires f.outIdx) ∧
      s.e1.online.wires f.outIdx = s.e0.online.wires f.outIdx := by
  have hf := he.plan.mem_gates hs rfl
  have hready := he.good f hf
  simp only [Good, Ready, ht] at hready
  obtain ⟨-, hk, σ, hσ, hval⟩ := hready
  have hout : V.val f.outIdx = V.val f.in1Idx := by
    rw [V.solves f hf (by simp [ht])]
    simp only [clearGate, ht]
  have hwritten : effects.Written (front ++ [recv f]) f.outIdx :=
    ⟨recv f, by simp, by simp [effects, Action.writes, ht]⟩
  have hlive : he.plan.Live (front ++ [recv f]) f.outIdx :=
    Or.inl (unreleased he.plan.wellFormed he.plan.sourced hs)
  have hrel := he.related (h.wires _ hwritten hlive)
  rw [WiresRel, hk] at hrel
  obtain ⟨h0, h1⟩ := hrel.pub_eq
  rw [h1, h0, hout, hval]
  exact ⟨ofPerm_permutes conf.size_le hσ, rfl⟩

theorem Running.indexed (h : Running he.plan S inp0 inp1 pre sent recvd s)
    (hs : schedule (layersOf he.plan.gates) = pre ++ recv f :: post)
    (ht : f.type = .permute ∨ f.type = .reversePermute) :
    IndexSafe conf f s.e0.online.wires ∧ IndexSafe conf f s.e1.online.wires := by
  have hready := he.good f (he.plan.mem_gates hs rfl)
  have hreads : ∀ r ∈ [f.in1Idx, f.in2Idx], r ∈ (recv f).reads conf.nodes := by
    rcases ht with ht | ht <;>
      simp [Action.reads, Gate.reads, Gate.interactive, ht]
  have hr : Full conf V.val V.kd f.in1Idx ∧ V.kd f.in2Idx = .pub ∧
      ∃ σ, Keeps conf.size σ ∧ V.val f.in2Idx = (ofPerm conf.size σ).permVec := by
    rcases ht with ht | ht <;>
      simp only [Good, Ready, ht] at hready <;> exact ⟨hready.1, hready.2.2⟩
  obtain ⟨hfull, hk, σ, hσ, hval⟩ := hr
  have h1 := hfull.shares (he.related (h.operand hs rfl (hreads _ (by simp))))
  have h2 := he.related (h.operand hs rfl (hreads f.in2Idx (by simp)))
  rw [WiresRel, hk] at h2
  obtain ⟨hw0, hw1⟩ := h2.pub_eq
  obtain ⟨hl0, hl1⟩ := h1.le_length hfull.2
  have hsafe : ∀ w : ℕ → Vec, w f.in2Idx = V.val f.in2Idx → conf.size ≤ (w f.in1Idx).length →
      IndexSafe conf f w := by
    intro w hw hl
    have hp := ofPerm_permutes conf.size_le hσ
    rw [← hval, ← hw] at hp
    exact ⟨hp, fun i hi => (hp.inRange i hi).trans_le hl⟩
  exact ⟨hsafe _ hw0 hl0, hsafe _ hw1 hl1⟩

theorem InRun.opensSafely (h : InRun he.plan S inp0 inp1 pre s)
    (hs : schedule (layersOf he.plan.gates) = pre ++ post) : OpensSafely conf pre post s := by
  obtain ⟨sent, recvd, h⟩ := h
  constructor
  · rintro f front ht rfl
    rw [List.append_assoc] at hs
    exact h.opened hs ht
  · rintro f rest ht rfl
    exact h.indexed hs ht

end running

theorem openings_permute (conf : ProtocolConfig) (hz : conf.nodes ≤ conf.size)
    (h0 : 0 < conf.nodes) (alg : Shipped) (columns : ℕ) (hc : alg = .piR → conf.nodes ≤ columns)
    (inInputOrder reverse dedup : Bool) (g : Streams) {g0 g1 : Graph} {E : Listing} {x : ℕ → Ring}
    (hin : SharedList conf g0 g1 E x) : ∃ dealer s0 s1,
      let circ := (build (alg.program conf).algorithm
        (start conf columns inInputOrder reverse dedup)).2
      Preprocessor.runDealer conf circ.circ g = some dealer ∧
      Preprocessor.runParty conf circ.circ g dealer .p0 = some s0 ∧
      Preprocessor.runParty conf circ.circ g dealer .p1 = some s1 ∧
      ∀ pre post, schedule circ.circ = pre ++ post → ∃ s,
        Servers.run conf ⟨Evaluator.init circ s0 g0, Evaluator.init circ s1 g1⟩ pre = some s ∧
          OpensSafely conf pre post s := by
  obtain ⟨X, -⟩ := Program.exists_execution hz (h0.trans_le hz) (fun _ => h0)
    (alg.evaluable_of hz columns hc) rfl g hin
  refine ⟨X.dealer, X.s0, X.s1, X.dealer_run, X.party0, X.party1, fun pre post hs => ?_⟩
  obtain ⟨s, hrun, h⟩ := X.drives.along pre post hs
  exact ⟨s, hrun, h.opensSafely (X.layers ▸ hs)⟩

theorem openings_permute_pair : ∃ dealer s0 s1,
    let conf := Shipped.pairConfig
    let circ := (build (Shipped.bfs.program conf).algorithm (start conf 1 true false true)).2
    Preprocessor.runDealer conf circ.circ countingStreams = some dealer ∧
    Preprocessor.runParty conf circ.circ countingStreams dealer .p0 = some s0 ∧
    Preprocessor.runParty conf circ.circ countingStreams dealer .p1 = some s1 ∧
    ∀ pre post, schedule circ.circ = pre ++ post → ∃ s,
      Servers.run conf ⟨Evaluator.init circ s0 (Shipped.pairGraph [1, 0]),
        Evaluator.init circ s1 (Shipped.pairGraph [0, 0])⟩ pre = some s ∧
          OpensSafely conf pre post s :=
  openings_permute Shipped.pairConfig (by decide) (by decide) .bfs 1 (by simp) true false true
    countingStreams Shipped.pairGraph_shared

end GraphMpc
