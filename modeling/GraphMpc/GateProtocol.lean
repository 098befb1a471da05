import GraphMpc.Evaluator
import GraphMpc.Preprocessor

namespace GraphMpc.Online

open Tabulate Permutation

section phases

variable {conf : ProtocolConfig} {f : Gate} {o : Online}

theorem updateWire_vals (o : Online) (w : ℕ) : (o.updateWire w).vals = o.vals := by
  simp only [updateWire, freeIfDone]
  split <;> rfl

theorem updateWires_vals (o : Online) (w1 w2 : ℕ) : (o.updateWires w1 w2).vals = o.vals := by
  simp only [updateWires, freeIfDone]
  split <;> split <;> rfl

theorem negateInput_of_ne (id : Party) (h : f.type ≠ .eqz) : o.negateInput id f = o := by
  rw [negateInput, if_neg fun hh => h hh.1]

def negateWires (id : Party) (f : Gate) (wires : ℕ → Vec) : ℕ → Vec :=
  if f.type = .eqz ∧ f.layer = 0 then
    Function.update wires f.in1Idx ((wires f.in1Idx).mapIdx fun i x =>
      if i < f.size then (if id = .p0 then ~~~x else -x) else x)
  else wires

theorem negateInput_wires (id : Party) (f : Gate) (o : Online) :
    (o.negateInput id f).wires = negateWires id f o.wires := by
  unfold negateInput negateWires
  split <;> rfl

theorem negateWires_of_ne (id : Party) (h : f.type ≠ .eqz) {wires : ℕ → Vec} :
    negateWires id f wires = wires := by
  rw [negateWires, if_neg fun hh => h hh.1]

theorem releaseSent_vals (f : Gate) (o : Online) : (o.releaseSent f).vals = o.vals := by
  unfold releaseSent
  split <;> first | exact updateWire_vals .. | exact updateWires_vals .. | rfl

theorem negateInput_vals (id : Party) (f : Gate) (o : Online) :
    (o.negateInput id f).vals = o.vals := by
  unfold negateInput
  split <;> rfl

theorem sendGate_eq (conf : ProtocolConfig) (id : Party) {k : Correlation} {m : Message}
    (hm : message conf id f k (o.negateInput id f).wires = some m) :
    o.sendGate conf id f k =
      some { (o.negateInput id f).releaseSent f with vals := o.vals.append m } := by
  simp only [sendGate, hm, Option.bind_eq_bind, Option.bind_some, releaseSent_vals,
    negateInput_vals]

end phases

section shuffling

variable {conf : ProtocolConfig} {σ τ : Equiv.Perm ℕ} {f : Gate}

theorem message_shuffle (id : Party) (ht : f.type = .shuffle ∨ f.type = .mergedShuffle)
    {k : Correlation} (hk : k.perm = ofPerm conf.size σ) (hσ : Keeps conf.size σ)
    {wires : ℕ → Vec} (hx : conf.size ≤ (wires f.in1Idx).length) :
    message conf id f k wires = some
      { shuffleVals := tab conf.size fun i =>
          (wires f.in1Idx).getD (σ.symm i) 0 + k.mask.getD (σ.symm i) 0 } := by
  have hs : scatterVec (ofPerm conf.size σ) conf.size (fun j => (tab conf.size fun i =>
      (wires f.in1Idx).getD i 0).getD j 0 + k.mask.getD j 0) = some (tab conf.size fun i =>
        (wires f.in1Idx).getD (σ.symm i) 0 + k.mask.getD (σ.symm i) 0) := by
    rw [scatterVec_ofPerm conf.size_le hσ]
    exact congrArg some (tab_congr fun i hi => by rw [tab_getD_lt _ _ (hσ.symm_lt hi)])
  rcases ht with ht | ht <;>
    simp only [message, ht, hk, prefixOf_eq hx, Option.bind_eq_bind, Option.bind_some, hs]

theorem output_shuffle (id : Party) (inputToVal : ℕ → Vec)
    (ht : f.type = .shuffle ∨ f.type = .mergedShuffle) {k : Correlation}
    (hk : k.perm = ofPerm conf.size σ) (hσ : Keeps conf.size σ) (t : Message)
    (wires : ℕ → Vec) :
    gateOutput conf id inputToVal f k t wires = some (tab conf.size fun i =>
      t.shuffleVals.getD (σ.symm i) 0 - k.B.getD i 0) := by
  have hs : scatterVec (ofPerm conf.size σ) conf.size (fun i => t.shuffleVals.getD i 0 -
      k.B.getD ((ofPerm conf.size σ).entry i) 0) =
        some (tab conf.size fun i => t.shuffleVals.getD (σ.symm i) 0 - k.B.getD i 0) := by
    rw [scatterVec_ofPerm conf.size_le hσ]
    refine congrArg some (tab_congr fun i hi => ?_)
    rw [ofPerm_entry conf.size_le hσ (hσ.symm_lt hi), Equiv.apply_symm_apply]
  rcases ht with ht | ht <;> simp only [gateOutput, ht, hk, hs]

theorem message_unshuffle (id : Party) (ht : f.type = .unshuffle) {k : Correlation}
    (hk : k.perm = ofPerm conf.size σ) (hσ : Keeps conf.size σ)
    {wires : ℕ → Vec} (hx : conf.size ≤ (wires f.in1Idx).length) :
    message conf id f k wires = some
      { shuffleVals := tab conf.size fun i =>
          (wires f.in1Idx).getD (σ i) 0 + k.mask.getD (σ i) 0 } := by
  have hs : gatherVec (ofPerm conf.size σ) conf.size (tab conf.size fun j => (tab conf.size
      fun i => (wires f.in1Idx).getD i 0).getD j 0 + k.mask.getD j 0) =
        some (tab conf.size fun i =>
          (wires f.in1Idx).getD (σ i) 0 + k.mask.getD (σ i) 0) := by
    rw [gatherVec_ofPerm conf.size_le hσ (tab_length ..).ge]
    refine congrArg some (tab_congr fun i hi => ?_)
    rw [tab_getD_lt _ _ (hσ.lt hi), tab_getD_lt _ _ (hσ.lt hi)]
  simp only [message, ht, hk, prefixOf_eq hx, Option.bind_eq_bind, Option.bind_some, hs]

theorem output_unshuffle (id : Party) (inputToVal : ℕ → Vec) (ht : f.type = .unshuffle)
    {k : Correlation} (hk : k.perm = ofPerm conf.size σ) (hσ : Keeps conf.size σ) {t : Message}
    (hl : conf.size ≤ t.shuffleVals.length) (wires : ℕ → Vec) :
    gateOutput conf id inputToVal f k t wires = some (tab conf.size fun i =>
      t.shuffleVals.getD (σ i) 0 - k.B.getD i 0) := by
  simp only [gateOutput, ht, hk, gatherVec_ofPerm conf.size_le hσ hl, Option.bind_eq_bind,
    Option.bind_some]
  exact congrArg some (tab_congr fun i hi => by rw [tab_getD_lt _ _ hi])

theorem correction_eq {n : ℕ} (hn : n ≤ 2 ^ 32) (hσ : Keeps n σ) (x : Vec) (g : Ring → Ring) :
    ((ofPerm n σ).apply x).map g = tab n fun i => g (x.getD (σ.symm i) 0) := by
  rw [apply_ofPerm hn hσ, tab_map]
  rfl

end shuffling

end GraphMpc.Online
