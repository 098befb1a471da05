import GraphMpc.Types

namespace GraphMpc

inductive GType where
  | input | output
  | shuffle | unshuffle | mergedShuffle | compaction | reveal
  | permute | reversePermute
  | addConst | addConstSIMD | mulConst | mulConstSIMD | setConstVecSIMD
  | add | addSIMD | sub | subSIMD | mul | mulSIMD
  | and | andSIMD | xor | xorSIMD
  | deduplicationSub | bit2A | eqz
  | gather1 | gather2 | propagate1 | propagate2
  | flip | insert | columnSumsToNodes | removeEdgeData
  deriving DecidableEq, Repr

structure Gate where
  type : GType
  gId : ℕ
  in1Idx : ℕ := 0
  in2Idx : ℕ := 0
  val : Ring := 0
  vals : Vec := []
  outIdx : ℕ
  size : ℕ := 0
  layer : ℕ := 0
  shuffleIdx : ℕ := 0
  piIdx : ℕ := 0
  omegaIdx : ℕ := 0
  multIdx : ℕ := 0
  binary : Bool := false
  dataParallel : List ℕ := []
  deriving DecidableEq, Repr

def Gate.interactive (f : Gate) : Bool :=
  match f.type with
  | .shuffle | .mergedShuffle | .unshuffle | .compaction | .mul | .eqz | .bit2A | .reveal
  | .mulSIMD => true
  | _ => false

end GraphMpc
