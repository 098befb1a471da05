import GraphMpc.Gate
import Mathlib.Logic.Function.Basic

namespace GraphMpc

structure MPContext where
  vtxOrder : ℕ := 0
  srcOrder : ℕ := 0
  dstOrder : ℕ := 0
  clearShuffledVtxOrder : ℕ := 0
  clearShuffledSrcOrder : ℕ := 0
  clearShuffledDstOrder : ℕ := 0
  vtxShuffleIdx : ℕ := 0
  srcShuffleIdx : ℕ := 0
  dstShuffleIdx : ℕ := 0

structure Inputs where
  srcOrderBits : List ℕ := []
  dstOrderBits : List ℕ := []
  src : ℕ := 0
  dst : ℕ := 0
  isV : ℕ := 0
  data : ℕ := 0
  dataParallel : List ℕ := []

structure Circuit where
  size : ℕ
  nodes : ℕ
  bits : ℕ
  depth : ℕ
  nShuffles : ℕ := 0
  nMults : ℕ := 0
  nWires : ℕ := 0
  shuffleIdx : ℕ := 0
  columns : ℕ := 1
  circ : List (List Gate) := []
  gates : List Gate := []
  ctx : MPContext := {}
  inp : Inputs := {}
  outputsInInputOrder : Bool := false
  canEnableOutputsInInputOrder : Bool := true
  reversePassing : Bool := false
  canEnableReversePassing : Bool := true
  deduplication : Bool := false
  canEnableDeduplication : Bool := true

abbrev Build := StateM Circuit

namespace Circuit

def init (conf : ProtocolConfig) (columns : ℕ) : Circuit where
  size := conf.size
  nodes := conf.nodes
  bits := conf.bits
  depth := conf.depth
  columns := columns
  inp := { dataParallel := if columns > 1 then List.replicate columns 0 else [] }

def provideOutputsInInputOrder (c : Circuit) : Except String Circuit :=
  if c.canEnableOutputsInInputOrder then
    .ok { c with outputsInInputOrder := true }
  else
    .error "outputs_in_input_order must be activated before building the circuit!"

def useReverseMessagePassing (c : Circuit) : Except String Circuit :=
  if c.canEnableReversePassing then
    .ok { c with reversePassing := true }
  else
    .error "reverse_message_passing must be activated before building the circuit!"

def useEdgeDeduplication (c : Circuit) : Except String Circuit :=
  if c.canEnableDeduplication then
    .ok { c with deduplication := true }
  else
    .error "edge_deduplication must be activated before building the circuit!"

def push (mk : ℕ → ℕ → Gate) (c : Circuit) : Circuit :=
  { c with nWires := c.nWires + 1, gates := c.gates ++ [mk c.gates.length c.nWires] }

def addGate (mk : ℕ → ℕ → Gate) : Build ℕ := fun c => (c.nWires, c.push mk)

def countShuffle : Build Unit := modify fun c => { c with nShuffles := c.nShuffles + 1 }

def countMult : Build Unit := modify fun c => { c with nMults := c.nMults + 1 }

def bumpShuffleIdx (k : ℕ) : Build Unit := modify fun c => { c with shuffleIdx := c.shuffleIdx + k }

def input : Build ℕ :=
  addGate fun g out => { type := .input, gId := g, outIdx := out }

def output (x : ℕ) : Build Unit := do
  let _ ← addGate fun g out => { type := .output, gId := g, in1Idx := x, outIdx := out }

def propagate1 (x : ℕ) : Build ℕ :=
  addGate fun g out => { type := .propagate1, gId := g, in1Idx := x, outIdx := out }

def propagate2 (x y : ℕ) : Build ℕ :=
  addGate fun g out => { type := .propagate2, gId := g, in1Idx := x, in2Idx := y, outIdx := out }

def gather1 (x : ℕ) : Build ℕ :=
  addGate fun g out => { type := .gather1, gId := g, in1Idx := x, outIdx := out }

def gather2 (x : ℕ) : Build ℕ :=
  addGate fun g out => { type := .gather2, gId := g, in1Idx := x, outIdx := out }

def shuffle (x idx : ℕ) : Build ℕ := do
  let out ← addGate fun g out =>
    { type := .shuffle, gId := g, in1Idx := x, outIdx := out, shuffleIdx := idx }
  countShuffle
  return out

def unshuffle (x idx : ℕ) : Build ℕ := do
  let out ← addGate fun g out =>
    { type := .unshuffle, gId := g, in1Idx := x, outIdx := out, shuffleIdx := idx }
  countShuffle
  return out

def mergedShuffle (x idx piIdx omegaIdx : ℕ) : Build ℕ := do
  let out ← addGate fun g out =>
    { type := .mergedShuffle, gId := g, in1Idx := x, outIdx := out, shuffleIdx := idx,
      piIdx := piIdx, omegaIdx := omegaIdx }
  countShuffle
  return out

def compaction (x : ℕ) : Build ℕ := do
  let m := (← get).nMults
  let out ← addGate fun g out =>
    { type := .compaction, gId := g, in1Idx := x, outIdx := out, shuffleIdx := m, multIdx := m }
  countMult
  return out

def reveal (x : ℕ) : Build ℕ :=
  addGate fun g out => { type := .reveal, gId := g, in1Idx := x, outIdx := out }

def permute (x perm : ℕ) : Build ℕ :=
  addGate fun g out => { type := .permute, gId := g, in1Idx := x, in2Idx := perm, outIdx := out }

def reversePermute (x perm : ℕ) : Build ℕ :=
  addGate fun g out =>
    { type := .reversePermute, gId := g, in1Idx := x, in2Idx := perm, outIdx := out }

def equalsZeroLayer (x size layer : ℕ) : Build ℕ := do
  let m := (← get).nMults
  let out ← addGate fun g out =>
    { type := .eqz, gId := g, in1Idx := x, outIdx := out, size := size, layer := layer,
      multIdx := m, binary := true }
  countMult
  return out

def equalsZero (x size : ℕ) : Build ℕ := do
  let x ← equalsZeroLayer x size 0
  let x ← equalsZeroLayer x size 1
  let x ← equalsZeroLayer x size 2
  let x ← equalsZeroLayer x size 3
  equalsZeroLayer x size 4

def bit2A (x size : ℕ) : Build ℕ := do
  let m := (← get).nMults
  let out ← addGate fun g out =>
    { type := .bit2A, gId := g, in1Idx := x, outIdx := out, size := size, multIdx := m }
  countMult
  return out

def deduplicationSub (x : ℕ) : Build ℕ :=
  addGate fun g out => { type := .deduplicationSub, gId := g, in1Idx := x, outIdx := out }

def deduplicationInsert (x : ℕ) : Build ℕ :=
  addGate fun g out => { type := .insert, gId := g, in1Idx := x, outIdx := out }

def mulSIMD (x y size : ℕ) (binary : Bool) : Build ℕ := do
  let m := (← get).nMults
  let out ← addGate fun g out =>
    { type := .mulSIMD, gId := g, in1Idx := x, in2Idx := y, outIdx := out, size := size,
      multIdx := m, binary := binary }
  countMult
  return out

def mulConstSIMD (x : ℕ) (val : Ring) : Build ℕ :=
  addGate fun g out =>
    { type := .mulConstSIMD, gId := g, in1Idx := x, val := val, outIdx := out }

def addSIMD (x y : ℕ) : Build ℕ :=
  addGate fun g out => { type := .addSIMD, gId := g, in1Idx := x, in2Idx := y, outIdx := out }

def subSIMD (x y : ℕ) : Build ℕ :=
  addGate fun g out => { type := .subSIMD, gId := g, in1Idx := x, in2Idx := y, outIdx := out }

def addConstSIMD (x : ℕ) (val : Ring) : Build ℕ :=
  addGate fun g out =>
    { type := .addConstSIMD, gId := g, in1Idx := x, val := val, outIdx := out }

def flipSIMD (x : ℕ) : Build ℕ :=
  addGate fun g out => { type := .flip, gId := g, in1Idx := x, outIdx := out }

-- clip_SIMD assigns its reference argument: the second component is the caller's variable afterwards
def clipSIMD (x : ℕ) : Build (ℕ × ℕ) := do
  let nodes := (← get).nodes
  let x ← equalsZero x nodes
  let x ← bit2A x nodes
  let out ← flipSIMD x
  return (out, x)

def setConstVecSIMD (vals : Vec) : Build ℕ :=
  addGate fun g out => { type := .setConstVecSIMD, gId := g, vals := vals, outIdx := out }

def columnSumsToNodes (parallelData : List ℕ) : Build ℕ :=
  addGate fun g out =>
    { type := .columnSumsToNodes, gId := g,
      in1Idx := parallelData.getD (parallelData.length - 1) 0, outIdx := out,
      dataParallel := parallelData }

def multiply (x y : ℕ) : Build ℕ := do
  mulSIMD x y (← get).nodes false

def sortIteration (perm keys : ℕ) : Build ℕ := do
  let idx := (← get).shuffleIdx
  let permShuffled ← shuffle perm idx
  let keysShuffled ← shuffle keys idx
  let clearPermShuffled ← reveal permShuffled
  let keysSorted ← permute keysShuffled clearPermShuffled
  let permNext ← compaction keysSorted
  let permNext ← reversePermute permNext clearPermShuffled
  let permNext ← unshuffle permNext idx
  bumpShuffleIdx 1
  return permNext

def sort (bitKeys : List ℕ) (bits : ℕ) : Build ℕ := do
  let perm ← compaction (bitKeys.getD 0 0)
  (List.range' 1 (bits - 1)).foldlM (fun perm bit => sortIteration perm (bitKeys.getD bit 0)) perm

def outputData (x : ℕ) : Build Unit := do
  let nodes := (← get).nodes
  let withoutEdgeData ← addGate fun g out =>
    { type := .removeEdgeData, gId := g, in1Idx := x, outIdx := out, size := nodes }
  if (← get).outputsInInputOrder then
    let temp ← reversePermute withoutEdgeData (← get).ctx.clearShuffledVtxOrder
    let temp ← unshuffle temp (← get).ctx.vtxShuffleIdx
    output temp
  else
    output withoutEdgeData

def setInputs : Build Unit := do
  let bits := (← get).bits
  let reverse := (← get).reversePassing
  let first ← (List.range bits).mapM fun _ => input
  let second ← (List.range bits).mapM fun _ => input
  let firstId ← input
  let secondId ← input
  let isV ← input
  let data ← input
  let dataParallel ← (List.range (← get).inp.dataParallel.length).mapM fun _ => input
  let isVInv ← flipSIMD isV
  let (srcBits, dstBits) := if reverse then (second, first) else (first, second)
  let (src, dst) := if reverse then (secondId, firstId) else (firstId, secondId)
  modify fun c => { c with inp :=
    { srcOrderBits := isVInv :: srcBits, dstOrderBits := isV :: dstBits, src := src, dst := dst,
      isV := isV, data := data, dataParallel := dataParallel } }

def preMp : Build Unit := do
  if (← get).deduplication then
    let inp := (← get).inp
    let bits := (← get).bits
    let size := (← get).size
    let dstOrder ← sort inp.dstOrderBits (bits + 1)
    modify fun c => { c with ctx := { c.ctx with dstOrder := dstOrder } }
    let perm ← (List.range' 1 bits).foldlM
      (fun perm i => sortIteration perm (inp.srcOrderBits.getD i 0)) dstOrder
    let idx := (← get).shuffleIdx
    let perm ← shuffle perm idx
    let perm ← reveal perm
    let src ← shuffle inp.src idx
    let dst ← shuffle inp.dst idx
    let src ← permute src perm
    let dst ← permute dst perm
    let srcDupl ← deduplicationSub src
    let dstDupl ← deduplicationSub dst
    let srcDupl ← equalsZero srcDupl (size - 1)
    let dstDupl ← equalsZero dstDupl (size - 1)
    let duplicates ← mulSIMD srcDupl dstDupl (size - 1) true
    let duplicates ← bit2A duplicates (size - 1)
    let duplicates ← deduplicationInsert duplicates
    let duplicates ← reversePermute duplicates perm
    let msbs ← unshuffle duplicates idx
    modify fun c => { c with inp := { c.inp with
      srcOrderBits := c.inp.srcOrderBits ++ [msbs],
      dstOrderBits := c.inp.dstOrderBits ++ [msbs] } }
    bumpShuffleIdx 1

def computeSorts : Build Unit := do
  let inp := (← get).inp
  let bits := (← get).bits
  if (← get).deduplication then
    let srcOrder ← sort inp.srcOrderBits (bits + 2)
    let dstOrder ← sortIteration (← get).ctx.dstOrder
      (inp.dstOrderBits.getD (inp.dstOrderBits.length - 1) 0)
    let isVInv ← flipSIMD inp.isV
    let vtxOrder ← sortIteration srcOrder isVInv
    modify fun c => { c with ctx := { c.ctx with
      srcOrder := srcOrder, dstOrder := dstOrder, vtxOrder := vtxOrder } }
  else
    let srcOrder ← sort inp.srcOrderBits (bits + 1)
    let dstOrder ← sort inp.dstOrderBits (bits + 1)
    let isVInv ← flipSIMD inp.isV
    let vtxOrder ← sortIteration srcOrder isVInv
    modify fun c => { c with ctx := { c.ctx with
      srcOrder := srcOrder, dstOrder := dstOrder, vtxOrder := vtxOrder } }

def prepareShuffles : Build Unit := do
  let vtxShuffleIdx := (← get).shuffleIdx
  bumpShuffleIdx 1
  let srcShuffleIdx := (← get).shuffleIdx
  bumpShuffleIdx 1
  let dstShuffleIdx := (← get).shuffleIdx
  let ctx := (← get).ctx
  let vtxOrderShuffled ← shuffle ctx.vtxOrder vtxShuffleIdx
  let srcOrderShuffled ← shuffle ctx.srcOrder srcShuffleIdx
  let dstOrderShuffled ← shuffle ctx.dstOrder dstShuffleIdx
  let vtx ← reveal vtxOrderShuffled
  let src ← reveal srcOrderShuffled
  let dst ← reveal dstOrderShuffled
  modify fun c => { c with ctx := { c.ctx with
    vtxShuffleIdx := vtxShuffleIdx, srcShuffleIdx := srcShuffleIdx,
    dstShuffleIdx := dstShuffleIdx, clearShuffledVtxOrder := vtx,
    clearShuffledSrcOrder := src, clearShuffledDstOrder := dst } }

end Circuit

structure Algorithm where
  columns : ℕ
  initNodes : ℕ → Build (Option ℕ)
  prepare : ℕ → ℕ → ℕ → Build ℕ
  apply : ℕ → ℕ → ℕ → ℕ → Build ℕ
  postMp : ℕ → ℕ → Build ℕ
  -- the vector of states is passed by reference: the second component is its value afterwards
  postMpAggregate : List ℕ → Build (Option ℕ × List ℕ)

namespace Circuit

def mpRound (alg : Algorithm) (ctx : MPContext) (vtxSrcIdx srcDstIdx dstVtxIdx column : ℕ)
    (dataVtx i : ℕ) : Build ℕ := do
  let dataOld := dataVtx
  let dataVtx ← alg.prepare dataVtx i column
  let dataVtxPropagate ← propagate1 dataVtx
  let dataShuffled ← reversePermute dataVtxPropagate ctx.clearShuffledVtxOrder
  let dataShuffled ← mergedShuffle dataShuffled vtxSrcIdx ctx.vtxShuffleIdx ctx.srcShuffleIdx
  let dataSrc ← permute dataShuffled ctx.clearShuffledSrcOrder
  let dataCorrShuffled ← reversePermute dataVtx ctx.clearShuffledVtxOrder
  let dataCorrShuffled ←
    mergedShuffle dataCorrShuffled vtxSrcIdx ctx.vtxShuffleIdx ctx.srcShuffleIdx
  let dataCorr ← permute dataCorrShuffled ctx.clearShuffledSrcOrder
  let dataSrc ← propagate2 dataSrc dataCorr
  let dataShuffled ← reversePermute dataSrc ctx.clearShuffledSrcOrder
  let dataShuffled ← mergedShuffle dataShuffled srcDstIdx ctx.srcShuffleIdx ctx.dstShuffleIdx
  let dataDst ← permute dataShuffled ctx.clearShuffledDstOrder
  let dataDst ← gather1 dataDst
  let dataShuffled ← reversePermute dataDst ctx.clearShuffledDstOrder
  let dataShuffled ← mergedShuffle dataShuffled dstVtxIdx ctx.dstShuffleIdx ctx.vtxShuffleIdx
  let dataVtx ← permute dataShuffled ctx.clearShuffledVtxOrder
  let dataVtx ← gather2 dataVtx
  alg.apply dataOld dataVtx i column

def messagePassing (alg : Algorithm) (data column : ℕ) : Build ℕ := do
  let ctx := (← get).ctx
  let dataShuffled ← shuffle data ctx.vtxShuffleIdx
  let dataVtx ← permute dataShuffled ctx.clearShuffledVtxOrder
  let shuffleIdx := (← get).shuffleIdx
  let dataVtx := (← alg.initNodes column).getD dataVtx
  (List.range (← get).depth).foldlM
    (mpRound alg ctx (shuffleIdx + 1) (shuffleIdx + 2) (shuffleIdx + 3) column) dataVtx

def lockSettings : Build Unit := modify fun c => { c with
  canEnableOutputsInInputOrder := false
  canEnableReversePassing := false
  canEnableDeduplication := false }

def construct (alg : Algorithm) : Build Unit := do
  lockSettings
  setInputs
  preMp
  computeSorts
  prepareShuffles
  let columns := (← get).columns
  if columns > 1 then
    let inp := (← get).inp
    let states ← (List.range columns).mapM fun i =>
      messagePassing alg (inp.dataParallel.getD i 0) i
    bumpShuffleIdx 3
    let states ← (List.range columns).mapM fun i => alg.postMp (states.getD i 0) i
    let (maybeAggregation, states) ← alg.postMpAggregate states
    match maybeAggregation with
    | some w => outputData w
    | none => (List.range columns).forM fun i => outputData (states.getD i 0)
  else
    let dataOut ← messagePassing alg (← get).inp.data 0
    bumpShuffleIdx 3
    let dataOut ← alg.postMp dataOut 0
    outputData dataOut

structure Levels where
  wireLevel : ℕ → ℕ
  functionLevel : ℕ → ℕ
  depth : ℕ

def levelStep (s : Levels) (f : Gate) : Levels :=
  if f.type = .output then s
  else
    let maxDepth := max (s.wireLevel f.in1Idx) (s.wireLevel f.in2Idx)
    let maxDepth := if f.interactive then maxDepth + 1 else maxDepth
    { wireLevel := Function.update s.wireLevel f.outIdx maxDepth
      functionLevel := Function.update s.functionLevel f.gId maxDepth
      depth := max s.depth maxDepth }

def levels (gates : List Gate) : Levels :=
  gates.foldl levelStep ⟨fun _ => 0, fun _ => 0, 0⟩

def Levels.layer (s : Levels) (f : Gate) : ℕ :=
  if f.type = .output then s.depth else s.functionLevel f.gId

def layersOf (gates : List Gate) : List (List Gate) :=
  let s := levels gates
  (List.range (s.depth + 1)).map fun l => gates.filter fun f => s.layer f = l

def levelOrder : Build Unit := modify fun c => { c with circ := layersOf c.gates, gates := [] }

def build (alg : Algorithm) : Build Unit := do
  construct alg
  levelOrder

end Circuit

end GraphMpc
