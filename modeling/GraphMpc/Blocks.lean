import GraphMpc.Algorithms

namespace GraphMpc

-- the gates that the fixed parts of a circuit append, from wire k and multiplication m on

def inputGates (k n : ℕ) : List Gate :=
  (List.range' k n).map fun w => { type := .input, gId := w, outIdx := w }

def equalsZeroGates (k m x size : ℕ) : List Gate :=
  [ { type := .eqz, gId := k, in1Idx := x, outIdx := k, size := size, layer := 0, multIdx := m,
      binary := true },
    { type := .eqz, gId := k + 1, in1Idx := k, outIdx := k + 1, size := size, layer := 1,
      multIdx := m + 1, binary := true },
    { type := .eqz, gId := k + 2, in1Idx := k + 1, outIdx := k + 2, size := size, layer := 2,
      multIdx := m + 2, binary := true },
    { type := .eqz, gId := k + 3, in1Idx := k + 2, outIdx := k + 3, size := size, layer := 3,
      multIdx := m + 3, binary := true },
    { type := .eqz, gId := k + 4, in1Idx := k + 3, outIdx := k + 4, size := size, layer := 4,
      multIdx := m + 4, binary := true } ]

def clipGates (k m x nodes : ℕ) : List Gate :=
  equalsZeroGates k m x nodes ++
    [ { type := .bit2A, gId := k + 5, in1Idx := k + 4, outIdx := k + 5, size := nodes,
        multIdx := m + 5 },
      { type := .flip, gId := k + 6, in1Idx := k + 5, outIdx := k + 6 } ]

def sortGates (k m idx perm keys : ℕ) : List Gate :=
  [ { type := .shuffle, gId := k, in1Idx := perm, outIdx := k, shuffleIdx := idx },
    { type := .shuffle, gId := k + 1, in1Idx := keys, outIdx := k + 1, shuffleIdx := idx },
    { type := .reveal, gId := k + 2, in1Idx := k, outIdx := k + 2 },
    { type := .permute, gId := k + 3, in1Idx := k + 1, in2Idx := k + 2, outIdx := k + 3 },
    { type := .compaction, gId := k + 4, in1Idx := k + 3, outIdx := k + 4, shuffleIdx := m,
      multIdx := m },
    { type := .reversePermute, gId := k + 5, in1Idx := k + 4, in2Idx := k + 2, outIdx := k + 5 },
    { type := .unshuffle, gId := k + 6, in1Idx := k + 5, outIdx := k + 6, shuffleIdx := idx } ]

def duplicateGates (k m idx size perm src dst : ℕ) : List Gate :=
  [ { type := .shuffle, gId := k, in1Idx := perm, outIdx := k, shuffleIdx := idx },
    { type := .reveal, gId := k + 1, in1Idx := k, outIdx := k + 1 },
    { type := .shuffle, gId := k + 2, in1Idx := src, outIdx := k + 2, shuffleIdx := idx },
    { type := .shuffle, gId := k + 3, in1Idx := dst, outIdx := k + 3, shuffleIdx := idx },
    { type := .permute, gId := k + 4, in1Idx := k + 2, in2Idx := k + 1, outIdx := k + 4 },
    { type := .permute, gId := k + 5, in1Idx := k + 3, in2Idx := k + 1, outIdx := k + 5 },
    { type := .deduplicationSub, gId := k + 6, in1Idx := k + 4, outIdx := k + 6 },
    { type := .deduplicationSub, gId := k + 7, in1Idx := k + 5, outIdx := k + 7 } ] ++
  equalsZeroGates (k + 8) m (k + 6) (size - 1) ++
  equalsZeroGates (k + 13) (m + 5) (k + 7) (size - 1) ++
  [ { type := .mulSIMD, gId := k + 18, in1Idx := k + 12, in2Idx := k + 17, outIdx := k + 18,
      size := size - 1, multIdx := m + 10, binary := true },
    { type := .bit2A, gId := k + 19, in1Idx := k + 18, outIdx := k + 19, size := size - 1,
      multIdx := m + 11 },
    { type := .insert, gId := k + 20, in1Idx := k + 19, outIdx := k + 20 },
    { type := .reversePermute, gId := k + 21, in1Idx := k + 20, in2Idx := k + 1,
      outIdx := k + 21 },
    { type := .unshuffle, gId := k + 22, in1Idx := k + 21, outIdx := k + 22, shuffleIdx := idx } ]

def prepareGates (k idx : ℕ) (ctx : MPContext) : List Gate :=
  [ { type := .shuffle, gId := k, in1Idx := ctx.vtxOrder, outIdx := k, shuffleIdx := idx },
    { type := .shuffle, gId := k + 1, in1Idx := ctx.srcOrder, outIdx := k + 1,
      shuffleIdx := idx + 1 },
    { type := .shuffle, gId := k + 2, in1Idx := ctx.dstOrder, outIdx := k + 2,
      shuffleIdx := idx + 2 },
    { type := .reveal, gId := k + 3, in1Idx := k, outIdx := k + 3 },
    { type := .reveal, gId := k + 4, in1Idx := k + 1, outIdx := k + 4 },
    { type := .reveal, gId := k + 5, in1Idx := k + 2, outIdx := k + 5 } ]

def loadGates (k : ℕ) (ctx : MPContext) (x : ℕ) : List Gate :=
  [ { type := .shuffle, gId := k, in1Idx := x, outIdx := k, shuffleIdx := ctx.vtxShuffleIdx },
    { type := .permute, gId := k + 1, in1Idx := k, in2Idx := ctx.clearShuffledVtxOrder,
      outIdx := k + 1 } ]

def routeGates (k : ℕ) (ctx : MPContext) (vtxSrcIdx srcDstIdx dstVtxIdx x : ℕ) : List Gate :=
  [ { type := .propagate1, gId := k, in1Idx := x, outIdx := k },
    { type := .reversePermute, gId := k + 1, in1Idx := k, in2Idx := ctx.clearShuffledVtxOrder,
      outIdx := k + 1 },
    { type := .mergedShuffle, gId := k + 2, in1Idx := k + 1, outIdx := k + 2,
      shuffleIdx := vtxSrcIdx, piIdx := ctx.vtxShuffleIdx, omegaIdx := ctx.srcShuffleIdx },
    { type := .permute, gId := k + 3, in1Idx := k + 2, in2Idx := ctx.clearShuffledSrcOrder,
      outIdx := k + 3 },
    { type := .reversePermute, gId := k + 4, in1Idx := x, in2Idx := ctx.clearShuffledVtxOrder,
      outIdx := k + 4 },
    { type := .mergedShuffle, gId := k + 5, in1Idx := k + 4, outIdx := k + 5,
      shuffleIdx := vtxSrcIdx, piIdx := ctx.vtxShuffleIdx, omegaIdx := ctx.srcShuffleIdx },
    { type := .permute, gId := k + 6, in1Idx := k + 5, in2Idx := ctx.clearShuffledSrcOrder,
      outIdx := k + 6 },
    { type := .propagate2, gId := k + 7, in1Idx := k + 3, in2Idx := k + 6, outIdx := k + 7 },
    { type := .reversePermute, gId := k + 8, in1Idx := k + 7, in2Idx := ctx.clearShuffledSrcOrder,
      outIdx := k + 8 },
    { type := .mergedShuffle, gId := k + 9, in1Idx := k + 8, outIdx := k + 9,
      shuffleIdx := srcDstIdx, piIdx := ctx.srcShuffleIdx, omegaIdx := ctx.dstShuffleIdx },
    { type := .permute, gId := k + 10, in1Idx := k + 9, in2Idx := ctx.clearShuffledDstOrder,
      outIdx := k + 10 },
    { type := .gather1, gId := k + 11, in1Idx := k + 10, outIdx := k + 11 },
    { type := .reversePermute, gId := k + 12, in1Idx := k + 11,
      in2Idx := ctx.clearShuffledDstOrder, outIdx := k + 12 },
    { type := .mergedShuffle, gId := k + 13, in1Idx := k + 12, outIdx := k + 13,
      shuffleIdx := dstVtxIdx, piIdx := ctx.dstShuffleIdx, omegaIdx := ctx.vtxShuffleIdx },
    { type := .permute, gId := k + 14, in1Idx := k + 13, in2Idx := ctx.clearShuffledVtxOrder,
      outIdx := k + 14 },
    { type := .gather2, gId := k + 15, in1Idx := k + 14, outIdx := k + 15 } ]

def outputGates (k nodes : ℕ) (inInputOrder : Bool) (ctx : MPContext) (x : ℕ) : List Gate :=
  { type := .removeEdgeData, gId := k, in1Idx := x, outIdx := k, size := nodes } ::
    if inInputOrder then
      [ { type := .reversePermute, gId := k + 1, in1Idx := k,
          in2Idx := ctx.clearShuffledVtxOrder, outIdx := k + 1 },
        { type := .unshuffle, gId := k + 2, in1Idx := k + 1, outIdx := k + 2,
          shuffleIdx := ctx.vtxShuffleIdx },
        { type := .output, gId := k + 3, in1Idx := k + 2, outIdx := k + 3 } ]
    else [ { type := .output, gId := k + 1, in1Idx := k, outIdx := k + 1 } ]

namespace Circuit

section run

variable {α β : Type}

theorem bind_run (m : Build α) (f : α → Build β) (c : Circuit) :
    (m >>= f) c = f (m c).1 (m c).2 := rfl

theorem map_run (m : Build α) (f : α → β) (c : Circuit) : (f <$> m) c = (f (m c).1, (m c).2) := rfl

theorem pure_run (a : α) (c : Circuit) : (pure a : Build α) c = (a, c) := rfl

theorem get_run (c : Circuit) : (get : Build Circuit) c = (c, c) := rfl

theorem modify_run (f : Circuit → Circuit) (c : Circuit) :
    (modify f : Build Unit) c = ((), f c) := rfl

theorem addGate_run (mk : ℕ → ℕ → Gate) (c : Circuit) : addGate mk c = (c.nWires, { c with
    nWires := c.nWires + 1, gates := c.gates ++ [mk c.gates.length c.nWires] }) := rfl

theorem countShuffle_run (c : Circuit) :
    countShuffle c = ((), { c with nShuffles := c.nShuffles + 1 }) := rfl

theorem countMult_run (c : Circuit) : countMult c = ((), { c with nMults := c.nMults + 1 }) := rfl

theorem bumpShuffleIdx_run (k : ℕ) (c : Circuit) :
    bumpShuffleIdx k c = ((), { c with shuffleIdx := c.shuffleIdx + k }) := rfl

theorem foldlM_cons_run (f : α → β → Build α) (a : α) (b : β) (l : List β) (c : Circuit) :
    (b :: l).foldlM f a c = l.foldlM f (f a b c).1 (f a b c).2 := rfl

theorem mapM_cons_run (f : β → Build α) (b : β) (l : List β) (c : Circuit) :
    (b :: l).mapM f c =
      ((f b c).1 :: (l.mapM f (f b c).2).1, (l.mapM f (f b c).2).2) := by
  rw [List.mapM_cons]
  rfl

theorem forM_cons_run (f : β → Build Unit) (b : β) (l : List β) (c : Circuit) :
    (b :: l).forM f c = l.forM f (f b c).2 := rfl

end run

section closedForms

variable {c : Circuit} (h : c.nWires = c.gates.length)

include h

omit h in
theorem inputGates_append (k a b : ℕ) :
    inputGates k (a + b) = inputGates k a ++ inputGates (k + a) b := by
  simp only [inputGates, ← List.map_append]
  rw [← List.range'_append, Nat.one_mul]

omit h in
def addInputs (n : ℕ) (c : Circuit) : Circuit :=
  { c with nWires := c.nWires + n, gates := c.gates ++ inputGates c.nWires n }

omit h in
theorem addInputs_add (a b : ℕ) (c : Circuit) :
    addInputs b (addInputs a c) = addInputs (a + b) c := by
  simp [addInputs, inputGates_append, Nat.add_assoc]

theorem addInputs_wires (n : ℕ) : (addInputs n c).nWires = (addInputs n c).gates.length := by
  simp [addInputs, inputGates, h]

theorem input_run : input c = (c.nWires, addInputs 1 c) := by
  simp [input, addGate_run, addInputs, inputGates, h]

theorem inputs_run (l : List ℕ) : (l.mapM fun _ => input) c =
    (List.range' c.nWires l.length, addInputs l.length c) := by
  induction l generalizing c with
  | nil => simp [pure_run, addInputs, inputGates]
  | cons a l ih =>
    rw [mapM_cons_run, input_run h, ih (addInputs_wires h 1), addInputs_add, List.length_cons,
      List.range'_succ, Nat.add_comm 1]
    rfl

omit h in
def inputsOf (b n : ℕ) (reverse : Bool) : Inputs where
  srcOrderBits := (2 * b + 4 + n) :: if reverse then List.range' b b else List.range' 0 b
  dstOrderBits := (2 * b + 2) :: if reverse then List.range' 0 b else List.range' b b
  src := if reverse then 2 * b + 1 else 2 * b
  dst := if reverse then 2 * b else 2 * b + 1
  isV := 2 * b + 2
  data := 2 * b + 3
  dataParallel := List.range' (2 * b + 4) n

omit h in
def setInputsGates (b n : ℕ) : List Gate :=
  inputGates 0 (2 * b + 4 + n) ++
    [ { type := .flip, gId := 2 * b + 4 + n, in1Idx := 2 * b + 2, outIdx := 2 * b + 4 + n } ]

theorem setInputs_run (hw : c.nWires = 0) (hg : c.gates = []) : setInputs c = ((), { c with
    nWires := 2 * c.bits + 4 + c.inp.dataParallel.length + 1
    gates := setInputsGates c.bits c.inp.dataParallel.length
    inp := inputsOf c.bits c.inp.dataParallel.length c.reversePassing }) := by
  have hrun : ∀ n, (input (addInputs n c)) = (n, addInputs (n + 1) c) := fun n => by
    rw [input_run (addInputs_wires h n), addInputs_add]
    simp [addInputs, hw]
  have hruns : ∀ n m, ((List.range m).mapM fun _ => input) (addInputs n c) =
      (List.range' n m, addInputs (n + m) c) := fun n m => by
    rw [inputs_run (addInputs_wires h n), addInputs_add, List.length_range]
    simp [addInputs, hw]
  have h0 : ((List.range c.bits).mapM fun _ => input) c =
      (List.range' 0 c.bits, addInputs c.bits c) := by
    rw [inputs_run h, hw, List.length_range]
  have hparams : ∀ n, (addInputs n c).inp = c.inp := fun _ => rfl
  simp only [setInputs, bind_run, get_run, h0, hruns, hrun, hparams, flipSIMD, addGate_run,
    modify_run]
  cases hr : c.reversePassing <;>
    simp [addInputs, inputsOf, setInputsGates, inputGates, hw, hg, hr, Nat.two_mul, Nat.add_assoc]

theorem equalsZero_run (x size : ℕ) : equalsZero x size c = (c.nWires + 4, { c with
    nWires := c.nWires + 5
    nMults := c.nMults + 5
    gates := c.gates ++ equalsZeroGates c.nWires c.nMults x size }) := by
  simp [equalsZero, equalsZeroLayer, bind_run, map_run, get_run, addGate_run, countMult_run,
    equalsZeroGates, h]

theorem clipSIMD_run (x : ℕ) : clipSIMD x c = ((c.nWires + 6, c.nWires + 5), { c with
    nWires := c.nWires + 7
    nMults := c.nMults + 6
    gates := c.gates ++ clipGates c.nWires c.nMults x c.nodes }) := by
  simp [clipSIMD, equalsZero_run h, bit2A, flipSIMD, bind_run, map_run, get_run, addGate_run,
    countMult_run, clipGates, equalsZeroGates, h]

theorem sortIteration_run (perm keys : ℕ) : sortIteration perm keys c = (c.nWires + 6, { c with
    nShuffles := c.nShuffles + 3
    nMults := c.nMults + 1
    nWires := c.nWires + 7
    shuffleIdx := c.shuffleIdx + 1
    gates := c.gates ++ sortGates c.nWires c.nMults c.shuffleIdx perm keys }) := by
  simp [sortIteration, shuffle, reveal, permute, compaction, reversePermute, unshuffle, bind_run,
    map_run, get_run, addGate_run, countShuffle_run, countMult_run, bumpShuffleIdx_run, sortGates, h]

theorem prepareShuffles_run : prepareShuffles c = ((), { c with
    nShuffles := c.nShuffles + 3
    nWires := c.nWires + 6
    shuffleIdx := c.shuffleIdx + 2
    gates := c.gates ++ prepareGates c.nWires c.shuffleIdx c.ctx
    ctx := { c.ctx with
      vtxShuffleIdx := c.shuffleIdx
      srcShuffleIdx := c.shuffleIdx + 1
      dstShuffleIdx := c.shuffleIdx + 2
      clearShuffledVtxOrder := c.nWires + 3
      clearShuffledSrcOrder := c.nWires + 4
      clearShuffledDstOrder := c.nWires + 5 } }) := by
  simp [prepareShuffles, shuffle, reveal, bind_run, get_run, modify_run, addGate_run,
    countShuffle_run, bumpShuffleIdx_run, prepareGates, h]

omit h in
def load (ctx : MPContext) (x : ℕ) : Build ℕ := do
  let dataShuffled ← shuffle x ctx.vtxShuffleIdx
  permute dataShuffled ctx.clearShuffledVtxOrder

theorem load_run (ctx : MPContext) (x : ℕ) : load ctx x c = (c.nWires + 1, { c with
    nShuffles := c.nShuffles + 1
    nWires := c.nWires + 2
    gates := c.gates ++ loadGates c.nWires ctx x }) := by
  simp [load, shuffle, permute, bind_run, map_run, addGate_run, countShuffle_run, loadGates, h]

omit h in
theorem messagePassing_run (alg : Algorithm) (x column : ℕ) :
    messagePassing alg x column c =
      (do
        let v ← load c.ctx x
        let idx := (← get).shuffleIdx
        let v := (← alg.initNodes column).getD v
        (List.range (← get).depth).foldlM
          (mpRound alg c.ctx (idx + 1) (idx + 2) (idx + 3) column) v) c := by
  simp only [messagePassing, load, bind_run, get_run]

omit h in
def route (ctx : MPContext) (vtxSrcIdx srcDstIdx dstVtxIdx x : ℕ) : Build ℕ := fun c =>
  (c.nWires + 15, { c with
    nShuffles := c.nShuffles + 4
    nWires := c.nWires + 16
    gates := c.gates ++ routeGates c.nWires ctx vtxSrcIdx srcDstIdx dstVtxIdx x })

omit h in
theorem mpRound_run (alg : Algorithm) (ctx : MPContext)
    (vtxSrcIdx srcDstIdx dstVtxIdx column x i : ℕ)
    (h : (alg.prepare x i column c).2.nWires = (alg.prepare x i column c).2.gates.length) :
    mpRound alg ctx vtxSrcIdx srcDstIdx dstVtxIdx column x i c =
      (do
        let m ← alg.prepare x i column
        let u ← route ctx vtxSrcIdx srcDstIdx dstVtxIdx m
        alg.apply x u i column) c := by
  simp only [mpRound, bind_run]
  generalize alg.prepare x i column c = r at h ⊢
  obtain ⟨m, c⟩ := r
  simp only at h
  simp [propagate1, reversePermute, mergedShuffle, permute, propagate2, gather1, gather2,
    bind_run, map_run, addGate_run, countShuffle_run, route, routeGates, h]

theorem outputData_run (x : ℕ) : outputData x c = ((), { c with
    nShuffles := c.nShuffles + if c.outputsInInputOrder then 1 else 0
    nWires := c.nWires + if c.outputsInInputOrder then 4 else 2
    gates := c.gates ++ outputGates c.nWires c.nodes c.outputsInInputOrder c.ctx x }) := by
  cases hc : c.outputsInInputOrder <;>
    simp [outputData, output, reversePermute, unshuffle, bind_run, map_run, get_run, addGate_run,
      countShuffle_run, outputGates, h, hc]

omit h in
-- the part of pre_mp that compares neighbours in the order perm
def flagDuplicates (size : ℕ) (inp : Inputs) (perm : ℕ) : Build ℕ := do
  let idx := (← get).shuffleIdx
  let perm ← shuffle perm idx
  let perm ← reveal perm
  let src ← shuffle inp.src idx
  let dst ← shuffle inp.dst idx
  let src ← permute src perm
  let dst ← permute dst perm
  let srcDupl ← deduplicationSub src
  let dstDupl ← deduplicationSub dst
  let srcDupl ← equalsZero srcDupl (size - 1)
  let dstDupl ← equalsZero dstDupl (size - 1)
  let duplicates ← mulSIMD srcDupl dstDupl (size - 1) true
  let duplicates ← bit2A duplicates (size - 1)
  let duplicates ← deduplicationInsert duplicates
  let duplicates ← reversePermute duplicates perm
  unshuffle duplicates idx

theorem flagDuplicates_run (size : ℕ) (inp : Inputs) (perm : ℕ) :
    flagDuplicates size inp perm c = (c.nWires + 22, { c with
      nShuffles := c.nShuffles + 4
      nMults := c.nMults + 12
      nWires := c.nWires + 23
      gates := c.gates ++
        duplicateGates c.nWires c.nMults c.shuffleIdx size perm inp.src inp.dst }) := by
  simp [flagDuplicates, shuffle, reveal, permute, deduplicationSub, mulSIMD, bit2A,
    deduplicationInsert, reversePermute, unshuffle, equalsZero_run, bind_run, map_run, get_run,
    addGate_run, countShuffle_run, countMult_run, duplicateGates, equalsZeroGates, h]

omit h in
theorem preMp_false (hd : c.deduplication = false) : preMp c = ((), c) := by
  simp only [preMp, bind_run, get_run, hd]
  rfl

omit h in
theorem preMp_true (hd : c.deduplication = true) : preMp c =
    (do
      let dstOrder ← sort c.inp.dstOrderBits (c.bits + 1)
      modify fun c => { c with ctx := { c.ctx with dstOrder := dstOrder } }
      let perm ← (List.range' 1 c.bits).foldlM
        (fun perm i => sortIteration perm (c.inp.srcOrderBits.getD i 0)) dstOrder
      let msbs ← flagDuplicates c.size c.inp perm
      modify fun c => { c with inp := { c.inp with
        srcOrderBits := c.inp.srcOrderBits ++ [msbs],
        dstOrderBits := c.inp.dstOrderBits ++ [msbs] } }
      bumpShuffleIdx 1 : Build Unit) c := by
  simp only [preMp, flagDuplicates, bind_run, get_run, hd, if_true]

end closedForms

end Circuit

end GraphMpc
