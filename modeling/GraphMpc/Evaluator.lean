import GraphMpc.Storage
import GraphMpc.Circuit
import GraphMpc.Graph

namespace GraphMpc

open Tabulate

structure Correlation where
  mask : Vec := []
  perm : Permutation := .null
  B : Vec := []
  a : Vec := []
  b : Vec := []
  c : Vec := []

namespace Storage

def triples (s : Storage) (f : Gate) : Correlation :=
  { a := s.triplesA f.multIdx, b := s.triplesB f.multIdx, c := s.triplesC f.multIdx }

def drawSend (s : Storage) (size : ℕ) : Vec × Storage :=
  (s.rngs.withDSend.vec size,
    { s with rngs := { s.rngs with withDSend := s.rngs.withDSend.skip size } })

def sampleSend (s : Storage) (size : ℕ) : Permutation × Storage :=
  let (perm, g) := Permutation.random size s.rngs.withDSend
  (perm, { s with rngs := { s.rngs with withDSend := g } })

def sampleRecv (s : Storage) (size : ℕ) : Permutation × Storage :=
  let (perm, g) := Permutation.random size s.rngs.withDRecv
  (perm, { s with rngs := { s.rngs with withDRecv := g } })

def sendPerm (s : Storage) (size : ℕ) (id : Party) (idx : ℕ) : Permutation × Storage :=
  if id = .p0 then
    if (s.pi0p idx).size = 0 then
      let (perm, s) := s.sampleSend size
      (perm, { s with pi0p := Function.update s.pi0p idx perm })
    else (s.pi0p idx, s)
  else
    if (s.pi1 idx).size = 0 then
      let (perm, s) := s.sampleSend size
      (perm, { s with pi1 := Function.update s.pi1 idx perm })
    else (s.pi1 idx, s)

def recvPerm (s : Storage) (size : ℕ) (id : Party) (idx : ℕ) : Permutation × Storage :=
  if id = .p0 then
    if (s.pi0 idx).size = 0 then
      let (perm, s) := s.sampleRecv size
      (perm, { s with pi0 := Function.update s.pi0 idx perm })
    else (s.pi0 idx, s)
  else
    if (s.pi1p idx).size = 0 then
      let (perm, s) := s.sampleRecv size
      (perm, { s with pi1p := Function.update s.pi1p idx perm })
    else (s.pi1p idx, s)

def sendCorrelation (size : ℕ) (id : Party) (f : Gate) (s : Storage) : Correlation × Storage :=
  match f.type with
  | .mergedShuffle | .shuffle =>
    let (r, s) := s.drawSend size
    let (perm, s) := s.sendPerm size id f.shuffleIdx
    ({ mask := r, perm := perm }, s)
  | .unshuffle =>
    let (r, s) := s.drawSend size
    ({ mask := r, perm := if id = .p0 then s.pi0 f.shuffleIdx else s.pi1p f.shuffleIdx }, s)
  | .compaction | .mul | .mulSIMD | .eqz | .bit2A => (s.triples f, s)
  | _ => ({}, s)

def constVals (size : ℕ) (f : Gate) : Vec := f.vals ++ List.replicate (size - f.vals.length) 0

def recvCorrelation (size : ℕ) (id : Party) (f : Gate) (s : Storage) :
    Option (Correlation × Storage) :=
  match f.type with
  | .mergedShuffle | .shuffle => do
    let (perm, s) := s.recvPerm size id f.shuffleIdx
    let (B, s) ← s.readPreproc id size
    return ({ perm := perm, B := B }, s)
  | .unshuffle => do
    let (B, s) ← s.readPreproc id size
    return ({ perm := if id = .p0 then s.pi0p f.shuffleIdx else s.pi1 f.shuffleIdx, B := B }, s)
  | .compaction | .mul | .mulSIMD | .eqz | .bit2A => return (s.triples f, s)
  | .setConstVecSIMD =>
    let n := (constVals size f).length
    return ({ mask := s.rngs.rng01.vec n },
      { s with rngs := { s.rngs with rng01 := s.rngs.rng01.skip n } })
  | _ => return ({}, s)

end Storage

structure Message where
  mulVals : Vec := []
  andVals : Vec := []
  shuffleVals : Vec := []
  revealVals : Vec := []

namespace Message

def append (m m' : Message) : Message where
  mulVals := m.mulVals ++ m'.mulVals
  andVals := m.andVals ++ m'.andVals
  shuffleVals := m.shuffleVals ++ m'.shuffleVals
  revealVals := m.revealVals ++ m'.revealVals

def dataSend (m : Message) : Vec := m.mulVals ++ m.andVals ++ m.shuffleVals ++ m.revealVals

def receive (own : Message) (dataRecv : Vec) : Message :=
  let m := own.mulVals.length
  let n := own.andVals.length
  let s := own.shuffleVals.length
  { mulVals := tab m fun i => own.mulVals.getD i 0 + dataRecv.getD i 0
    andVals := tab n fun i => own.andVals.getD i 0 ^^^ dataRecv.getD (m + i) 0
    shuffleVals := tab s fun i => dataRecv.getD (m + n + i) 0
    revealVals := tab own.revealVals.length fun i =>
      own.revealVals.getD i 0 + dataRecv.getD (m + n + s + i) 0 }

end Message

structure Online where
  vals : Message := {}
  mulIdx : ℕ := 0
  andIdx : ℕ := 0
  shuffleIdx : ℕ := 0
  revealIdx : ℕ := 0
  wires : ℕ → Vec := fun _ => []
  waiting : ℕ → ℤ := fun _ => 0
  output : Vec := []

-- the first n entries of a vector; none where the code would read past its end
def prefixOf (v : Vec) (n : ℕ) : Option Vec := if n ≤ v.length then some (v.take n) else none

def indices (v : Vec) (n bound : ℕ) : Option Vec := do
  let p ← prefixOf v n
  if p.all (·.toNat < bound) then some p else none

def partySign (id : Party) : Ring := if id = .p0 then 0 else 1

namespace Online

def setWire (o : Online) (w : ℕ) (v : Vec) : Online :=
  { o with wires := Function.update o.wires w v }

def countDown (o : Online) (w : ℕ) : Online :=
  { o with waiting := Function.update o.waiting w (o.waiting w - 1) }

def freeIfDone (o : Online) (w : ℕ) : Online := if o.waiting w = 0 then o.setWire w [] else o

def updateWire (o : Online) (w : ℕ) : Online := (o.countDown w).freeIfDone w

def updateWires (o : Online) (w1 w2 : ℕ) : Online :=
  (((o.countDown w1).countDown w2).freeIfDone w1).freeIfDone w2

def initWaiting (o : Online) (circ : List (List Gate)) : Online :=
  { o with waiting := fun w =>
      (circ.flatten.countP fun f => f.in1Idx = w : ℕ) +
        (circ.flatten.countP fun f => f.in2Idx = w ∧ f.in2Idx ≠ 0 : ℕ) }

def fetch (o : Online) (w n : ℕ) : Option Vec := prefixOf (o.wires w) n

end Online

def interleave (n : ℕ) (x y : ℕ → Ring) : Vec :=
  (List.range n).flatMap fun i => [x i, y i]

def scatterVec (p : Permutation) (n : ℕ) (x : ℕ → Ring) : Option Vec := do
  let q ← indices p.permVec n n
  some (scatter n 0 (fun i => (q.getD i 0).toNat) x)

def gatherVec (p : Permutation) (n : ℕ) (x : Vec) : Option Vec := do
  let q ← indices p.permVec n x.length
  some (tab n fun i => x.getD (q.getD i 0).toNat 0)

theorem prefixOf_eq {v : Vec} {n : ℕ} (h : n ≤ v.length) :
    prefixOf v n = some (tab n fun i => v.getD i 0) := by
  rw [prefixOf, if_pos h, take_eq_tab 0 h]

theorem prefixOf_isSome {v : Vec} {n : ℕ} : (prefixOf v n).isSome ↔ n ≤ v.length := by
  unfold prefixOf
  split <;> simp_all

theorem indices_ofPerm {n : ℕ} {σ : Equiv.Perm ℕ} (hσ : Keeps n σ)
    {bound : ℕ} (hb : n ≤ bound) :
    indices (Permutation.ofPerm n σ).permVec n bound = some (Permutation.ofPerm n σ).permVec := by
  have hlen : n ≤ (Permutation.ofPerm n σ).permVec.length := by simp
  have hp : prefixOf (Permutation.ofPerm n σ).permVec n =
      some (Permutation.ofPerm n σ).permVec := by
    rw [prefixOf, if_pos hlen, List.take_of_length_le (by simp)]
  have hall : (Permutation.ofPerm n σ).permVec.all (·.toNat < bound) = true := by
    simp only [List.all_eq_true, decide_eq_true_eq, Permutation.ofPerm, mem_tab]
    rintro x ⟨i, hi, rfl⟩
    rw [BitVec.toNat_ofNat]
    exact (Nat.mod_le _ _).trans_lt ((hσ.lt hi).trans_le hb)
  simp only [indices, hp, Option.bind_eq_bind, Option.bind_some, hall, if_true]

theorem scatterVec_ofPerm {n : ℕ} {σ : Equiv.Perm ℕ} (hn : n ≤ 2 ^ 32) (hσ : Keeps n σ)
    (x : ℕ → Ring) :
    scatterVec (Permutation.ofPerm n σ) n x = some (tab n fun i => x (σ.symm i)) := by
  simp only [scatterVec, indices_ofPerm hσ le_rfl, Option.bind_eq_bind, Option.bind_some]
  rw [← scatter_perm hσ 0 x]
  exact congrArg some (scatter_congr (fun i hi => Permutation.ofPerm_entry hn hσ hi)
    (fun _ _ => rfl))

theorem gatherVec_ofPerm {n : ℕ} {σ : Equiv.Perm ℕ} (hn : n ≤ 2 ^ 32) (hσ : Keeps n σ)
    {x : Vec} (hx : n ≤ x.length) :
    gatherVec (Permutation.ofPerm n σ) n x = some (tab n fun i => x.getD (σ i) 0) := by
  simp only [gatherVec, indices_ofPerm hσ hx, Option.bind_eq_bind, Option.bind_some]
  refine congrArg some (tab_congr fun i hi => ?_)
  rw [← Permutation.ofPerm_entry hn hσ hi, Permutation.entry]

def prefixSum (x : ℕ → Ring) : ℕ → Ring
  | 0 => 0
  | i + 1 => prefixSum x i + x i

-- the variable sum of the Gather2 loop before entry i
def gather2Sum (x : ℕ → Ring) : ℕ → Ring
  | 0 => 0
  | i + 1 => gather2Sum x i + (x i - gather2Sum x i)

section compaction

variable (id : Party) (size : ℕ) (x : Vec)

def compactionF0 (i : ℕ) : Ring := -x.getD i 0 + if id = .p0 then 1 else 0

def compactionS0 (i : ℕ) : Ring := prefixSum (compactionF0 id x) (i + 1)

def compactionS1 (i : ℕ) : Ring :=
  prefixSum (compactionF0 id x) size + prefixSum (fun i => x.getD i 0) (i + 1) -
    compactionS0 id x i

end compaction

def beaver (id : Party) (binary : Bool) (xa yb a b c : Ring) : Ring :=
  if binary then ((xa &&& yb) * partySign id) ^^^ (xa &&& b) ^^^ (yb &&& a) ^^^ c
  else xa * yb * partySign id - xa * b - yb * a + c

def beaverAt (id : Party) (binary : Bool) (t a b c : Vec) (i : ℕ) : Ring :=
  beaver id binary (t.getD (2 * i) 0) (t.getD (2 * i + 1) 0) (a.getD i 0) (b.getD i 0) (c.getD i 0)

def mulMessage (binary : Bool) (n : ℕ) (x y a b : Vec) : Message :=
  if binary then
    let t := interleave n (fun i => x.getD i 0 ^^^ a.getD i 0) (fun i => y.getD i 0 ^^^ b.getD i 0)
    { andVals := t }
  else
    let t := interleave n (fun i => x.getD i 0 + a.getD i 0) (fun i => y.getD i 0 + b.getD i 0)
    { mulVals := t }

def localGate (conf : ProtocolConfig) (id : Party) (f : Gate) (wires : ℕ → Vec) : Option Vec :=
  let size := conf.size
  let nodes := conf.nodes
  match f.type with
  | .permute => do
    let x ← prefixOf (wires f.in1Idx) size
    scatterVec ⟨wires f.in2Idx⟩ size fun i => x.getD i 0
  | .reversePermute => gatherVec ⟨wires f.in2Idx⟩ size (wires f.in1Idx)
  | .addConst => do
    let x ← prefixOf (wires f.in1Idx) 1
    some (tab 1 fun i => if id = .p0 then x.getD i 0 + f.val else x.getD i 0)
  | .addConstSIMD => do
    let x ← prefixOf (wires f.in1Idx) size
    some (tab size fun i => if id = .p0 ∧ i < nodes then x.getD i 0 + f.val else x.getD i 0)
  | .mulConst => do
    let x ← prefixOf (wires f.in1Idx) 1
    some (tab 1 fun i => x.getD i 0 * f.val)
  | .mulConstSIMD => do
    let x ← prefixOf (wires f.in1Idx) size
    some (tab size fun i => x.getD i 0 * f.val)
  | .add => do
    let x ← prefixOf (wires f.in1Idx) 1
    let y ← prefixOf (wires f.in2Idx) 1
    some (tab 1 fun i => x.getD i 0 + y.getD i 0)
  | .addSIMD => do
    let x ← prefixOf (wires f.in1Idx) size
    let y ← prefixOf (wires f.in2Idx) size
    some (tab size fun i => x.getD i 0 + y.getD i 0)
  | .sub => do
    let x ← prefixOf (wires f.in1Idx) 1
    let y ← prefixOf (wires f.in2Idx) 1
    some (tab 1 fun i => x.getD i 0 - y.getD i 0)
  | .subSIMD => do
    let x ← prefixOf (wires f.in1Idx) size
    let y ← prefixOf (wires f.in2Idx) size
    some (tab size fun i => x.getD i 0 - y.getD i 0)
  | .flip => do
    let x ← prefixOf (wires f.in1Idx) size
    some (tab size fun i => if id = .p0 then 1 - x.getD i 0 else -x.getD i 0)
  | .removeEdgeData => do
    let x ← prefixOf (wires f.in1Idx) f.size
    if f.size ≤ size then some (tab size fun i => if i < f.size then x.getD i 0 else 0) else none
  | .propagate1 => do
    -- nodes - 1 wraps around for nodes = 0
    let x ← prefixOf (wires f.in1Idx) size
    if 0 < nodes ∧ nodes ≤ size then
      some (tab size fun i =>
        if 0 < i ∧ i < nodes then x.getD i 0 - x.getD (i - 1) 0 else x.getD i 0)
    else none
  | .propagate2 => do
    let x ← prefixOf (wires f.in1Idx) size
    let y ← prefixOf (wires f.in2Idx) size
    some (tab size fun i => prefixSum (fun j => x.getD j 0) (i + 1) - y.getD i 0)
  | .gather1 => do
    let x ← prefixOf (wires f.in1Idx) size
    some (tab size fun i => prefixSum (fun j => x.getD j 0) (i + 1))
  | .gather2 => do
    let x ← prefixOf (wires f.in1Idx) nodes
    if nodes ≤ size then
      some (tab size fun i =>
        if i < nodes then x.getD i 0 - gather2Sum (fun j => x.getD j 0) i else 0)
    else none
  | .deduplicationSub => do
    let x ← prefixOf (wires f.in1Idx) size
    some (tab (size - 1) fun i => x.getD (i + 1) 0 - x.getD i 0)
  | .insert => some (0 :: wires f.in1Idx)
  | .columnSumsToNodes => do
    if nodes ≤ f.dataParallel.length ∧ nodes ≤ size ∧
        ∀ w ∈ f.dataParallel.take nodes, nodes ≤ (wires w).length then
      some (tab size fun i => if i < nodes then
        prefixSum (fun j => (wires (f.dataParallel.getD i 0)).getD j 0) nodes else 0)
    else none
  | _ => none

namespace Online

def message (conf : ProtocolConfig) (id : Party) (f : Gate) (k : Correlation)
    (wires : ℕ → Vec) : Option Message :=
  let size := conf.size
  match f.type with
  | .mergedShuffle | .shuffle => do
    let x ← prefixOf (wires f.in1Idx) size
    let t ← scatterVec k.perm size fun j => x.getD j 0 + k.mask.getD j 0
    some { shuffleVals := t }
  | .unshuffle => do
    let x ← prefixOf (wires f.in1Idx) size
    let t ← gatherVec k.perm size (tab size fun i => x.getD i 0 + k.mask.getD i 0)
    some { shuffleVals := t }
  | .compaction => do
    let x ← prefixOf (wires f.in1Idx) size
    let a ← prefixOf k.a size
    let b ← prefixOf k.b size
    let t := interleave size (fun i => x.getD i 0 + a.getD i 0)
      (fun i => compactionS1 id size x i + b.getD i 0)
    some { mulVals := t }
  | .mul => do
    let x ← prefixOf (wires f.in1Idx) 1
    let y ← prefixOf (wires f.in2Idx) 1
    let a ← prefixOf k.a 1
    let b ← prefixOf k.b 1
    some (mulMessage f.binary 1 x y a b)
  | .mulSIMD => do
    let x ← prefixOf (wires f.in1Idx) f.size
    let y ← prefixOf (wires f.in2Idx) f.size
    let a ← prefixOf k.a f.size
    let b ← prefixOf k.b f.size
    some (mulMessage f.binary f.size x y a b)
  | .eqz => do
    let shares ← prefixOf (wires f.in1Idx) f.size
    let a ← prefixOf k.a f.size
    let b ← prefixOf k.b f.size
    let width := 1 <<< (4 - f.layer)
    let t := interleave f.size (fun i => (shares.getD i 0 >>> width) ^^^ a.getD i 0)
      (fun i => shares.getD i 0 ^^^ b.getD i 0)
    some { andVals := t }
  | .bit2A => do
    let x ← prefixOf (wires f.in1Idx) f.size
    let a ← prefixOf k.a f.size
    let b ← prefixOf k.b f.size
    let t := interleave f.size
      (fun i => (if id = .p0 then 1 else 0) * (x.getD i 0 &&& 1) + a.getD i 0)
      (fun i => (if id = .p0 then 0 else 1) * (x.getD i 0 &&& 1) + b.getD i 0)
    some { mulVals := t }
  | .reveal => do
    let x ← prefixOf (wires f.in1Idx) size
    some { revealVals := x }
  | _ => some {}

-- x_0 == -x_1 <=> ~x_0 ^ -x_1: the first layer of EQZ writes over its input wire
def negateInput (id : Party) (f : Gate) (o : Online) : Online :=
  if f.type = .eqz ∧ f.layer = 0 then
    o.setWire f.in1Idx ((o.wires f.in1Idx).mapIdx fun i x =>
      if i < f.size then (if id = .p0 then ~~~x else -x) else x)
  else o

-- update_wire(s) calls of evaluate_send
def releaseSent (f : Gate) (o : Online) : Online :=
  match f.type with
  | .mergedShuffle | .shuffle | .unshuffle | .eqz => o.updateWire f.in1Idx
  | .mul | .mulSIMD => o.updateWires f.in1Idx f.in2Idx
  | _ => o

def sendGate (conf : ProtocolConfig) (id : Party) (f : Gate) (k : Correlation) (o : Online) :
    Option Online := do
  let o := o.negateInput id f
  let m ← message conf id f k o.wires
  let o := o.releaseSent f
  some { o with vals := o.vals.append m }

def receive (o : Online) (dataRecv : Vec) : Online := { o with vals := o.vals.receive dataRecv }

def readMul (o : Online) (n : ℕ) : Option (Message × Online) := do
  let (v, idx) ← readChunk o.vals.mulVals n o.mulIdx
  some ({ mulVals := v }, { o with mulIdx := idx })

def readAnd (o : Online) (n : ℕ) : Option (Message × Online) := do
  let (v, idx) ← readChunk o.vals.andVals n o.andIdx
  some ({ andVals := v }, { o with andIdx := idx })

def readShuffle (o : Online) (n : ℕ) : Option (Message × Online) := do
  let (v, idx) ← readChunk o.vals.shuffleVals n o.shuffleIdx
  some ({ shuffleVals := v }, { o with shuffleIdx := idx })

def readReveal (o : Online) (n : ℕ) : Option (Message × Online) := do
  let (v, idx) ← readChunk o.vals.revealVals n o.revealIdx
  some ({ revealVals := v }, { o with revealIdx := idx })

def readGate (conf : ProtocolConfig) (f : Gate) (o : Online) : Option (Message × Online) :=
  match f.type with
  | .mergedShuffle | .shuffle | .unshuffle => o.readShuffle conf.size
  | .compaction => o.readMul (2 * conf.size)
  | .mul => if f.binary then o.readAnd 2 else o.readMul 2
  | .mulSIMD => if f.binary then o.readAnd (2 * f.size) else o.readMul (2 * f.size)
  | .eqz => o.readAnd (2 * f.size)
  | .bit2A => o.readMul (2 * f.size)
  | .reveal => o.readReveal conf.size
  | _ => some ({}, o)

def gateOutput (conf : ProtocolConfig) (id : Party) (inputToVal : ℕ → Vec) (f : Gate)
    (k : Correlation) (t : Message) (wires : ℕ → Vec) : Option Vec :=
  let size := conf.size
  match f.type with
  | .input => some (inputToVal f.outIdx)
  | .mergedShuffle | .shuffle =>
    scatterVec k.perm size fun i => t.shuffleVals.getD i 0 - k.B.getD (k.perm.entry i) 0
  | .unshuffle => do
    let u ← gatherVec k.perm size t.shuffleVals
    some (tab size fun i => u.getD i 0 - k.B.getD i 0)
  | .compaction => do
    let a ← prefixOf k.a size
    let b ← prefixOf k.b size
    let c ← prefixOf k.c size
    let x ← prefixOf (wires f.in1Idx) size
    some (tab size fun i => beaverAt id false t.mulVals a b c i + compactionS0 id x i -
      (if id = .p0 then 1 else 0))
  | .mul => do
    let a ← prefixOf k.a 1
    let b ← prefixOf k.b 1
    let c ← prefixOf k.c 1
    let v := if f.binary then t.andVals else t.mulVals
    some (tab 1 (beaverAt id f.binary v a b c))
  | .mulSIMD => do
    let a ← prefixOf k.a f.size
    let b ← prefixOf k.b f.size
    let c ← prefixOf k.c f.size
    let v := if f.binary then t.andVals else t.mulVals
    if f.size ≤ size then
      some (tab size fun i => if i < f.size then beaverAt id f.binary v a b c i else 0)
    else none
  | .eqz => do
    let a ← prefixOf k.a f.size
    let b ← prefixOf k.b f.size
    let c ← prefixOf k.c f.size
    if f.size ≤ size then
      some (tab size fun i => if i < f.size then
        let z := beaverAt id true t.andVals a b c i
        if f.layer = 4 then (z <<< 31) >>> 31 else z else 0)
    else none
  | .bit2A => do
    let a ← prefixOf k.a f.size
    let b ← prefixOf k.b f.size
    let c ← prefixOf k.c f.size
    let x ← prefixOf (wires f.in1Idx) f.size
    if f.size ≤ size then
      some (tab size fun i => if i < f.size then
        (x.getD i 0 &&& 1) - 2 * beaverAt id false t.mulVals a b c i else 0)
    else none
  | .reveal => some t.revealVals
  | .setConstVecSIMD =>
    let vals := Storage.constVals size f
    some (tab vals.length fun i =>
      if id = .p0 then vals.getD i 0 - k.mask.getD i 0 else k.mask.getD i 0)
  | _ => localGate conf id f wires

-- update_wire(s) calls of evaluate_recv
def releaseReceived (f : Gate) (o : Online) : Online :=
  match f.type with
  | .permute | .reversePermute | .add | .addSIMD | .sub | .subSIMD | .propagate2 =>
    o.updateWires f.in1Idx f.in2Idx
  | .output | .compaction | .bit2A | .addConst | .addConstSIMD | .mulConst | .mulConstSIMD
  | .flip | .removeEdgeData | .propagate1 | .gather1 | .gather2 | .deduplicationSub | .insert =>
    o.updateWire f.in1Idx
  | _ => o

def recvGate (conf : ProtocolConfig) (id : Party) (inputToVal : ℕ → Vec) (f : Gate)
    (k : Correlation) (o : Online) : Option Online :=
  match f.type with
  | .output => do
    let x ← o.fetch f.in1Idx conf.size
    some ({ o with output := o.output ++ x }.releaseReceived f)
  | .and | .andSIMD | .xor | .xorSIMD => some o
  | _ => do
    let (t, o) ← o.readGate conf f
    let v ← gateOutput conf id inputToVal f k t o.wires
    some ((o.setWire f.outIdx v).releaseReceived f)

def clearVals (o : Online) : Online := { o with vals := {} }

end Online

structure Evaluator where
  online : Online
  data : Storage
  inputToVal : ℕ → Vec

namespace Evaluator

def inputs (circ : Circuit) (g : Graph) : List Vec :=
  g.srcBits ++ g.dstBits ++ [g.src, g.dst, g.isV, g.data] ++
    if circ.columns > 1 then List.replicate circ.columns g.data else []

def init (circ : Circuit) (data : Storage) (g : Graph) : Evaluator where
  online := Online.initWaiting {} circ.circ
  data := data
  inputToVal := fun w => (inputs circ g).getD w []

def evaluateSend (conf : ProtocolConfig) (id : Party) (e : Evaluator) (f : Gate) :
    Option Evaluator := do
  let (k, data) := e.data.sendCorrelation conf.size id f
  let online ← e.online.sendGate conf id f k
  return { e with online := online, data := data }

def evaluateRecv (conf : ProtocolConfig) (id : Party) (e : Evaluator) (f : Gate) :
    Option Evaluator := do
  let (k, data) ← e.data.recvCorrelation conf.size id f
  let online ← e.online.recvGate conf id e.inputToVal f k
  return { e with online := online, data := data }

end Evaluator

end GraphMpc
