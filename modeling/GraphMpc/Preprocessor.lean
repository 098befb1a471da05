import GraphMpc.Storage
import GraphMpc.Circuit

namespace GraphMpc

open Tabulate

structure Preprocessor where
  data : Storage
  recv : Party

-- one ring element r re-randomises every entry of a correction vector
def correctionB0 (pi : Permutation) (r1 : Vec) (r : Ring) : Vec := (pi.apply r1).map (· - r)

def correctionB1 (pi : Permutation) (r0 : Vec) (r : Ring) : Vec := (pi.apply r0).map (· + r)

namespace Storage

def dealMasks (s : Storage) (size : ℕ) : Vec × Vec × Storage :=
  (s.rngs.withP0Send.vec size, s.rngs.withP1Send.vec size,
    { s with rngs := { s.rngs with
      withP0Send := s.rngs.withP0Send.skip size
      withP1Send := s.rngs.withP1Send.skip size } })

def dealPerms (s : Storage) (size : ℕ) (recv : Party) (idx : ℕ) : Storage :=
  if recv = .p1 then
    let (pi0p, p0Send) := Permutation.random size s.rngs.withP0Send
    let (pi0, p0Recv) := Permutation.random size s.rngs.withP0Recv
    let (pi1, p1Send) := Permutation.random size s.rngs.withP1Send
    let pi1p := (pi0.mul pi1).mul pi0p.inverse
    let s := s.storeVec .p1 pi1p.permVec
    { s with
      pi0 := Function.update s.pi0 idx pi0
      pi1 := Function.update s.pi1 idx pi1
      rngs := { s.rngs with withP0Send := p0Send, withP0Recv := p0Recv, withP1Send := p1Send } }
  else
    let (pi1, p1Send) := Permutation.random size s.rngs.withP1Send
    let (pi1p, p1Recv) := Permutation.random size s.rngs.withP1Recv
    let (pi0, p0Recv) := Permutation.random size s.rngs.withP0Recv
    let pi0p := (pi1p.inverse.mul pi0).mul pi1
    let s := s.storeVec .p0 pi0p.permVec
    { s with
      pi0 := Function.update s.pi0 idx pi0
      pi1 := Function.update s.pi1 idx pi1
      rngs := { s.rngs with withP1Send := p1Send, withP1Recv := p1Recv, withP0Recv := p0Recv } }

def dealMergedPerms (s : Storage) (size idx piIdx omegaIdx : ℕ) : Storage :=
  let pi := (s.pi0 piIdx).mul (s.pi1 piIdx)
  let omega := (s.pi0 omegaIdx).mul (s.pi1 omegaIdx)
  let merged : Permutation := ⟨pi.apply omega.permVec⟩
  let (sigma0, p0Recv) := Permutation.random size s.rngs.withP0Recv
  let (sigma1p, p1Recv) := Permutation.random size s.rngs.withP1Recv
  let sigma0p := sigma1p.inverse.mul merged
  let sigma1 := sigma0.inverse.mul merged
  let s := (s.storeVec .p0 sigma0p.permVec).storeVec .p1 sigma1.permVec
  { s with
    pi0 := Function.update s.pi0 idx sigma0
    pi1 := Function.update s.pi1 idx sigma1
    rngs := { s.rngs with withP0Recv := p0Recv, withP1Recv := p1Recv } }

def dealCorrection (s : Storage) (pi : Permutation) (r0 r1 : Vec) : Storage :=
  let (r, self) := s.rngs.self.nextRing
  let s := (s.storeB .p0 (correctionB0 pi r1 r)).storeB .p1 (correctionB1 pi r0 r)
  { s with rngs := { s.rngs with self := self } }

def dealShuffle (s : Storage) (size : ℕ) (recv : Party) (f : Gate) : Storage :=
  let (r0, r1, s) := s.dealMasks size
  let s := if (s.pi0 f.shuffleIdx).size = 0 then s.dealPerms size recv f.shuffleIdx else s
  s.dealCorrection ((s.pi0 f.shuffleIdx).mul (s.pi1 f.shuffleIdx)) r0 r1

def dealMergedShuffle (s : Storage) (size : ℕ) (f : Gate) : Storage :=
  let (r0, r1, s) := s.dealMasks size
  let s := if (s.pi0 f.shuffleIdx).size = 0 then
    s.dealMergedPerms size f.shuffleIdx f.piIdx f.omegaIdx else s
  s.dealCorrection ((s.pi0 f.shuffleIdx).mul (s.pi1 f.shuffleIdx)) r0 r1

def dealUnshuffle (s : Storage) (size : ℕ) (f : Gate) : Storage :=
  let (r0, r1, s) := s.dealMasks size
  s.dealCorrection ((s.pi0 f.shuffleIdx).mul (s.pi1 f.shuffleIdx)).inverse r0 r1

end Storage

def randomShareVec3P (id : Party) (g : RandomGenerators) (n : ℕ) (binary : Bool) :
    Vec × RandomGenerators :=
  if id = .d then
    let share1 := g.withP0Prep.vec n
    let share2 := g.withP1Prep.vec n
    (tab n fun i => if binary then share1.getD i 0 ^^^ share2.getD i 0
        else share1.getD i 0 + share2.getD i 0,
      { g with withP0Prep := g.withP0Prep.skip n, withP1Prep := g.withP1Prep.skip n })
  else
    (g.withDPrep.vec n, { g with withDPrep := g.withDPrep.skip n })

namespace Storage

def randomShareSecretVec3P (s : Storage) (id recv : Party) (secret : Vec) (binary : Bool) :
    Option (Vec × Storage) :=
  let n := secret.length
  if id = .d then
    let g := s.rngs
    let (share0, g) := if recv = .p1 then
        (g.withP0Prep.vec n, { g with withP0Prep := g.withP0Prep.skip n })
      else (g.withP1Prep.vec n, { g with withP1Prep := g.withP1Prep.skip n })
    let share1 := tab n fun i => if binary then secret.getD i 0 ^^^ share0.getD i 0
      else secret.getD i 0 - share0.getD i 0
    some (secret, { s.storeVec recv share1 with rngs := g })
  else if id = recv then
    s.readPreproc id n
  else
    some (s.rngs.withDPrep.vec n,
      { s with rngs := { s.rngs with withDPrep := s.rngs.withDPrep.skip n } })

def dealTriples (s : Storage) (id recv : Party) (n : ℕ) (f : Gate) : Option Storage := do
  let (a, g) := randomShareVec3P id s.rngs n f.binary
  let (b, g) := randomShareVec3P id g n f.binary
  let c := tab n fun i => if f.binary then a.getD i 0 &&& b.getD i 0 else a.getD i 0 * b.getD i 0
  let (cFinal, s) ← { s with rngs := g }.randomShareSecretVec3P id recv c f.binary
  return if id = .d then s else s.storeTriples a b cFinal f.multIdx

end Storage

namespace Preprocessor

def markPreprocessed (s : Storage) (idx : ℕ) : Storage :=
  { s with preprocessed := Function.update s.preprocessed idx true }

def preprocessGate (size : ℕ) (id : Party) (p : Preprocessor) (f : Gate) :
    Option Preprocessor :=
  match f.type with
  | .shuffle => do
    let data ← match id with
      | .d => some (p.data.dealShuffle size p.recv f)
      | .p0 =>
        if p.recv = .p0 ∧ p.data.preprocessed f.shuffleIdx = false then do
          let (permVec, data) ← p.data.readPreproc .p0 size
          some { data with pi0p := Function.update data.pi0p f.shuffleIdx ⟨permVec⟩ }
        else some p.data
      | .p1 =>
        if p.recv = .p1 ∧ p.data.preprocessed f.shuffleIdx = false then do
          let (permVec, data) ← p.data.readPreproc .p1 size
          some { data with pi1p := Function.update data.pi1p f.shuffleIdx ⟨permVec⟩ }
        else some p.data
    some { data := markPreprocessed data f.shuffleIdx, recv := p.recv.other }
  | .mergedShuffle => do
    let data ← match id with
      | .d => some (p.data.dealMergedShuffle size f)
      | .p0 =>
        if p.data.preprocessed f.shuffleIdx = false then do
          let (sigma0pVec, data) ← p.data.readPreproc .p0 size
          some { data with pi0p := Function.update data.pi0p f.shuffleIdx ⟨sigma0pVec⟩ }
        else some p.data
      | .p1 =>
        if p.data.preprocessed f.shuffleIdx = false then do
          let (sigma1Vec, data) ← p.data.readPreproc .p1 size
          some { data with pi1 := Function.update data.pi1 f.shuffleIdx ⟨sigma1Vec⟩ }
        else some p.data
    some { p with data := markPreprocessed data f.shuffleIdx }
  | .unshuffle =>
    some { p with data := if id = .d then p.data.dealUnshuffle size f else p.data }
  | .compaction => do
    let data ← p.data.dealTriples id p.recv size f
    some { data := data, recv := p.recv.other }
  | .mulSIMD | .eqz | .bit2A => do
    let data ← p.data.dealTriples id p.recv f.size f
    some { data := data, recv := p.recv.other }
  | _ => some p

def preprocess (size : ℕ) (id : Party) (p : Preprocessor) (circ : List (List Gate)) :
    Option Preprocessor :=
  circ.flatten.foldlM (preprocessGate size id) p

end Preprocessor

end GraphMpc
