import GraphMpc.Library.Refinement
import GraphMpc.Protocol
import GraphMpc.Sampler
import GraphMpc.Transport

namespace GraphMpc

open Tabulate Refinement

-- the members of a storage that are in memory whether or not ssd is set
structure Registers where
  pi0 : ℕ → Permutation
  pi1 : ℕ → Permutation
  pi0p : ℕ → Permutation
  pi1p : ℕ → Permutation
  preprocessed : ℕ → Bool
  rngs : RandomGenerators

def Storage.regs (s : Storage) : Registers :=
  ⟨s.pi0, s.pi1, s.pi0p, s.pi1p, s.preprocessed, s.rngs⟩

def Storage.withRegs (s : Storage) (r : Registers) : Storage :=
  { s with
    pi0 := r.pi0, pi1 := r.pi1, pi0p := r.pi0p, pi1p := r.pi1p
    preprocessed := r.preprocessed, rngs := r.rngs }

def Registers.storage (r : Registers) : Storage := (Storage.init r.rngs).withRegs r

def Registers.reset (r : Registers) : Registers :=
  ⟨fun _ => .null, fun _ => .null, fun _ => .null, fun _ => .null, fun _ => false, r.rngs⟩

inductive Role where
  | mask
  | pi0
  | pi1
  | pi0p
  | pi1p
  | tripleA
  | tripleB
  | tripleC
  deriving DecidableEq, Repr

-- the operations that depend on where the vectors are kept, and the draws from the generators that
-- the dealer shares with the servers
class Backend (S : Type) where
  regs : S → Registers
  withRegs : S → Registers → S
  createRngs : Party → RandomGenerators → Prog S Unit
  draw : Party → Party → Stream → Role → ℕ → Prog S (List (BitVec 64))
  readPreproc : Party → ℕ → Prog S Vec
  storeB : Party → Vec → Prog S Unit
  storeVec : Party → Vec → Prog S Unit
  storeTriples : Vec → Vec → Vec → ℕ → Prog S Unit
  loadTriples : ℕ → ℕ → Prog S Correlation
  takeDealt : Party → Prog S Vec
  recvVec : ℕ → Party → Vec → Prog S Unit
  reset : Party → Prog S Unit

namespace Storage

def reset (s : Storage) (id : Party) : Storage :=
  { s.withRegs s.regs.reset with
    preproc := fun p => if p ≠ .d ∧ (id = .d ∨ id = p) then [] else s.preproc p
    B := fun p => if p ≠ .d ∧ id = .d then [] else s.B p }

def sentTo (s : Storage) (dst : Party) : Storage :=
  { s with preproc := Function.update s.preproc dst [], B := Function.update s.B dst [] }

end Storage

theorem readChunk_length {v x : Vec} {n idx i : ℕ} (h : readChunk v n idx = some (x, i)) :
    x.length = n := by
  unfold readChunk at h
  split at h
  · cases h
  · rw [← (Prod.mk.inj (Option.some.inj h)).1, List.length_take, List.length_drop]
    omega

theorem Storage.readPreproc_length {s s' : Storage} {id : Party} {n : ℕ} {v : Vec}
    (h : s.readPreproc id n = some (v, s')) : v.length = n := by
  obtain ⟨⟨x, i⟩, hx, he⟩ := Option.bind_eq_some_iff.mp h
  cases he
  exact readChunk_length hx

def Storage.draw (s : Storage) (id server : Party) (stream : Stream) (n : ℕ) :
    List (BitVec 64) × Storage :=
  let (ws, rngs) := s.rngs.draw id server stream n
  (ws, { s with rngs := rngs })

theorem Storage.draw_length {s s' : Storage} {id server : Party} {stream : Stream} {n : ℕ}
    {ws : List (BitVec 64)} (h : some (s.draw id server stream n) = some (ws, s')) :
    ws.length = n := by
  have hlen : (s.rngs.draw id server stream n).1.length = n := by
    unfold RandomGenerators.draw
    split <;> exact PRG.words_length ..
  cases h
  exact hlen

-- ssd = false
instance : Backend Storage where
  regs := Storage.regs
  withRegs := Storage.withRegs
  createRngs _ g s := some ((), { s with rngs := g })
  draw id server stream _ n s := some (s.draw id server stream n)
  readPreproc id n s := s.readPreproc id n
  storeB dst v s := some ((), s.storeB dst v)
  storeVec dst v s := some ((), s.storeVec dst v)
  storeTriples a b c idx s := some ((), s.storeTriples a b c idx)
  loadTriples idx _ s := some ({ a := s.triplesA idx, b := s.triplesB idx, c := s.triplesC idx }, s)
  takeDealt dst s := some (s.preproc dst ++ s.B dst, s.sentTo dst)
  recvVec _ id v s := some ((), { s with preproc := Function.update s.preproc id v })
  reset id s := some ((), s.reset id)

namespace Backend

variable {S A : Type} [Backend S]

def onRegs (f : Storage → A × Storage) : Prog S A := fun s =>
  let (a, b) := f (regs s).storage
  some (a, withRegs s b.regs)

end Backend

open Backend

namespace Storage

def getPi0 (s : Storage) (idx : ℕ) : Permutation × Storage := (s.pi0 idx, s)

def getPi1 (s : Storage) (idx : ℕ) : Permutation × Storage := (s.pi1 idx, s)

def getPi0p (s : Storage) (idx : ℕ) : Permutation × Storage := (s.pi0p idx, s)

def getPi1p (s : Storage) (idx : ℕ) : Permutation × Storage := (s.pi1p idx, s)

def getPi (s : Storage) (idx : ℕ) : Permutation × Storage := ((s.pi0 idx).mul (s.pi1 idx), s)

def getPreprocessed (s : Storage) (idx : ℕ) : Bool × Storage := (s.preprocessed idx, s)

def setPi01 (s : Storage) (idx : ℕ) (pi0 pi1 : Permutation) : Unit × Storage :=
  ((), { s with pi0 := Function.update s.pi0 idx pi0, pi1 := Function.update s.pi1 idx pi1 })

def setPi0 (s : Storage) (idx : ℕ) (v : Vec) : Unit × Storage :=
  ((), { s with pi0 := Function.update s.pi0 idx ⟨v⟩ })

def setPi0p (s : Storage) (idx : ℕ) (v : Vec) : Unit × Storage :=
  ((), { s with pi0p := Function.update s.pi0p idx ⟨v⟩ })

def setPi1p (s : Storage) (idx : ℕ) (v : Vec) : Unit × Storage :=
  ((), { s with pi1p := Function.update s.pi1p idx ⟨v⟩ })

def setPi1 (s : Storage) (idx : ℕ) (v : Vec) : Unit × Storage :=
  ((), { s with pi1 := Function.update s.pi1 idx ⟨v⟩ })

def drawSelf (s : Storage) : Ring × Storage :=
  let (r, self) := s.rngs.self.nextRing
  (r, { s with rngs := { s.rngs with self := self } })

def getUnshuffleSend (s : Storage) (id : Party) (idx : ℕ) : Permutation × Storage :=
  (if id = .p0 then s.pi0 idx else s.pi1p idx, s)

def getUnshuffleRecv (s : Storage) (id : Party) (idx : ℕ) : Permutation × Storage :=
  (if id = .p0 then s.pi0p idx else s.pi1 idx, s)

def draw01 (s : Storage) (n : ℕ) : Vec × Storage :=
  (s.rngs.rng01.vec n, { s with rngs := { s.rngs with rng01 := s.rngs.rng01.skip n } })

end Storage

namespace Backend

section programs

variable {S : Type} [Backend S]

def drawVec (id server : Party) (stream : Stream) (role : Role) (n : ℕ) : Prog S Vec := do
  let ws ← draw id server stream role n
  return ws.map (·.setWidth 32)

-- Permutation::random
def drawPerm (id server : Party) (stream : Stream) (role : Role) (n : ℕ) : Prog S Permutation := do
  let ws ← draw id server stream role n
  return .ofWords ws

def dealMasks (size : ℕ) : Prog S (Vec × Vec) := do
  let r0 ← drawVec .d .p0 .send .mask size
  let r1 ← drawVec .d .p1 .send .mask size
  return (r0, r1)

-- Sampling 2: the permutation that recv does not draw is sent to it
def dealPerms (size : ℕ) (recv : Party) (idx : ℕ) : Prog S Unit :=
  if recv = .p1 then do
    let pi0p ← drawPerm .d .p0 .send .pi0p size
    let pi0 ← drawPerm .d .p0 .recv .pi0 size
    let pi1 ← drawPerm .d .p1 .send .pi1 size
    storeVec .p1 ((pi0.mul pi1).mul pi0p.inverse).permVec
    onRegs (·.setPi01 idx pi0 pi1)
  else do
    let pi1 ← drawPerm .d .p1 .send .pi1 size
    let pi1p ← drawPerm .d .p1 .recv .pi1p size
    let pi0 ← drawPerm .d .p0 .recv .pi0 size
    storeVec .p0 ((pi1p.inverse.mul pi0).mul pi1).permVec
    onRegs (·.setPi01 idx pi0 pi1)

-- sigma_0 and sigma_1_p are pi_0 and pi_1_p of a merged permutation
def dealMergedPerms (size idx piIdx omegaIdx : ℕ) : Prog S Unit := do
  let pi ← onRegs (·.getPi piIdx)
  let omega ← onRegs (·.getPi omegaIdx)
  let merged : Permutation := ⟨pi.apply omega.permVec⟩
  let sigma0 ← drawPerm .d .p0 .recv .pi0 size
  let sigma1p ← drawPerm .d .p1 .recv .pi1p size
  let sigma0p := sigma1p.inverse.mul merged
  let sigma1 := sigma0.inverse.mul merged
  onRegs (·.setPi01 idx sigma0 sigma1)
  storeVec .p0 sigma0p.permVec
  storeVec .p1 sigma1.permVec

def ifFresh (idx : ℕ) (deal : Prog S Unit) : Prog S Unit := do
  let pi0 ← onRegs (·.getPi0 idx)
  if pi0.size = 0 then deal else pure ()

def dealCorrection (pi : Permutation) (r0 r1 : Vec) : Prog S Unit := do
  let r ← onRegs Storage.drawSelf
  storeB .p0 (correctionB0 pi r1 r)
  storeB .p1 (correctionB1 pi r0 r)

def dealShuffle (size : ℕ) (recv : Party) (f : Gate) : Prog S Unit := do
  let masks ← dealMasks size
  ifFresh f.shuffleIdx (dealPerms size recv f.shuffleIdx)
  let pi ← onRegs (·.getPi f.shuffleIdx)
  dealCorrection pi masks.1 masks.2

def dealMergedShuffle (size : ℕ) (f : Gate) : Prog S Unit := do
  let masks ← dealMasks size
  ifFresh f.shuffleIdx (dealMergedPerms size f.shuffleIdx f.piIdx f.omegaIdx)
  let pi ← onRegs (·.getPi f.shuffleIdx)
  dealCorrection pi masks.1 masks.2

def dealUnshuffle (size : ℕ) (f : Gate) : Prog S Unit := do
  let masks ← dealMasks size
  let pi ← onRegs (·.getPi f.shuffleIdx)
  dealCorrection pi.inverse masks.1 masks.2

def randomShareVec3P (id : Party) (role : Role) (n : ℕ) (binary : Bool) : Prog S Vec :=
  if id = .d then do
    let share1 ← drawVec .d .p0 .prep role n
    let share2 ← drawVec .d .p1 .prep role n
    return tab n fun i => if binary then share1.getD i 0 ^^^ share2.getD i 0
      else share1.getD i 0 + share2.getD i 0
  else drawVec id id .prep role n

def randomShareSecretVec3P (id recv : Party) (secret : Vec) (binary : Bool) : Prog S Vec :=
  if id = .d then do
    let share0 ← drawVec .d (if recv = .p1 then .p0 else .p1) .prep .tripleC secret.length
    storeVec recv (tab secret.length fun i => if binary then secret.getD i 0 ^^^ share0.getD i 0
      else secret.getD i 0 - share0.getD i 0)
    return secret
  else if id = recv then readPreproc id secret.length
  else drawVec id id .prep .tripleC secret.length

def dealTriples (id recv : Party) (n : ℕ) (f : Gate) : Prog S Unit := do
  let a ← randomShareVec3P id .tripleA n f.binary
  let b ← randomShareVec3P id .tripleB n f.binary
  let c := tab n fun i => if f.binary then a.getD i 0 &&& b.getD i 0 else a.getD i 0 * b.getD i 0
  let cFinal ← randomShareSecretVec3P id recv c f.binary
  if id = .d then pure () else storeTriples a b cFinal f.multIdx

def markPreprocessed (idx : ℕ) : Prog S Unit :=
  onRegs fun s => ((), Preprocessor.markPreprocessed s idx)

def readPerm (size : ℕ) (id : Party) (idx : ℕ) (due : Bool)
    (set : Storage → ℕ → Vec → Unit × Storage) : Prog S Unit := do
  let preprocessed ← onRegs (·.getPreprocessed idx)
  if due = true ∧ preprocessed = false then do
    let permVec ← readPreproc id size
    onRegs (set · idx permVec)
  else pure ()

def shuffleGate (size : ℕ) (id recv : Party) (f : Gate) : Prog S Unit :=
  match id with
  | .d => dealShuffle size recv f
  | .p0 => readPerm size .p0 f.shuffleIdx (recv = .p0) Storage.setPi0p
  | .p1 => readPerm size .p1 f.shuffleIdx (recv = .p1) Storage.setPi1p

def mergedShuffleGate (size : ℕ) (id : Party) (f : Gate) : Prog S Unit :=
  match id with
  | .d => dealMergedShuffle size f
  | .p0 => readPerm size .p0 f.shuffleIdx true Storage.setPi0p
  | .p1 => readPerm size .p1 f.shuffleIdx true Storage.setPi1

def preprocessGate (size : ℕ) (id recv : Party) (f : Gate) : Prog S Party :=
  match f.type with
  | .shuffle => do
    shuffleGate size id recv f
    markPreprocessed f.shuffleIdx
    return recv.other
  | .mergedShuffle => do
    mergedShuffleGate size id f
    markPreprocessed f.shuffleIdx
    return recv
  | .unshuffle =>
    if id = .d then do
      dealUnshuffle size f
      return recv
    else return recv
  | .compaction => do
    dealTriples id recv size f
    return recv.other
  | .mulSIMD | .eqz | .bit2A => do
    dealTriples id recv f.size f
    return recv.other
  | _ => return recv

def preprocess (size : ℕ) (id : Party) (circ : List (List Gate)) : Prog S Party :=
  circ.flatten.foldlM (preprocessGate size id) .p0

def samplePerm (size : ℕ) (id : Party) (stream : Stream) (role : Role) (idx : ℕ)
    (get : Storage → ℕ → Permutation × Storage) (set : Storage → ℕ → Vec → Unit × Storage) :
    Prog S Permutation := do
  let perm ← onRegs (get · idx)
  if perm.size = 0 then do
    let perm ← drawPerm id id stream role size
    onRegs (set · idx perm.permVec)
    return perm
  else return perm

def sendPerm (size : ℕ) (id : Party) (idx : ℕ) : Prog S Permutation :=
  if id = .p0 then samplePerm size id .send .pi0p idx Storage.getPi0p Storage.setPi0p
  else samplePerm size id .send .pi1 idx Storage.getPi1 Storage.setPi1

def recvPerm (size : ℕ) (id : Party) (idx : ℕ) : Prog S Permutation :=
  if id = .p0 then samplePerm size id .recv .pi0 idx Storage.getPi0 Storage.setPi0
  else samplePerm size id .recv .pi1p idx Storage.getPi1p Storage.setPi1p

def sendCorrelation (size : ℕ) (id : Party) (f : Gate) : Prog S Correlation :=
  match f.type with
  | .mergedShuffle | .shuffle => do
    let r ← drawVec id id .send .mask size
    let perm ← sendPerm size id f.shuffleIdx
    return { mask := r, perm := perm }
  | .unshuffle => do
    let r ← drawVec id id .send .mask size
    let perm ← onRegs (·.getUnshuffleSend id f.shuffleIdx)
    return { mask := r, perm := perm }
  | .compaction => loadTriples f.multIdx size
  | .mul | .mulSIMD | .eqz | .bit2A => loadTriples f.multIdx f.size
  | _ => return {}

def recvCorrelation (size : ℕ) (id : Party) (f : Gate) : Prog S Correlation :=
  match f.type with
  | .mergedShuffle | .shuffle => do
    let perm ← recvPerm size id f.shuffleIdx
    let B ← readPreproc id size
    return { perm := perm, B := B }
  | .unshuffle => do
    let perm ← onRegs (·.getUnshuffleRecv id f.shuffleIdx)
    let B ← readPreproc id size
    return { perm := perm, B := B }
  | .compaction => loadTriples f.multIdx size
  | .mul | .mulSIMD | .eqz | .bit2A => loadTriples f.multIdx f.size
  | .setConstVecSIMD => do
    let mask ← onRegs (·.draw01 (Storage.constVals size f).length)
    return { mask := mask }
  | _ => return {}

def evaluateSend (conf : ProtocolConfig) (id : Party) (o : Online) (f : Gate) : Prog S Online := do
  let k ← sendCorrelation conf.size id f
  ofOption (o.sendGate conf id f k)

def evaluateRecv (conf : ProtocolConfig) (id : Party) (inputToVal : ℕ → Vec) (o : Online)
    (f : Gate) : Prog S Online := do
  let k ← recvCorrelation conf.size id f
  ofOption (o.recvGate conf id inputToVal f k)

end programs

end Backend

structure Transcript where
  toP0 : Vec
  toP1 : Vec
  result0 : Vec
  result1 : Vec

namespace Backend

section rounds

variable {S : Type} [Backend S]

def onlineCommunication (o : Online × Online) : Option (Online × Online) :=
  let data0 := o.1.vals.dataSend
  let data1 := o.2.vals.dataSend
  if data0.length = data1.length then some (o.1.receive data1, o.2.receive data0) else none

def step (conf : ProtocolConfig) (inputToVal : Party → ℕ → Vec) (o : Online × Online) :
    Servers.Action → Prog (Party → S) (Online × Online)
  | .send f => do
    let o0 ← onPart .p0 (evaluateSend conf .p0 o.1 f)
    let o1 ← onPart .p1 (evaluateSend conf .p1 o.2 f)
    return (o0, o1)
  | .exchange => ofOption (onlineCommunication o)
  | .recv f => do
    let o0 ← onPart .p0 (evaluateRecv conf .p0 (inputToVal .p0) o.1 f)
    let o1 ← onPart .p1 (evaluateRecv conf .p1 (inputToVal .p1) o.2 f)
    return (o0, o1)
  | .clear => return (o.1.clearVals, o.2.clearVals)

def evaluate (conf : ProtocolConfig) (circ : Circuit) (graphs : Party → Graph) :
    Prog (Party → S) (Online × Online) :=
  (Servers.schedule circ.circ).foldlM
    (step conf fun id w => (Evaluator.inputs circ (graphs id)).getD w [])
    (Online.initWaiting {} circ.circ, Online.initWaiting {} circ.circ)

def runDealer (conf : ProtocolConfig) (circ : List (List Gate)) (g : Streams) : Prog S Unit := do
  createRngs .d (g.generators .d)
  let _ ← preprocess conf.size .d circ

def runParty (blockSize : ℕ) (conf : ProtocolConfig) (circ : List (List Gate)) (g : Streams)
    (id : Party) (dealt : Vec) : Prog S Unit := do
  createRngs id (g.generators id)
  recvVec blockSize id dealt
  let _ ← preprocess conf.size id circ

-- Preprocessor::run of the three parties
def prepare (blockSize : ℕ) (conf : ProtocolConfig) (circ : List (List Gate)) (g : Streams) :
    Prog (Party → S) (Vec × Vec) := do
  onPart .d (runDealer conf circ g)
  let toP0 ← onPart .d (takeDealt .p0)
  let toP1 ← onPart .d (takeDealt .p1)
  onPart .p0 (runParty blockSize conf circ g .p0 toP0)
  onPart .p1 (runParty blockSize conf circ g .p1 toP1)
  return (toP0, toP1)

def round (blockSize : ℕ) (conf : ProtocolConfig) (circ : Circuit) (graphs : Party → Graph)
    (g : Streams) : Prog (Party → S) Transcript := do
  let dealt ← prepare blockSize conf circ.circ g
  let o ← evaluate conf circ graphs
  return ⟨dealt.1, dealt.2, o.1.output, o.2.output⟩

end rounds

end Backend

end GraphMpc
