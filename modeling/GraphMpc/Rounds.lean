import GraphMpc.Mirrors

namespace GraphMpc

open Refinement Backend

namespace Storage

def getRng01 (s : Storage) : PRG × Storage := (s.rngs.rng01, s)

def setRng01 (s : Storage) (rng : PRG) : Unit × Storage :=
  ((), { s with rngs := { s.rngs with rng01 := rng } })

end Storage

-- evaluate_recv pads the values of a constant vector in its gate
def Gate.padded (size : ℕ) (f : Gate) : Gate :=
  if f.type = .setConstVecSIMD then { f with vals := Storage.constVals size f } else f

def Circuit.padded (size : ℕ) (c : Circuit) : Circuit :=
  { c with circ := c.circ.map (List.map (Gate.padded size)) }

abbrev GraphGenerator : Type := PRG → PRG → Option ((Party → Graph) × PRG × PRG)

namespace Backend

variable {S : Type} [Backend S]

def createGraph (generator : GraphGenerator) : Prog (Party → S) (Party → Graph) := do
  let rng0 ← onPart .p0 (onRegs Storage.getRng01)
  let rng1 ← onPart .p1 (onRegs Storage.getRng01)
  let drawn ← ofOption (generator rng0 rng1)
  onPart .p0 (onRegs (·.setRng01 drawn.2.1))
  onPart .p1 (onRegs (·.setRng01 drawn.2.2))
  return drawn.1

-- Test::run, and a repetition of Benchmark::run but for the reset
def session (blockSize : ℕ) (conf : ProtocolConfig) (circ : Circuit) (generator : GraphGenerator)
    (g : Streams) : Prog (Party → S) Transcript := do
  let dealt ← prepare blockSize conf circ.circ g
  let graphs ← createGraph generator
  let o ← evaluate conf circ graphs
  return ⟨dealt.1, dealt.2, o.1.output, o.2.output⟩

def resetAll : Prog (Party → S) Unit := do
  onPart .d (reset .d)
  onPart .p0 (reset .p0)
  onPart .p1 (reset .p1)

-- Benchmark::run; a new seed is exchanged in every repetition
def benchmark (blockSize : ℕ) (conf : ProtocolConfig) (generator : GraphGenerator) :
    Circuit → List Streams → Prog (Party → S) (List Transcript)
  | _, [] => return []
  | circ, g :: gs => do
    let t ← session blockSize conf circ generator g
    resetAll
    let ts ← benchmark blockSize conf generator (circ.padded conf.size) gs
    return t :: ts

end Backend

section padding

variable {S : Type} [Backend S] {size : ℕ} {f : Gate}

theorem constVals_twice (f : Gate) (t : GType) :
    Storage.constVals size { f with type := t, vals := Storage.constVals size f } =
      Storage.constVals size f := by
  have hl : size - (Storage.constVals size f).length = 0 := by
    rw [Storage.constVals, List.length_append, List.length_replicate]
    omega
  rw [Storage.constVals, hl, List.replicate_zero, List.append_nil]

theorem padded_vals (size : ℕ) (f : Gate) : ∃ vals, f.padded size = { f with vals := vals } := by
  unfold Gate.padded
  split <;> exact ⟨_, rfl⟩

theorem preprocessGate_padded (id recv : Party) : (preprocessGate size id recv (f.padded size) :
    Prog S Party) = preprocessGate size id recv f := by
  obtain ⟨vals, he⟩ := padded_vals size f
  rw [he]
  rfl

theorem evaluateSend_padded (conf : ProtocolConfig) (id : Party) (o : Online) :
    (evaluateSend conf id o (f.padded conf.size) : Prog S Online) = evaluateSend conf id o f := by
  obtain ⟨vals, he⟩ := padded_vals conf.size f
  rw [he]
  rfl

theorem evaluateRecv_padded (conf : ProtocolConfig) (id : Party) (inp : ℕ → Vec) (o : Online) :
    (evaluateRecv conf id inp o (f.padded conf.size) : Prog S Online) =
      evaluateRecv conf id inp o f := by
  by_cases ht : f.type = .setConstVecSIMD
  · rw [Gate.padded, if_pos ht]
    simp only [evaluateRecv, recvCorrelation, Online.recvGate, Online.gateOutput, Online.readGate,
      Online.releaseReceived, ht, constVals_twice]
  · rw [Gate.padded, if_neg ht]

theorem padded_flatten (size : ℕ) (circ : List (List Gate)) :
    (circ.map (List.map (Gate.padded size))).flatten = circ.flatten.map (Gate.padded size) :=
  List.map_flatten.symm

theorem preprocess_padded (id : Party) (circ : List (List Gate)) :
    (preprocess size id (circ.map (List.map (Gate.padded size))) : Prog S Party) =
      preprocess size id circ := by
  simp only [preprocess, padded_flatten, List.foldlM_map, preprocessGate_padded]

def Servers.Action.padded (size : ℕ) : Servers.Action → Servers.Action
  | .send f => .send (f.padded size)
  | .recv f => .recv (f.padded size)
  | .exchange => .exchange
  | .clear => .clear

theorem step_padded (conf : ProtocolConfig) (inp : Party → ℕ → Vec) (o : Online × Online)
    (a : Servers.Action) :
    (step conf inp o (a.padded conf.size) : Prog (Party → S) (Online × Online)) =
      step conf inp o a := by
  cases a with
  | send f => simp only [Servers.Action.padded, step, evaluateSend_padded]
  | recv f => simp only [Servers.Action.padded, step, evaluateRecv_padded]
  | exchange | clear => rfl

theorem schedule_padded (size : ℕ) (circ : List (List Gate)) :
    Servers.schedule (circ.map (List.map (Gate.padded size))) =
      (Servers.schedule circ).map (Servers.Action.padded size) := by
  simp only [Servers.schedule, List.flatMap_map, List.map_flatMap]
  refine List.flatMap_congr fun layer _ => ?_
  simp [Servers.layerSchedule, Servers.Action.padded, Function.comp_def]

theorem initWaiting_padded (o : Online) (size : ℕ) (circ : List (List Gate)) :
    o.initWaiting (circ.map (List.map (Gate.padded size))) = o.initWaiting circ := by
  have hidx : ∀ f : Gate, (f.padded size).in1Idx = f.in1Idx ∧ (f.padded size).in2Idx = f.in2Idx := by
    intro f
    obtain ⟨vals, he⟩ := padded_vals size f
    rw [he]
    exact ⟨rfl, rfl⟩
  simp only [Online.initWaiting, padded_flatten, List.countP_map, Function.comp_def, hidx]

theorem session_padded (blockSize : ℕ) (conf : ProtocolConfig) (circ : Circuit)
    (generator : GraphGenerator) (g : Streams) :
    (session blockSize conf (circ.padded conf.size) generator g : Prog (Party → S) Transcript) =
      session blockSize conf circ generator g := by
  have hcirc : (circ.padded conf.size).circ = circ.circ.map (List.map (Gate.padded conf.size)) := rfl
  have hin : ∀ graph, Evaluator.inputs (circ.padded conf.size) graph = Evaluator.inputs circ graph :=
    fun _ => rfl
  simp only [session, prepare, evaluate, runDealer, runParty, hcirc, hin, preprocess_padded,
    schedule_padded, initWaiting_padded, List.foldlM_map, step_padded]

theorem benchmark_padded (blockSize : ℕ) (conf : ProtocolConfig) (generator : GraphGenerator)
    (circ : Circuit) (gs : List Streams) :
    (benchmark blockSize conf generator (circ.padded conf.size) gs :
      Prog (Party → S) (List Transcript)) = benchmark blockSize conf generator circ gs := by
  induction gs generalizing circ with
  | nil => rfl
  | cons g gs ih => simp only [benchmark, session_padded, ih]

end padding

section sessions

variable {S T : Type} [Backend S] [Backend T] {conf : ProtocolConfig} {circ : Circuit}
  {idle seeded : Party → S → T → Prop} {R : Party → List Gate → S → T → Prop}
  (h : ∀ id, Mirrors conf circ.circ.flatten id (idle id) (seeded id) (R id))

include h

theorem createGraph_follows (generator : GraphGenerator) :
    Follows (Each fun id => R id circ.circ.flatten) (createGraph generator) (createGraph generator)
      fun _ => Each fun id => R id circ.circ.flatten := by
  have hpart : ∀ id {A : Type} (f : Storage → A × Storage),
      Follows (Each fun id => R id circ.circ.flatten) (onPart id (onRegs f)) (onPart id (onRegs f))
        fun _ => Each fun id => R id circ.circ.flatten := fun id _ f =>
    Follows.onPart_same (R := fun id => R id circ.circ.flatten) ((h id).onRegs _ f)
  exact (hpart .p0 _).bind fun _ => (hpart .p1 _).bind fun _ =>
    (Follows.ofOption _ fun _ _ _ _ hr => hr).bind fun _ => (hpart .p0 _).bind fun _ =>
      (hpart .p1 _).bind fun _ => .pure fun _ _ hr => hr

theorem session_follows (hm : ∀ f ∈ circ.circ.flatten, f.type ≠ .mul) (blockSize : ℕ)
    (generator : GraphGenerator) (g : Streams) :
    Follows (Each idle) (session blockSize conf circ generator g)
      (session blockSize conf circ generator g) fun _ => Each fun id => R id circ.circ.flatten :=
  (prepare_follows h blockSize).bind fun _ => (createGraph_follows h generator).bind fun _ =>
    (evaluate_follows h hm).bind fun _ => .pure fun _ _ hr => hr

end sessions

end GraphMpc
