import GraphMpc.Evaluator
import GraphMpc.Preprocessor
import GraphMpc.Algorithms

namespace GraphMpc

structure Streams where
  p0Prep : PRG
  p0Send : PRG
  p0Recv : PRG
  p1Prep : PRG
  p1Send : PRG
  p1Recv : PRG
  rng01 : PRG
  dealer : PRG
  unused : PRG

namespace Streams

def generators (g : Streams) : Party → RandomGenerators
  | .d => ⟨g.unused, g.unused, g.unused, g.unused, g.p0Prep, g.p0Send, g.p0Recv, g.p1Prep,
      g.p1Send, g.p1Recv, g.dealer⟩
  | .p0 => ⟨g.rng01, g.p0Prep, g.p0Send, g.p0Recv, g.unused, g.unused, g.unused, g.unused,
      g.unused, g.unused, g.unused⟩
  | .p1 => ⟨g.rng01, g.p1Prep, g.p1Send, g.p1Recv, g.unused, g.unused, g.unused, g.unused,
      g.unused, g.unused, g.unused⟩

end Streams

namespace Preprocessor

def runDealer (conf : ProtocolConfig) (circ : List (List Gate)) (g : Streams) :
    Option Storage := do
  let p ← preprocess conf.size .d ⟨Storage.init (g.generators .d), .p0⟩ circ
  return p.data

def dealt (dealer : Storage) (id : Party) : Vec := dealer.preproc id ++ dealer.B id

def runParty (conf : ProtocolConfig) (circ : List (List Gate)) (g : Streams) (dealer : Storage)
    (id : Party) : Option Storage := do
  let s := Storage.init (g.generators id)
  let s := { s with preproc := Function.update s.preproc id (dealt dealer id) }
  let p ← preprocess conf.size id ⟨s, .p0⟩ circ
  return p.data

end Preprocessor

structure Servers where
  e0 : Evaluator
  e1 : Evaluator

namespace Servers

-- a server blocks for good when the other one sends less than it expects
def onlineCommunication (s : Servers) : Option Servers :=
  let data0 := s.e0.online.vals.dataSend
  let data1 := s.e1.online.vals.dataSend
  if data0.length = data1.length then
    some { e0 := { s.e0 with online := s.e0.online.receive data1 }
           e1 := { s.e1 with online := s.e1.online.receive data0 } }
  else none

inductive Action where
  | send (f : Gate)
  | exchange
  | recv (f : Gate)
  | clear

def step (conf : ProtocolConfig) (s : Servers) : Action → Option Servers
  | .send f => do
    return ⟨← s.e0.evaluateSend conf .p0 f, ← s.e1.evaluateSend conf .p1 f⟩
  | .exchange => s.onlineCommunication
  | .recv f => do
    return ⟨← s.e0.evaluateRecv conf .p0 f, ← s.e1.evaluateRecv conf .p1 f⟩
  | .clear => some ⟨{ s.e0 with online := s.e0.online.clearVals },
      { s.e1 with online := s.e1.online.clearVals }⟩

def layerSchedule (layer : List Gate) : List Action :=
  layer.map .send ++ [.exchange] ++ layer.map .recv ++ [.clear]

def schedule (circ : List (List Gate)) : List Action := circ.flatMap layerSchedule

def run (conf : ProtocolConfig) (s : Servers) (actions : List Action) : Option Servers :=
  actions.foldlM (step conf) s

end Servers

structure Result where
  dealer : Storage
  servers : Servers

def secureRun (conf : ProtocolConfig) (circ : Circuit) (g0 g1 : Graph) (g : Streams) :
    Option Result := do
  let dealer ← Preprocessor.runDealer conf circ.circ g
  let s0 ← Preprocessor.runParty conf circ.circ g dealer .p0
  let s1 ← Preprocessor.runParty conf circ.circ g dealer .p1
  let servers : Servers := ⟨Evaluator.init circ s0 g0, Evaluator.init circ s1 g1⟩
  let servers ← servers.run conf (Servers.schedule circ.circ)
  return ⟨dealer, servers⟩

def Result.output (r : Result) : Vec :=
  List.zipWith (· + ·) r.servers.e0.online.output r.servers.e1.online.output

end GraphMpc
