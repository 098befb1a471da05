import GraphMpc.InputSharing
import GraphMpc.InputRoundTrip
import GraphMpc.Protocol
import GraphMpc.Transport

namespace GraphMpc

open Tabulate Processes Proc Bytes NetIOMP

-- the upper and the lower halves of three seeds
structure Seeds where
  hi : List (BitVec 64)
  lo : List (BitVec 64)
  hi_length : hi.length = 3
  lo_length : lo.length = 3

-- what the random devices of the servers provide, and the generator that a seed stands for
structure Entropy where
  seedsP0 : Seeds
  seedsP1 : Seeds
  seedHi01 : BitVec 64
  seedLo01 : BitVec 64
  dealer : PRG
  unused : PRG
  reseed : BitVec 64 → BitVec 64 → ℕ → BitVec 64

namespace Entropy

variable (E : Entropy)

def prg (hi lo : BitVec 64) : PRG := ⟨E.reseed hi lo, 0⟩

def seeded (s : Seeds) (i : ℕ) : PRG := E.prg (s.hi.getD i 0) (s.lo.getD i 0)

def streams : Streams where
  p0Prep := E.seeded E.seedsP0 0
  p0Send := E.seeded E.seedsP0 1
  p0Recv := E.seeded E.seedsP0 2
  p1Prep := E.seeded E.seedsP1 0
  p1Send := E.seeded E.seedsP1 1
  p1Recv := E.seeded E.seedsP1 2
  rng01 := E.prg E.seedHi01 E.seedLo01
  dealer := E.dealer
  unused := E.unused

def unseeded (self : PRG) : RandomGenerators :=
  ⟨E.unused, E.unused, E.unused, E.unused, E.unused, E.unused, E.unused, E.unused, E.unused,
    E.unused, self⟩

def dealerCreateRngs (g : RandomGenerators) : RandomGenerators :=
  { g with
    withP0Prep := E.seeded E.seedsP0 0
    withP0Send := E.seeded E.seedsP0 1
    withP0Recv := E.seeded E.seedsP0 2
    withP1Prep := E.seeded E.seedsP1 0
    withP1Send := E.seeded E.seedsP1 1
    withP1Recv := E.seeded E.seedsP1 2 }

-- none where the code reads past the end of a vector of seeds
def partyCreateRngs (g : RandomGenerators) (hi lo : List (BitVec 64)) :
    Option RandomGenerators := do
  return { g with
    withDPrep := E.prg (← hi[0]?) (← lo[0]?)
    withDSend := E.prg (← hi[1]?) (← lo[1]?)
    withDRecv := E.prg (← hi[2]?) (← lo[2]?) }

def createRng01 (g : RandomGenerators) (hi lo : BitVec 64) : RandomGenerators :=
  { g with rng01 := E.prg hi lo }

end Entropy

def seedBytes (v : List (BitVec 64)) : List Byte := encode 8 (v.map BitVec.toNat)

def seedsOf (n : ℕ) (bytes : List Byte) : List (BitVec 64) := (words 8 n bytes).map (BitVec.ofNat 64)

-- the options of a launch; run_server rejects other numbers of bits
structure Launch where
  alg : Shipped
  depth : ℕ
  bits : ℕ
  asserts : Bool
  blockSize : ℕ
  bits_pos : 0 < bits
  bits_le : bits ≤ 32
  blockSize_pos : 0 < blockSize

namespace Launch

variable (S : Launch)

-- none where the size does not fit the int that Permutation::random takes
def config (size nodes : ℕ) : Option ProtocolConfig :=
  if h : size < 2 ^ 31 then some ⟨size, nodes, S.depth, S.bits, h⟩ else none

def circuit (conf : ProtocolConfig) : Option Circuit := (S.alg.circuit conf true).toOption

end Launch

namespace Preprocessor

variable (S : Launch) (E : Entropy)

def sendSeeds (dst : ℕ) (s : Seeds) : Net Unit := do
  sendSizeT 2 dst s.hi.length
  send 2 dst (seedBytes s.hi)
  send 2 dst (seedBytes s.lo)

def sendDealt (dst : Party) (data : Storage) : Net Unit := do
  sendSizeT 2 dst.pid (dealt data dst).length
  NetIOMP.sendVec S.blockSize 2 dst.pid (dealt data dst)

def recvRngs (id : ℕ) : Net RandomGenerators := do
  let seedsToReceive ← recvSizeT id 2
  let seedsHi ← NetIOMP.recv id 2 (8 * seedsToReceive)
  let seedsLo ← NetIOMP.recv id 2 (8 * seedsToReceive)
  ofOption (E.partyCreateRngs (E.unseeded E.unused) (seedsOf seedsToReceive seedsHi)
    (seedsOf seedsToReceive seedsLo))

def exchangeSeed : Party → Net (BitVec 64 × BitVec 64)
  | .p1 => do
    let seedHi ← recvSizeT 1 0
    let seedLo ← recvSizeT 1 0
    return (BitVec.ofNat 64 seedHi, BitVec.ofNat 64 seedLo)
  | _ => do
    sendSizeT 0 1 E.seedHi01.toNat
    sendSizeT 0 1 E.seedLo01.toNat
    return (E.seedHi01, E.seedLo01)

def recvDealt (id : ℕ) : Net Vec := do
  let nRecv ← recvSizeT id 2
  NetIOMP.recvVec S.blockSize id 2 nRecv

def run (conf : ProtocolConfig) (circ : List (List Gate)) : Party → Net Storage
  | .d => do
    let rngs := E.dealerCreateRngs (E.unseeded E.dealer)
    let p ← ofOption (preprocess conf.size .d ⟨Storage.init rngs, .p0⟩ circ)
    sendSeeds 0 E.seedsP0
    sendSeeds 1 E.seedsP1
    sendDealt S .p0 p.data
    sendDealt S .p1 p.data
    return { p.data with preproc := fun _ => [], B := fun _ => [] }
  | id => do
    let rngs ← recvRngs E id.pid
    let seed ← exchangeSeed E id
    let rngs := E.createRng01 rngs seed.1 seed.2
    let data ← recvDealt S id.pid
    let s := Storage.init rngs
    let s := { s with preproc := Function.update s.preproc id data }
    let p ← ofOption (preprocess conf.size id ⟨s, .p0⟩ circ)
    return p.data

end Preprocessor

namespace Evaluator

variable (S : Launch) (conf : ProtocolConfig) (id : Party)

def onlineCommunication (e : Evaluator) : Net Evaluator :=
  let dataSend := e.online.vals.dataSend
  if dataSend.length = 0 then pure e
  else do
    let dataRecv ← exchange S.blockSize id.pid id.other.pid dataSend
    return { e with online := e.online.receive dataRecv }

def runLayer (e : Evaluator) (layer : List Gate) : Net Evaluator := do
  let e ← ofOption (layer.foldlM (evaluateSend conf id) e)
  let e ← onlineCommunication S id e
  let e ← ofOption (layer.foldlM (evaluateRecv conf id) e)
  return { e with online := e.online.clearVals }

def run (e : Evaluator) (circ : List (List Gate)) : Net Evaluator :=
  if id = .d then pure e else circ.foldlM (runLayer S conf id) e

end Evaluator

def Item.bytes : Item → List Byte
  | .size n => toBytes 8 n
  | .ring x => toBytes 4 x.toNat

def sendItems (party dst : ℕ) (items : Channel) : Net Unit :=
  items.forM fun item => send party dst item.bytes

namespace InputServer

variable (S : Launch) (party : ℕ)

def clientIds (nClients : ℕ) : List ℕ := List.range' 3 nClients

def recvTotal (nClients : ℕ) : Net ℕ :=
  (clientIds nClients).foldlM (fun total client => do return total + (← recvSizeT party client)) 0

def receivePacket (client : ℕ) : Net (Except RecvError Packet) := do
  let start ← recvSizeT party client
  let stop ← recvSizeT party client
  if stop < start then return .error .endBeforeStart
  else
    let nEntries := stop - start
    let elemsToRecv := 4 * nEntries + 2 * nEntries * S.bits
    let bytes ← recv party client (4 * elemsToRecv)
    return .ok { start := start, stop := stop, entries := vecOf elemsToRecv bytes }

-- an exception ends the loop and leaves the bounds recorded so far
def receiveNext (acc : Except RecvError (List Packet) × NetIOMP) (client : ℕ) :
    Net (Except RecvError (List Packet) × NetIOMP) :=
  match acc.1 with
  | .error e => pure (.error e, acc.2)
  | .ok pkts => do
    match ← receivePacket S party client with
    | .error e => return (.error e, acc.2)
    | .ok pkt => do
      let net ← ofOption (acc.2.recordSlice (client - 3) pkt)
      return (.ok (pkts ++ [pkt]), net)

def mergeGraph (nodesTotal : ℕ) (pkts : List Packet) : Except RecvError Graph := do
  if S.asserts ∧ ¬ ∀ pkt ∈ pkts, pkt.start < pkt.stop ∧
      pkt.entries.length = (4 + 2 * S.bits) * (pkt.stop - pkt.start) then
    throw .assertion
  let totalSize := (pkts.map fun pkt => pkt.stop - pkt.start).sum
  let m ← pkts.foldlM (mergePacket S.bits totalSize) (Merge.init S.bits totalSize)
  if m.isProvided.all id then
    .ok { src := m.src, dst := m.dst, isV := m.isV, data := m.data, isShared := true,
          srcBits := m.srcBits, dstBits := m.dstBits, size := m.src.length, nodes := nodesTotal }
  else throw .missing

-- an exception of recv_packets leaves an empty graph, any other one ends the server
def received (nodesTotal : ℕ) (acc : Except RecvError (List Packet) × NetIOMP) :
    Net (Graph × NetIOMP) :=
  match acc.1 with
  | .error _ => pure ({}, acc.2)
  | .ok pkts => do
    let g ← ofOption (mergeGraph S nodesTotal pkts).toOption
    return (g, acc.2)

def receiveGraph (nClients : ℕ) : Net (Graph × NetIOMP) := do
  let nodesTotal ← recvTotal party nClients
  let acc ← (clientIds nClients).foldlM (receiveNext S party) (.ok [], NetIOMP.init 3 nClients)
  received S nodesTotal acc

def receiveSize (nClients : ℕ) : Net (Graph × NetIOMP) := do
  let nodes ← recvTotal party nClients
  let size ← recvTotal party nClients
  return ({ size := size, nodes := nodes }, NetIOMP.init 3 nClients)

end InputServer

inductive Outcome where
  | server (e : Evaluator)
  | client (result : Vec)
  | absent

variable (S : Launch) (E : Entropy)

def sendResults (party nClients : ℕ) (net : NetIOMP) (result : Vec) : Net Unit :=
  (List.range nClients).forM fun i => do
    let (dst, items) ← ofOption (net.sendResult i result)
    sendItems party dst items

section server

variable (nClients : ℕ) (id : Party)

def finish (net : NetIOMP) (e : Evaluator) : Net Outcome := do
  sync id.pid (3 + nClients)
  sendResults id.pid nClients net e.online.output
  return .server e

def evaluateOn (conf : ProtocolConfig) (circ : Circuit) (graph : Graph) (net : NetIOMP)
    (data : Storage) : Net Outcome := do
  let e := Evaluator.init circ data graph
  sync id.pid (3 + nClients)
  let e ← Evaluator.run S conf id e circ.circ
  finish nClients id net e

def computeOn (graph : Graph) (net : NetIOMP) : Net Outcome := do
  let conf ← ofOption (S.config graph.size graph.nodes)
  let circ ← ofOption (S.circuit conf)
  sync id.pid (3 + nClients)
  let data ← Preprocessor.run S E conf circ.circ id
  evaluateOn S nClients id conf circ graph net data

def runServer : Net Outcome :=
  (if id = .d then InputServer.receiveSize id.pid nClients
    else InputServer.receiveGraph S id.pid nClients) >>= fun received =>
      computeOn S E nClients id received.1 received.2

end server

namespace InputClient

def sendGraphs (party : ℕ) (channel : Party → Channel) : Net Unit := do
  sendItems party 0 (channel .p0)
  sendItems party 1 (channel .p1)
  sendItems party 2 (channel .d)

def receiveResult (party size : ℕ) : Net Vec := do
  let share0 ← recv party 0 (4 * size)
  let share1 ← recv party 1 (4 * size)
  return tab size fun i => (vecOf size share0).getD i 0 + (vecOf size share1).getD i 0

-- a debug build aborts when an edge has a result
def printResult (g : Graph) (result : Vec) : Option Vec :=
  if S.asserts ∧ ¬ ∀ i < g.size, g.isV.getD i 0 = 0 → result.getD i 0 = 0 then none
  else some result

end InputClient

def runClient (nClients party : ℕ) (c : Client) : Net Outcome := do
  InputClient.sendGraphs party (fun dst => c.channel S.bits dst)
  sync party (3 + nClients)
  sync party (3 + nClients)
  sync party (3 + nClients)
  let result ← InputClient.receiveResult party c.graph.size
  let result ← ofOption (InputClient.printResult S c.graph result)
  return .client result

def deploy (clients : List Client) : ℕ → Net Outcome
  | 0 => runServer S E clients.length .p0
  | 1 => runServer S E clients.length .p1
  | 2 => runServer S E clients.length .d
  | i + 3 => match clients[i]? with
    | some c => runClient S clients.length (i + 3) c
    | none => pure .absent

end GraphMpc
