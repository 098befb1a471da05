import GraphMpc.Graph
import GraphMpc.Library.Slices

namespace GraphMpc

open Tabulate Slices

-- what one client has sent to one server: size_t values and ring elements in order
inductive Item where
  | size (n : ℕ)
  | ring (x : Ring)
  deriving DecidableEq, Repr

abbrev Channel := List Item

namespace Channel

def recvSize : Channel → Option (ℕ × Channel)
  | .size n :: ch => some (n, ch)
  | _ => none

def recvVec : ℕ → Channel → Option (Vec × Channel)
  | 0, ch => some ([], ch)
  | n + 1, .ring x :: ch => do
    let (v, ch) ← recvVec n ch
    some (x :: v, ch)
  | _ + 1, _ => none

end Channel

namespace Graph

def shareVec (n : ℕ) (x : Vec) (rng : PRG) : Vec × Vec :=
  let r := rng.vec n
  (r, tab n fun i => x.getD i 0 - r.getD i 0)

def sharePlanes (n nBits : ℕ) (planes : List Vec) (rng : PRG) : List Vec × List Vec :=
  (tab nBits fun i => (shareVec n (planes.getD i []) (rng.skip (i * n))).1,
    tab nBits fun i => (shareVec n (planes.getD i []) (rng.skip (i * n))).2)

def secretShare (g : Graph) (rng : PRG) (nBits : ℕ) : Graph × Graph :=
  let n := g.size
  let (src0, src1) := shareVec n g.src rng
  let (dst0, dst1) := shareVec n g.dst (rng.skip n)
  let (isV0, isV1) := shareVec n g.isV (rng.skip (2 * n))
  let (data0, data1) := shareVec n g.data (rng.skip (3 * n))
  let (srcBits0, srcBits1) := sharePlanes n nBits (toBits g.src nBits) (rng.skip (4 * n))
  let (dstBits0, dstBits1) :=
    sharePlanes n nBits (toBits g.dst nBits) (rng.skip (4 * n + nBits * n))
  ({ src := src0, dst := dst0, isV := isV0, data := data0, isShared := true, srcBits := srcBits0,
     dstBits := dstBits0, size := src0.length, nodes := g.nodes },
   { src := src1, dst := dst1, isV := isV1, data := data1, isShared := true, srcBits := srcBits1,
     dstBits := dstBits1, size := src1.length, nodes := g.nodes })

def serialize (g : Graph) (nBits : ℕ) : Vec :=
  ((List.range g.size).flatMap fun i =>
    [g.src.getD i 0, g.dst.getD i 0, g.isV.getD i 0, g.data.getD i 0]) ++
  ((List.range nBits).flatMap fun i => tab g.size fun j => (g.srcBits.getD i []).getD j 0) ++
  ((List.range nBits).flatMap fun i => tab g.size fun j => (g.dstBits.getD i []).getD j 0)

end Graph

structure Packet where
  start : ℕ
  stop : ℕ
  entries : Vec

namespace InputClient

def sendPacket (pkt : Packet) : Channel :=
  [.size pkt.start, .size pkt.stop] ++ pkt.entries.map .ring

def sendGraph (rng : PRG) (g : Graph) (bits start : ℕ) : Party → Channel
  | .d => [.size g.nodes, .size g.size]
  | dst =>
    let share := if dst = .p0 then (g.secretShare rng bits).1 else (g.secretShare rng bits).2
    .size share.nodes :: sendPacket
      { start := start, stop := start + share.size, entries := share.serialize bits }

def recvResult (size : ℕ) (fromP0 fromP1 : Channel) : Option Vec := do
  let (share0, _) ← fromP0.recvVec size
  let (share1, _) ← fromP1.recvVec size
  some (tab size fun i => share0.getD i 0 + share1.getD i 0)

end InputClient

namespace InputServer

-- blocked: the server waits for data that never arrives; assertion: abort of a debug build
inductive RecvError where
  | blocked
  | endBeforeStart
  | assertion
  | outOfBounds
  | overlap
  | missing
  deriving DecidableEq, Repr

def recvNodes : List Channel → Option (ℕ × List Channel)
  | [] => some (0, [])
  | ch :: clients => do
    let (nodes, ch) ← ch.recvSize
    let (nodesTotal, clients) ← recvNodes clients
    some (nodes + nodesTotal, ch :: clients)

def recvSize : List Channel → Option (ℕ × List Channel)
  | [] => some (0, [])
  | ch :: clients => do
    let (size, ch) ← ch.recvSize
    let (sizeTotal, clients) ← recvSize clients
    some (size + sizeTotal, ch :: clients)

def recvPacket (bits : ℕ) (ch : Channel) : Except RecvError Packet :=
  match ch.recvSize with
  | none => .error .blocked
  | some (start, ch) =>
    match ch.recvSize with
    | none => .error .blocked
    | some (stop, ch) =>
      if stop < start then .error .endBeforeStart
      else
        let nEntries := stop - start
        match ch.recvVec (4 * nEntries + 2 * nEntries * bits) with
        | none => .error .blocked
        | some (entries, _) => .ok { start := start, stop := stop, entries := entries }

def recvPackets (bits : ℕ) : List Channel → Except RecvError (List Packet)
  | [] => .ok []
  | ch :: clients => do
    let packet ← recvPacket bits ch
    let packets ← recvPackets bits clients
    .ok (packet :: packets)

structure Merge where
  src : Vec
  dst : Vec
  isV : Vec
  data : Vec
  srcBits : List Vec
  dstBits : List Vec
  isProvided : List Bool

def Merge.init (bits totalSize : ℕ) : Merge where
  src := List.replicate totalSize 0
  dst := List.replicate totalSize 0
  isV := List.replicate totalSize 0
  data := List.replicate totalSize 0
  srcBits := List.replicate bits (List.replicate totalSize 0)
  dstBits := List.replicate bits (List.replicate totalSize 0)
  isProvided := List.replicate totalSize false

def writeEntry (pkt : Packet) (s : Merge × ℕ) (i : ℕ) : Except RecvError (Merge × ℕ) :=
  let (m, pktIdx) := s
  if m.isProvided.getD i false then .error .overlap
  else .ok ({ m with
    src := m.src.set i (pkt.entries.getD pktIdx 0)
    dst := m.dst.set i (pkt.entries.getD (pktIdx + 1) 0)
    isV := m.isV.set i (pkt.entries.getD (pktIdx + 2) 0)
    data := m.data.set i (pkt.entries.getD (pktIdx + 3) 0)
    isProvided := m.isProvided.set i true }, pktIdx + 4)

def writePlane (pkt : Packet) (s : List Vec × ℕ) (i : ℕ) : List Vec × ℕ :=
  (List.range (pkt.stop - pkt.start)).foldl (fun (planes, pktIdx) k =>
    (planes.modify i fun v => v.set (pkt.start + k) (pkt.entries.getD pktIdx 0), pktIdx + 1)) s

def mergePacket (bits totalSize : ℕ) (m : Merge) (pkt : Packet) : Except RecvError Merge :=
  if pkt.stop > totalSize then .error .outOfBounds
  else do
    let (m, pktIdx) ← ((List.range (pkt.stop - pkt.start)).map (pkt.start + ·)).foldlM
      (writeEntry pkt) (m, 0)
    let (srcBits, pktIdx) := (List.range bits).foldl (writePlane pkt) (m.srcBits, pktIdx)
    let (dstBits, _) := (List.range bits).foldl (writePlane pkt) (m.dstBits, pktIdx)
    .ok { m with srcBits := srcBits, dstBits := dstBits }

-- asserts: whether the assertions of recv_graph are compiled in
def recvGraph (asserts : Bool) (bits : ℕ) (clients : List Channel) : Except RecvError Graph :=
  match recvNodes clients with
  | none => .error .blocked
  | some (nodesTotal, clients) =>
    match recvPackets bits clients with
    | .error .blocked => .error .blocked
    | .error _ => .ok {}
    | .ok pkts => do
      if asserts ∧ ¬ ∀ pkt ∈ pkts, pkt.start < pkt.stop ∧
          pkt.entries.length = (4 + 2 * bits) * (pkt.stop - pkt.start) then
        throw .assertion
      let totalSize := (pkts.map fun pkt => pkt.stop - pkt.start).sum
      let m ← pkts.foldlM (mergePacket bits totalSize) (Merge.init bits totalSize)
      if m.isProvided.all id then
        .ok { src := m.src, dst := m.dst, isV := m.isV, data := m.data, isShared := true,
              srcBits := m.srcBits, dstBits := m.dstBits, size := m.src.length, nodes := nodesTotal }
      else throw .missing

end InputServer

structure NetIOMP where
  nP : ℕ
  startIdx : List ℕ
  endIdx : List ℕ

namespace NetIOMP

def init (nParties nClients : ℕ) : NetIOMP where
  nP := nParties
  startIdx := List.replicate nClients 0
  endIdx := List.replicate nParties 0

-- none where the code writes or reads past the end of a vector
def recordSlice (net : NetIOMP) (client : ℕ) (packet : Packet) : Option NetIOMP :=
  if client < net.startIdx.length ∧ client < net.endIdx.length then
    some { net with
      startIdx := net.startIdx.set client packet.start
      endIdx := net.endIdx.set client packet.stop }
  else none

def recordSlices (net : NetIOMP) (packets : List Packet) : Option NetIOMP :=
  packets.zipIdx.foldlM (fun net p => net.recordSlice p.2 p.1) net

def sendResult (net : NetIOMP) (clientId : ℕ) (result : Vec) : Option (ℕ × Channel) := do
  let start ← net.startIdx[clientId]?
  let stop ← net.endIdx[clientId]?
  if start ≤ stop ∧ stop ≤ result.length then
    let share := (result.drop start).take (stop - start)
    some (clientId + 3, share.map .ring)
  else none

end NetIOMP

end GraphMpc
