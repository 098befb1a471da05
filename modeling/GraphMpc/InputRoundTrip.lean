import GraphMpc.InputChecks
import Mathlib.Tactic.Ring

namespace GraphMpc

open Tabulate Slices

structure Entry where
  src : Ring
  dst : Ring
  isV : Ring
  data : Ring

namespace Graph

def addEntry (g : Graph) (e : Entry) : Graph := g.addListEntry e.src e.dst e.isV e.data

def ofEntries (l : List Entry) : Graph := l.foldl addEntry {}

theorem ofEntries_snoc (l : List Entry) (e : Entry) :
    ofEntries (l ++ [e]) = (ofEntries l).addEntry e := by
  simp [ofEntries, List.foldl_append]

theorem ofEntries_columns (l : List Entry) :
    (ofEntries l).src = l.map Entry.src ∧ (ofEntries l).dst = l.map Entry.dst ∧
      (ofEntries l).isV = l.map Entry.isV ∧ (ofEntries l).data = l.map Entry.data ∧
        (ofEntries l).size = l.length ∧ (ofEntries l).nodes = l.countP (·.isV ≠ 0) := by
  induction l using List.reverseRecOn with
  | nil => exact ⟨rfl, rfl, rfl, rfl, rfl, rfl⟩
  | append_singleton l e ih =>
    obtain ⟨h1, h2, h3, h4, h5, h6⟩ := ih
    rw [ofEntries_snoc]
    refine ⟨?_, ?_, ?_, ?_, ?_, ?_⟩
    · simp [addEntry, addListEntry, h1]
    · simp [addEntry, addListEntry, h2]
    · simp [addEntry, addListEntry, h3]
    · simp [addEntry, addListEntry, h4]
    · simp [addEntry, addListEntry, h5]
    · rw [List.countP_append, ← h6]
      simp [addEntry, addListEntry]
      split <;> rfl

theorem toBits_getD {v : Vec} {nBits i k : ℕ} (hi : i < nBits) (hk : k < v.length) :
    ((toBits v nBits).getD i []).getD k 0 = if v[k].getLsbD i then 1 else 0 := by
  rw [toBits, tab_getD_lt _ _ hi]
  have hkey : ∀ x : Ring, (x &&& (1#32 <<< i)) >>> i = if x.getLsbD i then 1 else 0 := by
    intro x
    apply BitVec.eq_of_getLsbD_eq
    intro j hj
    by_cases hji : j = 0
    · subst hji
      by_cases hi32 : i < 32
      · rw [BitVec.getLsbD_eq_getElem hi32]
        cases hx : x[i] <;> simp [hx, hi32]
      · have hx : x.getLsbD i = false := BitVec.getLsbD_of_ge _ _ (by omega)
        simp [hx]
    · have h1 : (if x.getLsbD i = true then (1 : Ring) else 0).getLsbD j = false := by
        split
        · simp [BitVec.getLsbD_one, hji]
        · simp
      rw [h1]
      simp [BitVec.getLsbD_one, hji]
  rw [List.getD_eq_getElem _ _ (by simpa using hk), List.getElem_map, hkey]

theorem shareVec_sum {n k : ℕ} (x : Vec) (rng : PRG) (hk : k < n) :
    (shareVec n x rng).1.getD k 0 + (shareVec n x rng).2.getD k 0 = x.getD k 0 := by
  simp only [shareVec, tab_getD_lt _ _ hk]
  ring

theorem sharePlanes_sum {n nBits i k : ℕ} (x : List Vec) (rng : PRG) (hi : i < nBits)
    (hk : k < n) : ((sharePlanes n nBits x rng).1.getD i []).getD k 0 +
      ((sharePlanes n nBits x rng).2.getD i []).getD k 0 = (x.getD i []).getD k 0 := by
  simp only [sharePlanes, tab_getD_lt _ _ hi]
  exact shareVec_sum _ _ hk

section serialize

variable {g : Graph} {nBits : ℕ}

theorem entries_length (g : Graph) : ((List.range g.size).flatMap fun i =>
    [g.src.getD i 0, g.dst.getD i 0, g.isV.getD i 0, g.data.getD i 0]).length = g.size * 4 :=
  length_blocks fun _ _ => rfl

theorem planes_length (n m : ℕ) (v : List Vec) : ((List.range m).flatMap fun i =>
    tab n fun j => (v.getD i []).getD j 0).length = m * n :=
  length_blocks fun _ _ => tab_length ..

theorem serialize_length (g : Graph) (nBits : ℕ) :
    (g.serialize nBits).length = 4 * g.size + 2 * g.size * nBits := by
  rw [serialize, List.length_append, List.length_append, entries_length, planes_length,
    planes_length]
  ring

theorem serialize_column {c k : ℕ} (hc : c < 4) (hk : k < g.size) :
    (g.serialize nBits).getD (4 * k + c) 0 =
      [g.src.getD k 0, g.dst.getD k 0, g.isV.getD k 0, g.data.getD k 0].getD c 0 := by
  have hlen := entries_length g
  rw [serialize, List.append_assoc, List.getD_append _ _ _ _ (by omega), Nat.mul_comm,
    getD_blocks (f := fun i => [g.src.getD i 0, g.dst.getD i 0, g.isV.getD i 0, g.data.getD i 0])
      0 (fun _ _ => rfl) hk hc]

theorem serialize_srcPlane {i k : ℕ} (hi : i < nBits) (hk : k < g.size) :
    (g.serialize nBits).getD (4 * g.size + i * g.size + k) 0 =
      (g.srcBits.getD i []).getD k 0 := by
  have hlen := entries_length g
  have hplanes := planes_length g.size nBits g.srcBits
  have hin : i * g.size + k < nBits * g.size := by
    calc i * g.size + k < (i + 1) * g.size := by rw [Nat.succ_mul]; omega
      _ ≤ nBits * g.size := Nat.mul_le_mul_right _ hi
  have hidx : 4 * g.size + i * g.size + k - g.size * 4 = i * g.size + k := by omega
  rw [serialize, List.append_assoc, List.getD_append_right _ _ _ _ (by omega), hlen, hidx,
    List.getD_append _ _ _ _ (by omega), getD_blocks 0 (fun _ _ => tab_length ..) hi hk,
    tab_getD_lt _ _ hk]

theorem serialize_dstPlane {i k : ℕ} (hi : i < nBits) (hk : k < g.size) :
    (g.serialize nBits).getD (4 * g.size + nBits * g.size + i * g.size + k) 0 =
      (g.dstBits.getD i []).getD k 0 := by
  have hlen := entries_length g
  have hplanes := planes_length g.size nBits g.srcBits
  have hidx : 4 * g.size + nBits * g.size + i * g.size + k - (g.size * 4 + nBits * g.size) =
      i * g.size + k := by omega
  rw [serialize, List.getD_append_right _ _ _ _ (by rw [List.length_append]; omega),
    List.length_append, hlen, hplanes, hidx, getD_blocks 0 (fun _ _ => tab_length ..) hi hk,
    tab_getD_lt _ _ hk]

end serialize

end Graph

structure Client where
  list : List Entry
  offset : ℕ
  rng : PRG
  nonempty : list ≠ []

namespace Client

def graph (c : Client) : Graph := Graph.ofEntries c.list

def slice (c : Client) : Slice := ⟨c.offset, c.offset + c.list.length⟩

def channel (bits : ℕ) (dst : Party) (c : Client) : Channel :=
  InputClient.sendGraph c.rng c.graph bits c.offset dst

def share (bits : ℕ) (dst : Party) (c : Client) : Graph :=
  if dst = .p0 then (c.graph.secretShare c.rng bits).1 else (c.graph.secretShare c.rng bits).2

theorem share_size (bits : ℕ) (dst : Party) (c : Client) :
    (c.share bits dst).size = c.list.length := by
  have h := (Graph.ofEntries_columns c.list).2.2.2.2.1
  rw [share]
  split <;> simp [Graph.secretShare, Graph.shareVec, graph, h]

theorem share_nodes (bits : ℕ) (dst : Party) (c : Client) :
    (c.share bits dst).nodes = c.list.countP (·.isV ≠ 0) := by
  have h := (Graph.ofEntries_columns c.list).2.2.2.2.2
  rw [share]
  split <;> exact h

def submission (bits : ℕ) (dst : Party) (c : Client) : Submission bits where
  nodes := (c.share bits dst).nodes
  start := c.offset
  stop := c.offset + (c.share bits dst).size
  payload := (c.share bits dst).serialize bits
  fits _ := by rw [Nat.add_sub_cancel_left, Graph.serialize_length]

theorem channel_eq {bits : ℕ} {dst : Party} (hd : dst ≠ .d) (c : Client) :
    c.channel bits dst = (c.submission bits dst).channel := by
  cases dst
  case d => exact absurd rfl hd
  all_goals rfl

theorem packet_columns {bits k : ℕ} {dst : Party} {c : Client} (hk : k < c.list.length) :
    (c.submission bits dst).packet.column 0 k = (c.share bits dst).src.getD k 0 ∧
      (c.submission bits dst).packet.column 1 k = (c.share bits dst).dst.getD k 0 ∧
      (c.submission bits dst).packet.column 2 k = (c.share bits dst).isV.getD k 0 ∧
      (c.submission bits dst).packet.column 3 k = (c.share bits dst).data.getD k 0 := by
  rw [← c.share_size bits dst] at hk
  exact ⟨Graph.serialize_column (by decide) hk, Graph.serialize_column (by decide) hk,
    Graph.serialize_column (by decide) hk, Graph.serialize_column (by decide) hk⟩

theorem packet_size {bits : ℕ} {dst : Party} (c : Client) :
    (c.submission bits dst).packet.size = (c.share bits dst).size :=
  Nat.add_sub_cancel_left ..

theorem packet_planes {bits i k : ℕ} {dst : Party} {c : Client} (hi : i < bits)
    (hk : k < c.list.length) :
    (c.submission bits dst).packet.srcPlane i k = ((c.share bits dst).srcBits.getD i []).getD k 0 ∧
      (c.submission bits dst).packet.dstPlane bits i k =
        ((c.share bits dst).dstBits.getD i []).getD k 0 := by
  rw [← c.share_size bits dst] at hk
  rw [Packet.srcPlane, Packet.dstPlane, packet_size]
  exact ⟨Graph.serialize_srcPlane hi hk, Graph.serialize_dstPlane hi hk⟩

structure Splits (bits : ℕ) (c : Client) (k : ℕ) (e : Entry) : Prop where
  src : (c.share bits .p0).src.getD k 0 + (c.share bits .p1).src.getD k 0 = e.src
  dst : (c.share bits .p0).dst.getD k 0 + (c.share bits .p1).dst.getD k 0 = e.dst
  isV : (c.share bits .p0).isV.getD k 0 + (c.share bits .p1).isV.getD k 0 = e.isV
  data : (c.share bits .p0).data.getD k 0 + (c.share bits .p1).data.getD k 0 = e.data
  srcBits : ∀ i < bits, ((c.share bits .p0).srcBits.getD i []).getD k 0 +
    ((c.share bits .p1).srcBits.getD i []).getD k 0 = if e.src.getLsbD i then 1 else 0
  dstBits : ∀ i < bits, ((c.share bits .p0).dstBits.getD i []).getD k 0 +
    ((c.share bits .p1).dstBits.getD i []).getD k 0 = if e.dst.getLsbD i then 1 else 0

theorem splits (bits : ℕ) (c : Client) {k : ℕ} (hk : k < c.list.length) :
    c.Splits bits k c.list[k] := by
  obtain ⟨hsrc, hdst, hisV, hdata, hsize, -⟩ := Graph.ofEntries_columns c.list
  have hkn : k < c.graph.size := by rw [graph, hsize]; exact hk
  have hcol : ∀ f : Entry → Ring, (c.list.map f).getD k 0 = f c.list[k] := fun f => by
    rw [List.getD_eq_getElem _ _ (by simpa using hk), List.getElem_map]
  refine ⟨?_, ?_, ?_, ?_, fun i hi => ?_, fun i hi => ?_⟩
  · exact (Graph.shareVec_sum _ _ hkn).trans (by rw [graph, hsrc, hcol])
  · exact (Graph.shareVec_sum _ _ hkn).trans (by rw [graph, hdst, hcol])
  · exact (Graph.shareVec_sum _ _ hkn).trans (by rw [graph, hisV, hcol])
  · exact (Graph.shareVec_sum _ _ hkn).trans (by rw [graph, hdata, hcol])
  · refine (Graph.sharePlanes_sum _ _ hi hkn).trans ?_
    rw [graph, hsrc, Graph.toBits_getD hi (by simpa using hk), List.getElem_map]
  · refine (Graph.sharePlanes_sum _ _ hi hkn).trans ?_
    rw [graph, hdst, Graph.toBits_getD hi (by simpa using hk), List.getElem_map]

def joint (clients : List Client) : List Entry :=
  (clients.mergeSort fun c d => c.offset ≤ d.offset).flatMap Client.list

theorem joint_nodes (clients : List Client) : (joint clients).countP (·.isV ≠ 0) =
    (clients.map fun c => c.list.countP (·.isV ≠ 0)).sum := by
  have hperm := clients.mergeSort_perm fun c d => c.offset ≤ d.offset
  rw [joint, List.countP_flatMap]
  exact (hperm.map fun c : Client => c.list.countP (·.isV ≠ 0)).sum_nat

section joint

variable {clients : List Client} {total : ℕ} (hp : Partition (clients.map Client.slice) total)

include hp

theorem consecutive : Consecutive Client.offset (fun c => c.list.length) 0
    (clients.mergeSort fun c d => c.offset ≤ d.offset) ∧
      (clients.map fun c => c.list.length).sum = total := by
  have hperm := clients.mergeSort_perm fun c d => c.offset ≤ d.offset
  have hsorted : (clients.mergeSort fun c d => c.offset ≤ d.offset).Pairwise
      fun c d => c.offset ≤ d.offset := by
    have h := @List.pairwise_mergeSort _ (fun c d : Client => c.offset ≤ d.offset)
      (fun a b c => by simpa using Nat.le_trans) (fun a b => by simpa using Nat.le_total _ _) clients
    simpa using h
  have hcount : ∀ i, clients.countP (fun c => c.offset ≤ i ∧ i < c.offset + c.list.length) =
      (clients.map Client.slice).countP fun s => s.Contains i := fun i => by
    rw [List.countP_map]
    rfl
  obtain ⟨hc, hsum⟩ := @consecutive_of_sorted _ _ _ _ 0 total hsorted
    (fun c _ => List.length_pos_iff.mpr c.nonempty)
    (fun c hc => ⟨Nat.zero_le _, hp.bounded _ (List.mem_map_of_mem (hperm.mem_iff.mp hc))⟩)
    (Nat.zero_le _) (fun i _ hi => by rw [hperm.countP_eq, hcount, hp.once i hi])
  refine ⟨hc, ?_⟩
  rw [← hsum, Nat.zero_add]
  exact ((hperm.map fun c : Client => c.list.length).sum_nat).symm

theorem joint_length : (joint clients).length = total := by
  have hperm := clients.mergeSort_perm fun c d => c.offset ≤ d.offset
  rw [joint, List.length_flatMap, ← (consecutive hp).2]
  exact (hperm.map fun c : Client => c.list.length).sum_nat

theorem joint_getElem? {c : Client} (hc : c ∈ clients) {k : ℕ} (hk : k < c.list.length) :
    (joint clients)[c.offset + k]? = some c.list[k] := by
  have hperm := clients.mergeSort_perm fun c d => c.offset ≤ d.offset
  obtain ⟨-, h⟩ := (consecutive hp).1.getElem? (hperm.mem_iff.mpr hc) hk
  rw [Nat.sub_zero] at h
  rw [joint, h, List.getElem?_eq_getElem hk]

theorem exists_client {i : ℕ} (hi : i < total) :
    ∃ c ∈ clients, ∃ k < c.list.length, c.offset + k = i := by
  obtain ⟨s, hs, hc⟩ := List.countP_pos_iff.mp (by rw [hp.once i hi]; exact Nat.one_pos)
  obtain ⟨c, hm, rfl⟩ := List.mem_map.mp hs
  obtain ⟨hle, hlt⟩ : c.offset ≤ i ∧ i < c.offset + c.list.length := of_decide_eq_true hc
  exact ⟨c, hm, i - c.offset, by omega, by omega⟩

theorem column_joint {v0 v1 : Vec} (h0 : v0.length = total) (h1 : v1.length = total)
    (f : Entry → Ring) (h : ∀ c ∈ clients, ∀ k (hk : k < c.list.length),
      v0.getD (c.offset + k) 0 + v1.getD (c.offset + k) 0 = f c.list[k]) :
    List.zipWith (· + ·) v0 v1 = (joint clients).map f := by
  have hl := joint_length hp
  apply ext_getD 0 (by simp [h0, h1, hl])
  intro i hi
  rw [List.length_zipWith, h0, h1, Nat.min_self] at hi
  obtain ⟨c, hc, k, hk, rfl⟩ := exists_client hp hi
  rw [List.getD_eq_getElem?_getD, List.getD_eq_getElem?_getD, List.getElem?_map,
    joint_getElem? hp hc hk, List.getElem?_zipWith, List.getElem?_eq_getElem (h0 ▸ hi),
    List.getElem?_eq_getElem (h1 ▸ hi)]
  have := h c hc k hk
  rw [List.getD_eq_getElem _ _ (h0 ▸ hi), List.getD_eq_getElem _ _ (h1 ▸ hi)] at this
  exact this

end joint

section roundTrip

variable {bits total : ℕ} {asserts : Bool} {clients : List Client}

structure Reconstructs (bits : ℕ) (l : List Entry) (g0 g1 : Graph) : Prop where
  src : List.zipWith (· + ·) g0.src g1.src = l.map Entry.src
  dst : List.zipWith (· + ·) g0.dst g1.dst = l.map Entry.dst
  isV : List.zipWith (· + ·) g0.isV g1.isV = l.map Entry.isV
  data : List.zipWith (· + ·) g0.data g1.data = l.map Entry.data
  planes : g0.srcBits.length = bits ∧ g1.srcBits.length = bits ∧ g0.dstBits.length = bits ∧
    g1.dstBits.length = bits
  srcBits : ∀ i < bits, List.zipWith (· + ·) (g0.srcBits.getD i []) (g1.srcBits.getD i []) =
    l.map fun e => if e.src.getLsbD i then 1 else 0
  dstBits : ∀ i < bits, List.zipWith (· + ·) (g0.dstBits.getD i []) (g1.dstBits.getD i []) =
    l.map fun e => if e.dst.getLsbD i then 1 else 0
  nodes : g0.nodes = l.countP (·.isV ≠ 0) ∧ g1.nodes = l.countP (·.isV ≠ 0)
  size : g0.size = l.length ∧ g1.size = l.length

def packets (bits : ℕ) (dst : Party) (clients : List Client) : List Packet :=
  clients.map fun c => (c.submission bits dst).packet

theorem packets_eq (bits : ℕ) (dst : Party) (clients : List Client) :
    (clients.map (Client.submission bits dst)).map Submission.packet = packets bits dst clients :=
  List.map_map

theorem packets_slices (bits : ℕ) (dst : Party) (clients : List Client) :
    (packets bits dst clients).map Packet.slice = clients.map Client.slice := by
  rw [packets, List.map_map]
  refine List.map_congr_left fun c _ => ?_
  simp only [Function.comp, Packet.slice, Submission.packet, submission, share_size, slice]

theorem channels_nodes {dst : Party} (hd : dst ≠ .d) (clients : List Client) :
    InputServer.recvNodes (clients.map (Client.channel bits dst)) =
      some ((joint clients).countP (·.isV ≠ 0),
        (clients.map (Client.submission bits dst)).map fun s =>
          InputClient.sendPacket s.packet) := by
  have hch : clients.map (Client.channel bits dst) =
      (clients.map (Client.submission bits dst)).map Submission.channel := by
    rw [List.map_map]
    exact List.map_congr_left fun c _ => channel_eq hd c
  rw [hch, InputServer.recvNodes_sent, joint_nodes, List.map_map]
  refine congrArg (fun n => some (n, _)) (congrArg List.sum (List.map_congr_left fun c _ => ?_))
  exact c.share_nodes bits dst

theorem channels_packets (dst : Party) (clients : List Client) :
    InputServer.recvPackets bits ((clients.map (Client.submission bits dst)).map fun s =>
      InputClient.sendPacket s.packet) = .ok (packets bits dst clients) := by
  rw [InputServer.recvPackets_sent, packets_eq]
  intro s hs
  obtain ⟨c, -, rfl⟩ := List.mem_map.mp hs
  exact Nat.le_add_right ..

section partition

variable (hp : Partition (clients.map Client.slice) total)

include hp

theorem packets_total (dst : Party) :
    InputServer.totalSize (packets bits dst clients) = total := by
  rw [← (consecutive hp).2, InputServer.totalSize, packets, List.map_map]
  refine congrArg List.sum (List.map_congr_left fun c _ => ?_)
  exact (packet_size c).trans (c.share_size bits dst)

theorem recvGraph_clients {dst : Party} (hd : dst ≠ .d) :
    InputServer.recvGraph asserts bits (clients.map (Client.channel bits dst)) =
      .ok (InputServer.graphOf bits (packets bits dst clients)
        ((joint clients).countP (·.isV ≠ 0))) := by
  refine InputServer.recvGraph_partition (channels_nodes hd clients) (channels_packets dst clients)
    (fun _ pkt hpkt => ?_) ?_
  · obtain ⟨c, -, rfl⟩ := List.mem_map.mp hpkt
    have hpos := List.length_pos_iff.mpr c.nonempty
    rw [← c.share_size bits dst] at hpos
    refine ⟨Nat.lt_add_of_pos_right hpos, ?_⟩
    have hlen := Graph.serialize_length (c.share bits dst) bits
    have hsize := @packet_size bits dst c
    rw [Packet.size] at hsize
    rw [hsize]
    refine hlen.trans ?_
    ring
  · rw [packets_slices, packets_total hp]
    exact hp

theorem graph_placed (dst : Party) {c : Client} (hc : c ∈ clients) (nodes : ℕ) {k : ℕ}
    (hk : k < c.list.length) :
    InputServer.Placed bits (InputServer.graphOf bits (packets bits dst clients) nodes)
      (c.submission bits dst).packet k := by
  have hmem : (c.submission bits dst).packet ∈ packets bits dst clients := List.mem_map_of_mem hc
  refine InputServer.placed ?_ (fun pkt hpkt => ?_) hmem nodes ?_
  · rw [packets_slices]
    exact disjoint_of_count hp.bounded fun i hi => (hp.once i hi).le
  · rw [packets_total hp]
    have := List.mem_map_of_mem (f := Packet.slice) hpkt
    rw [packets_slices] at this
    exact hp.bounded _ this
  · rw [packet_size, share_size]
    exact hk

theorem packets_sized (dst : Party) :
    (InputServer.merged bits (InputServer.totalSize (packets bits dst clients))
      (packets bits dst clients)).Sized bits total := by
  have h := InputServer.merged_sized bits (InputServer.totalSize (packets bits dst clients))
    (packets bits dst clients)
  rwa [packets_total hp] at h ⊢

theorem graphs_reconstruct (nodes : ℕ) (hn : nodes = (joint clients).countP (·.isV ≠ 0)) :
    Reconstructs bits (joint clients)
      (InputServer.graphOf bits (packets bits .p0 clients) nodes)
      (InputServer.graphOf bits (packets bits .p1 clients) nodes) := by
  have hm := fun dst => @packets_sized bits _ _ hp dst
  have hplane : ∀ {v : List Vec}, v.length = bits → (∀ w ∈ v, w.length = total) →
      ∀ i < bits, (v.getD i []).length = total := by
    intro v hv hw i hi
    rw [List.getD_eq_getElem _ _ (hv ▸ hi), hw _ (List.getElem_mem _)]
  have hpl : ∀ dst, ∀ c ∈ clients, ∀ k < c.list.length, InputServer.Placed bits
      (InputServer.graphOf bits (packets bits dst clients) nodes)
        (c.submission bits dst).packet k := fun dst c hc k hk => graph_placed hp dst hc nodes hk
  refine ⟨?_, ?_, ?_, ?_, ⟨(hm .p0).srcBits, (hm .p1).srcBits, (hm .p0).dstBits,
    (hm .p1).dstBits⟩, fun i hi => ?_, fun i hi => ?_, ⟨hn, hn⟩,
    ⟨(hm .p0).src.trans (joint_length hp).symm, (hm .p1).src.trans (joint_length hp).symm⟩⟩
  · refine column_joint hp (hm .p0).src (hm .p1).src Entry.src fun c hc k hk => ?_
    exact (congrArg₂ (· + ·) ((hpl .p0 c hc k hk).src.trans (packet_columns hk).1)
      ((hpl .p1 c hc k hk).src.trans (packet_columns hk).1)).trans (c.splits bits hk).src
  · refine column_joint hp (hm .p0).dst (hm .p1).dst Entry.dst fun c hc k hk => ?_
    exact (congrArg₂ (· + ·) ((hpl .p0 c hc k hk).dst.trans (packet_columns hk).2.1)
      ((hpl .p1 c hc k hk).dst.trans (packet_columns hk).2.1)).trans (c.splits bits hk).dst
  · refine column_joint hp (hm .p0).isV (hm .p1).isV Entry.isV fun c hc k hk => ?_
    exact (congrArg₂ (· + ·) ((hpl .p0 c hc k hk).isV.trans (packet_columns hk).2.2.1)
      ((hpl .p1 c hc k hk).isV.trans (packet_columns hk).2.2.1)).trans (c.splits bits hk).isV
  · refine column_joint hp (hm .p0).data (hm .p1).data Entry.data fun c hc k hk => ?_
    exact (congrArg₂ (· + ·) ((hpl .p0 c hc k hk).data.trans (packet_columns hk).2.2.2)
      ((hpl .p1 c hc k hk).data.trans (packet_columns hk).2.2.2)).trans (c.splits bits hk).data
  · refine column_joint hp (hplane (hm .p0).srcBits (hm .p0).srcPlanes i hi)
      (hplane (hm .p1).srcBits (hm .p1).srcPlanes i hi) _ fun c hc k hk => ?_
    exact (congrArg₂ (· + ·) (((hpl .p0 c hc k hk).srcBits i hi).trans (packet_planes hi hk).1)
      (((hpl .p1 c hc k hk).srcBits i hi).trans (packet_planes hi hk).1)).trans
        ((c.splits bits hk).srcBits i hi)
  · refine column_joint hp (hplane (hm .p0).dstBits (hm .p0).dstPlanes i hi)
      (hplane (hm .p1).dstBits (hm .p1).dstPlanes i hi) _ fun c hc k hk => ?_
    exact (congrArg₂ (· + ·) (((hpl .p0 c hc k hk).dstBits i hi).trans (packet_planes hi hk).2)
      (((hpl .p1 c hc k hk).dstBits i hi).trans (packet_planes hi hk).2)).trans
        ((c.splits bits hk).dstBits i hi)

end partition

theorem dealer_receives (bits : ℕ) (clients : List Client) : ∃ rest,
    InputServer.recvNodes (clients.map (Client.channel bits .d)) =
      some ((joint clients).countP (·.isV ≠ 0), rest) ∧
    ∃ rest', InputServer.recvSize rest =
      some ((clients.map fun c => c.list.length).sum, rest') := by
  have hcols : ∀ c : Client, c.graph.size = c.list.length ∧
      c.graph.nodes = c.list.countP (·.isV ≠ 0) := fun c =>
    (Graph.ofEntries_columns c.list).2.2.2.2
  rw [joint_nodes]
  refine ⟨clients.map fun c => [.size c.graph.size], ?_, clients.map fun _ => [], ?_⟩
  · induction clients with
    | nil => rfl
    | cons c clients ih =>
      simp only [List.map_cons, InputServer.recvNodes, ih, channel, InputClient.sendGraph,
        Channel.recvSize, Option.bind_eq_bind, Option.bind_some, List.sum_cons, (hcols c).2]
  · induction clients with
    | nil => rfl
    | cons c clients ih =>
      simp only [List.map_cons, InputServer.recvSize, ih, Channel.recvSize, Option.bind_eq_bind,
        Option.bind_some, List.sum_cons, (hcols c).1]

theorem input_round_trip (asserts : Bool) (bits : ℕ) (hp : Partition (clients.map Client.slice) total) :
    ∃ g0 g1, InputServer.recvGraph asserts bits (clients.map (Client.channel bits .p0)) = .ok g0 ∧
      InputServer.recvGraph asserts bits (clients.map (Client.channel bits .p1)) = .ok g1 ∧
      Reconstructs bits (joint clients) g0 g1 ∧
      ∃ nodes rest, InputServer.recvNodes (clients.map (Client.channel bits .d)) =
          some (nodes, rest) ∧ nodes = g0.nodes ∧
        ∃ size rest', InputServer.recvSize rest = some (size, rest') ∧ size = g0.size := by
  obtain ⟨rest, hnodes, rest', hsize⟩ := dealer_receives bits clients
  have hrec := @graphs_reconstruct bits _ _ hp _ rfl
  refine ⟨_, _, recvGraph_clients hp (by decide), recvGraph_clients hp (by decide), hrec,
    _, rest, hnodes, hrec.nodes.1.symm, _, rest', hsize, ?_⟩
  rw [(consecutive hp).2, hrec.size.1, joint_length hp]

def twoClients : List Client :=
  [{ list := [⟨2, 2, 1, 0⟩, ⟨1, 2, 0, 0⟩], offset := 1, rng := ⟨fun i => BitVec.ofNat 64 i, 0⟩,
     nonempty := List.cons_ne_nil _ _ },
   { list := [⟨1, 1, 1, 7⟩], offset := 0, rng := ⟨fun _ => 5, 0⟩,
     nonempty := List.cons_ne_nil _ _ }]

theorem twoClients_partition : Partition (twoClients.map Client.slice) 3 := by
  constructor <;> decide

theorem input_round_trip_two :
    ∃ g0 g1, InputServer.recvGraph true 2 (twoClients.map (Client.channel 2 .p0)) = .ok g0 ∧
      InputServer.recvGraph true 2 (twoClients.map (Client.channel 2 .p1)) = .ok g1 ∧
      Reconstructs 2 (joint twoClients) g0 g1 ∧
      ∃ nodes rest, InputServer.recvNodes (twoClients.map (Client.channel 2 .d)) =
          some (nodes, rest) ∧ nodes = g0.nodes ∧
        ∃ size rest', InputServer.recvSize rest = some (size, rest') ∧ size = g0.size :=
  input_round_trip true 2 twoClients_partition

end roundTrip

end Client

end GraphMpc
