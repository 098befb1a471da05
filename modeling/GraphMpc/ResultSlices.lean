import GraphMpc.InputRoundTrip

namespace GraphMpc

open Tabulate Slices

namespace NetIOMP

variable {net : NetIOMP} {packets : List Packet} {n : ℕ}

structure Recorded (n nParties : ℕ) (packets : List Packet) (net : NetIOMP) : Prop where
  startIdx : net.startIdx.length = n
  endIdx : net.endIdx.length = nParties
  start : ∀ c (hc : c < packets.length), net.startIdx[c]? = some packets[c].start
  stop : ∀ c (hc : c < packets.length), net.endIdx[c]? = some packets[c].stop

theorem init_recorded (nParties nClients : ℕ) :
    Recorded nClients nParties [] (init nParties nClients) := by
  constructor <;> simp [init]

theorem Recorded.snoc {nParties : ℕ} {p : Packet} (h : Recorded n nParties packets net)
    (hn : packets.length < n) (hp : packets.length < nParties) :
    ∃ net', net.recordSlice packets.length p = some net' ∧
      Recorded n nParties (packets ++ [p]) net' := by
  have hs := hn.trans_eq h.startIdx.symm
  have he := hp.trans_eq h.endIdx.symm
  refine ⟨_, if_pos ⟨hs, he⟩, (List.length_set ..).trans h.startIdx,
    (List.length_set ..).trans h.endIdx, fun c hc => ?_, fun c hc => ?_⟩
  all_goals
    rw [List.length_append, List.length_singleton] at hc
    rcases Nat.lt_succ_iff_lt_or_eq.mp hc with hlt | rfl
  · rw [List.getElem?_set_ne hlt.ne', h.start c hlt, List.getElem_append_left hlt]
  · rw [List.getElem?_set_self hs]
    simp
  · rw [List.getElem?_set_ne hlt.ne', h.stop c hlt, List.getElem_append_left hlt]
  · rw [List.getElem?_set_self he]
    simp

theorem recordSlices_snoc (net : NetIOMP) (packets : List Packet) (p : Packet) :
    net.recordSlices (packets ++ [p]) =
      (net.recordSlices packets).bind fun net => net.recordSlice packets.length p := by
  simp only [recordSlices, List.zipIdx_append, List.foldlM_append, List.zipIdx_cons,
    List.zipIdx_nil, List.foldlM_cons, List.foldlM_nil, Nat.zero_add, Option.bind_eq_bind]
  refine congrArg _ (funext fun net => ?_)
  cases net.recordSlice packets.length p <;> rfl

theorem recordSlices_some (nParties : ℕ) (hn : packets.length ≤ n) (hp : packets.length ≤ nParties) :
    ∃ net, (init nParties n).recordSlices packets = some net ∧
      Recorded n nParties packets net := by
  induction packets using List.reverseRecOn with
  | nil => exact ⟨_, rfl, init_recorded nParties n⟩
  | append_singleton packets p ih =>
    rw [List.length_append, List.length_singleton] at hn hp
    obtain ⟨net, hnet, hrec⟩ := ih (by omega) (by omega)
    obtain ⟨net', hnet', hrec'⟩ := hrec.snoc (p := p) hn hp
    refine ⟨net', ?_, hrec'⟩
    rw [recordSlices_snoc, hnet]
    exact hnet'

theorem recordSlices_none {nParties : ℕ} (hp : nParties < packets.length) :
    (init nParties packets.length).recordSlices packets = none := by
  obtain ⟨front, p, back, rfl, rfl⟩ : ∃ front p back, packets = front ++ p :: back ∧
      front.length = nParties := by
    refine ⟨packets.take nParties, packets[nParties], packets.drop (nParties + 1), ?_, ?_⟩
    · rw [← List.drop_eq_getElem_cons hp, List.take_append_drop]
    · rw [List.length_take, Nat.min_eq_left hp.le]
  obtain ⟨net, hnet, hrec⟩ := @recordSlices_some front (front ++ p :: back).length
    front.length (by simp) le_rfl
  have hlast : net.recordSlice front.length p = none := by
    rw [recordSlice, if_neg]
    rintro ⟨-, he⟩
    rw [hrec.endIdx] at he
    exact absurd he (lt_irrefl _)
  have hstop : (init front.length (front ++ p :: back).length).recordSlices (front ++ [p]) =
      none := by
    rw [recordSlices_snoc, hnet]
    exact hlast
  have hsplit : front ++ p :: back = (front ++ [p]) ++ back := by simp
  simp only [recordSlices] at hstop ⊢
  generalize hinit : init front.length (front ++ p :: back).length = start at hstop ⊢
  rw [hsplit, List.zipIdx_append, List.foldlM_append, hstop]
  rfl

end NetIOMP

namespace Client

variable {bits total : ℕ} {clients : List Client}

-- every client gets the reconstructed results of its own entries, read from recorded bounds
def Delivers (nParties bits : ℕ) (clients : List Client) (total : ℕ) : Prop :=
  ∃ net0 net1,
    (NetIOMP.init nParties clients.length).recordSlices (packets bits .p0 clients) = some net0 ∧
    (NetIOMP.init nParties clients.length).recordSlices (packets bits .p1 clients) = some net1 ∧
    ∀ i (hi : i < clients.length) (result0 result1 : Vec), total ≤ result0.length →
      total ≤ result1.length → ∃ ch0 ch1,
        net0.sendResult i result0 = some (i + 3, ch0) ∧
        net1.sendResult i result1 = some (i + 3, ch1) ∧
        ch0 = ((result0.drop clients[i].slice.start).take clients[i].slice.length).map .ring ∧
        ch1 = ((result1.drop clients[i].slice.start).take clients[i].slice.length).map .ring ∧
        InputClient.recvResult clients[i].graph.size ch0 ch1 =
          some (tab clients[i].list.length fun k =>
            result0.getD (clients[i].offset + k) 0 + result1.getD (clients[i].offset + k) 0)

theorem sendResult_recorded {net : NetIOMP} {n nParties : ℕ} {dst : Party}
    (h : NetIOMP.Recorded n nParties (packets bits dst clients) net) {i : ℕ}
    (hi : i < clients.length) {result : Vec}
    (hr : clients[i].offset + clients[i].list.length ≤ result.length) :
    net.sendResult i result = some (i + 3,
      ((result.drop clients[i].offset).take clients[i].list.length).map .ring) := by
  have hlen : i < (packets bits dst clients).length := by rwa [packets, List.length_map]
  have hstart := h.start i hlen
  have hstop := h.stop i hlen
  have hp : (packets bits dst clients)[i] = (clients[i].submission bits dst).packet :=
    List.getElem_map ..
  rw [hp] at hstart hstop
  simp only [Submission.packet, submission, share_size] at hstart hstop
  simp only [NetIOMP.sendResult, hstart, hstop, Option.bind_eq_bind, Option.bind_some]
  rw [if_pos ⟨Nat.le_add_right .., hr⟩, Nat.add_sub_cancel_left]

theorem slice_getD {v : Vec} {a n k : ℕ} (hk : k < n) :
    ((v.drop a).take n).getD k 0 = v.getD (a + k) 0 := by
  simp only [List.getD_eq_getElem?_getD, List.getElem?_take_of_lt hk, List.getElem?_drop]

theorem delivers_of_le {nParties : ℕ} (hp : Partition (clients.map slice) total)
    (hn : clients.length ≤ nParties) : Delivers nParties bits clients total := by
  have hlen : ∀ dst, (packets bits dst clients).length = clients.length := fun dst =>
    List.length_map ..
  obtain ⟨net0, hnet0, hrec0⟩ := @NetIOMP.recordSlices_some (packets bits .p0 clients)
    clients.length nParties (hlen _).le (by rwa [hlen])
  obtain ⟨net1, hnet1, hrec1⟩ := @NetIOMP.recordSlices_some (packets bits .p1 clients)
    clients.length nParties (hlen _).le (by rwa [hlen])
  refine ⟨net0, net1, hnet0, hnet1, fun i hi result0 result1 h0 h1 => ?_⟩
  have hb : clients[i].offset + clients[i].list.length ≤ total :=
    hp.bounded _ (List.mem_map_of_mem (List.getElem_mem hi))
  have hslice : clients[i].slice.length = clients[i].list.length := Nat.add_sub_cancel_left ..
  refine ⟨_, _, sendResult_recorded hrec0 hi (hb.trans h0), sendResult_recorded hrec1 hi (hb.trans h1),
    by rw [hslice]; rfl, by rw [hslice]; rfl, ?_⟩
  have hread : ∀ result : Vec, total ≤ result.length → Channel.recvVec clients[i].list.length
      (((result.drop clients[i].offset).take clients[i].list.length).map .ring) =
        some ((result.drop clients[i].offset).take clients[i].list.length, []) := by
    intro result hr
    have hl : ((result.drop clients[i].offset).take clients[i].list.length).length =
        clients[i].list.length := by
      rw [List.length_take, List.length_drop]
      omega
    have h := InputServer.recvVec_map
      ((result.drop clients[i].offset).take clients[i].list.length) []
    rwa [List.append_nil, hl] at h
  have hsize : clients[i].graph.size = clients[i].list.length :=
    (Graph.ofEntries_columns clients[i].list).2.2.2.2.1
  rw [hsize]
  simp only [InputClient.recvResult, hread _ h0, hread _ h1, Option.bind_eq_bind, Option.bind_some]
  refine congrArg some (tab_congr fun k hk => ?_)
  rw [slice_getD hk, slice_getD hk]

theorem not_delivers {nParties : ℕ} (hn : nParties < clients.length) :
    ¬ Delivers nParties bits clients total := by
  rintro ⟨net0, -, hnet, -⟩
  have hlen : (packets bits .p0 clients).length = clients.length := List.length_map ..
  have hnone := @NetIOMP.recordSlices_none (packets bits .p0 clients) nParties (hlen ▸ hn)
  rw [hlen, hnet] at hnone
  cases hnone

theorem delivers_iff (nParties bits : ℕ) (hp : Partition (clients.map slice) total) :
    Delivers nParties bits clients total ↔ clients.length ≤ nParties := by
  refine ⟨fun h => ?_, delivers_of_le hp⟩
  by_contra hn
  exact not_delivers (not_le.mp hn) h

def oneNode (i : ℕ) : Client where
  list := [⟨BitVec.ofNat 32 i, BitVec.ofNat 32 i, 1, 0⟩]
  offset := i
  rng := ⟨fun _ => 0, 0⟩
  nonempty := List.cons_ne_nil _ _

theorem delivers_iff_two : Delivers 3 1 ([0, 1].map oneNode) 2 ↔
    ([0, 1].map oneNode).length ≤ 3 :=
  delivers_iff 3 1 (by constructor <;> decide)

theorem fourth_client_lost : Partition ((List.range 4).map oneNode |>.map slice) 4 ∧
    ¬ Delivers 3 1 ((List.range 4).map oneNode) 4 :=
  ⟨by constructor <;> decide, not_delivers (by decide)⟩

end Client

end GraphMpc
