import GraphMpc.Deployment
import GraphMpc.JointList
import GraphMpc.Volume

namespace GraphMpc

open Tabulate Slices Processes Proc Bytes NetIOMP Client Circuit GraphMpc.Valuation

variable {cap : Channels} (hcap : ∀ c, 0 < cap c) {S : Launch} {E : Entropy}
  {clients : List Client} {servers : Party → Net Outcome} {prog : ℕ → Client → Net Outcome}
  {id : Party} {total : ℕ}

theorem Party.pid_ne (id : Party) (i : ℕ) : i + 3 ≠ id.pid := by
  have := id.pid_lt
  omega

theorem zipIdx_map {α β : Type} (f : α → β) (l : List α) :
    (l.zipIdx.map fun e => f e.1) = l.map f := by
  have h := congrArg (List.map f) (List.zipIdx_map_fst 0 l)
  rwa [List.map_map] at h

section served

variable {l : List (Client × ℕ)} {k : ℕ}

include hcap

theorem served_total (id : Party) (f : Client → ℕ) (hf : ∀ e ∈ l, f e.1 < 2 ^ 64) (t : ℕ) :
    Served cap id (fun total client => recvSizeT id.pid client >>= fun n => pure (total + n))
      (fun i c => sendSizeT (i + 3) id.pid (f c)) (fun _ _ => ()) t l
        (t + (l.map fun e => f e.1).sum) := by
  induction l generalizing t with
  | nil => exact .nil
  | cons e l ih =>
    have hfirst := session_sizeT (R := Outcome) (id.pid_ne e.2) hcap (hf e (List.mem_cons_self ..))
    rw [List.map_cons, List.sum_cons, ← Nat.add_assoc]
    exact .cons (hfirst.map_right (t + ·)).symm
      (ih (fun e he => hf e (List.mem_cons_of_mem _ he)) (t + f e.1))

theorem served_clients (id : Party) (f : Client → ℕ) (hf : ∀ c ∈ clients, f c < 2 ^ 64) :
    Served cap id (fun total client => recvSizeT id.pid client >>= fun n => pure (total + n))
      (fun i c => sendSizeT (i + 3) id.pid (f c)) (fun _ _ => ()) 0 clients.zipIdx
        (clients.map f).sum := by
  have h := served_total hcap (l := clients.zipIdx) id f
    (fun e he => hf e.1 (List.fst_mem_of_mem_zipIdx he)) 0
  rwa [zipIdx_map, Nat.zero_add] at h

theorem served_packets (id : Party) (hlt : ∀ c ∈ clients, c.offset + c.list.length < 2 ^ 64)
    {net net' : NetIOMP} (pkts : List Packet)
    (hnet : ((packets S.bits id clients).zipIdx k).foldlM (fun net p => net.recordSlice p.2 p.1) net =
      some net') :
    Served cap id (InputServer.receiveNext S id.pid)
      (fun i c => sendItems (i + 3) id.pid (InputClient.sendPacket (c.submission S.bits id).packet))
      (fun _ _ => ()) (.ok pkts, net) (clients.zipIdx k)
      (.ok (pkts ++ packets S.bits id clients), net') := by
  induction clients generalizing k pkts net with
  | nil =>
    obtain rfl := Option.some.inj hnet
    rw [packets, List.map_nil, List.append_nil]
    exact .nil
  | cons c clients ih =>
    rw [packets, List.map_cons, List.zipIdx_cons, List.foldlM_cons] at hnet
    obtain ⟨net1, hfirst, hnet⟩ := Option.bind_eq_some_iff.mp hnet
    have hrest := ih (fun c hc => hlt c (List.mem_cons_of_mem _ hc))
      (pkts ++ [(c.submission S.bits id).packet]) hnet
    rw [List.append_assoc] at hrest
    have hsize : c.offset + (c.share S.bits id).size < 2 ^ 64 := by
      rw [c.share_size]
      exact hlt c (List.mem_cons_self ..)
    have hpkt := @session_packet Outcome cap hcap S _ _ (id.pid_ne k)
      (c.submission S.bits id).packet (Nat.le_add_right ..) hsize
      ((c.submission S.bits id).fits (Nat.le_add_right ..))
    refine .cons (hpkt.bind_right ?_).symm hrest
    have hfirst : net.recordSlice (k + 3 - 3) (c.submission S.bits id).packet = some net1 := hfirst
    simp only [hfirst]
    rfl

end served

section intake

theorem received_packets (hp : Partition (clients.map slice) total) (hd : id ≠ .d) (net : NetIOMP) :
    InputServer.received S ((joint clients).countP (·.isV ≠ 0))
        (.ok (packets S.bits id clients), net) =
      pure (InputServer.graphOf S.bits (packets S.bits id clients)
        ((joint clients).countP (·.isV ≠ 0)), net) := by
  have h := @recvGraph_clients S.bits total S.asserts clients hp id hd
  rw [InputServer.recvGraph, channels_nodes hd] at h
  simp only [channels_packets] at h
  have hmerge : InputServer.mergeGraph S ((joint clients).countP (·.isV ≠ 0))
      (packets S.bits id clients) = _ := h
  simp only [InputServer.received, hmerge]
  rfl

theorem nodes_lt {c : Client} (hlt : c.offset + c.list.length < 2 ^ 64) :
    c.list.countP (·.isV ≠ 0) < 2 ^ 64 := by
  have := List.countP_le_length (p := fun e : Entry => decide (e.isV ≠ 0)) (l := c.list)
  omega

include hcap

theorem stage_graph (id : Party) (hp : Partition (clients.map slice) total) (hd : id ≠ .d)
    (hlt : ∀ c ∈ clients, c.offset + c.list.length < 2 ^ 64) {net : NetIOMP}
    (hnet : (NetIOMP.init 3 clients.length).recordSlices (packets S.bits id clients) = some net)
    {h : Graph × NetIOMP → Net Outcome} {k : ℕ → Client → Net Outcome}
    (hid : servers id = InputServer.receiveGraph S id.pid clients.length >>= h)
    (hprog : ∀ i c, prog i c = sendItems (i + 3) id.pid (c.channel S.bits id) >>= fun _ => k i c) :
    Leads cap (System.quiet (stage clients servers prog)) (System.quiet (stage clients
      (Function.update servers id (h (InputServer.graphOf S.bits (packets S.bits id clients)
        ((joint clients).countP (·.isV ≠ 0)), net))) k)) := by
  have hnodes := served_clients hcap id _ fun c hc => nodes_lt (hlt c hc)
  rw [← joint_nodes] at hnodes
  have hpackets := served_packets (S := S) hcap id hlt [] hnet
  let rest : ℕ → Net Outcome := fun nodesTotal =>
    (InputServer.clientIds clients.length).foldlM (InputServer.receiveNext S id.pid)
      (.ok [], NetIOMP.init 3 clients.length) >>= fun acc =>
        InputServer.received S nodesTotal acc >>= h
  have hstart : servers id = (InputServer.clientIds clients.length).foldlM
      (fun total client => recvSizeT id.pid client >>= fun n => pure (total + n)) 0 >>= rest := by
    rw [hid, InputServer.receiveGraph, InputServer.recvTotal]
    simp only [bind_assoc]
    rfl
  have hpacket : ∀ i c, prog i c = sendSizeT (i + 3) id.pid (c.list.countP (·.isV ≠ 0)) >>= fun _ =>
      sendItems (i + 3) id.pid (InputClient.sendPacket (c.submission S.bits id).packet) >>= fun _ =>
        k i c := fun i c => by
    rw [hprog, channel_eq hd, ← c.share_nodes S.bits id]
    exact bind_assoc ..
  have hfirst := hnodes.leads hstart hpacket
  have hsecond := hpackets.leads (k := fun i c _ => k i c) (Function.update_self id
    (rest ((joint clients).countP (·.isV ≠ 0))) servers) fun _ _ => rfl
  rw [List.nil_append, received_packets hp hd, Function.update_idem] at hsecond
  exact hfirst.trans hsecond

theorem stage_size (hp : Partition (clients.map slice) total)
    (hlt : ∀ c ∈ clients, c.offset + c.list.length < 2 ^ 64) {h : Graph × NetIOMP → Net Outcome}
    {k : ℕ → Client → Net Outcome}
    (hid : servers .d = InputServer.receiveSize 2 clients.length >>= h)
    (hprog : ∀ i c, prog i c = sendItems (i + 3) 2 (c.channel S.bits .d) >>= fun _ => k i c) :
    Leads cap (System.quiet (stage clients servers prog)) (System.quiet (stage clients
      (Function.update servers .d (h ({ size := total, nodes := (joint clients).countP (·.isV ≠ 0) },
        NetIOMP.init 3 clients.length))) k)) := by
  have hnodes := served_clients hcap .d _ fun c hc => nodes_lt (hlt c hc)
  rw [← joint_nodes] at hnodes
  have hsizes := served_clients hcap .d (fun c => c.list.length) fun c hc =>
    (Nat.le_add_left ..).trans_lt (hlt c hc)
  rw [(consecutive hp).2] at hsizes
  let rest : ℕ → Net Outcome := fun nodes => InputServer.recvTotal 2 clients.length >>= fun size =>
    h ({ size := size, nodes := nodes }, NetIOMP.init 3 clients.length)
  have hstart : servers .d = (InputServer.clientIds clients.length).foldlM
      (fun total client => recvSizeT Party.d.pid client >>= fun n => pure (total + n)) 0 >>=
        rest := by
    rw [hid, InputServer.receiveSize, InputServer.recvTotal]
    simp only [bind_assoc]
    rfl
  have hsends : ∀ i c, prog i c = sendSizeT (i + 3) 2 (c.list.countP (·.isV ≠ 0)) >>= fun _ =>
      sendSizeT (i + 3) 2 c.list.length >>= fun _ => k i c := fun i c => by
    obtain ⟨-, -, -, -, hsize, hcount⟩ := Graph.ofEntries_columns c.list
    rw [hprog, ← hsize, ← hcount]
    rfl
  have hfirst := hnodes.leads hstart hsends
  have hsecond := hsizes.leads (k := fun i c _ => k i c) (h := fun size =>
    h ({ size := size, nodes := (joint clients).countP (·.isV ≠ 0) }, NetIOMP.init 3 clients.length))
    (Function.update_self Party.d (rest ((joint clients).countP (·.isV ≠ 0))) servers) fun _ _ => rfl
  rw [Function.update_idem] at hsecond
  exact hfirst.trans hsecond

end intake

def trio {α : Type} (a b c : α) : Party → α
  | .p0 => a
  | .p1 => b
  | .d => c

theorem trio_eq {α : Type} {f : Party → α} {a b c : α} (h0 : f .p0 = a) (h1 : f .p1 = b)
    (hd : f .d = c) : f = trio a b c := by
  funext id
  cases id
  · exact h0
  · exact h1
  · exact hd

section trios

variable {A B : Type} {x : Net A} {y : Net B} {a : A} {b : B} {z : Net Outcome}
  {h : A → Net Outcome} {k : B → Net Outcome}

theorem trio_dealer0 (hs : Session Outcome cap 2 0 x y a b) :
    Leads cap (System.quiet (stage clients (trio (y >>= k) z (x >>= h)) prog))
      (System.quiet (stage clients (trio (k b) z (h a)) prog)) :=
  stage_session .d .p0 hs rfl rfl rfl rfl fun r hr hr' => by cases r <;> trivial

theorem trio_dealer1 (hs : Session Outcome cap 2 1 x y a b) :
    Leads cap (System.quiet (stage clients (trio z (y >>= k) (x >>= h)) prog))
      (System.quiet (stage clients (trio z (k b) (h a)) prog)) :=
  stage_session .d .p1 hs rfl rfl rfl rfl fun r hr hr' => by cases r <;> trivial

theorem trio_servers (hs : Session Outcome cap 0 1 x y a b) :
    Leads cap (System.quiet (stage clients (trio (x >>= h) (y >>= k) z) prog))
      (System.quiet (stage clients (trio (h a) (k b) z) prog)) :=
  stage_session .p0 .p1 hs rfl rfl rfl rfl fun r hr hr' => by cases r <;> trivial

end trios

section preparation

variable {conf : ProtocolConfig} {circ : List (List Gate)} {dealer s0 s1 : Storage}

theorem partyCreateRngs_seeds (E : Entropy) (s : Seeds) :
    E.partyCreateRngs (E.unseeded E.unused) s.hi s.lo = some { E.unseeded E.unused with
      withDPrep := E.seeded s 0
      withDSend := E.seeded s 1
      withDRecv := E.seeded s 2 } := by
  have hget : ∀ (v : List (BitVec 64)) i, i < v.length → v[i]? = some (v.getD i 0) := by
    intro v i hi
    rw [List.getElem?_eq_getElem hi, List.getD_eq_getElem _ _ hi]
  have hhi := fun i (hi : i < 3) => hget s.hi i (by rw [s.hi_length]; exact hi)
  have hlo := fun i (hi : i < 3) => hget s.lo i (by rw [s.lo_length]; exact hi)
  simp only [Entropy.partyCreateRngs, hhi 0 (by decide), hhi 1 (by decide), hhi 2 (by decide),
    hlo 0 (by decide), hlo 1 (by decide), hlo 2 (by decide), Option.bind_eq_bind,
    Option.bind_some]
  rfl

def prepareParty (conf : ProtocolConfig) (circ : List (List Gate)) (E : Entropy) (id : Party)
    (rngs : RandomGenerators) (seed : BitVec 64 × BitVec 64) (data : Vec) : Net Storage := do
  let s := Storage.init (E.createRng01 rngs seed.1 seed.2)
  let s := { s with preproc := Function.update s.preproc id data }
  let p ← ofOption (Preprocessor.preprocess conf.size id ⟨s, .p0⟩ circ)
  return p.data

theorem run_party (hd : id ≠ .d) : Preprocessor.run S E conf circ id =
    Preprocessor.recvRngs E id.pid >>= fun rngs => Preprocessor.exchangeSeed E id >>= fun seed =>
      Preprocessor.recvDealt S id.pid >>= prepareParty conf circ E id rngs seed := by
  cases id with
  | d => exact absurd rfl hd
  | p0 => rfl
  | p1 => rfl

theorem prepareParty_eq {s : Storage}
    (h : Preprocessor.runParty conf circ E.streams dealer id = some s) {rngs : RandomGenerators}
    (hr : E.createRng01 rngs E.seedHi01 E.seedLo01 = E.streams.generators id) :
    prepareParty conf circ E id rngs (E.seedHi01, E.seedLo01) (Preprocessor.dealt dealer id) =
      pure s := by
  obtain ⟨p, hp, hs⟩ := Option.bind_eq_some_iff.mp h
  obtain rfl : p.data = s := Option.some.inj hs
  simp only [prepareParty, hr, hp]
  rfl

theorem run_dealer (hd : Preprocessor.runDealer conf circ E.streams = some dealer) :
    Preprocessor.run S E conf circ .d = Preprocessor.sendSeeds 0 E.seedsP0 >>= fun _ =>
      Preprocessor.sendSeeds 1 E.seedsP1 >>= fun _ => Preprocessor.sendDealt S .p0 dealer >>= fun _ =>
        Preprocessor.sendDealt S .p1 dealer >>= fun _ =>
          pure { dealer with preproc := fun _ => [], B := fun _ => [] } := by
  obtain ⟨p, hp, hs⟩ := Option.bind_eq_some_iff.mp hd
  obtain rfl : p.data = dealer := Option.some.inj hs
  have hp : Preprocessor.preprocess conf.size .d
      ⟨Storage.init (E.dealerCreateRngs (E.unseeded E.dealer)), .p0⟩ circ = some p := hp
  simp only [Preprocessor.run, hp]
  rfl

include hcap

theorem stage_preprocess (hd : Preprocessor.runDealer conf circ E.streams = some dealer)
    (h0 : Preprocessor.runParty conf circ E.streams dealer .p0 = some s0)
    (h1 : Preprocessor.runParty conf circ E.streams dealer .p1 = some s1)
    (hlt : ∀ id, id ≠ .d → (Preprocessor.dealt dealer id).length < 2 ^ 64)
    {k : Party → Storage → Net Outcome} (prog : ℕ → Client → Net Outcome)
    (hid : ∀ id, servers id = Preprocessor.run S E conf circ id >>= k id) :
    Leads cap (System.quiet (stage clients servers prog))
      (System.quiet (stage clients (trio (k .p0 s0) (k .p1 s1)
        (k .d { dealer with preproc := fun _ => [], B := fun _ => [] })) prog)) := by
  have hseeds0 := Preprocessor.session_seeds (R := Outcome) hcap E .p0 (by decide) E.seedsP0
    (partyCreateRngs_seeds E E.seedsP0)
  have hseeds1 := Preprocessor.session_seeds (R := Outcome) hcap E .p1 (by decide) E.seedsP1
    (partyCreateRngs_seeds E E.seedsP1)
  have hseed := Preprocessor.session_seed (R := Outcome) hcap E
  have hdealt0 := Preprocessor.session_dealt (R := Outcome) hcap S .p0 (by decide) dealer
    (hlt .p0 (by decide))
  have hdealt1 := Preprocessor.session_dealt (R := Outcome) hcap S .p1 (by decide) dealer
    (hlt .p1 (by decide))
  have hD := hid .d
  have hP0 := hid .p0
  have hP1 := hid .p1
  rw [run_dealer hd] at hD
  rw [run_party (by decide)] at hP0 hP1
  simp only [bind_assoc] at hD hP0 hP1
  rw [trio_eq hP0 hP1 hD]
  refine (trio_dealer0 hseeds0).trans ((trio_dealer1 hseeds1).trans ((trio_servers hseed).trans
    ((trio_dealer0 hdealt0).trans ((trio_dealer1 hdealt1).trans ?_))))
  rw [prepareParty_eq h0 rfl, prepareParty_eq h1 rfl]
  exact Leads.refl ..

end preparation

section evaluation

variable {conf : ProtocolConfig} {circ : List (List Gate)} {t t' : Servers} {e : Evaluator}
  {k : Party → Evaluator → Net Outcome}

include hcap

theorem stage_evaluate (h : t.run conf (Servers.schedule circ) = some t')
    (hpending : t.pending .p0 = 0)
    (hfits : ∀ layer ∈ circ, S.Fits cap (layer.map (Gate.sent conf)).sum)
    (prog : ℕ → Client → Net Outcome)
    (hid : ∀ id, servers id = Evaluator.run S conf id (trio t.e0 t.e1 e id) circ >>= k id) :
    Leads cap (System.quiet (stage clients servers prog))
      (System.quiet (stage clients (trio (k .p0 t'.e0) (k .p1 t'.e1) (k .d e)) prog)) := by
  rw [trio_eq (hid .p0) (hid .p1) (hid .d)]
  exact trio_servers (Evaluator.session_layers hcap S h hpending hfits)

end evaluation

section delivery

variable {net : NetIOMP} {result : Vec}

def Client.part (c : Client) (result : Vec) : Vec := (result.drop c.offset).take c.list.length

theorem Client.part_length {c : Client} (h : c.offset + c.list.length ≤ result.length) :
    (c.part result).length = c.list.length := by
  rw [Client.part, List.length_take, List.length_drop]
  omega

theorem sendResults_eq (party n : ℕ) (net : NetIOMP) (result : Vec) :
    sendResults party n net result = (InputServer.clientIds n).foldlM (fun _ client => do
      let (dst, items) ← ofOption (net.sendResult (client - 3) result)
      sendItems party dst items) () := by
  have hforM : ∀ (l : List ℕ) (f : ℕ → Net Unit), l.forM f = l.foldlM (fun _ i => f i) () := by
    intro l f
    induction l with
    | nil => rfl
    | cons i l ih => exact congrArg (f i >>= ·) (funext fun _ => ih)
  have hids : InputServer.clientIds n = (List.range n).map (3 + ·) := by
    rw [InputServer.clientIds, List.range_eq_range', List.map_add_range']
  rw [sendResults, hforM, hids, List.foldlM_map]
  simp only [Nat.add_sub_cancel_left]

theorem sendResults_dealer {n : ℕ} (hn : n ≤ 3) (result : Vec) :
    sendResults 2 n (NetIOMP.init 3 n) result = pure () := by
  have hnone : ∀ i < n, (NetIOMP.init 3 n).sendResult i result = some (i + 3, []) := by
    intro i hi
    have hstart : (List.replicate n 0)[i]? = some 0 := List.getElem?_replicate_of_lt hi
    have hstop : (List.replicate 3 0)[i]? = some 0 :=
      List.getElem?_replicate_of_lt (hi.trans_le hn)
    simp only [NetIOMP.sendResult, NetIOMP.init, hstart, hstop, Option.bind_eq_bind,
      Option.bind_some]
    rw [if_pos ⟨le_rfl, Nat.zero_le _⟩]
    rfl
  have hall : ∀ l : List ℕ, (∀ i ∈ l, i < n) → (l.forM fun i => do
      let (dst, items) ← ofOption ((NetIOMP.init 3 n).sendResult i result)
      sendItems 2 dst items : Net Unit) = pure () := by
    intro l hl
    induction l with
    | nil => rfl
    | cons i l ih =>
      have htail := ih fun j hj => hl j (List.mem_cons_of_mem _ hj)
      rw [← htail]
      change (ofOption ((NetIOMP.init 3 n).sendResult i result) >>= _) >>= _ = _
      rw [hnone i (hl i (List.mem_cons_self ..))]
      rfl
  exact hall _ fun i hi => List.mem_range.mp hi

include hcap

theorem stage_result (id : Party) (hb : ∀ c ∈ clients, c.offset + c.list.length ≤ result.length)
    {bits : ℕ} (hnet : NetIOMP.Recorded clients.length 3 (packets bits id clients) net)
    {h : Net Outcome} {k : ℕ → Client → List Byte → Net Outcome}
    (hid : servers id = sendResults id.pid clients.length net result >>= fun _ => h)
    (hprog : ∀ i c, prog i c = recv (i + 3) id.pid (4 * c.graph.size) >>= k i c) :
    Leads cap (System.quiet (stage clients servers prog)) (System.quiet (stage clients
      (Function.update servers id h) fun i c => k i c (vecBytes (c.part result)))) := by
  rw [sendResults_eq] at hid
  have hserved : Served cap id (fun _ client => do
      let (dst, items) ← ofOption (net.sendResult (client - 3) result)
      sendItems id.pid dst items) (fun i c => recv (i + 3) id.pid (4 * c.graph.size))
      (fun _ c => vecBytes (c.part result)) () clients.zipIdx () := by
    refine Hears.const fun e he => ?_
    obtain ⟨hi, hc⟩ := List.mem_zipIdx' he
    have hmem := hb e.1 (List.fst_mem_of_mem_zipIdx he)
    have hsent := sendResult_recorded hnet hi (hc ▸ hmem)
    have hring := session_ring (R := Outcome) hcap (id.pid_ne e.2).symm (e.1.part result)
    rw [Client.part_length hmem, ← (Graph.ofEntries_columns e.1.list).2.2.2.2.1] at hring
    rw [Nat.add_sub_cancel, hsent, ← hc]
    exact hring
  exact hserved.leads (h := fun _ => h) hid hprog

end delivery

-- what clients and launch have to agree on for the servers to start
structure Admitted (S : Launch) (clients : List Client) (conf : ProtocolConfig) (circ : Circuit) :
    Prop where
  slices : Partition (clients.map slice) conf.size
  few : clients.length ≤ 3
  flags : ∀ c ∈ clients, ∀ e ∈ c.list, e.isV = 0 ∨ e.isV = 1
  nodes : 0 < conf.nodes
  config : S.config conf.size ((joint clients).countP (·.isV ≠ 0)) = some conf
  circuit : S.circuit conf = some circ
  volume : S.alg.dealerVolume conf true < 2 ^ 64

noncomputable def answer (S : Launch) (conf : ProtocolConfig) (l : List Entry) (i : ℕ) : Ring :=
  let A := (((dagList l).listing conf.bits).directed S.alg.reverse).arrangement conf S.alg.dedup
  released A true ((programResults A (S.alg.program conf) (S.alg.columns conf) (payload l)).headD
    fun _ => 0) i

def await (S : Launch) (nClients : ℕ) : ℕ → ℕ → Client → Net Outcome
  | 0, i, c => do
    let result ← InputClient.receiveResult (i + 3) c.graph.size
    let result ← ofOption (InputClient.printResult S c.graph result)
    return .client result
  | n + 1, i, c => sync (i + 3) (3 + nClients) >>= fun _ => await S nClients n i c

def gathered (conf : ProtocolConfig) (clients : List Client) : Party → Graph
  | .d => { size := conf.size, nodes := (joint clients).countP (·.isV ≠ 0) }
  | id => InputServer.graphOf conf.bits (packets conf.bits id clients)
      ((joint clients).countP (·.isV ≠ 0))

theorem programResults_cons {conf : ProtocolConfig} (A : Arrangement conf) (p : Program) (columns : ℕ)
    (x : ℕ → Ring) : ∃ rest, programResults A p columns x =
      (programResults A p columns x).headD (fun _ => 0) :: rest := by
  cases h : programResults A p columns x with
  | nil =>
    rw [programResults] at h
    split_ifs at h with hc
    · have := congrArg List.length h
      simp at this
      omega
  | cons y rest => exact ⟨rest, rfl⟩

namespace Admitted

variable {conf : ProtocolConfig} {circ : Circuit} (ha : Admitted S clients conf circ)

include ha

theorem config_eq : conf.nodes = (joint clients).countP (·.isV ≠ 0) ∧ conf.bits = S.bits := by
  have h := ha.config
  rw [Launch.config] at h
  split at h
  · rw [← Option.some.inj h]
    exact ⟨rfl, rfl⟩
  · cases h

theorem nodes_le : conf.nodes ≤ conf.size := by
  rw [ha.config_eq.1, ← joint_length ha.slices]
  exact List.countP_le_length

theorem joint_flags : ∀ e ∈ joint clients, e.isV = 0 ∨ e.isV = 1 := by
  intro e he
  obtain ⟨c, hc, he⟩ := List.mem_flatMap.mp he
  exact ha.flags c ((List.mergeSort_perm ..).mem_iff.mp hc) e he

theorem fits {c : Client} (hc : c ∈ clients) : c.offset + c.list.length ≤ conf.size :=
  ha.slices.bounded _ (List.mem_map_of_mem hc)

theorem lt {c : Client} (hc : c ∈ clients) : c.offset + c.list.length < 2 ^ 64 := by
  have := ha.fits hc
  have := conf.size_int
  omega

theorem gathered_size (id : Party) : (gathered conf clients id).size = conf.size := by
  cases id with
  | d => rfl
  | p0 => exact (packets_sized ha.slices .p0).src
  | p1 => exact (packets_sized ha.slices .p1).src

theorem computeOn_eq (n : ℕ) (id : Party) (net : NetIOMP) :
    computeOn S E n id (gathered conf clients id) net = sync id.pid (3 + n) >>= fun _ =>
      Preprocessor.run S E conf circ.circ id >>=
        evaluateOn S n id conf circ (gathered conf clients id) net := by
  have hnodes : (gathered conf clients id).nodes = (joint clients).countP (·.isV ≠ 0) := by
    cases id <;> rfl
  rw [computeOn, ha.gathered_size, hnodes, ha.config]
  simp only [ofOption, done_bind, ha.circuit]

include hcap

theorem received (E : Entropy) : ∃ nets : Party → NetIOMP,
    (∀ id, id ≠ .d → NetIOMP.Recorded clients.length 3 (packets conf.bits id clients) (nets id)) ∧
    nets .d = NetIOMP.init 3 clients.length ∧
    Leads cap (System.quiet (deploy S E clients)) (System.quiet (stage clients
      (fun id => computeOn S E clients.length id (gathered conf clients id) (nets id))
        (await S clients.length 3))) := by
  have hlen : ∀ id, (packets conf.bits id clients).length = clients.length := fun id =>
    List.length_map ..
  have hrecord := fun id => @NetIOMP.recordSlices_some (packets conf.bits id clients)
    clients.length 3 (hlen id).le (hlen id ▸ ha.few)
  obtain ⟨net0, hnet0, hrec0⟩ := hrecord .p0
  obtain ⟨net1, hnet1, hrec1⟩ := hrecord .p1
  refine ⟨trio net0 net1 (NetIOMP.init 3 clients.length), fun id hd => ?_, rfl, ?_⟩
  · cases id with
    | d => exact absurd rfl hd
    | p0 => exact hrec0
    | p1 => exact hrec1
  have hbits := ha.config_eq.2
  let last := fun i (c : Client) => sendItems (i + 3) 2 (c.channel S.bits .d) >>= fun _ =>
    await S clients.length 3 i c
  let next := fun i (c : Client) => sendItems (i + 3) 1 (c.channel S.bits .p1) >>= fun _ => last i c
  have hsends : ∀ i c, runClient S clients.length (i + 3) c =
      sendItems (i + 3) 0 (c.channel S.bits .p0) >>= fun _ => next i c := by
    intro i c
    simp only [runClient, InputClient.sendGraphs, bind_assoc]
    rfl
  let start := fun id (r : Graph × NetIOMP) => computeOn S E clients.length id r.1 r.2
  let compute := fun id => computeOn S E clients.length id (gathered conf clients id)
    (trio net0 net1 (NetIOMP.init 3 clients.length) id)
  have hp0 : runServer S E clients.length .p0 =
      InputServer.receiveGraph S 0 clients.length >>= start .p0 := rfl
  have hp1 : Function.update (runServer S E clients.length) .p0 (compute .p0) .p1 =
      InputServer.receiveGraph S 1 clients.length >>= start .p1 := rfl
  have hdealer : Function.update (Function.update (runServer S E clients.length) .p0 (compute .p0))
      .p1 (compute .p1) .d = InputServer.receiveSize 2 clients.length >>= start .d := rfl
  have hfirst := stage_graph hcap .p0 ha.slices (by decide) (fun c => ha.lt) (hbits ▸ hnet0) hp0 hsends
  have hsecond := stage_graph (S := S) hcap .p1 ha.slices (by decide) (fun c => ha.lt) (hbits ▸ hnet1)
    (k := last) hp1 fun _ _ => rfl
  have hthird := stage_size (S := S) hcap ha.slices (fun c => ha.lt)
    (k := await S clients.length 3) hdealer fun _ _ => rfl
  have hend : Function.update (Function.update (Function.update (runServer S E clients.length) .p0
      (compute .p0)) .p1 (compute .p1)) .d (compute .d) = compute := by
    funext id
    cases id <;> rfl
  have hcompute : ∀ (id : Party) net, start id (InputServer.graphOf S.bits (packets S.bits id clients)
      ((joint clients).countP (·.isV ≠ 0)), net) = computeOn S E clients.length id
        (InputServer.graphOf conf.bits (packets conf.bits id clients)
          ((joint clients).countP (·.isV ≠ 0))) net := fun id net => by rw [hbits]
  rw [hcompute] at hfirst hsecond
  rw [deploy_eq]
  refine hfirst.trans (hsecond.trans ?_)
  rw [← hend]
  exact hthird

omit hcap

theorem circuit_ok : S.alg.circuit conf true = .ok circ := by
  have h := ha.circuit
  rw [Launch.circuit] at h
  cases hc : S.alg.circuit conf true with
  | error e =>
    rw [hc] at h
    cases h
  | ok c =>
    rw [hc] at h
    rw [Option.some.inj h]

theorem execution (E : Entropy) : ∃ X : Execution conf circ E.streams (gathered conf clients .p0)
    (gathered conf clients .p1), conf.size ≤ (⟨X.dealer, X.final⟩ : Result).output.length ∧
      ∀ i < conf.size, (⟨X.dealer, X.final⟩ : Result).output.getD i 0 =
        answer S conf (joint clients) i := by
  have hz := ha.nodes_le
  have h0 := ha.nodes
  obtain ⟨X, hX⟩ := Program.exists_execution hz (h0.trans_le hz) (fun _ => h0)
    (Shipped.evaluable hz S.alg) (Shipped.circuit_eq ha.circuit_ok) E.streams
    (merged_shared ha.slices ha.joint_flags rfl)
  obtain ⟨rest, hrest⟩ := programResults_cons
    ((((dagList (joint clients)).listing conf.bits).directed S.alg.reverse).arrangement conf
      S.alg.dedup) (S.alg.program conf) (S.alg.columns conf) (payload (joint clients))
  rw [hrest, List.map_cons, List.flatten_cons] at hX
  refine ⟨X, ?_, fun i hi => ?_⟩
  · rw [hX, List.length_append, tab_length]
    exact Nat.le_add_right ..
  · rw [hX, List.getD_append _ _ _ _ (by rwa [tab_length]), tab_getD_lt _ _ hi]
    rfl

theorem held_eq {E : Entropy} (X : Execution conf circ E.streams (gathered conf clients .p0)
    (gathered conf clients .p1)) : held X.dealer = S.alg.dealerVolume conf true := by
  have hz := ha.nodes_le
  have h : communication conf circ (gathered conf clients .p0) (gathered conf clients .p1) E.streams =
      _ := Program.communication_eq (Shipped.circuit_eq ha.circuit_ok)
  rw [X.secureRun_eq, Shipped.volume_eq (ha.nodes.trans_le hz) fun _ => ha.nodes] at h
  have hrun : Servers.run conf ⟨Evaluator.init circ X.s0 (gathered conf clients .p0),
    Evaluator.init circ X.s1 (gathered conf clients .p1)⟩ (Servers.schedule circ.circ) =
      some X.final := X.drives.run
  simp only [communication, X.dealer_run, X.party0, X.party1, Option.bind_eq_bind, Option.bind_some,
    hrun] at h
  exact (Prod.mk.inj (Prod.mk.inj (Option.some.inj h)).2).2

theorem dealt_lt {E : Entropy} (X : Execution conf circ E.streams (gathered conf clients .p0)
    (gathered conf clients .p1)) (id : Party) (hd : id ≠ .d) :
    (Preprocessor.dealt X.dealer id).length < 2 ^ 64 := by
  have h := ha.held_eq X
  have hv := ha.volume
  rw [← h, held] at hv
  cases id with
  | d => exact absurd rfl hd
  | p0 => omega
  | p1 => omega

end Admitted

def starting {conf : ProtocolConfig} {circ : Circuit}
    (X : Execution conf circ E.streams (gathered conf clients .p0) (gathered conf clients .p1)) :
    Party → Evaluator :=
  trio (Evaluator.init circ X.s0 (gathered conf clients .p0))
    (Evaluator.init circ X.s1 (gathered conf clients .p1))
    (Evaluator.init circ { X.dealer with preproc := fun _ => [], B := fun _ => [] }
      (gathered conf clients .d))

namespace Admitted

variable {conf : ProtocolConfig} {circ : Circuit} (ha : Admitted S clients conf circ)

include ha hcap

theorem prepared (X : Execution conf circ E.streams (gathered conf clients .p0)
    (gathered conf clients .p1)) : ∃ nets : Party → NetIOMP,
    (∀ id, id ≠ .d → NetIOMP.Recorded clients.length 3 (packets conf.bits id clients) (nets id)) ∧
    nets .d = NetIOMP.init 3 clients.length ∧
    Leads cap (System.quiet (deploy S E clients)) (System.quiet (stage clients
      (fun id => Evaluator.run S conf id (starting X id) circ.circ >>=
        finish clients.length id (nets id)) (await S clients.length 1))) := by
  obtain ⟨nets, hrec, hdealer, hlead⟩ := ha.received hcap E
  refine ⟨nets, hrec, hdealer, hlead.trans ?_⟩
  let evaluate := fun id => evaluateOn S clients.length id conf circ (gathered conf clients id) (nets id)
  have hsync := stage_sync hcap (h := fun i c _ => await S clients.length 2 i c)
    (fun id => ha.computeOn_eq (E := E) clients.length id (nets id)) fun _ _ => rfl
  refine hsync.trans ?_
  refine (stage_preprocess hcap X.dealer_run X.party0 X.party1 (ha.dealt_lt X) _ fun _ => rfl).trans ?_
  refine stage_sync (h := fun i c _ => await S clients.length 1 i c)
    (k := fun id _ => Evaluator.run S conf id (starting X id) circ.circ >>=
      finish clients.length id (nets id)) hcap (fun id => ?_) fun _ _ => rfl
  cases id <;> rfl

omit hcap

theorem answer_edge {c : Client} (hc : c ∈ clients) {k : ℕ} (hk : k < c.list.length)
    (he : c.graph.isV.getD k 0 = 0) : answer S conf (joint clients) (c.offset + k) = 0 := by
  refine released_edge ha.slices ha.config_eq.1 _ _ _ (by have := ha.fits hc; omega) ?_
  rw [Client.graph, (Graph.ofEntries_columns c.list).2.2.1, List.getD_eq_getElem?_getD,
    List.getElem?_map, List.getElem?_eq_getElem hk] at he
  have hzero : c.list[k].isV = 0 := he
  simp [dagList, List.getD_eq_getElem?_getD, joint_getElem? ha.slices hc hk, hzero]

theorem printResult_answer {out0 out1 : Vec} {c : Client} (hc : c ∈ clients)
    (h0 : conf.size ≤ out0.length) (h1 : conf.size ≤ out1.length)
    (hsum : ∀ i < conf.size, out0.getD i 0 + out1.getD i 0 = answer S conf (joint clients) i) :
    InputClient.printResult S c.graph (tab c.graph.size fun i =>
        (vecOf c.graph.size (vecBytes (c.part out0))).getD i 0 +
          (vecOf c.graph.size (vecBytes (c.part out1))).getD i 0) =
      some (tab c.list.length fun k => answer S conf (joint clients) (c.offset + k)) := by
  have hb := ha.fits hc
  have hread : ∀ out : Vec, conf.size ≤ out.length →
      vecOf c.list.length (vecBytes (c.part out)) = c.part out := by
    intro out hout
    conv_lhs => rw [← Client.part_length (hb.trans hout)]
    exact vecOf_vecBytes _
  have hresult : (tab c.list.length fun i => (c.part out0).getD i 0 + (c.part out1).getD i 0) =
      tab c.list.length fun k => answer S conf (joint clients) (c.offset + k) := by
    refine tab_congr fun k hk => ?_
    rw [Client.part, Client.part, slice_getD hk, slice_getD hk, hsum _ (by omega)]
  have hsize : c.graph.size = c.list.length := (Graph.ofEntries_columns c.list).2.2.2.2.1
  rw [hsize, hread out0 h0, hread out1 h1, hresult, InputClient.printResult, if_neg]
  rintro ⟨-, hnot⟩
  refine hnot fun k hk he => ?_
  rw [hsize] at hk
  rw [tab_getD_lt _ _ hk, ha.answer_edge hc hk he]

include hcap

theorem delivered {nets : Party → NetIOMP} (e : Party → Evaluator)
    (hrec : ∀ id, id ≠ .d → NetIOMP.Recorded clients.length 3 (packets conf.bits id clients) (nets id))
    (hdealer : nets .d = NetIOMP.init 3 clients.length)
    (h0 : conf.size ≤ (e .p0).online.output.length) (h1 : conf.size ≤ (e .p1).online.output.length)
    (hsum : ∀ i < conf.size, (e .p0).online.output.getD i 0 + (e .p1).online.output.getD i 0 =
      answer S conf (joint clients) i) :
    Leads cap (System.quiet (stage clients (fun id => finish clients.length id (nets id) (e id))
        (await S clients.length 1)))
      (System.quiet (stage clients (fun id => pure (.server (e id))) fun _ c =>
        pure (.client (tab c.list.length fun k => answer S conf (joint clients) (c.offset + k))))) := by
  let ended := fun id => (pure (.server (e id)) : Net Outcome)
  let sends := fun id : Party => sendResults id.pid clients.length (nets id) (e id).online.output >>=
    fun _ => ended id
  let prints := fun (c : Client) (share0 share1 : List Byte) =>
    ofOption (InputClient.printResult S c.graph (tab c.graph.size fun i =>
      (vecOf c.graph.size share0).getD i 0 + (vecOf c.graph.size share1).getD i 0)) >>= fun result =>
        (pure (.client result) : Net Outcome)
  let reads := fun (i : ℕ) (c : Client) (share0 : List Byte) =>
    recv (i + 3) 1 (4 * c.graph.size) >>= prints c share0
  have hawait : ∀ i c, await S clients.length 0 i c =
      recv (i + 3) 0 (4 * c.graph.size) >>= reads i c := by
    intro i c
    simp only [await, InputClient.receiveResult, bind_assoc, pure_bind]
    rfl
  refine (stage_sync hcap (h := fun i c _ => await S clients.length 0 i c)
    (k := fun id _ => sends id) (fun _ => rfl) fun _ _ => rfl).trans ?_
  refine (stage_result hcap .p0 (h := ended .p0) (k := reads) (fun c hc => (ha.fits hc).trans h0)
    (hrec .p0 (by decide)) rfl hawait).trans ?_
  have hsecond := stage_result hcap .p1 (h := ended .p1)
    (k := fun _ c => prints c (vecBytes (c.part (e .p0).online.output)))
    (fun c hc => (ha.fits hc).trans h1) (hrec .p1 (by decide))
    (Function.update_of_ne (show Party.p1 ≠ .p0 by decide) (ended .p0) sends) fun _ _ => rfl
  have hend : stage clients (Function.update (Function.update sends .p0 (ended .p0)) .p1 (ended .p1))
        (fun _ c => prints c (vecBytes (c.part (e .p0).online.output))
          (vecBytes (c.part (e .p1).online.output))) =
      stage clients (fun id => pure (.server (e id))) fun _ c => pure (.client
        (tab c.list.length fun k => answer S conf (joint clients) (c.offset + k))) := by
    refine stage_eq (fun id => ?_) (fun i c hc => ?_) fun i hi => by simp only [stage, hi]
    · rw [stage_pid]
      cases id with
      | p0 => rfl
      | p1 => rfl
      | d =>
        have hnone := sendResults_dealer ha.few (e .d).online.output
        rw [← hdealer] at hnone
        exact congrArg (· >>= fun _ => ended .d) hnone
    · rw [stage_client hc]
      have hprint := ha.printResult_answer (List.mem_of_getElem? hc) h0 h1 hsum
      simp only [prints, hprint]
      rfl
  rwa [hend] at hsecond

theorem finished (E : Entropy)
    (hfits : ∀ layer ∈ circ.circ, S.Fits cap (layer.map (Gate.sent conf)).sum) :
    ∃ e : Party → Evaluator, Leads cap (System.quiet (deploy S E clients))
      (System.quiet (stage clients (fun id => pure (.server (e id))) fun _ c =>
        pure (.client (tab c.list.length fun k => answer S conf (joint clients) (c.offset + k))))) := by
  obtain ⟨X, hlen, hanswer⟩ := ha.execution E
  obtain ⟨nets, hrec, hdealer, hlead⟩ := ha.prepared hcap X
  have hrun : Servers.run conf ⟨starting X .p0, starting X .p1⟩ (Servers.schedule circ.circ) =
    some X.final := X.drives.run
  let ending := trio X.final.e0 X.final.e1 (starting X .d)
  have hend : trio (finish clients.length .p0 (nets .p0) X.final.e0)
      (finish clients.length .p1 (nets .p1) X.final.e1)
      (finish clients.length .d (nets .d) (starting X .d)) =
        fun id => finish clients.length id (nets id) (ending id) := by
    funext id
    cases id <;> rfl
  have hout : (⟨X.dealer, X.final⟩ : Result).output = _ := zipWith_shares X.output
  rw [hout] at hlen hanswer
  refine ⟨ending, hlead.trans ((stage_evaluate (e := starting X .d)
    (k := fun id => finish clients.length id (nets id)) hcap hrun rfl hfits _ fun id => ?_).trans ?_)⟩
  · cases id <;> rfl
  rw [hend]
  refine ha.delivered hcap ending hrec hdealer ?_ ?_ fun i hi => ?_
  · exact hlen.trans X.output.left.ge
  · exact hlen.trans X.output.right.ge
  · exact (X.output.sum i).trans (hanswer i hi)

end Admitted

section deployments

variable {conf : ProtocolConfig} {circ : Circuit}

theorem stage_done (a : Party → Outcome) (b : ℕ → Client → Outcome) (r : ℕ) :
    ∃ o, stage clients (fun id => pure (a id)) (fun i c => pure (b i c)) r = .done o := by
  obtain _ | _ | _ | i := r
  · exact ⟨_, rfl⟩
  · exact ⟨_, rfl⟩
  · exact ⟨_, rfl⟩
  · cases hi : clients[i]? with
    | none => exact ⟨.absent, by simp only [stage, hi]; rfl⟩
    | some c => exact ⟨b i c, stage_client hi⟩

theorem deploy_absent {E : Entropy} (r : ℕ) (hr : r ∉ Finset.range (3 + clients.length)) :
    ∃ o, (System.quiet (deploy S E clients)).proc r = .done o := by
  obtain ⟨i, rfl⟩ := Nat.exists_eq_add_of_le' (show 3 ≤ r by rw [Finset.mem_range] at hr; omega)
  have hi : clients[i]? = none := List.getElem?_eq_none (by rw [Finset.mem_range] at hr; omega)
  exact ⟨.absent, by simp only [System.quiet, deploy, hi]; rfl⟩

theorem deployment_delivers (hcap : ∀ c, 0 < cap c) (ha : Admitted S clients conf circ)
    (hfits : ∀ layer ∈ circ.circ, S.Fits cap (layer.map (Gate.sent conf)).sum) (E : Entropy) :
    ∃ z sched, Settles (step cap) (System.quiet (deploy S E clients)) z sched ∧
      (∀ c, z.chan c = []) ∧ (∀ id : Party, ∃ e, z.proc id.pid = .done (.server e)) ∧
      ∀ i c, clients[i]? = some c → z.proc (i + 3) = .done (.client
        (tab c.list.length fun k => answer S conf (joint clients) (c.offset + k))) := by
  obtain ⟨e, hlead⟩ := ha.finished hcap E hfits
  let result := fun (_ : ℕ) (c : Client) =>
    Outcome.client (tab c.list.length fun k => answer S conf (joint clients) (c.offset + k))
  obtain ⟨sched, hs⟩ := hlead.settles (stuck_of_done cap (stage_done (fun id => .server (e id)) result))
  have hserver : ∀ id : Party, stage clients (fun id => pure (.server (e id)))
    (fun i c => pure (result i c)) id.pid = pure (.server (e id)) := fun id => stage_pid id
  have hclient : ∀ i c, clients[i]? = some c → stage clients (fun id => pure (.server (e id)))
    (fun i c => pure (result i c)) (i + 3) = pure (result i c) := fun i c hc => stage_client hc
  exact ⟨_, sched, hs, fun _ => rfl, fun id => ⟨e id, hserver id⟩, hclient⟩

theorem searchLaunch_bits : 2 ≤ 32 := by decide

def searchLaunch : Launch where
  alg := .bfs
  depth := 1
  bits := 2
  asserts := true
  blockSize := 1
  bits_pos := Nat.two_pos
  bits_le := searchLaunch_bits
  blockSize_pos := Nat.one_pos

theorem searchConfig_int : 3 < 2 ^ 31 := by decide

def searchConfig : ProtocolConfig := ⟨3, 2, 1, 2, searchConfig_int⟩

def searchCircuit : Circuit :=
  (build (Shipped.bfs.program searchConfig).algorithm (start searchConfig 1 true false false)).2

theorem searchLaunch_admitted : Admitted searchLaunch twoClients searchConfig searchCircuit where
  slices := twoClients_partition
  few := by decide
  flags := by decide
  nodes := Nat.two_pos
  config := by
    rw [joint_nodes]
    rfl
  circuit := rfl
  volume := by decide

theorem searchLaunch_fits (n : ℕ) : searchLaunch.Fits (fun _ => 4) n :=
  Nat.mul_le_mul_left 4 (min_le_left 1 n)

theorem zeroSeeds_length : (List.replicate 3 (0 : BitVec 64)).length = 3 := List.length_replicate ..

def zeroSeeds : Seeds := ⟨List.replicate 3 0, List.replicate 3 0, zeroSeeds_length, zeroSeeds_length⟩

def fixedEntropy : Entropy where
  seedsP0 := zeroSeeds
  seedsP1 := zeroSeeds
  seedHi01 := 1
  seedLo01 := 2
  dealer := ⟨fun i => BitVec.ofNat 64 i, 0⟩
  unused := ⟨fun _ => 0, 0⟩
  reseed := fun hi lo i => hi + lo + BitVec.ofNat 64 i

theorem deployment_delivers_search : ∃ z sched,
    Settles (step fun _ => 4) (System.quiet (deploy searchLaunch fixedEntropy twoClients)) z sched ∧
      (∀ c, z.chan c = []) ∧ (∀ id : Party, ∃ e, z.proc id.pid = .done (.server e)) ∧
      ∀ i c, twoClients[i]? = some c → z.proc (i + 3) = .done (.client (tab c.list.length fun k =>
        answer searchLaunch searchConfig (joint twoClients) (c.offset + k))) :=
  deployment_delivers (fun _ => by decide) searchLaunch_admitted (fun _ _ => searchLaunch_fits _)
    fixedEntropy

theorem deployment_completes_iff (hcap : ∀ c, 0 < cap c) (ha : Admitted S clients conf circ)
    (E : Entropy) : ((∃ t, Leads cap (System.quiet (deploy S E clients)) t ∧
      ∀ r < 3 + clients.length, ∃ o, t.proc r = .done o) ↔
        ∀ layer ∈ circ.circ, S.Fits cap (layer.map (Gate.sent conf)).sum) ∧
    ((¬ ∀ layer ∈ circ.circ, S.Fits cap (layer.map (Gate.sent conf)).sum) →
      ∃ z sched, Settles (step cap) (System.quiet (deploy S E clients)) z sched ∧
        Jammed cap 0 1 .ios .ios2 z) := by
  have hjam : (¬ ∀ layer ∈ circ.circ, S.Fits cap (layer.map (Gate.sent conf)).sum) →
      ∃ z sched, Settles (step cap) (System.quiet (deploy S E clients)) z sched ∧
        Jammed cap 0 1 .ios .ios2 z := by
    intro hnot
    push Not at hnot
    obtain ⟨X, -⟩ := ha.execution E
    obtain ⟨nets, -, -, hlead⟩ := ha.prepared hcap X
    have hrun : Servers.run conf ⟨starting X .p0, starting X .p1⟩ (Servers.schedule circ.circ) =
      some X.final := X.drives.run
    have hserver : ∀ id : Party, stage clients (fun id => Evaluator.run S conf id (starting X id)
        circ.circ >>= finish clients.length id (nets id)) (await S clients.length 1) id.pid =
      Evaluator.run S conf id (starting X id) circ.circ >>= finish clients.length id (nets id) :=
        fun id => stage_pid id
    obtain ⟨u, hu, hj⟩ := Evaluator.layers_jam hcap S hrun rfl hnot (hserver .p0) (hserver .p1)
    exact Jammed.settles (hlead.trans hu) hj _ deploy_absent
  refine ⟨⟨fun ⟨t, ⟨sched, ht⟩, hdone⟩ => ?_, fun hfits => ?_⟩, hjam⟩
  · by_contra hnot
    obtain ⟨z, _, hs, hj⟩ := hjam hnot
    obtain ⟨rest, hrest, -⟩ := hs.within sched t ht
    obtain ⟨o, ho⟩ := hdone 0 (by omega)
    obtain ⟨m, x, hput⟩ := hj.left
    rw [Leads.done ⟨rest, hrest⟩ ho] at hput
    cases hput
  · obtain ⟨e, hlead⟩ := ha.finished hcap E hfits
    exact ⟨_, hlead, fun r _ => stage_done (fun id => .server (e id)) (fun _ c =>
      .client (tab c.list.length fun k => answer S conf (joint clients) (c.offset + k))) r⟩

theorem searchCircuit_sends : ∃ layer ∈ searchCircuit.circ,
    0 < (layer.map (Gate.sent searchConfig)).sum := by decide +kernel

theorem deployment_completes_iff_search :
    (∃ t, Leads (fun _ => 4) (System.quiet (deploy searchLaunch fixedEntropy twoClients)) t ∧
      ∀ r < 3 + twoClients.length, ∃ o, t.proc r = .done o) ∧
    ∃ z sched, Settles (step fun _ => 3)
        (System.quiet (deploy searchLaunch fixedEntropy twoClients)) z sched ∧
      Jammed (fun _ => 3) 0 1 .ios .ios2 z := by
  refine ⟨(deployment_completes_iff (fun _ => by decide) searchLaunch_admitted fixedEntropy).1.mpr
    fun _ _ => searchLaunch_fits _,
    (deployment_completes_iff (fun _ => by decide) searchLaunch_admitted fixedEntropy).2 fun h => ?_⟩
  obtain ⟨layer, hl, hpos⟩ := searchCircuit_sends
  have hroom : 4 * min 1 (layer.map (Gate.sent searchConfig)).sum ≤ max 3 3 := h layer hl
  omega

end deployments

end GraphMpc
