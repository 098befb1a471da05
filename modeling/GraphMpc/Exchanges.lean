import GraphMpc.Participants
import GraphMpc.Traffic

namespace GraphMpc

open Tabulate Processes Proc Bytes NetIOMP

variable {R : Type} {cap : Channels} (hcap : ∀ c, 0 < cap c) (S : Launch) (E : Entropy)

theorem Party.pid_injective {id id' : Party} (h : id.pid = id'.pid) : id = id' := by
  cases id <;> cases id' <;> first
    | rfl
    | cases h

theorem Party.pid_lt (id : Party) : id.pid < 3 := by cases id <;> decide

section items

variable {p q : ℕ}

theorem sendItems_ring (v : Vec) : sendItems p q (v.map .ring) = send p q (vecBytes v) := by
  rw [sendItems, send]
  simp only [send, forM_putAll]
  rw [List.flatMap_map, vecBytes, encode, List.flatMap_map]
  rfl

include hcap

theorem session_ring (hpq : p ≠ q) (v : Vec) : Session R cap p q (sendItems p q (v.map .ring))
    (recv q p (4 * v.length)) () (vecBytes v) := by
  rw [sendItems_ring, ← vecBytes_length]
  exact session_send hpq hcap (vecBytes v)

theorem session_packet (hpq : p ≠ q) {pkt : Packet} (hle : pkt.start ≤ pkt.stop)
    (hlt : pkt.stop < 2 ^ 64) (hlen : pkt.entries.length =
      4 * (pkt.stop - pkt.start) + 2 * (pkt.stop - pkt.start) * S.bits) :
    Session R cap p q (sendItems p q (InputClient.sendPacket pkt))
      (InputServer.receivePacket S q p) () (.ok pkt) := by
  have hsizes := (session_sizeT (R := R) hpq hcap (hle.trans_lt hlt))
  have hstop := (session_sizeT (R := R) hpq hcap hlt)
  refine hsizes.bind (hstop.bind ?_)
  rw [if_neg hle.not_gt]
  have hring := (session_ring (R := R) hcap hpq pkt.entries).map_right fun bytes =>
    (Except.ok ⟨pkt.start, pkt.stop, vecOf pkt.entries.length bytes⟩ :
      Except InputServer.RecvError Packet)
  rw [vecOf_vecBytes, hlen] at hring
  exact hring

end items

theorem seedsOf_seedBytes (v : List (BitVec 64)) : seedsOf v.length (seedBytes v) = v := by
  have hlt : ∀ n ∈ v.map BitVec.toNat, n < 256 ^ 8 := by
    intro n hn
    obtain ⟨x, -, rfl⟩ := List.mem_map.mp hn
    exact x.isLt
  have hwords := words_encode hlt
  rw [List.length_map] at hwords
  rw [seedsOf, seedBytes, hwords, List.map_map]
  simp [Function.comp_def]

theorem seedBytes_length (v : List (BitVec 64)) : (seedBytes v).length = 8 * v.length := by
  rw [seedBytes, encode_length, List.length_map]

namespace Preprocessor

section seeds

variable (id : Party) (hid : id ≠ .d)

include hcap

include hid in
theorem session_seeds (s : Seeds) {rngs : RandomGenerators}
    (h : E.partyCreateRngs (E.unseeded E.unused) s.hi s.lo = some rngs) :
    Session R cap 2 id.pid (sendSeeds id.pid s) (recvRngs E id.pid) () rngs := by
  have hne : 2 ≠ id.pid := fun he => hid (Party.pid_injective he.symm)
  have hcount := session_sizeT (R := R) hne hcap (n := s.hi.length) (by rw [s.hi_length]; decide)
  have hhi := session_send (R := R) hne hcap (seedBytes s.hi)
  have hlo := session_send (R := R) hne hcap (seedBytes s.lo)
  rw [seedBytes_length] at hhi hlo
  rw [s.lo_length, ← s.hi_length] at hlo
  refine hcount.bind (hhi.bind (hlo.bind_right ?_))
  have hlen : s.lo.length = s.hi.length := s.lo_length.trans s.hi_length.symm
  rw [seedsOf_seedBytes, ← hlen, seedsOf_seedBytes, h]
  rfl

theorem session_seed : Session R cap 0 1 (exchangeSeed E .p0) (exchangeSeed E .p1)
    (E.seedHi01, E.seedLo01) (E.seedHi01, E.seedLo01) := by
  have hhi := session_sizeT (R := R) (p := 0) (q := 1) (by decide) hcap E.seedHi01.isLt
  have hlo := session_sizeT (R := R) (p := 0) (q := 1) (by decide) hcap E.seedLo01.isLt
  refine hhi.bind (hlo.bind ?_)
  rw [BitVec.ofNat_toNat, BitVec.ofNat_toNat, BitVec.setWidth_eq, BitVec.setWidth_eq]
  exact Session.pure (by decide) ..

include hid in
theorem session_dealt (data : Storage) (hlt : (dealt data id).length < 2 ^ 64) :
    Session R cap 2 id.pid (sendDealt S id data) (recvDealt S id.pid) () (dealt data id) := by
  have hne : 2 ≠ id.pid := fun he => hid (Party.pid_injective he.symm)
  exact (session_sizeT hne hcap hlt).bind (session_vec hne hcap (dealt data id))

end seeds

end Preprocessor

section layers

variable {conf : ProtocolConfig} {s s' : Servers} {layer : List Gate} {circ : List (List Gate)}

namespace Servers

theorem run_append {l l' : List Action} : s.run conf (l ++ l') = (s.run conf l).bind (·.run conf l') :=
  List.foldlM_append

theorem run_send (h : s.run conf (layer.map .send) = some s') :
    layer.foldlM (Evaluator.evaluateSend conf .p0) s.e0 = some s'.e0 ∧
      layer.foldlM (Evaluator.evaluateSend conf .p1) s.e1 = some s'.e1 := by
  induction layer generalizing s with
  | nil => exact Option.some.inj h ▸ ⟨rfl, rfl⟩
  | cons f layer ih =>
    obtain ⟨t, ht, hrest⟩ := Option.bind_eq_some_iff.mp h
    obtain ⟨e0, h0, ht⟩ := Option.bind_eq_some_iff.mp ht
    obtain ⟨e1, h1, ht⟩ := Option.bind_eq_some_iff.mp ht
    obtain ⟨i0, i1⟩ := ih hrest
    rw [← Option.some.inj ht] at i0 i1
    rw [List.foldlM_cons, List.foldlM_cons, h0, h1]
    exact ⟨i0, i1⟩

theorem run_recv (h : s.run conf (layer.map .recv) = some s') :
    layer.foldlM (Evaluator.evaluateRecv conf .p0) s.e0 = some s'.e0 ∧
      layer.foldlM (Evaluator.evaluateRecv conf .p1) s.e1 = some s'.e1 := by
  induction layer generalizing s with
  | nil => exact Option.some.inj h ▸ ⟨rfl, rfl⟩
  | cons f layer ih =>
    obtain ⟨t, ht, hrest⟩ := Option.bind_eq_some_iff.mp h
    obtain ⟨e0, h0, ht⟩ := Option.bind_eq_some_iff.mp ht
    obtain ⟨e1, h1, ht⟩ := Option.bind_eq_some_iff.mp ht
    obtain ⟨i0, i1⟩ := ih hrest
    rw [← Option.some.inj ht] at i0 i1
    rw [List.foldlM_cons, List.foldlM_cons, h0, h1]
    exact ⟨i0, i1⟩

theorem run_send_pending (id : Party) (h : s.run conf (layer.map .send) = some s') :
    s'.pending id = s.pending id + (layer.map (Gate.sent conf)).sum := by
  induction layer generalizing s with
  | nil => exact Option.some.inj h ▸ rfl
  | cons f layer ih =>
    obtain ⟨t, ht, hrest⟩ := Option.bind_eq_some_iff.mp h
    rw [ih hrest, step_pending ht, pendingAfter, List.map_cons, List.sum_cons, Nat.add_assoc]

end Servers

-- one of the connections between the servers has room for the first block of n elements
def Launch.Fits (cap : Channels) (n : ℕ) : Prop :=
  4 * min S.blockSize n ≤ max (cap (0, 1, .ios)) (cap (1, 0, .ios2))

theorem Message.receive_nothing {m : Message} (h : m.dataSend.length = 0) (data : Vec) :
    m.receive data = m := by
  obtain ⟨mulVals, andVals, shuffleVals, revealVals⟩ := m
  simp only [dataSend, List.length_append] at h
  obtain rfl : mulVals = [] := List.length_eq_zero_iff.mp (by omega)
  obtain rfl : andVals = [] := List.length_eq_zero_iff.mp (by omega)
  obtain rfl : shuffleVals = [] := List.length_eq_zero_iff.mp (by omega)
  obtain rfl : revealVals = [] := List.length_eq_zero_iff.mp (by omega)
  rfl

namespace Evaluator

include hcap

theorem session_online (h : s.onlineCommunication = some s')
    (hfits : S.Fits cap (s.pending .p0)) :
    Session R cap 0 1 (onlineCommunication S .p0 s.e0) (onlineCommunication S .p1 s.e1)
      s'.e0 s'.e1 := by
  rw [Servers.onlineCommunication] at h
  split at h
  · rename_i hlen
    obtain rfl := Option.some.inj h
    rw [onlineCommunication, onlineCommunication, ← hlen]
    by_cases hn : s.e0.online.vals.dataSend.length = 0
    · rw [if_pos hn, if_pos hn, Online.receive, Online.receive, Message.receive_nothing hn,
        Message.receive_nothing (hlen ▸ hn)]
      exact Session.pure (by decide) ..
    · rw [if_neg hn, if_neg hn]
      exact (session_exchange S.blockSize_pos (by decide) hcap hlen.symm hfits).map
        (fun data => { s.e0 with online := s.e0.online.receive data })
        fun data => { s.e1 with online := s.e1.online.receive data }
  · cases h

theorem session_layer (h : s.run conf (Servers.layerSchedule layer) = some s')
    (hpending : s.pending .p0 = 0) (hfits : S.Fits cap (layer.map (Gate.sent conf)).sum) :
    Session R cap 0 1 (runLayer S conf .p0 s.e0 layer) (runLayer S conf .p1 s.e1 layer)
      s'.e0 s'.e1 ∧ s'.pending .p0 = 0 := by
  rw [Servers.layerSchedule, Servers.run_append, Servers.run_append, Servers.run_append] at h
  obtain ⟨t2, h, hclear⟩ := Option.bind_eq_some_iff.mp h
  obtain ⟨t1, h, hrecv⟩ := Option.bind_eq_some_iff.mp h
  obtain ⟨t0, hsend, hexchange⟩ := Option.bind_eq_some_iff.mp h
  obtain ⟨u, hu, hexchange⟩ := Option.bind_eq_some_iff.mp hexchange
  obtain rfl := Option.some.inj hexchange
  have hp := Servers.run_send_pending .p0 hsend
  rw [hpending, Nat.zero_add] at hp
  obtain ⟨hs0, hs1⟩ := Servers.run_send hsend
  obtain ⟨hr0, hr1⟩ := Servers.run_recv hrecv
  obtain rfl := Option.some.inj hclear
  have honline := session_online (R := R) hcap S hu (hp ▸ hfits)
  refine ⟨?_, rfl⟩
  rw [runLayer, runLayer, hs0, hs1]
  refine honline.bind ?_
  rw [hr0, hr1]
  exact Session.pure (by decide) ..

theorem session_layers (h : s.run conf (Servers.schedule circ) = some s')
    (hpending : s.pending .p0 = 0)
    (hfits : ∀ layer ∈ circ, S.Fits cap (layer.map (Gate.sent conf)).sum) :
    Session R cap 0 1 (circ.foldlM (runLayer S conf .p0) s.e0)
      (circ.foldlM (runLayer S conf .p1) s.e1) s'.e0 s'.e1 := by
  induction circ generalizing s with
  | nil =>
    obtain rfl := Option.some.inj h
    exact Session.pure (by decide) ..
  | cons layer circ ih =>
    rw [Servers.schedule, List.flatMap_cons, Servers.run_append] at h
    obtain ⟨t, ht, hrest⟩ := Option.bind_eq_some_iff.mp h
    obtain ⟨hfirst, hp⟩ := session_layer (R := R) hcap S ht hpending
      (hfits layer (List.mem_cons_self ..))
    exact hfirst.bind (ih hrest hp fun layer hl => hfits layer (List.mem_cons_of_mem _ hl))

theorem layers_jam (h : s.run conf (Servers.schedule circ) = some s')
    (hpending : s.pending .p0 = 0)
    (hfull : ∃ layer ∈ circ, ¬ S.Fits cap (layer.map (Gate.sent conf)).sum) {procs : ℕ → Net R}
    {k0 k1 : Evaluator → Net R} (h0 : procs 0 = circ.foldlM (runLayer S conf .p0) s.e0 >>= k0)
    (h1 : procs 1 = circ.foldlM (runLayer S conf .p1) s.e1 >>= k1) :
    ∃ t, Leads cap (System.quiet procs) t ∧ Jammed cap 0 1 .ios .ios2 t := by
  induction circ generalizing s procs with
  | nil =>
    obtain ⟨layer, hl, -⟩ := hfull
    cases hl
  | cons layer circ ih =>
    rw [Servers.schedule, List.flatMap_cons, Servers.run_append] at h
    obtain ⟨t, ht, hrest⟩ := Option.bind_eq_some_iff.mp h
    rw [List.foldlM_cons, bind_assoc] at h0 h1
    by_cases hfits : S.Fits cap (layer.map (Gate.sent conf)).sum
    · obtain ⟨hfirst, hp⟩ := session_layer (R := R) hcap S ht hpending hfits
      obtain ⟨layer', hl, hnot⟩ := hfull
      have hmem : layer' ∈ circ := by
        rcases List.mem_cons.mp hl with rfl | hl
        · exact absurd hfits hnot
        · exact hl
      have hlead := hfirst.leads procs _ _ h0 h1
      obtain ⟨u, hu, hj⟩ := ih hrest hp ⟨layer', hmem, hnot⟩
        ((Function.update_of_ne (by decide) _ _).trans (Function.update_self ..))
        (Function.update_self ..)
      exact ⟨u, hlead.trans hu, hj⟩
    · rw [Servers.layerSchedule, Servers.run_append, Servers.run_append, Servers.run_append] at ht
      obtain ⟨t2, ht, -⟩ := Option.bind_eq_some_iff.mp ht
      obtain ⟨t1, ht, -⟩ := Option.bind_eq_some_iff.mp ht
      obtain ⟨t0, hsend, hexchange⟩ := Option.bind_eq_some_iff.mp ht
      obtain ⟨u, hu, -⟩ := Option.bind_eq_some_iff.mp hexchange
      have hu : t0.onlineCommunication = some u := hu
      rw [Servers.onlineCommunication] at hu
      split at hu
      · rename_i hlen
        have hp : t0.e0.online.vals.dataSend.length = _ := Servers.run_send_pending .p0 hsend
        rw [hpending, Nat.zero_add] at hp
        have hfull := not_le.mp hfits
        have hn : t0.e0.online.vals.dataSend.length ≠ 0 := by omega
        obtain ⟨hs0, hs1⟩ := Servers.run_send hsend
        rw [runLayer, hs0] at h0
        rw [runLayer, hs1] at h1
        simp only [ofOption, done_bind, onlineCommunication, if_neg hn, if_neg (hlen ▸ hn),
          bind_assoc] at h0 h1
        exact exchange_jams S.blockSize_pos (by decide) hlen.symm (by rw [hp]; exact hfull) h0 h1
      · cases hu

end Evaluator

end layers

end GraphMpc
