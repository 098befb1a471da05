import GraphMpc.Types
import GraphMpc.Library.Bytes
import GraphMpc.Library.Processes

namespace GraphMpc

open Processes Proc Bytes

-- the two connections of a pair; each end uses one of them to send its data
inductive Connection where
  | ios
  | ios2
  deriving DecidableEq, Repr

-- the participants are numbered: the servers from 0 to 2 and the clients from 3 on
abbrev Net (R : Type) := Proc ℕ Connection Byte R

abbrev Channels := ℕ × ℕ × Connection → ℕ

def Party.pid : Party → ℕ
  | .p0 => 0
  | .p1 => 1
  | .d => 2

def vecBytes (v : Vec) : List Byte := encode 4 (v.map BitVec.toNat)

def vecOf (n : ℕ) (bytes : List Byte) : Vec := (words 4 n bytes).map (BitVec.ofNat 32)

@[simp] theorem vecBytes_length (v : Vec) : (vecBytes v).length = 4 * v.length := by
  rw [vecBytes, encode_length, List.length_map]

theorem vecOf_vecBytes (v : Vec) : vecOf v.length (vecBytes v) = v := by
  have hlt : ∀ n ∈ v.map BitVec.toNat, n < 256 ^ 4 := by
    intro n hn
    obtain ⟨x, -, rfl⟩ := List.mem_map.mp hn
    exact x.isLt
  have hwords := words_encode hlt
  rw [List.length_map] at hwords
  rw [vecOf, vecBytes, hwords, List.map_map]
  simp [Function.comp_def]

theorem vecBytes_append (v w : Vec) : vecBytes (v ++ w) = vecBytes v ++ vecBytes w := by
  simp [vecBytes, encode]

theorem vecBytes_flatten (l : List Vec) : vecBytes l.flatten = l.flatMap vecBytes := by
  induction l with
  | nil => rfl
  | cons v l ih => rw [List.flatten_cons, vecBytes_append, ih, List.flatMap_cons]

def blocksOf (blockSize : ℕ) (v : Vec) : List Vec :=
  (List.range (v.length / blockSize)).map fun i => (v.drop (i * blockSize)).take blockSize

def lastOf (blockSize : ℕ) (v : Vec) : Vec := v.drop (v.length / blockSize * blockSize)

theorem take_blocks (blockSize : ℕ) (v : Vec) (n : ℕ) :
    ((List.range n).map fun i => (v.drop (i * blockSize)).take blockSize).flatten =
      v.take (n * blockSize) := by
  induction n with
  | zero => simp
  | succ n ih =>
    rw [List.range_succ, List.map_append, List.flatten_append, ih, Nat.succ_mul, List.take_add]
    simp

theorem blocksOf_flatten (blockSize : ℕ) (v : Vec) :
    (blocksOf blockSize v).flatten ++ lastOf blockSize v = v := by
  rw [blocksOf, take_blocks, lastOf, List.take_append_drop]

theorem lastOf_length (blockSize : ℕ) (v : Vec) :
    (lastOf blockSize v).length = v.length % blockSize := by
  rw [lastOf, List.length_drop]
  have := Nat.div_add_mod' v.length blockSize
  omega

theorem blocksOf_length {blockSize : ℕ} {v b : Vec} (hb : b ∈ blocksOf blockSize v) :
    b.length = blockSize := by
  obtain ⟨i, hi, rfl⟩ := List.mem_map.mp hb
  have hle : (i + 1) * blockSize ≤ v.length :=
    (Nat.mul_le_mul_right _ (List.mem_range.mp hi)).trans (Nat.div_mul_le_self ..)
  rw [Nat.succ_mul] at hle
  rw [List.length_take, List.length_drop]
  omega

namespace NetIOMP

section programs

variable (blockSize party : ℕ)

def line (src dst : ℕ) : Connection := if src < dst then .ios else .ios2

def send (dst : ℕ) (data : List Byte) : Net Unit := putAll dst (line party dst) data

def recv (src len : ℕ) : Net (List Byte) := getAll src (line src party) len

def sendSizeT (dst n : ℕ) : Net Unit := send party dst (toBytes 8 n)

def recvSizeT (src : ℕ) : Net ℕ := do
  let bytes ← recv party src 8
  return ofBytes bytes

def sendVec (dst : ℕ) (data : Vec) : Net Unit := do
  (blocksOf blockSize data).forM fun b => send party dst (vecBytes b)
  if data.length % blockSize > 0 then send party dst (vecBytes (lastOf blockSize data))
  else pure ()

def recvVec (src n : ℕ) : Net Vec := do
  let blocks ← (List.range (n / blockSize)).mapM fun _ => recv party src (4 * blockSize)
  let last ← (if n % blockSize > 0 then recv party src (4 * (n % blockSize)) else pure [])
  return vecOf n (blocks.flatten ++ last)

-- the loop of online_communication: a block is sent before the one of the partner is received
def exchange (partner : ℕ) (dataSend : Vec) : Net Vec := do
  let blocks ← (blocksOf blockSize dataSend).mapM fun b => do
    send party partner (vecBytes b)
    recv party partner (4 * blockSize)
  send party partner (vecBytes (lastOf blockSize dataSend))
  let last ← recv party partner (4 * (dataSend.length % blockSize))
  return vecOf dataSend.length (blocks.flatten ++ last)

def syncConnection (peer : ℕ) (conn : Connection) (isServer : Bool) : Net Unit :=
  if isServer then do
    putAll peer conn [0]
    let _ ← getAll peer conn 1
    pure ()
  else do
    let _ ← getAll peer conn 1
    putAll peer conn [0]

def syncPair (pair : ℕ × ℕ) : Net Unit :=
  if pair.1 = party then do
    syncConnection pair.2 .ios false
    syncConnection pair.2 .ios2 true
  else if pair.2 = party then do
    syncConnection pair.1 .ios true
    syncConnection pair.1 .ios2 false
  else pure ()

def pairsBelow (nTotal : ℕ) : List (ℕ × ℕ) :=
  (List.range nTotal).flatMap fun i => (List.range nTotal).flatMap fun j =>
    if i < j then [(i, j)] else []

def sync (nTotal : ℕ) : Net Unit := (pairsBelow nTotal).forM (syncPair party)

end programs

section sessions

variable {R : Type} {cap : Channels} {blockSize p q : ℕ}

theorem sendVec_eq (data : Vec) : sendVec blockSize p q data = send p q (vecBytes data) := by
  have hsplit := congrArg (fun v => putAll q (line p q) (vecBytes v)) (blocksOf_flatten blockSize data)
  rw [vecBytes_append, vecBytes_flatten, putAll_append] at hsplit
  rw [send, ← hsplit, sendVec]
  simp only [send, forM_putAll]
  split
  · rfl
  · have hlast : lastOf blockSize data = [] := by
      rw [← List.length_eq_zero_iff, lastOf_length]
      omega
    rw [hlast]
    rfl

theorem recvVec_eq (n : ℕ) : recvVec blockSize p q n = recv p q (4 * n) >>= fun bytes =>
    pure (vecOf n bytes) := by
  have hn : 4 * n = n / blockSize * (4 * blockSize) + 4 * (n % blockSize) := by
    conv_lhs => rw [← Nat.div_add_mod' n blockSize]
    rw [Nat.mul_add, Nat.mul_left_comm]
  have hlast : (if n % blockSize > 0 then recv p q (4 * (n % blockSize)) else pure []) =
      recv p q (4 * (n % blockSize)) := by
    split
    · rfl
    · rename_i h
      rw [Nat.eq_zero_of_not_pos h]
      rfl
  have hblocks := mapM_getAll q (line q p) (List.range (n / blockSize)) (fun _ => 4 * blockSize)
    fun bytes => getAll q (line q p) (4 * (n % blockSize)) >>= fun last =>
      (pure (vecOf n (bytes ++ last)) : Net Vec)
  rw [List.map_const', List.sum_replicate_nat, List.length_range] at hblocks
  rw [recvVec, hlast, hn]
  simp only [recv, getAll_add, bind_assoc, pure_bind]
  exact hblocks

theorem session_send (hpq : p ≠ q) (hcap : ∀ c, 0 < cap c) (data : List Byte) :
    Session R cap p q (send p q data) (recv q p data.length) () data :=
  Session.transfer hpq (hcap _) data

theorem session_sizeT (hpq : p ≠ q) (hcap : ∀ c, 0 < cap c) {n : ℕ} (hn : n < 2 ^ 64) :
    Session R cap p q (sendSizeT p q n) (recvSizeT q p) () n := by
  have h := (session_send (R := R) hpq hcap (toBytes 8 n)).map_right ofBytes
  rwa [ofBytes_toBytes, toBytes_length, Nat.mod_eq_of_lt (by exact hn)] at h

theorem session_vec (hpq : p ≠ q) (hcap : ∀ c, 0 < cap c) (data : Vec) :
    Session R cap p q (sendVec blockSize p q data) (recvVec blockSize q p data.length) () data := by
  have h := (session_send (R := R) hpq hcap (vecBytes data)).map_right (vecOf data.length)
  rwa [vecBytes_length, vecOf_vecBytes, ← @sendVec_eq blockSize,
    ← @recvVec_eq blockSize] at h

def piecesOf (blockSize : ℕ) (v : Vec) : List (List Byte) :=
  (blocksOf blockSize v ++ [lastOf blockSize v]).map vecBytes

theorem exchange_eq (data : Vec) : exchange blockSize p q data =
    swapAll q (line p q) (line q p) (piecesOf blockSize data) >>= fun pieces =>
      pure (vecOf data.length pieces.flatten) := by
  have hblocks : (blocksOf blockSize data).mapM (fun b => do
        send p q (vecBytes b)
        recv p q (4 * blockSize)) =
      swapAll q (line p q) (line q p) ((blocksOf blockSize data).map vecBytes) := by
    rw [swapAll, List.mapM_map]
    refine mapM_congr fun b hb => ?_
    simp only [Function.comp_apply, Proc.swap, vecBytes_length, blocksOf_length hb]
    rfl
  have hlast : (send p q (vecBytes (lastOf blockSize data)) >>= fun _ =>
      recv p q (4 * (data.length % blockSize))) =
      swap q (line p q) (line q p) (vecBytes (lastOf blockSize data)) := by
    rw [Proc.swap, vecBytes_length, lastOf_length]
    rfl
  rw [exchange, hblocks, piecesOf, List.map_append, swapAll, swapAll, List.mapM_append]
  simp only [bind_assoc, pure_bind, List.map_cons, List.map_nil, List.mapM_cons, List.mapM_nil,
    List.flatten_append, List.flatten_cons, List.flatten_nil, List.append_nil, ← hlast]

theorem piecesOf_flatten (data : Vec) : (piecesOf blockSize data).flatten = vecBytes data := by
  rw [piecesOf, ← List.flatMap_def, ← vecBytes_flatten, List.flatten_append, List.flatten_cons,
    List.flatten_nil, List.append_nil, blocksOf_flatten]

theorem piecesOf_lengths {data data' : Vec} (hlen : data'.length = data.length) :
    List.Forall₂ (fun ms ms' : List Byte => ms'.length = ms.length) (piecesOf blockSize data)
      (piecesOf blockSize data') := by
  have hblocks : List.Forall₂ (fun v v' : Vec => v'.length = v.length)
      (blocksOf blockSize data ++ [lastOf blockSize data])
      (blocksOf blockSize data' ++ [lastOf blockSize data']) := by
    refine List.rel_append ?_ (List.Forall₂.cons ?_ .nil)
    · rw [blocksOf, blocksOf, List.forall₂_map_left_iff, List.forall₂_map_right_iff, hlen]
      exact List.forall₂_same.mpr fun i _ => by simp [hlen]
    · rw [lastOf_length, lastOf_length, hlen]
  rw [piecesOf, piecesOf, List.forall₂_map_left_iff, List.forall₂_map_right_iff]
  exact hblocks.imp fun v v' h => by rw [vecBytes_length, vecBytes_length, h]

section blocks

variable (hB : 0 < blockSize)

include hB

theorem piecesOf_mem {data : Vec} {piece : List Byte} (h : piece ∈ piecesOf blockSize data) :
    piece.length ≤ 4 * min blockSize data.length := by
  obtain ⟨b, hb, rfl⟩ := List.mem_map.mp h
  rw [vecBytes_length]
  rcases List.mem_append.mp hb with hb | hb
  · have hmem := blocksOf_length hb
    obtain ⟨i, hi, -⟩ := List.mem_map.mp hb
    have hbound := Nat.div_pos_iff.mp (Nat.zero_lt_of_lt (List.mem_range.mp hi))
    omega
  · rw [List.mem_singleton.mp hb, lastOf_length]
    have hle := Nat.mod_le data.length blockSize
    have hlt := Nat.mod_lt data.length hB
    omega

theorem piecesOf_head (data : Vec) : ∃ piece rest, piecesOf blockSize data = piece :: rest ∧
    piece.length = 4 * min blockSize data.length := by
  rcases lt_or_ge data.length blockSize with hlt | hge
  · refine ⟨vecBytes data, [], ?_, by rw [vecBytes_length, Nat.min_eq_right hlt.le]⟩
    rw [piecesOf, blocksOf, lastOf, Nat.div_eq_of_lt hlt]
    simp
  · obtain ⟨m, hm⟩ := Nat.exists_eq_succ_of_ne_zero (Nat.div_pos hge hB).ne'
    have hhead : (piecesOf blockSize data).head? = some (vecBytes (data.take blockSize)) := by
      rw [piecesOf, blocksOf, hm, List.range_succ_eq_map, List.map_cons, List.cons_append,
        List.map_cons, Nat.zero_mul, List.drop_zero, List.head?_cons]
    exact ⟨_, _, (List.cons_head?_tail hhead).symm, by rw [vecBytes_length, List.length_take]⟩

theorem session_exchange (hpq : p ≠ q) (hcap : ∀ c, 0 < cap c) {data data' : Vec}
    (hlen : data'.length = data.length)
    (hroom : 4 * min blockSize data.length ≤ max (cap (p, q, line p q)) (cap (q, p, line q p))) :
    Session R cap p q (exchange blockSize p q data) (exchange blockSize q p data') data' data := by
  have h := (Session.swapAll (R := R) hpq (fun ms hms => le_max_iff.mp
    ((piecesOf_mem hB hms).trans hroom)) (hcap (p, q, line p q)) (hcap (q, p, line q p))
    (@piecesOf_lengths blockSize _ _ hlen)).map (fun pieces => vecOf data.length pieces.flatten)
      fun pieces => vecOf data'.length pieces.flatten
  rw [← exchange_eq, ← exchange_eq, piecesOf_flatten, piecesOf_flatten, hlen, vecOf_vecBytes,
    ← hlen, vecOf_vecBytes] at h
  exact h

theorem exchange_jams (hpq : p ≠ q) {data data' : Vec} (hlen : data'.length = data.length)
    (hfull : max (cap (p, q, line p q)) (cap (q, p, line q p)) < 4 * min blockSize data.length)
    {procs : ℕ → Net R} {h k : Vec → Net R} (hp : procs p = exchange blockSize p q data >>= h)
    (hq : procs q = exchange blockSize q p data' >>= k) :
    ∃ t, Leads cap (System.quiet procs) t ∧ Jammed cap p q (line p q) (line q p) t := by
  obtain ⟨piece, rest, hpiece, hn⟩ := piecesOf_head hB data
  obtain ⟨piece', rest', hpiece', hn'⟩ := piecesOf_head hB data'
  rw [exchange_eq, hpiece, swapAll, List.mapM_cons] at hp
  rw [exchange_eq, hpiece', swapAll, List.mapM_cons] at hq
  simp only [bind_assoc] at hp hq
  obtain ⟨hleft, hright⟩ := max_lt_iff.mp hfull
  exact jam hpq (by rwa [hn]) (by rwa [hn', hlen]) hp hq

end blocks

theorem session_connection (hpq : p ≠ q) (hcap : ∀ c, 0 < cap c) (conn : Connection) :
    Session R cap p q (syncConnection q conn true) (syncConnection p conn false) () () := by
  have hthere : Session R cap p q (putAll q conn [(0 : Byte)]) (getAll p conn 1) () [0] :=
    Session.transfer hpq (hcap _) [0]
  have hback : Session R cap q p (putAll p conn [(0 : Byte)]) (getAll q conn 1) () [0] :=
    Session.transfer hpq.symm (hcap _) [0]
  rw [syncConnection, syncConnection, if_pos rfl, if_neg Bool.false_ne_true]
  exact hthere.bind (hback.map_right fun _ => ()).symm

theorem mem_pairsBelow {nTotal i j : ℕ} : (i, j) ∈ pairsBelow nTotal ↔ i < j ∧ j < nTotal := by
  simp only [pairsBelow, List.mem_flatMap, List.mem_range]
  constructor
  · rintro ⟨i', hi, j', hj, h⟩
    split_ifs at h with hlt
    · obtain ⟨rfl, rfl⟩ := Prod.mk.inj (List.mem_singleton.mp h)
      exact ⟨hlt, hj⟩
    · cases h
  · rintro ⟨hij, hj⟩
    exact ⟨i, hij.trans hj, j, hj, by simp [hij]⟩

theorem sync_out {nTotal : ℕ} (hp : nTotal ≤ p) : sync p nTotal = pure () := by
  have hskip : ∀ l : List (ℕ × ℕ), (∀ x ∈ l, x.1 ≠ p ∧ x.2 ≠ p) →
      l.forM (syncPair p) = pure () := by
    intro l hl
    induction l with
    | nil => rfl
    | cons x l ih =>
      obtain ⟨h1, h2⟩ := hl x (List.mem_cons_self ..)
      have hx : syncPair p x = pure () := by rw [syncPair, if_neg h1, if_neg h2]
      have hcons : (x :: l).forM (syncPair p) = syncPair p x >>= fun _ => l.forM (syncPair p) := rfl
      rw [hcons, hx, pure_bind, ih fun y hy => hl y (List.mem_cons_of_mem _ hy)]
  refine hskip _ fun x hx => ?_
  have := mem_pairsBelow.mp hx
  omega

theorem sync_leads (hcap : ∀ c, 0 < cap c) (nTotal : ℕ) {procs : ℕ → Net R} {k : ℕ → Unit → Net R}
    (hprocs : ∀ r, procs r = sync r nTotal >>= k r) :
    Leads cap (System.quiet procs) (System.quiet fun r => k r ()) := by
  refine meetings (fun x => x) (pairsBelow nTotal) (fun x hx => ?_) (fun x _ r h1 h2 => ?_) hprocs
  · have hne : x.1 ≠ x.2 := (mem_pairsBelow.mp hx).1.ne
    change Session R cap x.1 x.2 (syncPair x.1 x) (syncPair x.2 x) () ()
    rw [syncPair, if_pos rfl, syncPair, if_neg hne, if_pos rfl]
    exact (session_connection hne.symm hcap .ios).symm.bind (session_connection hne hcap .ios2)
  · exact (if_neg (Ne.symm h1)).trans (if_neg (Ne.symm h2))

end sessions

end NetIOMP

end GraphMpc
