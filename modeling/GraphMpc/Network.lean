import GraphMpc.Library.Rendezvous
import Mathlib.Data.List.Range

namespace GraphMpc

structure NetworkConfig where
  id : ℕ
  nParties : ℕ
  nClients : ℕ
  port : ℕ
  IP : List String
  localhost : Bool

-- a blocking step of a participant on the connection that a port stands for
inductive NetworkAction where
  | dial (peer : ℕ) (address : Option String) (port : ℕ)
  | accept (port : ℕ)
  | send (port : ℕ)
  | recv (port : ℕ)
  deriving DecidableEq, Repr

open NetworkAction

namespace NetworkConfig

def nTotal (conf : NetworkConfig) : ℕ := conf.nParties + conf.nClients

-- none where the code reads past the end of conf.IP
def address (conf : NetworkConfig) (k : ℕ) : Option String :=
  if conf.localhost then some "127.0.0.1" else conf.IP[k]?

def pairPort (conf : NetworkConfig) (i j : ℕ) : ℕ := conf.port + 2 * (i * conf.nTotal + j)

def connectPair (conf : NetworkConfig) (i j : ℕ) : List NetworkAction :=
  if i = conf.id then
    [dial j (conf.address j) (conf.pairPort i j), accept (conf.pairPort i j + 1)]
  else if j = conf.id then
    [accept (conf.pairPort i j), dial i (conf.address i) (conf.pairPort i j + 1)]
  else []

def initNetwork (conf : NetworkConfig) : List NetworkAction :=
  (List.range conf.nTotal).flatMap fun i =>
    (List.range' (i + 1) (conf.nTotal - (i + 1))).flatMap fun j => conf.connectPair i j

-- TLSNetIO::sync: the end that accepted the connection is the server
def syncChannel (isServer : Bool) (port : ℕ) : List NetworkAction :=
  if isServer then [send port, recv port] else [recv port, send port]

def syncPair (conf : NetworkConfig) (i j : ℕ) : List NetworkAction :=
  if i = conf.id then
    syncChannel false (conf.pairPort i j) ++ syncChannel true (conf.pairPort i j + 1)
  else if j = conf.id then
    syncChannel true (conf.pairPort i j) ++ syncChannel false (conf.pairPort i j + 1)
  else []

def sync (conf : NetworkConfig) : List NetworkAction :=
  (List.range conf.nTotal).flatMap fun i => (List.range conf.nTotal).flatMap fun j =>
    if i < j then conf.syncPair i j else []

end NetworkConfig

-- setup::setupNetwork: none where an address is missing in the file
def setupNetwork (pid clientId numClients : ℕ) (isClient : Bool) (port : ℕ) (localhost : Bool)
    (netConfig : List String) : Option NetworkConfig := do
  let IP ← if localhost then some [] else (List.range 3).mapM fun i => netConfig[i]?
  return { id := if isClient then 3 + clientId else pid, nParties := 3, nClients := numClients,
           port := port, IP := IP, localhost := localhost }

namespace NetworkConfig

variable {conf : NetworkConfig}

def pairs (n : ℕ) : List (ℕ × ℕ) :=
  (List.range n).flatMap fun i => (List.range' (i + 1) (n - (i + 1))).map fun j => (i, j)

theorem mem_pairs {n i j : ℕ} : (i, j) ∈ pairs n ↔ i < j ∧ j < n := by
  simp only [pairs, List.mem_flatMap, List.mem_range, List.mem_map, List.mem_range'_1,
    Prod.mk.injEq]
  constructor
  · rintro ⟨_, hi, _, hj, rfl, rfl⟩
    omega
  · rintro ⟨hij, hj⟩
    exact ⟨i, by omega, j, by omega, rfl, rfl⟩

theorem initNetwork_eq (conf : NetworkConfig) :
    conf.initNetwork = (pairs conf.nTotal).flatMap fun x => conf.connectPair x.1 x.2 := by
  simp only [initNetwork, pairs, List.flatMap_assoc, List.flatMap_map]

theorem sync_eq (conf : NetworkConfig) :
    conf.sync = (pairs conf.nTotal).flatMap fun x => conf.syncPair x.1 x.2 := by
  simp only [sync, pairs, List.flatMap_assoc, List.flatMap_map]
  refine List.flatMap_congr fun i hi => ?_
  have hn : conf.nTotal = (i + 1) + (conf.nTotal - (i + 1)) := by
    have := List.mem_range.mp hi
    omega
  have hsplit : List.range conf.nTotal =
      List.range (i + 1) ++ List.range' (i + 1) (conf.nTotal - (i + 1)) := by
    rw [List.range_eq_range', List.range_eq_range']
    conv_lhs => rw [hn]
    rw [← List.range'_append, Nat.one_mul, Nat.zero_add]
  have hlow : (List.range (i + 1)).flatMap (fun j => if i < j then conf.syncPair i j else []) =
      [] := by
    refine List.flatMap_eq_nil_iff.mpr fun j hj => if_neg ?_
    have := List.mem_range.mp hj
    omega
  rw [hsplit, List.flatMap_append, hlow, List.nil_append]
  refine List.flatMap_congr fun j hj => if_pos ?_
  have := (List.mem_range'_1.mp hj).1
  omega

theorem mem_dial {k port : ℕ} {a : Option String} :
    dial k a port ∈ conf.initNetwork ↔ conf.id < conf.nTotal ∧ k < conf.nTotal ∧ k ≠ conf.id ∧
      a = conf.address k ∧ port = if conf.id < k then conf.pairPort conf.id k else
        conf.pairPort k conf.id + 1 := by
  rw [initNetwork_eq, List.mem_flatMap]
  constructor
  · rintro ⟨⟨i, j⟩, hij, h⟩
    obtain ⟨hlt, hj⟩ := mem_pairs.mp hij
    dsimp only [connectPair] at h
    split_ifs at h with h1 h2
    · simp only [List.mem_cons, dial.injEq, reduceCtorEq, List.not_mem_nil, or_false] at h
      obtain ⟨rfl, rfl, rfl⟩ := h
      rw [← h1, if_pos hlt]
      exact ⟨hlt.trans hj, hj, hlt.ne', rfl, rfl⟩
    · simp only [List.mem_cons, dial.injEq, reduceCtorEq, List.not_mem_nil, or_false,
        false_or] at h
      obtain ⟨rfl, rfl, rfl⟩ := h
      rw [← h2, if_neg (by omega)]
      exact ⟨hj, hlt.trans hj, hlt.ne, rfl, rfl⟩
    · cases h
  · rintro ⟨hid, hk, hne, rfl, rfl⟩
    rcases lt_or_gt_of_ne hne with h | h
    · refine ⟨(k, conf.id), mem_pairs.mpr ⟨h, hid⟩, ?_⟩
      simp [connectPair, hne, not_lt.mpr h.le]
    · exact ⟨(conf.id, k), mem_pairs.mpr ⟨h, hk⟩, by simp [connectPair, h]⟩

end NetworkConfig

section addresses

variable {netConfig : List String} {n pid clientId port : ℕ} {isClient : Bool}

theorem setupNetwork_eq (hlen : netConfig.length = 3 + n) :
    setupNetwork pid clientId n isClient port false netConfig =
      some ⟨if isClient then 3 + clientId else pid, 3, n, port, netConfig.take 3, false⟩ := by
  obtain _ | ⟨a, _ | ⟨b, _ | ⟨c, l⟩⟩⟩ := netConfig
  · simp at hlen
    omega
  · simp at hlen
    omega
  · simp at hlen
    omega
  · rfl

def DialsAddresses (netConfig : List String) (conf : NetworkConfig) : Prop :=
  ∀ k a port, dial k a port ∈ conf.initNetwork → ∃ address, netConfig[k]? = some address ∧
    a = some address

theorem dials_addresses_iff (hn : 1 ≤ n) (hlen : netConfig.length = 3 + n)
    (hparticipant : if isClient then clientId < n else pid < 3) :
    (∃ conf, setupNetwork pid clientId n isClient port false netConfig = some conf ∧
      DialsAddresses netConfig conf) ↔ n = 1 ∧ isClient = true := by
  rw [setupNetwork_eq hlen]
  simp only [Option.some.injEq, exists_eq_left']
  generalize hid : (if isClient then 3 + clientId else pid) = id
  have hread : ∀ k, (NetworkConfig.mk id 3 n port (netConfig.take 3) false).address k =
      if k < 3 then netConfig[k]? else none := fun k => by
    rw [NetworkConfig.address, if_neg (by simp), List.getElem?_take]
  constructor
  · intro h
    have hall : ∀ k, k < 3 + n → k ≠ id → k < 3 := by
      intro k hk hne
      have hdial := (@NetworkConfig.mem_dial ⟨id, 3, n, port, netConfig.take 3, false⟩
        k _ _).mpr ⟨?_, hk, hne, rfl, rfl⟩
      · obtain ⟨address, -, ha⟩ := h _ _ _ hdial
        rw [hread] at ha
        by_contra hlt
        rw [if_neg hlt] at ha
        cases ha
      · change id < 3 + n
        rw [← hid]
        split_ifs at hparticipant ⊢ <;> omega
    have h3 := hall 3 (by omega)
    have h4 := hall 4
    cases isClient
    · rw [if_neg (by simp)] at hid hparticipant
      omega
    · rw [if_pos rfl] at hid
      refine ⟨?_, rfl⟩
      omega
  · rintro ⟨rfl, rfl⟩ k a p hmem
    obtain ⟨-, hk, hne, rfl, -⟩ := NetworkConfig.mem_dial.mp hmem
    change k < 3 + 1 at hk
    change k ≠ id at hne
    rw [if_pos rfl] at hid hparticipant
    have hlt : k < 3 := by omega
    rw [hread, if_pos hlt]
    exact ⟨_, List.getElem?_eq_getElem (by omega), List.getElem?_eq_getElem (by omega)⟩

theorem dials_addresses_iff_client : (∃ conf, setupNetwork 0 0 1 true 4242 false
      ["10.0.0.1", "10.0.0.2", "10.0.0.3", "10.0.0.4"] = some conf ∧
      DialsAddresses ["10.0.0.1", "10.0.0.2", "10.0.0.3", "10.0.0.4"] conf) ↔ 1 = 1 ∧ true = true :=
  dials_addresses_iff (by decide) rfl (by decide)

theorem dials_unknown : ¬ ∃ conf, setupNetwork 0 0 1 false 4242 false
    ["10.0.0.1", "10.0.0.2", "10.0.0.3", "10.0.0.4"] = some conf ∧
    DialsAddresses ["10.0.0.1", "10.0.0.2", "10.0.0.3", "10.0.0.4"] conf := by
  rintro ⟨conf, hconf, h⟩
  rw [setupNetwork_eq rfl] at hconf
  obtain rfl := Option.some.inj hconf
  obtain ⟨address, -, ha⟩ := h 3 none _ (NetworkConfig.mem_dial.mpr
    ⟨by decide, by decide, by decide, by decide, rfl⟩)
  cases ha

end addresses

end GraphMpc
