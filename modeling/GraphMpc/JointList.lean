import GraphMpc.DagList
import GraphMpc.InputRoundTrip
import GraphMpc.SecureRun

namespace GraphMpc

open Tabulate Slices InputServer

namespace Client

def dagList (l : List Entry) : DagList where
  isV i := (l.map Entry.isV).getD i 0 ≠ 0
  src i := (l.map Entry.src).getD i 0
  dst i := (l.map Entry.dst).getD i 0

def payload (l : List Entry) (i : ℕ) : Ring := (l.map Entry.data).getD i 0

section shared

variable {conf : ProtocolConfig} {clients : List Client} {nodes : ℕ}

theorem shares_map {v0 v1 : Vec} {l : List Entry} {f : Entry → Ring} {y : ℕ → Ring}
    (h0 : v0.length = conf.size) (h1 : v1.length = conf.size)
    (h : List.zipWith (· + ·) v0 v1 = l.map f)
    (hy : ∀ i < conf.size, (l.map f).getD i 0 = y i) : Shares v0 v1 (tab conf.size y) := by
  have hlen : (l.map f).length = conf.size := by rw [← h, List.length_zipWith, h0, h1, Nat.min_self]
  have hshares := shares_zipWith (h0.trans h1.symm)
  rwa [h, eq_tab 0 hlen hy] at hshares

theorem getD_bit {l : List Entry} (f : Entry → Ring) {i j : ℕ} (hi : i < l.length) :
    (l.map fun e => if (f e).getLsbD j then (1 : Ring) else 0).getD i 0 =
      if ((l.map f).getD i 0).toNat.testBit j then 1 else 0 := by
  simp only [List.getD_eq_getElem?_getD, List.getElem?_map, List.getElem?_eq_getElem hi,
    Option.map_some, Option.getD_some]
  rfl

theorem merged_shared (hp : Partition (clients.map slice) conf.size)
    (hflags : ∀ e ∈ joint clients, e.isV = 0 ∨ e.isV = 1)
    (hn : nodes = (joint clients).countP (·.isV ≠ 0)) :
    SharedList conf (graphOf conf.bits (packets conf.bits .p0 clients) nodes)
      (graphOf conf.bits (packets conf.bits .p1 clients) nodes)
      ((dagList (joint clients)).listing conf.bits) (payload (joint clients)) := by
  have hrec := @graphs_reconstruct conf.bits _ _ hp nodes hn
  have h0 := @packets_sized conf.bits _ _ hp .p0
  have h1 := @packets_sized conf.bits _ _ hp .p1
  have hlen := joint_length hp
  have hplane : ∀ {v : List Vec}, v.length = conf.bits → (∀ w ∈ v, w.length = conf.size) →
      ∀ i < conf.bits, (v.getD i []).length = conf.size := by
    intro v hv hw i hi
    rw [List.getD_eq_getElem _ _ (hv ▸ hi), hw _ (List.getElem_mem _)]
  refine ⟨⟨h0.srcBits, h1.srcBits, h0.dstBits, h1.dstBits, tab_length .., tab_length ..⟩,
    fun j hj => ?_, fun j hj => ?_, shares_map h0.src h1.src hrec.src fun _ _ => rfl,
    shares_map h0.dst h1.dst hrec.dst fun _ _ => rfl, shares_map h0.isV h1.isV hrec.isV fun i hi => ?_,
    shares_map h0.data h1.data hrec.data fun _ _ => rfl⟩
  · refine shares_map (hplane h0.srcBits h0.srcPlanes j hj) (hplane h1.srcBits h1.srcPlanes j hj)
      (hrec.srcBits j hj) fun i hi => ?_
    rw [getD_bit Entry.src (hlen ▸ hi), DagList.listing, tab_getD_lt _ _ hj]
    rfl
  · refine shares_map (hplane h0.dstBits h0.dstPlanes j hj) (hplane h1.dstBits h1.dstPlanes j hj)
      (hrec.dstBits j hj) fun i hi => ?_
    rw [getD_bit Entry.dst (hlen ▸ hi), DagList.listing, tab_getD_lt _ _ hj]
    rfl
  · have hbit := hflags (joint clients)[i] (List.getElem_mem (hlen ▸ hi))
    simp only [DagList.listing, dagList, List.getD_eq_getElem?_getD, List.getElem?_map,
      List.getElem?_eq_getElem (hlen ▸ hi : i < (joint clients).length), Option.map_some,
      Option.getD_some]
    rcases hbit with h | h <;> simp [h]

theorem count_nodes (l : List Entry) :
    Nat.count (fun i => (dagList l).isV i = true) l.length = l.countP (·.isV ≠ 0) := by
  have hmap : l.map Entry.isV = tab l.length fun i => (l.map Entry.isV).getD i 0 :=
    eq_tab 0 (List.length_map ..) fun _ _ => rfl
  have hcount : l.countP (·.isV ≠ 0) = (l.map Entry.isV).countP (· ≠ 0) := by
    rw [List.countP_map]
    rfl
  rw [hcount, hmap, tab, List.countP_map, Nat.count]
  simp [dagList, Function.comp_def]

theorem released_edge (hp : Partition (clients.map slice) conf.size)
    (hn : conf.nodes = (joint clients).countP (·.isV ≠ 0)) (reverse dedup : Bool) (y : ℕ → Ring)
    {i : ℕ} (hi : i < conf.size) (he : (dagList (joint clients)).isV i = false) :
    Valuation.released ((((dagList (joint clients)).listing conf.bits).directed reverse).arrangement conf
      dedup) true y i = 0 := by
  have hisV : (((dagList (joint clients)).listing conf.bits).directed reverse).isV =
      (dagList (joint clients)).isV := by cases reverse <;> rfl
  generalize ((dagList (joint clients)).listing conf.bits).directed reverse = E at *
  have hlt := StableOrder.sortStep_lt_count (Listing.sortKeys_keeps (.one conf.size)
    (E.srcKeys ++ if dedup then [E.duplicates conf.size] else [])) (fun i => !E.isV i) hi
  have hcount : Nat.count (fun i => (!E.isV i) = false) conf.size = conf.nodes := by
    rw [hn, ← count_nodes, joint_length hp, hisV]
    simp
  rw [hcount] at hlt
  refine if_neg fun h => ?_
  have hv := hlt.mp h
  rw [hisV, he] at hv
  cases hv

end shared

end Client

end GraphMpc
