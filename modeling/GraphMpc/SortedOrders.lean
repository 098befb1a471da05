import GraphMpc.SharedWires
import GraphMpc.Duplicates

namespace GraphMpc

open Tabulate StableOrder Circuit GraphMpc.Valuation

def positions (n : ℕ) (key : ℕ → ℕ) : Vec := tab n fun i => BitVec.ofNat 32 (position n key i)

theorem positions_congr {n : ℕ} {key key' : ℕ → ℕ} (h : ∀ i < n, key i = key' i) :
    positions n key = positions n key' :=
  tab_congr fun i hi => by rw [position_congr h hi]

section wires

variable (conf : ProtocolConfig) (columns : ℕ) (inInputOrder reverse dedup : Bool)

def flaggedInputs : Inputs :=
  (preMp (withInputs (start conf columns inInputOrder reverse dedup))).2.inp

def orderWires : MPContext := (withOrders (start conf columns inInputOrder reverse dedup)).ctx

variable {conf columns inInputOrder reverse dedup} {V : Valuation conf} {E : Listing} {x : ℕ → Ring}

theorem withInputs_lists (hF : Fed V E x (columnInputs columns))
    (hsub : (withInputs (start conf columns inInputOrder reverse dedup)).gates ⊆ V.gates) :
    Lists V (withInputs (start conf columns inInputOrder reverse dedup)).inp
      (E.directed reverse) := by
  rw [withInputs_eq] at hsub ⊢
  exact (setInputs_lists reverse hsub hF).2.1

theorem withInputs_size :
    (withInputs (start conf columns inInputOrder reverse dedup)).size = conf.size ∧
      (withInputs (start conf columns inInputOrder reverse dedup)).deduplication = dedup := by
  rw [withInputs_eq]
  exact ⟨rfl, rfl⟩

theorem orders_sorted (hn : 0 < conf.size) (hF : Fed V E x (columnInputs columns))
    (hsub : (withOrders (start conf columns inInputOrder reverse dedup)).gates ⊆ V.gates) :
    Sorted V (orderWires conf columns inInputOrder reverse dedup)
      ((E.directed reverse).arrangement conf dedup) := by
  obtain ⟨hsize, hd⟩ := @withInputs_size conf columns inInputOrder reverse dedup
  obtain ⟨L, hO⟩ := orders_extend conf
    (withInputs_keyed conf columns inInputOrder reverse dedup) hsize hn
  rw [withOrders, hO.adds.grows.gates, List.append_subset] at hsub
  have hsorted := (hO.values V hsub.2 _ (withInputs_lists hF hsub.1)).2
  rwa [hd] at hsorted

theorem orders_wired :
    Wire (withOrders (start conf columns inInputOrder reverse dedup)).gates
        (orderWires conf columns inInputOrder reverse dedup).srcOrder ∧
      Wire (withOrders (start conf columns inInputOrder reverse dedup)).gates
        (orderWires conf columns inInputOrder reverse dedup).dstOrder ∧
      Wire (withOrders (start conf columns inInputOrder reverse dedup)).gates
        (orderWires conf columns inInputOrder reverse dedup).vtxOrder := by
  obtain ⟨L, hO⟩ := orders_spec (withInputs_keyed conf columns inInputOrder reverse dedup)
  exact ⟨hO.src, hO.dst, hO.vtx⟩

theorem flags_wired (hn : 0 < conf.size) : ∃ msbs,
    (flaggedInputs conf columns inInputOrder reverse true).srcOrderBits.getLast? = some msbs ∧
    (flaggedInputs conf columns inInputOrder reverse true).dstOrderBits.getLast? = some msbs ∧
    Wire (withOrders (start conf columns inInputOrder reverse true)).gates msbs ∧
    ∀ V : Valuation conf,
      (withOrders (start conf columns inInputOrder reverse true)).gates ⊆ V.gates →
        ∀ E x, Fed V E x (columnInputs columns) →
          V.Bits msbs ((E.directed reverse).duplicates conf.size) := by
  obtain ⟨hsize, hd⟩ := @withInputs_size conf columns inInputOrder reverse true
  have hk := withInputs_keyed conf columns inInputOrder reverse true
  obtain ⟨L0, msbs, F⟩ := preMp_extends conf hk hd hsize hn
  obtain ⟨L, hO⟩ := sorts_deduplicated_extends conf hk hd F
  have hgates := hO.adds.grows.gates
  have hsub : (preMp (withInputs (start conf columns inInputOrder reverse true))).2.gates ⊆
      (withOrders (start conf columns inInputOrder reverse true)).gates := by
    rw [withOrders, hgates, F.adds.grows.gates, ← List.append_assoc]
    exact List.subset_append_left ..
  refine ⟨msbs, ?_, ?_, ?_, fun V hV E x hF => ?_⟩
  · rw [flaggedInputs, F.inp, List.getLast?_concat]
  · rw [flaggedInputs, F.inp, List.getLast?_concat]
  · exact F.wire.2.imp fun f hf => ⟨hsub hf.1, hf.2⟩
  · have hV := List.Subset.trans hsub hV
    rw [F.adds.grows.gates, List.append_subset] at hV
    exact (F.values V hV.2 _ (withInputs_lists hF hV.1)).2.2

end wires

section orders

variable {conf : ProtocolConfig} {V : Valuation conf} {w : ℕ} {ρ : Equiv.Perm ℕ} {L : DagList}

theorem Valuation.Order.holds_positions (h : V.Order w ρ) {key : ℕ → ℕ}
    (hs : Sorts conf.size (refine (· < ·) key) ρ) :
    V.Holds w fun i => BitVec.ofNat 32 (position conf.size key i) :=
  h.2.congr fun i hi => by rw [hs.position_eq h.1 hi]

def flagged (conf : ProtocolConfig) (key : ℕ → ℕ) (flag : ℕ → Bool) (i : ℕ) : ℕ :=
  key i + 2 ^ (conf.bits + 1) * (flag i).toNat

theorem flagged_false {key : ℕ → ℕ} {i : ℕ} : flagged conf key (fun _ => false) i = key i := by
  simp [flagged]

namespace DagList

def vtxKey (L : DagList) (i : ℕ) : ℕ := (L.src i).toNat + 2 ^ 32 * (!L.isV i).toNat

theorem Valid.key_lt (h : L.Valid conf) {i : ℕ} (hi : i < conf.size) :
    L.srcKey i < 2 ^ (conf.bits + 1) ∧ L.dstKey i < 2 ^ (conf.bits + 1) := by
  have hs := h.src_lt i hi
  have hd := h.dst_lt i hi
  have h1 : (!L.isV i).toNat ≤ 1 := Bool.toNat_le _
  have h2 : (L.isV i).toNat ≤ 1 := Bool.toNat_le _
  rw [pow_succ]
  constructor
  · rw [srcKey]
    omega
  · rw [dstKey]
    omega

theorem Valid.srcOrder_sorts (h : L.Valid conf) (dedup : Bool) :
    Sorts conf.size (refine (· < ·) (flagged conf L.srcKey (L.surplus conf dedup)))
      ((L.listing conf.bits).srcOrder conf.size dedup) :=
  (sorts_deduped L dedup h.src_sorts).congr fun _ hi _ hj =>
    refine_refine _ (h.key_lt hi).1 (h.key_lt hj).1

theorem Valid.dstOrder_sorts (h : L.Valid conf) (dedup : Bool) :
    Sorts conf.size (refine (· < ·) (flagged conf L.dstKey (L.surplus conf dedup)))
      ((L.listing conf.bits).dstOrder conf.size dedup) :=
  (sorts_deduped L dedup h.dst_sorts).congr fun _ hi _ hj =>
    refine_refine _ (h.key_lt hi).2 (h.key_lt hj).2

theorem Valid.vtxOrder_sorts (h : L.Valid conf) :
    Sorts conf.size (refine (· < ·) L.vtxKey)
      ((L.listing conf.bits).arrangement conf false).vtx := by
  have hkeeps := ((L.listing conf.bits).arrangement conf false).src_keeps
  refine (((h.srcOrder_sorts false).step hkeeps fun i => !L.isV i)).congr fun i hi j hj => ?_
  have hi := (L.src i).isLt
  have hj := (L.src j).isLt
  have hflag : L.surplus conf false = fun _ => false := rfl
  simp only [refine, hflag, flagged_false, srcKey, vtxKey]
  cases L.isV i <;> cases L.isV j <;> simp <;> omega

end DagList

end orders

section runs

variable {conf : ProtocolConfig} {p : Program} {columns : ℕ} {inInputOrder reverse dedup : Bool}
  {circ : Circuit} {g0 g1 : Graph} {L : DagList} {x : ℕ → Ring}

namespace Program

variable (hsize : 0 < conf.size) (h0 : 0 < conf.depth → 0 < conf.nodes)
  (he : p.Evaluable conf columns) (hV : L.Valid conf)
  (hin : SharedList conf g0 g1 (L.listing conf.bits) x) (g : Streams)

include hsize h0 he hV hin

theorem exists_sorts
    (hcirc : circ = (build p.algorithm (start conf columns inInputOrder reverse dedup)).2) :
    ∃ X : Execution conf circ g g0 g1,
      (withOrders (start conf columns inInputOrder reverse dedup)).gates ⊆ X.val.gates ∧
        Fed X.val (L.listing conf.bits) x (columnInputs columns) := by
  obtain ⟨X, hX, hcols⟩ := exists_evaluation hV.nodes_le hsize h0 he hcirc g hin
  have hF := hin.fed X.inputs
  rw [hcols] at hF
  refine ⟨X, ?_, hF⟩
  rw [hX]
  exact construct_contains conf columns inInputOrder reverse dedup p.algorithm_lawful

theorem orders_reconstruct
    (hcirc : circ = (build p.algorithm (start conf columns inInputOrder reverse dedup)).2) :
    Reconstructs conf circ g0 g1 g (orderWires conf columns inInputOrder reverse dedup).srcOrder
        (positions conf.size
          (flagged conf (L.directed reverse).srcKey ((L.directed reverse).surplus conf dedup))) ∧
      Reconstructs conf circ g0 g1 g (orderWires conf columns inInputOrder reverse dedup).dstOrder
        (positions conf.size
          (flagged conf (L.directed reverse).dstKey ((L.directed reverse).surplus conf dedup))) ∧
      (dedup = false → Reconstructs conf circ g0 g1 g
        (orderWires conf columns inInputOrder reverse dedup).vtxOrder
          (positions conf.size (L.directed reverse).vtxKey)) := by
  obtain ⟨X, hsub, hF⟩ := exists_sorts hsize h0 he hV hin g hcirc
  have hD := hV.directed reverse
  have hs := orders_sorted hsize hF hsub
  rw [DagList.listing_directed] at hs
  obtain ⟨wsrc, wdst, wvtx⟩ := @orders_wired conf columns inInputOrder reverse dedup
  have hwire : ∀ {w}, Wire (withOrders (start conf columns inInputOrder reverse dedup)).gates w →
      Wire X.val.gates w := fun hw => hw.imp fun _ hf => ⟨hsub hf.1, hf.2⟩
  refine ⟨X.reconstructs (hwire wsrc) (hs.src.holds_positions (hD.srcOrder_sorts dedup)),
    X.reconstructs (hwire wdst) (hs.dst.holds_positions (hD.dstOrder_sorts dedup)), ?_⟩
  rintro rfl
  exact X.reconstructs (hwire wvtx) (hs.vtx.holds_positions hD.vtxOrder_sorts)

theorem flags_reconstruct
    (hcirc : circ = (build p.algorithm (start conf columns inInputOrder reverse true)).2) :
    ∃ msbs,
      (flaggedInputs conf columns inInputOrder reverse true).srcOrderBits.getLast? = some msbs ∧
      (flaggedInputs conf columns inInputOrder reverse true).dstOrderBits.getLast? = some msbs ∧
      Reconstructs conf circ g0 g1 g msbs
        (tab conf.size fun i => if (L.directed reverse).surplus conf true i then 1 else 0) := by
  obtain ⟨X, hsub, hF⟩ := exists_sorts hsize h0 he hV hin g hcirc
  obtain ⟨msbs, hs, hd, hw, hbits⟩ := @flags_wired conf columns inInputOrder reverse hsize
  have hflags := hbits X.val hsub _ x hF
  rw [DagList.listing_directed] at hflags
  exact ⟨msbs, hs, hd, X.reconstructs (hw.imp fun _ hf => ⟨hsub hf.1, hf.2⟩) hflags⟩

end Program

end runs

end GraphMpc
