import GraphMpc.InputSharing

namespace GraphMpc

open Tabulate Slices

namespace Packet

def slice (pkt : Packet) : Slice := ⟨pkt.start, pkt.stop⟩

def size (pkt : Packet) : ℕ := pkt.stop - pkt.start

def column (pkt : Packet) (c k : ℕ) : Ring := pkt.entries.getD (4 * k + c) 0

def srcPlane (pkt : Packet) (i k : ℕ) : Ring :=
  pkt.entries.getD (4 * pkt.size + i * pkt.size + k) 0

def dstPlane (bits : ℕ) (pkt : Packet) (i k : ℕ) : Ring :=
  pkt.entries.getD (4 * pkt.size + bits * pkt.size + i * pkt.size + k) 0

end Packet

namespace InputServer

section merge

variable {bits total : ℕ} {pkt : Packet} {m : Merge} {pkts : List Packet}

structure Merge.Sized (bits total : ℕ) (m : Merge) : Prop where
  src : m.src.length = total
  dst : m.dst.length = total
  isV : m.isV.length = total
  data : m.data.length = total
  srcBits : m.srcBits.length = bits
  dstBits : m.dstBits.length = bits
  srcPlanes : ∀ v ∈ m.srcBits, v.length = total
  dstPlanes : ∀ v ∈ m.dstBits, v.length = total
  isProvided : m.isProvided.length = total

theorem Merge.init_sized (bits total : ℕ) : (Merge.init bits total).Sized bits total := by
  constructor <;> simp [Merge.init]

def Merge.withEntries (m : Merge) (pkt : Packet) (n : ℕ) : Merge :=
  { m with
    src := overlay 0 pkt.start n (pkt.column 0) m.src
    dst := overlay 0 pkt.start n (pkt.column 1) m.dst
    isV := overlay 0 pkt.start n (pkt.column 2) m.isV
    data := overlay 0 pkt.start n (pkt.column 3) m.data
    isProvided := overlay false pkt.start n (fun _ => true) m.isProvided }

def planes (pkt : Packet) (f : ℕ → ℕ → Ring) (n : ℕ) (v : List Vec) : List Vec :=
  overlay [] 0 n (fun i => overlay 0 pkt.start pkt.size (f i) (v.getD i [])) v

def Merge.withPacket (bits : ℕ) (m : Merge) (pkt : Packet) : Merge :=
  { m.withEntries pkt pkt.size with
    srcBits := planes pkt pkt.srcPlane bits m.srcBits
    dstBits := planes pkt (Packet.dstPlane bits pkt) bits m.dstBits }

def Free (m : Merge) (pkt : Packet) (n : ℕ) : Prop :=
  ∀ k < n, m.isProvided.getD (pkt.start + k) false = false

instance (m : Merge) (pkt : Packet) (n : ℕ) : Decidable (Free m pkt n) :=
  inferInstanceAs (Decidable (∀ k < n, _))

theorem withEntries_zero (m : Merge) (pkt : Packet) : m.withEntries pkt 0 = m := by
  simp [Merge.withEntries, overlay_zero]

theorem writeEntry_next (pkt : Packet) (m : Merge) (n : ℕ) :
    writeEntry pkt (m.withEntries pkt n, 4 * n) (pkt.start + n) =
      if m.isProvided.getD (pkt.start + n) false then .error .overlap
      else .ok (m.withEntries pkt (n + 1), 4 * (n + 1)) := by
  have hp : (m.withEntries pkt n).isProvided.getD (pkt.start + n) false =
      m.isProvided.getD (pkt.start + n) false :=
    overlay_getD_out false (fun _ => true) m.isProvided (by omega)
  rw [writeEntry, hp]
  simp only [Merge.withEntries, ← overlay_set, Packet.column]
  rfl

theorem writeEntries (pkt : Packet) (m : Merge) (n : ℕ) :
    ((List.range n).map (pkt.start + ·)).foldlM (writeEntry pkt) (m, 0) =
      if Free m pkt n then .ok (m.withEntries pkt n, 4 * n) else .error .overlap := by
  induction n with
  | zero =>
    have hf : Free m pkt 0 := fun k hk => absurd hk (Nat.not_lt_zero k)
    rw [withEntries_zero, if_pos hf]
    rfl
  | succ n ih =>
    rw [List.range_succ, List.map_append, List.foldlM_append, ih]
    by_cases hf : Free m pkt n
    · rw [if_pos hf]
      have hlast : ([n].map (pkt.start + ·)).foldlM (writeEntry pkt) (m.withEntries pkt n, 4 * n) =
          writeEntry pkt (m.withEntries pkt n, 4 * n) (pkt.start + n) := by
        simp only [List.map_cons, List.map_nil, List.foldlM_cons, List.foldlM_nil]
        exact bind_pure _
      refine hlast.trans ((writeEntry_next pkt m n).trans ?_)
      by_cases hp : m.isProvided.getD (pkt.start + n) false = true
      · rw [if_pos hp, if_neg]
        intro hall
        rw [hall n (Nat.lt_succ_self n)] at hp
        cases hp
      · rw [if_neg hp, if_pos]
        intro k hk
        rcases Nat.lt_succ_iff_lt_or_eq.mp hk with hk | rfl
        · exact hf k hk
        · simpa using hp
    · rw [if_neg hf, if_neg fun hall => hf fun k hk => hall k (hk.trans (Nat.lt_succ_self n))]
      rfl

theorem writePlane_eq (pkt : Packet) (v : List Vec) (idx i : ℕ) :
    writePlane pkt (v, idx) i =
      (v.modify i (overlay 0 pkt.start pkt.size fun k => pkt.entries.getD (idx + k) 0),
        idx + pkt.size) := by
  rw [writePlane, Packet.size]
  induction pkt.stop - pkt.start with
  | zero =>
    have hid : (overlay 0 pkt.start 0 fun k => pkt.entries.getD (idx + k) 0) = id :=
      funext fun v => overlay_zero ..
    rw [hid, List.modify_id]
    rfl
  | succ n ih =>
    rw [List.range_succ, List.foldl_append, ih]
    simp only [List.foldl_cons, List.foldl_nil, List.modify_modify_eq, Nat.add_assoc]
    refine congrArg (fun h => (v.modify i h, _)) (funext fun w => ?_)
    exact overlay_set 0 (fun k => pkt.entries.getD (idx + k) 0) w

theorem writePlanes_eq (pkt : Packet) {v : List Vec} (idx : ℕ) {n : ℕ} (hn : n ≤ v.length) :
    (List.range n).foldl (writePlane pkt) (v, idx) =
      (planes pkt (fun i k => pkt.entries.getD (idx + i * pkt.size + k) 0) n v,
        idx + n * pkt.size) := by
  induction n with
  | zero => simp [planes, overlay_zero]
  | succ n ih =>
    rw [List.range_succ, List.foldl_append, ih (by omega), List.foldl_cons, List.foldl_nil,
      writePlane_eq, planes, planes, ← overlay_set, Nat.succ_mul, Nat.add_assoc]
    refine Prod.ext ?_ rfl
    have hlt : n < (overlay [] 0 n (fun i => overlay 0 pkt.start pkt.size
        (fun k => pkt.entries.getD (idx + i * pkt.size + k) 0) (v.getD i [])) v).length := by
      simpa using Nat.lt_of_succ_le hn
    have hget := overlay_getD_out [] (fun i => overlay 0 pkt.start pkt.size
      (fun k => pkt.entries.getD (idx + i * pkt.size + k) 0) (v.getD i [])) v
      (show ¬ (0 ≤ n ∧ n < 0 + n) by omega)
    rw [List.getD_eq_getElem _ _ hlt] at hget
    simp only [List.modify_eq_set_getElem?, List.getElem?_eq_getElem hlt, hget, Nat.zero_add]
    rfl

theorem mergePacket_eq (hm : m.Sized bits total) :
    mergePacket bits total m pkt =
      if pkt.stop > total then .error .outOfBounds
      else if Free m pkt pkt.size then .ok (m.withPacket bits pkt) else .error .overlap := by
  rw [mergePacket]
  by_cases hs : pkt.stop > total
  · rw [if_pos hs, if_pos hs]
  · rw [if_neg hs, if_neg hs, ← Packet.size, writeEntries]
    by_cases hf : Free m pkt pkt.size
    · rw [if_pos hf, if_pos hf]
      have h0 := writePlanes_eq pkt (4 * pkt.size) hm.srcBits.ge
      have h1 := writePlanes_eq pkt (4 * pkt.size + bits * pkt.size) hm.dstBits.ge
      have hb : (m.withEntries pkt pkt.size).srcBits = m.srcBits := rfl
      have hb' : (m.withEntries pkt pkt.size).dstBits = m.dstBits := rfl
      change Except.ok _ = _
      simp only [hb, hb', h0, h1]
      rfl
    · rw [if_neg hf, if_neg hf]
      rfl

theorem mem_planes {f : ℕ → ℕ → Ring} {n : ℕ} {v : List Vec} (hv : ∀ w ∈ v, w.length = total)
    {w : Vec} (hw : w ∈ planes pkt f n v) : w.length = total := by
  obtain ⟨i, hi, rfl⟩ := mem_tab.mp hw
  have hlen : (v.getD i []).length = total := by
    rw [List.getD_eq_getElem _ _ hi]
    exact hv _ (List.getElem_mem hi)
  split
  · rw [overlay_length, Nat.sub_zero, hlen]
  · exact hlen

theorem Merge.Sized.withPacket (hm : m.Sized bits total) :
    (m.withPacket bits pkt).Sized bits total where
  src := (tab_length _ _).trans hm.src
  dst := (tab_length _ _).trans hm.dst
  isV := (tab_length _ _).trans hm.isV
  data := (tab_length _ _).trans hm.data
  srcBits := (tab_length _ _).trans hm.srcBits
  dstBits := (tab_length _ _).trans hm.dstBits
  srcPlanes _ hw := mem_planes hm.srcPlanes hw
  dstPlanes _ hw := mem_planes hm.dstPlanes hw
  isProvided := (tab_length _ _).trans hm.isProvided

theorem free_iff : Free m pkt pkt.size ↔
    ∀ i, pkt.slice.Contains i → m.isProvided.getD i false = false := by
  constructor
  · rintro h i ⟨hi, hi'⟩
    have hlt : i - pkt.start < pkt.size := by
      simp only [Packet.size, Packet.slice] at hi hi' ⊢
      omega
    have := h _ hlt
    rwa [show pkt.start + (i - pkt.start) = i from Nat.add_sub_cancel' hi] at this
  · intro h k hk
    refine h _ ⟨Nat.le_add_right .., ?_⟩
    simp only [Packet.size, Packet.slice] at hk ⊢
    omega

theorem slice_contains {i : ℕ} : pkt.slice.Contains i ↔
    pkt.start ≤ i ∧ i < pkt.start + pkt.size := by
  simp only [Slice.Contains, Packet.slice, Packet.size]
  omega

theorem withPacket_provided (hm : m.Sized bits total) {i : ℕ} (hi : i < total) :
    (m.withPacket bits pkt).isProvided.getD i false =
      (decide (pkt.slice.Contains i) || m.isProvided.getD i false) := by
  have hlen : i < m.isProvided.length := hm.isProvided ▸ hi
  have h := @overlay_getD _ false pkt.start pkt.size (fun _ => true) _ _ hlen
  refine h.trans ?_
  by_cases hc : pkt.slice.Contains i
  · rw [if_pos (slice_contains.mp hc), decide_eq_true hc, Bool.true_or]
  · rw [if_neg (fun h => hc (slice_contains.mpr h)), decide_eq_false hc, Bool.false_or]

structure Mergeable (total : ℕ) (m : Merge) (pkts : List Packet) : Prop where
  bounded : ∀ pkt ∈ pkts, pkt.stop ≤ total
  apart : (pkts.map Packet.slice).Pairwise Disjoint
  free : ∀ pkt ∈ pkts, ∀ i, pkt.slice.Contains i → m.isProvided.getD i false = false

theorem mergeable_cons (hm : m.Sized bits total) :
    Mergeable total m (pkt :: pkts) ↔ pkt.stop ≤ total ∧ Free m pkt pkt.size ∧
      Mergeable total (m.withPacket bits pkt) pkts := by
  have hin : ∀ p : Packet, p.stop ≤ total → ∀ {i}, p.slice.Contains i → i < total :=
    fun p hp i hi => hi.2.trans_le hp
  constructor
  · rintro ⟨hb, ha, hf⟩
    rw [List.map_cons, List.pairwise_cons] at ha
    refine ⟨hb _ (List.mem_cons_self ..), free_iff.mpr (hf _ (List.mem_cons_self ..)),
      fun p hp => hb p (List.mem_cons_of_mem _ hp), ha.2, fun p hp i hi => ?_⟩
    rw [withPacket_provided hm (hin p (hb p (List.mem_cons_of_mem _ hp)) hi),
      hf p (List.mem_cons_of_mem _ hp) i hi, Bool.or_false, decide_eq_false_iff_not]
    exact fun hc => ha.1 _ (List.mem_map_of_mem hp) i hc hi
  · rintro ⟨hs, hf, hb, ha, hf'⟩
    have hfree : ∀ p ∈ pkts, ∀ i, p.slice.Contains i →
        ¬ pkt.slice.Contains i ∧ m.isProvided.getD i false = false := by
      intro p hp i hi
      have := hf' p hp i hi
      rwa [withPacket_provided hm (hin p (hb p hp) hi), Bool.or_eq_false_iff,
        decide_eq_false_iff_not] at this
    refine ⟨fun p hp => ?_, ?_, fun p hp i hi => ?_⟩
    · rcases List.mem_cons.mp hp with rfl | hp
      · exact hs
      · exact hb p hp
    · rw [List.map_cons, List.pairwise_cons]
      refine ⟨fun s hs i hc hi => ?_, ha⟩
      obtain ⟨p, hp, rfl⟩ := List.mem_map.mp hs
      exact (hfree p hp i hi).1 hc
    · rcases List.mem_cons.mp hp with rfl | hp
      · exact free_iff.mp hf i hi
      · exact (hfree p hp i hi).2

theorem mergePackets_eq (hm : m.Sized bits total) (h : Mergeable total m pkts) :
    pkts.foldlM (mergePacket bits total) m = .ok (pkts.foldl (Merge.withPacket bits) m) := by
  induction pkts generalizing m with
  | nil => rfl
  | cons pkt pkts ih =>
    obtain ⟨hs, hf, hrest⟩ := (mergeable_cons hm).mp h
    rw [List.foldlM_cons, mergePacket_eq hm, if_neg (not_lt.mpr hs), if_pos hf]
    exact ih hm.withPacket hrest

def merged (bits total : ℕ) (pkts : List Packet) : Merge :=
  pkts.foldl (Merge.withPacket bits) (Merge.init bits total)

theorem foldl_sized (hm : m.Sized bits total) (pkts : List Packet) :
    (pkts.foldl (Merge.withPacket bits) m).Sized bits total := by
  induction pkts generalizing m with
  | nil => exact hm
  | cons pkt pkts ih => exact ih hm.withPacket

theorem merged_sized (bits total : ℕ) (pkts : List Packet) :
    (merged bits total pkts).Sized bits total := foldl_sized (Merge.init_sized bits total) pkts

theorem foldl_column (col : Merge → Vec) {f : Packet → ℕ → Ring}
    (hcol : ∀ m p, col (Merge.withPacket bits m p) = overlay 0 p.start p.size (f p) (col m))
    (pkts : List Packet) (m : Merge) :
    col (pkts.foldl (Merge.withPacket bits) m) =
      overlays 0 Packet.start Packet.size f pkts (col m) := by
  induction pkts generalizing m with
  | nil => rfl
  | cons pkt pkts ih =>
    rw [List.foldl_cons, ih, hcol]
    rfl

theorem planes_getD {f : ℕ → ℕ → Ring} {n i : ℕ} {v : List Vec} (hn : v.length = n) (hi : i < n) :
    (planes pkt f n v).getD i [] = overlay 0 pkt.start pkt.size (f i) (v.getD i []) := by
  rw [planes, overlay_getD [] _ (hn ▸ hi), if_pos ⟨Nat.zero_le i, by omega⟩, Nat.sub_zero]

theorem foldl_srcPlane {i : ℕ} (hi : i < bits) (pkts : List Packet) (hm : m.Sized bits total) :
    (pkts.foldl (Merge.withPacket bits) m).srcBits.getD i [] =
      overlays 0 Packet.start Packet.size (fun p => p.srcPlane i) pkts (m.srcBits.getD i []) := by
  induction pkts generalizing m with
  | nil => rfl
  | cons pkt pkts ih =>
    rw [List.foldl_cons, ih hm.withPacket]
    exact congrArg (overlays 0 Packet.start Packet.size (fun p => p.srcPlane i) pkts)
      (planes_getD hm.srcBits hi)

theorem foldl_dstPlane {i : ℕ} (hi : i < bits) (pkts : List Packet) (hm : m.Sized bits total) :
    (pkts.foldl (Merge.withPacket bits) m).dstBits.getD i [] =
      overlays 0 Packet.start Packet.size (fun p => Packet.dstPlane bits p i) pkts
        (m.dstBits.getD i []) := by
  induction pkts generalizing m with
  | nil => rfl
  | cons pkt pkts ih =>
    rw [List.foldl_cons, ih hm.withPacket]
    exact congrArg (overlays 0 Packet.start Packet.size (fun p => Packet.dstPlane bits p i) pkts)
      (planes_getD hm.dstBits hi)

theorem provided_iff (hm : m.Sized bits total) (pkts : List Packet) {i : ℕ} (hi : i < total) :
    (pkts.foldl (Merge.withPacket bits) m).isProvided.getD i false = true ↔
      m.isProvided.getD i false = true ∨ ∃ pkt ∈ pkts, pkt.slice.Contains i := by
  induction pkts generalizing m with
  | nil => simp
  | cons pkt pkts ih =>
    rw [List.foldl_cons, ih hm.withPacket, withPacket_provided hm hi]
    simp only [Bool.or_eq_true, decide_eq_true_eq, List.mem_cons, exists_eq_or_imp]
    tauto

theorem merged_all : (merged bits total pkts).isProvided.all id = true ↔
    ∀ i < total, ∃ pkt ∈ pkts, pkt.slice.Contains i := by
  have hlen := (merged_sized bits total pkts).isProvided
  have hinit : ∀ i, ¬ (Merge.init bits total).isProvided.getD i false = true := by
    intro i
    simp [Merge.init, List.getD_eq_getElem?_getD, List.getElem?_replicate]
    split <;> simp
  constructor
  · intro h i hi
    have hall := List.all_eq_true.mp h _ (List.getElem_mem (hlen ▸ hi))
    rw [id, ← List.getD_eq_getElem _ false] at hall
    exact ((provided_iff (Merge.init_sized bits total) pkts hi).mp hall).resolve_left (hinit i)
  · intro h
    rw [List.all_eq_true]
    intro b hb
    obtain ⟨i, hi, rfl⟩ := List.getElem_of_mem hb
    rw [hlen] at hi
    rw [id, ← List.getD_eq_getElem _ false]
    exact (provided_iff (Merge.init_sized bits total) pkts hi).mpr (Or.inr (h i hi))

theorem mergeable_init : Mergeable total (Merge.init bits total) pkts ↔
    (∀ pkt ∈ pkts, pkt.stop ≤ total) ∧ (pkts.map Packet.slice).Pairwise Disjoint := by
  refine ⟨fun h => ⟨h.bounded, h.apart⟩, fun h => ⟨h.1, h.2, fun pkt _ i _ => ?_⟩⟩
  simp [Merge.init, List.getD_eq_getElem?_getD, List.getElem?_replicate]
  split <;> simp

theorem partition_iff (ho : ∀ pkt ∈ pkts, pkt.start ≤ pkt.stop) :
    Partition (pkts.map Packet.slice) total ↔ Mergeable total (Merge.init bits total) pkts ∧
      ∀ i < total, ∃ pkt ∈ pkts, pkt.slice.Contains i := by
  rw [mergeable_init]
  constructor
  · intro h
    have hb : ∀ pkt ∈ pkts, pkt.stop ≤ total := fun pkt hp =>
      h.bounded _ (List.mem_map_of_mem hp)
    refine ⟨⟨hb, disjoint_of_count h.bounded fun i hi => (h.once i hi).le⟩, fun i hi => ?_⟩
    obtain ⟨s, hs, hc⟩ := List.countP_pos_iff.mp (by rw [h.once i hi]; exact Nat.one_pos)
    obtain ⟨pkt, hp, rfl⟩ := List.mem_map.mp hs
    exact ⟨pkt, hp, by simpa using hc⟩
  · rintro ⟨⟨hb, ha⟩, hall⟩
    refine ⟨fun s hs => ?_, fun s hs => ?_, fun i hi => ?_⟩
    · obtain ⟨pkt, hp, rfl⟩ := List.mem_map.mp hs
      exact ho pkt hp
    · obtain ⟨pkt, hp, rfl⟩ := List.mem_map.mp hs
      exact hb pkt hp
    · obtain ⟨pkt, hp, hc⟩ := hall i hi
      refine Nat.le_antisymm (count_of_disjoint ha i) (List.countP_pos_iff.mpr
        ⟨_, List.mem_map_of_mem hp, by simpa using hc⟩)

def totalSize (pkts : List Packet) : ℕ := (pkts.map Packet.size).sum

def graphOf (bits : ℕ) (pkts : List Packet) (nodes : ℕ) : Graph :=
  let m := merged bits (totalSize pkts) pkts
  { src := m.src, dst := m.dst, isV := m.isV, data := m.data, isShared := true,
    srcBits := m.srcBits, dstBits := m.dstBits, size := m.src.length, nodes := nodes }

structure Placed (bits : ℕ) (g : Graph) (pkt : Packet) (k : ℕ) : Prop where
  src : g.src.getD (pkt.start + k) 0 = pkt.column 0 k
  dst : g.dst.getD (pkt.start + k) 0 = pkt.column 1 k
  isV : g.isV.getD (pkt.start + k) 0 = pkt.column 2 k
  data : g.data.getD (pkt.start + k) 0 = pkt.column 3 k
  srcBits : ∀ i < bits, (g.srcBits.getD i []).getD (pkt.start + k) 0 = pkt.srcPlane i k
  dstBits : ∀ i < bits, (g.dstBits.getD i []).getD (pkt.start + k) 0 = pkt.dstPlane bits i k

theorem placed (ha : (pkts.map Packet.slice).Pairwise Disjoint)
    (hb : ∀ pkt ∈ pkts, pkt.stop ≤ totalSize pkts) (hp : pkt ∈ pkts) (nodes : ℕ) {k : ℕ}
    (hk : k < pkt.size) : Placed bits (graphOf bits pkts nodes) pkt k := by
  have hd : pkts.Pairwise fun x y => ∀ i, x.start ≤ i ∧ i < x.start + x.size →
      ¬ (y.start ≤ i ∧ i < y.start + y.size) :=
    (List.pairwise_map.mp ha).imp fun hxy i hx hy =>
      hxy i (slice_contains.mpr hx) (slice_contains.mpr hy)
  have hlt : pkt.start + k < totalSize pkts := by
    have := hb pkt hp
    simp only [Packet.size] at hk
    omega
  have hinit := Merge.init_sized bits (totalSize pkts)
  have hplane : ∀ {v : List Vec}, v.length = bits → (∀ w ∈ v, w.length = totalSize pkts) →
      ∀ i < bits, pkt.start + k < (v.getD i []).length := by
    intro v hv hw i hi
    rw [List.getD_eq_getElem _ _ (hv ▸ hi), hw _ (List.getElem_mem _)]
    exact hlt
  refine ⟨?_, ?_, ?_, ?_, fun i hi => ?_, fun i hi => ?_⟩
  · rw [graphOf, merged, foldl_column Merge.src (fun _ _ => rfl)]
    exact overlays_getD hd hp hk (hlt.trans_eq hinit.src.symm)
  · rw [graphOf, merged, foldl_column Merge.dst (fun _ _ => rfl)]
    exact overlays_getD hd hp hk (hlt.trans_eq hinit.dst.symm)
  · rw [graphOf, merged, foldl_column Merge.isV (fun _ _ => rfl)]
    exact overlays_getD hd hp hk (hlt.trans_eq hinit.isV.symm)
  · rw [graphOf, merged, foldl_column Merge.data (fun _ _ => rfl)]
    exact overlays_getD hd hp hk (hlt.trans_eq hinit.data.symm)
  · rw [graphOf, merged, foldl_srcPlane hi pkts hinit]
    exact overlays_getD hd hp hk (hplane hinit.srcBits hinit.srcPlanes i hi)
  · rw [graphOf, merged, foldl_dstPlane hi pkts hinit]
    exact overlays_getD hd hp hk (hplane hinit.dstBits hinit.dstPlanes i hi)

def Asserted (bits : ℕ) (pkts : List Packet) : Prop :=
  ∀ pkt ∈ pkts, pkt.start < pkt.stop ∧
    pkt.entries.length = (4 + 2 * bits) * (pkt.stop - pkt.start)

variable {asserts : Bool} {clients rest : List Channel} {nodes : ℕ}

theorem recvGraph_partition (h : recvNodes clients = some (nodes, rest))
    (hp : recvPackets bits rest = .ok pkts) (ha : asserts = true → Asserted bits pkts)
    (hs : Partition (pkts.map Packet.slice) (totalSize pkts)) :
    recvGraph asserts bits clients = .ok (graphOf bits pkts nodes) := by
  have ho : ∀ pkt ∈ pkts, pkt.start ≤ pkt.stop := fun pkt hp =>
    hs.ordered _ (List.mem_map_of_mem hp)
  obtain ⟨hm, hall⟩ := (partition_iff ho).mp hs
  have hrun := mergePackets_eq (Merge.init_sized bits (totalSize pkts)) hm
  have hsize : (pkts.map fun pkt => pkt.stop - pkt.start).sum = totalSize pkts := rfl
  have hassert : ¬ (asserts = true ∧ ¬ ∀ pkt ∈ pkts, pkt.start < pkt.stop ∧
      pkt.entries.length = (4 + 2 * bits) * (pkt.stop - pkt.start)) := fun hc => hc.2 (ha hc.1)
  have hdone : (merged bits (totalSize pkts) pkts).isProvided.all id = true := merged_all.mpr hall
  rw [merged] at hdone
  simp only [recvGraph, h, hp, if_neg hassert, hsize, hrun]
  change (if _ then _ else _) = _
  rw [if_pos hdone]
  rfl

end merge

end InputServer

end GraphMpc
