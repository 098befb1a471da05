import GraphMpc.MessagePassing
import GraphMpc.SecureRun

namespace GraphMpc

open Tabulate StableOrder Circuit GraphMpc.Valuation

namespace DagList

variable {L : DagList} {conf : ProtocolConfig} {surplus : ℕ → Bool} {A : Arrangement conf}

def data (L : DagList) (d : Ring → Ring) (e : ℕ) : Ring := if L.isV e then d (L.src e) else 0

def ids (L : DagList) (size : ℕ) : List Ring :=
  (((List.range size).filter L.isV).map L.src).mergeSort fun a b => a.toNat ≤ b.toNat

def output (L : DagList) (conf : ProtocolConfig) (inInputOrder : Bool) (d : Ring → Ring) : Vec :=
  if inInputOrder then tab conf.size (L.data d)
  else (L.ids conf.size).map d ++ List.replicate (conf.size - conf.nodes) 0

theorem Arranges.ids_eq (hA : L.Arranges surplus A) (hz : conf.nodes ≤ conf.size) :
    L.ids conf.size = tab conf.nodes fun p => L.src (A.vtx.symm p) := by
  have hnode : ∀ p < conf.nodes, A.vtx.symm p < conf.size ∧ L.isV (A.vtx.symm p) = true :=
    fun p hp => by
      have hlt := A.vtx_keeps.symm_lt (hp.trans_le hz)
      refine ⟨hlt, (hA.node _ hlt).mpr ?_⟩
      rwa [Equiv.apply_symm_apply]
  have hperm : ((List.range conf.size).filter L.isV).Perm
      ((List.range conf.nodes).map A.vtx.symm) := by
    refine (List.perm_ext_iff_of_nodup (List.nodup_range.filter _)
      (List.nodup_range.map A.vtx.symm.injective)).mpr fun e => ?_
    simp only [List.mem_filter, List.mem_map, List.mem_range]
    constructor
    · exact fun ⟨he, hv⟩ => ⟨A.vtx e, (hA.node e he).mp hv, Equiv.symm_apply_apply ..⟩
    · rintro ⟨p, hp, rfl⟩
      exact hnode p hp
  have hsorted : (tab conf.nodes fun p => L.src (A.vtx.symm p)).Pairwise
      fun a b => a.toNat ≤ b.toNat := by
    rw [tab, List.pairwise_map]
    refine List.pairwise_lt_range.imp_of_mem fun {p q} hp hq hlt => ?_
    obtain ⟨hp1, hp2⟩ := hnode p (List.mem_range.mp hp)
    obtain ⟨hq1, hq2⟩ := hnode q (List.mem_range.mp hq)
    have hrank := hA.rank _ hp1 _ hq1 hp2 hq2
    rw [Equiv.apply_symm_apply, Equiv.apply_symm_apply] at hrank
    exact (BitVec.lt_def.mp (hrank.mp hlt)).le
  have hmerge : (L.ids conf.size).Pairwise fun a b => a.toNat ≤ b.toNat := by
    refine (List.pairwise_mergeSort (fun a b c hab hbc => ?_) (fun a b => ?_) _).imp
      fun h => of_decide_eq_true h
    · simp only [decide_eq_true_eq] at *
      omega
    · simp only [Bool.or_eq_true, decide_eq_true_eq]
      omega
  refine List.Perm.eq_of_pairwise (fun a b _ _ hab hba => BitVec.eq_of_toNat_eq (by omega)) hmerge
    hsorted ((List.mergeSort_perm ..).trans ?_)
  have h := hperm.map L.src
  rwa [List.map_map] at h

theorem Arranges.released_eq (hA : L.Arranges surplus A) (hz : conf.nodes ≤ conf.size)
    (inInputOrder : Bool) {d : Ring → Ring} {y : ℕ → Ring}
    (hy : ∀ v < conf.size, L.isV v = true → y (A.vtx v) = d (L.src v)) :
    tab conf.size (released A inInputOrder y) = L.output conf inInputOrder d := by
  cases inInputOrder with
  | true =>
    simp only [output, if_true]
    refine tab_congr fun e he => ?_
    simp only [released, if_true, data]
    by_cases hv : L.isV e = true
    · rw [if_pos hv, if_pos ((hA.node e he).mp hv), hy e he hv]
    · rw [if_neg hv, if_neg fun hlt => hv ((hA.node e he).mpr hlt)]
  | false =>
    simp only [output, Bool.false_eq_true, if_false]
    rw [hA.ids_eq hz, tab_map, ← tab_const]
    have hsplit : ∀ z : ℕ → Ring, tab conf.size z =
        tab conf.nodes z ++ tab (conf.size - conf.nodes) fun i => z (conf.nodes + i) := by
      intro z
      simp only [tab]
      rw [← Nat.add_sub_cancel' hz, List.range_add, List.map_append, List.map_map,
        Nat.add_sub_cancel_left]
      rfl
    rw [hsplit]
    refine congrArg₂ (· ++ ·) (tab_congr fun p hp => ?_) (tab_congr fun i _ => ?_)
    · have hlt := A.vtx_keeps.symm_lt (hp.trans_le hz)
      have hv : L.isV (A.vtx.symm p) = true := (hA.node _ hlt).mpr (by rwa [Equiv.apply_symm_apply])
      have h := hy _ hlt hv
      rw [Equiv.apply_symm_apply] at h
      simp only [released, Bool.false_eq_true, if_false, if_pos hp, Function.comp_apply, h]
    · simp [released]

def edgesTo (L : DagList) (size : ℕ) (surplus : ℕ → Bool) (id : Ring) : Finset ℕ :=
  (Finset.range size).filter fun e => L.isV e = false ∧ surplus e = false ∧ L.dst e = id

def Closed (L : DagList) (size : ℕ) : Prop :=
  ∀ e < size, (∃ u < size, L.isV u = true ∧ L.src u = L.src e) ∧
    ∃ w < size, L.isV w = true ∧ L.src w = L.dst e

theorem Closed.sourced {size : ℕ} (h : L.Closed size) : L.Sourced size := fun e he => (h e he).1

theorem Closed.directed (hV : L.Valid conf) (h : L.Closed conf.size) (reverse : Bool) :
    (L.directed reverse).Closed conf.size := by
  cases reverse with
  | false => exact h
  | true =>
    intro e he
    obtain ⟨⟨u, hu, hvu, hue⟩, w, hw, hvw, hwe⟩ := h e he
    exact ⟨⟨w, hw, hvw, (hV.loop w hw hvw).trans hwe⟩, u, hu, hvu, (hV.loop u hu hvu).trans hue⟩

theorem Closed.delivered_eq {size : ℕ} (h : L.Closed size) (surplus : ℕ → Bool) (id : Ring) :
    L.delivered size surplus id = L.edgesTo size surplus id := by
  refine Finset.filter_congr fun e he => and_congr_right fun _ => and_congr_right fun _ => ?_
  obtain ⟨w, hw, hvw, hwe⟩ := (h e (Finset.mem_range.mp he)).2
  constructor
  · rintro ⟨hle, hall⟩
    by_contra hne
    have hlt : L.src w < id := hwe ▸ BitVec.lt_of_le_ne hle hne
    exact BitVec.lt_irrefl _ (hwe ▸ hall w hw hvw hlt)
  · rintro rfl
    exact ⟨BitVec.le_refl _, fun _ _ _ hlt => hlt⟩

theorem Valid.nodes_pos (h : L.Valid conf) (hsrc : L.Sourced conf.size) (hs : 0 < conf.size) :
    0 < conf.nodes := by
  obtain ⟨u, hu, hvu, -⟩ := hsrc 0 hs
  rw [← h.nodes]
  exact (Nat.zero_le _).trans_lt (Nat.count_strict_mono hvu hu)

def graph (L : DagList) (conf : ProtocolConfig) (d : Ring → Ring) : Graph where
  src := tab conf.size L.src
  dst := tab conf.size L.dst
  isV := tab conf.size fun i => if L.isV i then 1 else 0
  data := tab conf.size (L.data d)
  srcBits := tab conf.bits fun j => tab conf.size fun i => if (L.src i).toNat.testBit j then 1 else 0
  dstBits := tab conf.bits fun j => tab conf.size fun i => if (L.dst i).toNat.testBit j then 1 else 0
  size := conf.size
  nodes := conf.nodes

def blank (conf : ProtocolConfig) : Graph where
  src := tab conf.size fun _ => 0
  dst := tab conf.size fun _ => 0
  isV := tab conf.size fun _ => 0
  data := tab conf.size fun _ => 0
  srcBits := tab conf.bits fun _ => tab conf.size fun _ => 0
  dstBits := tab conf.bits fun _ => tab conf.size fun _ => 0
  size := conf.size
  nodes := conf.nodes

theorem shares_blank (n : ℕ) (x : ℕ → Ring) : Shares (tab n x) (tab n fun _ => 0) (tab n x) := by
  refine ⟨by simp, by simp, fun i => ?_⟩
  rw [tab_getD, tab_getD]
  split <;> exact add_zero _

theorem shared_graph (L : DagList) (conf : ProtocolConfig) (d : Ring → Ring) :
    SharedList conf (L.graph conf d) (blank conf) (L.listing conf.bits) (L.data d) where
  lengths := by simp [graph, blank, listing]
  srcBits j hj := by
    simp only [graph, blank, listing, hj, tab_getD_lt]
    exact shares_blank ..
  dstBits j hj := by
    simp only [graph, blank, listing, hj, tab_getD_lt]
    exact shares_blank ..
  src := shares_blank ..
  dst := shares_blank ..
  isV := shares_blank ..
  data := shares_blank ..

end DagList

namespace Program

open DagList

variable (p : Program) (L : DagList) (size : ℕ) (edges : Ring → Finset ℕ) (column : ℕ)

def round (s : Ring → Ring) (i : ℕ) (id : Ring) : Ring :=
  (p.apply i column).onNode (L.rank size id) [s id, ∑ e ∈ edges id,
    (p.prepare i column).onNode (L.rank size (L.src e)) [s (L.src e)]]

def initial (d : Ring → Ring) (id : Ring) : Ring :=
  match p.initNodes column with
  | none => d id
  | some b => b.onNode (L.rank size id) []

def passed (depth : ℕ) (d : Ring → Ring) : Ring → Ring :=
  (List.range depth).foldl (p.round L size edges column) (p.initial L size column d)

def result (depth : ℕ) (d : Ring → Ring) (id : Ring) : Ring :=
  (p.postMp column).onNode (L.rank size id) [p.passed L size edges column depth d id]

structure Arithmetic (nodes : ℕ) : Prop where
  initNodes : ∀ column, ∀ b ∈ p.initNodes column, b.Arithmetic nodes
  prepare : ∀ i column, (p.prepare i column).Arithmetic nodes
  apply : ∀ i column, (p.apply i column).Arithmetic nodes

variable {p L size edges column}

section values

variable {conf : ProtocolConfig} {surplus : ℕ → Bool} {A : Arrangement conf}

def Summed (L : DagList) (size : ℕ) (surplus : ℕ → Bool) (edges : Ring → Finset ℕ) : Prop :=
  ∀ v < size, L.isV v = true → L.delivered size surplus (L.src v) = edges (L.src v)

-- the data of the nodes count, with zeros for the edges, unless every column starts from constants
def Starts (p : Program) (L : DagList) (size : ℕ) (x : ℕ → Ring) (d : Ring → Ring) : Prop :=
  (∀ e < size, x e = L.data d e) ∨ ∀ column, (p.initNodes column).isSome = true

theorem Arithmetic.eval_states {b : Body 1} (hb : b.Arithmetic conf.nodes)
    (hA : L.Arranges surplus A) {s : Ring → Ring} {x : ℕ → Ring} (hx : L.States A s x) :
    L.States A (fun id => b.onNode (L.rank conf.size id) [s id]) (b.eval conf.nodes [x]) where
  node v hv hvv := by
    rw [b.eval_node ((hA.node v hv).mp hvv), ← hA.vtx_eq hv hvv, ← hx.node v hv hvv]
    rfl
  edge q hq hqs := hb.eval_edge hq (List.forall_mem_singleton.mpr (hx.edge q hq hqs))

theorem Arithmetic.round_states (hp : p.Arithmetic conf.nodes) (hV : L.Valid conf)
    (hA : L.Arranges surplus A) (hsrc : L.Sourced conf.size)
    (hE : Summed L conf.size surplus edges) {s : Ring → Ring} {x : ℕ → Ring} (hx : L.States A s x)
    (i : ℕ) : L.States A (p.round L conf.size edges column s i)
      (roundValue A p column x i) where
  node v hv hvv := by
    have hm := Arithmetic.eval_states (hp.prepare i column) hA hx
    rw [roundValue, (p.apply i column).eval_node ((hA.node v hv).mp hvv), round,
      ← hE v hv hvv,
      ← hA.vtx_eq hv hvv, ← hx.node v hv hvv, ← gathered_node hV hA hsrc hm hv hvv]
    rfl
  edge q hq hqs := by
    refine (hp.apply i column).eval_edge hq ?_
    simp only [List.forall_mem_cons]
    exact ⟨hx.edge q hq hqs, gathered_edge A _ hq, by simp⟩

theorem Arithmetic.passed_states (hp : p.Arithmetic conf.nodes) (hV : L.Valid conf)
    (hA : L.Arranges surplus A) (hsrc : L.Sourced conf.size)
    (hE : Summed L conf.size surplus edges) {d : Ring → Ring} {x : ℕ → Ring}
    (hx : p.Starts L conf.size x d) :
    L.States A (p.passed L conf.size edges column conf.depth d) (stateValue A p column x) := by
  have hinit : L.States A (p.initial L conf.size column d)
      (initValue conf.nodes p column fun i => x (A.vtx.symm i)) := by
    simp only [initValue]
    cases hb : p.initNodes column with
    | none =>
      have hx : ∀ e < conf.size, x e = L.data d e := hx.resolve_right fun h => by
        have := h column
        rw [hb] at this
        cases this
      refine ⟨fun v hv hvv => ?_, fun q hq hqs => ?_⟩
      · simp [initial, hb, hx v hv, data, hvv]
      · have hlt := A.vtx_keeps.symm_lt hqs
        simp only [hx _ hlt]
        refine if_neg fun hvv => ?_
        have := (hA.node _ hlt).mp hvv
        rw [Equiv.apply_symm_apply] at this
        omega
    | some b =>
      refine ⟨fun v hv hvv => ?_, fun q hq _ => ?_⟩
      · have hrank := (hA.node v hv).mp hvv
        rw [hA.vtx_eq hv hvv] at hrank
        simp [initial, hb, b.eval_node hrank, hA.vtx_eq hv hvv]
      · exact (hp.initNodes column b hb).eval_edge hq (by simp)
  rw [stateValue, roundsValue, passed]
  generalize initValue conf.nodes p column _ = x at *
  generalize p.initial L conf.size column d = s at *
  induction List.range conf.depth generalizing s x with
  | nil => exact hinit
  | cons i l ih => exact ih _ _ (hp.round_states hV hA hsrc hE hinit i)

theorem Arithmetic.columnResult_node (hp : p.Arithmetic conf.nodes) (hV : L.Valid conf)
    (hA : L.Arranges surplus A) (hsrc : L.Sourced conf.size)
    (hE : Summed L conf.size surplus edges) {d : Ring → Ring} {x : ℕ → Ring}
    (hx : p.Starts L conf.size x d) (column : ℕ) {v : ℕ} (hv : v < conf.size)
    (hvv : L.isV v = true) : columnResult A p x column (A.vtx v) =
      p.result L conf.size edges column conf.depth d (L.src v) := by
  have hx : L.States A _ (stateValue A p column _) := hp.passed_states hV hA hsrc hE hx
  rw [columnResult, (p.postMp column).eval_node ((hA.node v hv).mp hvv), result,
    ← hA.vtx_eq hv hvv, ← hx.node v hv hvv]
  rfl

theorem Arithmetic.clipFree (hp : p.Arithmetic conf.nodes) : p.ClipFree :=
  ⟨fun column b hb => (hp.initNodes column b hb).clipFree,
    fun i column => ⟨(hp.prepare i column).clipFree, (hp.apply i column).clipFree⟩⟩

end values

section runs

variable {conf : ProtocolConfig} {d : Ring → Ring} {dedup reverse inInputOrder : Bool} {columns : ℕ}
  {g0 g1 : Graph}

theorem data_directed (hV : L.Valid conf) (d : Ring → Ring) (reverse : Bool) {e : ℕ}
    (he : e < conf.size) : (L.directed reverse).data d e = L.data d e := by
  cases reverse with
  | false => rfl
  | true =>
    simp only [data, directed, reversed, if_true]
    split
    · rename_i hv
      rw [hV.loop e he hv]
    · rfl

theorem Starts.directed (hV : L.Valid conf) (reverse : Bool) {x : ℕ → Ring}
    (hx : p.Starts L conf.size x d) : p.Starts (L.directed reverse) conf.size x d :=
  hx.imp_left fun h e he => (h e he).trans (data_directed hV d reverse he).symm

section circuits

variable (hz : conf.nodes ≤ conf.size) (h0 : 0 < conf.nodes) (hp : p.Arithmetic conf.nodes)
  (he : p.Evaluable conf columns) (hV : L.Valid conf)
  (hk : ∀ v < conf.size, L.isV v = true → (L.directed reverse).surplus conf dedup v = false)
  (hsrc : (L.directed reverse).Sourced conf.size)
  (hE : Summed (L.directed reverse) conf.size ((L.directed reverse).surplus conf dedup) edges)
  (g : Streams) {x : ℕ → Ring} (hin : SharedList conf g0 g1 (L.listing conf.bits) x)
  (hx : p.Starts L conf.size x d)

include hz h0 hp he hV hk hsrc hE hin hx

theorem Arithmetic.exists_run : ∃ r, ∃ A : Arrangement conf, secureRun conf
      (build p.algorithm (start conf columns inInputOrder reverse dedup)).2 g0 g1 g = some r ∧
    (L.directed reverse).Arranges ((L.directed reverse).surplus conf dedup) A ∧
    r.output = ((programResults A p columns x).map fun y =>
      tab conf.size (released A inInputOrder y)).flatten ∧
    ∀ column, ∀ v < conf.size, L.isV v = true → columnResult A p x column (A.vtx v) =
      p.result (L.directed reverse) conf.size edges column conf.depth d
        ((L.directed reverse).src v) := by
  obtain ⟨X, hX⟩ := Program.exists_execution hz (h0.trans_le hz) (fun _ => h0) he rfl g hin
  have hV' := hV.directed reverse
  have hisV := L.directed_isV reverse
  have hA : (L.directed reverse).Arranges ((L.directed reverse).surplus conf dedup) _ :=
    hV'.arranges fun v hv hvv => hk v hv (hisV v ▸ hvv)
  rw [listing_directed] at hX
  exact ⟨_, _, X.secureRun_eq, hA, hX, fun column v hv hvv => hp.columnResult_node hV' hA hsrc hE
    (hx.directed hV reverse) column hv (hisV v ▸ hvv)⟩

theorem Arithmetic.output_eq (hs : columns > 1 → p.columnSums = false) : ∃ r, secureRun conf
      (build p.algorithm (start conf columns inInputOrder reverse dedup)).2 g0 g1 g = some r ∧
    r.output = ((List.range (max columns 1)).map fun column =>
      (L.directed reverse).output conf inInputOrder
        (p.result (L.directed reverse) conf.size edges column conf.depth d)).flatten := by
  obtain ⟨r, A, hr, hA, hout, hnode⟩ := hp.exists_run hz h0 he hV hk hsrc hE g hin hx
  refine ⟨r, hr, hout.trans ?_⟩
  have hresults : programResults A p columns x =
      (List.range (max columns 1)).map (columnResult A p x) := by
    rw [programResults]
    by_cases hc : columns > 1
    · rw [if_pos hc, hs hc, if_neg Bool.false_ne_true, max_eq_left hc.le]
    · rw [if_neg hc, max_eq_right (not_lt.mp hc)]
      rfl
  rw [hresults, List.map_map]
  refine congrArg List.flatten (List.map_congr_left fun column _ => ?_)
  exact hA.released_eq hz inInputOrder fun v hv hvv =>
    hnode column v hv (L.directed_isV reverse v ▸ hvv)

theorem Arithmetic.output_sums (hs : p.columnSums = true) (hc : columns = conf.nodes) :
    ∃ r, secureRun conf
        (build p.algorithm (start conf columns inInputOrder reverse dedup)).2 g0 g1 g = some r ∧
      r.output = (L.directed reverse).output conf inInputOrder fun id =>
        ∑ v ∈ (Finset.range conf.size).filter (L.isV · = true),
          p.result (L.directed reverse) conf.size edges
            ((L.directed reverse).rank conf.size id) conf.depth d ((L.directed reverse).src v) := by
  obtain ⟨r, A, hr, hA, hout, hnode⟩ := hp.exists_run hz h0 he hV hk hsrc hE g hin hx
  have hisV := L.directed_isV reverse
  have hsum : ∀ column, prefixSum (columnResult A p x column) conf.nodes =
      ∑ v ∈ (Finset.range conf.size).filter (L.isV · = true),
        p.result (L.directed reverse) conf.size edges column conf.depth d
          ((L.directed reverse).src v) := fun column => by
    have h := OrderedSums.sum_positions A.vtx_keeps hz fun v => columnResult A p x column (A.vtx v)
    simp only [Equiv.apply_symm_apply] at h
    rw [prefixSum_eq_sum, h]
    have hfilter : (Finset.range conf.size).filter (A.vtx · < conf.nodes) =
        (Finset.range conf.size).filter (L.isV · = true) :=
      Finset.filter_congr fun v hv => (hisV v ▸ hA.node v (Finset.mem_range.mp hv)).symm
    rw [hfilter]
    refine Finset.sum_congr rfl fun v hv => ?_
    obtain ⟨hv, hvv⟩ := Finset.mem_filter.mp hv
    exact hnode column v (Finset.mem_range.mp hv) hvv
  refine ⟨r, hr, hout.trans ?_⟩
  have hresults : ∃ y, programResults A p columns x = [y] ∧ ∀ v < conf.size, L.isV v = true →
      y (A.vtx v) = prefixSum (columnResult A p x (A.vtx v)) conf.nodes := by
    by_cases hcol : columns > 1
    · refine ⟨_, by rw [programResults, if_pos hcol, if_pos hs], fun v hv hvv => ?_⟩
      exact if_pos ((hA.node v hv).mp (hisV v ▸ hvv))
    · refine ⟨_, by rw [programResults, if_neg hcol], fun v hv hvv => ?_⟩
      have hone : conf.nodes = 1 := by omega
      have hvn := (hA.node v hv).mp (hisV v ▸ hvv)
      have hzero : A.vtx v = 0 := by omega
      rw [hone, hzero]
      exact (zero_add _).symm
  obtain ⟨y, hy, hval⟩ := hresults
  rw [hy, List.map_singleton, List.flatten_singleton]
  refine hA.released_eq hz inInputOrder fun v hv hvv => ?_
  rw [hval v hv (hisV v ▸ hvv), hsum, hA.vtx_eq hv hvv]

end circuits

theorem Arithmetic.evaluable (hz : conf.nodes ≤ conf.size) (hp : p.Arithmetic conf.nodes)
    (hpost : ∀ column, p.postMp column = .arg 0 (by decide)) (hs : p.columnSums = false)
    (columns : ℕ) : p.Evaluable conf columns where
  clipFree := hp.clipFree
  post := Or.inr fun column => by
    rw [hpost]
    simp [Body.ClipFree, Body.arg]
  fits := by
    refine ⟨fun column b hb => (hp.initNodes column b hb).fits hz,
      fun i column => ⟨(hp.prepare i column).fits hz, (hp.apply i column).fits hz⟩, fun column => ?_⟩
    rw [hpost]
    simp [Body.Fits, Body.arg]
  sums h := by
    rw [hs] at h
    cases h

theorem message_passing_semantics (p : Program) (hp : p.Arithmetic conf.nodes)
    (hpost : ∀ column, p.postMp column = .arg 0 (by decide)) (hs : p.columnSums = false)
    (columns : ℕ) (inInputOrder reverse : Bool) (h0 : 0 < conf.size) (hV : L.Valid conf)
    (hC : L.Closed conf.size) (d : Ring → Ring) (g : Streams)
    (hin : SharedList conf g0 g1 (L.listing conf.bits) (L.data d)) :
    ∃ r, secureRun conf
        (build p.algorithm (start conf columns inInputOrder reverse false)).2 g0 g1 g = some r ∧
      r.output = ((List.range (max columns 1)).map fun column =>
        (L.directed reverse).output conf inInputOrder
          (p.passed (L.directed reverse) conf.size
            ((L.directed reverse).edgesTo conf.size fun _ => false) column conf.depth d)).flatten := by
  have hz := hV.nodes_le
  have hC' := hC.directed hV reverse
  have hk : ∀ v < conf.size, L.isV v = true → (L.directed reverse).surplus conf false v = false :=
    fun _ _ _ => rfl
  obtain ⟨r, hr, hout⟩ := hp.output_eq hz (hV.nodes_pos hC.sourced h0)
    (hp.evaluable hz hpost hs columns) hV hk hC'.sourced (fun v _ _ => hC'.delivered_eq _ _) g hin
    (Or.inl fun _ _ => rfl) fun _ => hs
  refine ⟨r, hr, ?_⟩
  have hres : ∀ (L : DagList) edges column, p.result L conf.size edges column conf.depth d =
      p.passed L conf.size edges column conf.depth d := fun L edges column => funext fun id => by
    rw [result, hpost]
    rfl
  rw [hout]
  simp only [hres]
  rfl

theorem katz_arithmetic (conf : ProtocolConfig) (weights : Vec) :
    (katz conf weights).Arithmetic conf.nodes where
  initNodes column b hb := by
    obtain rfl := Option.some.inj hb
    simp [Body.Arithmetic, Body.single, Op.Arithmetic]
  prepare i column := by simp [katz, Body.Arithmetic, Body.single, Op.Arithmetic]
  apply i column := by simp [katz, Body.Arithmetic, Body.arg]

def loop : DagList := ⟨fun e => e = 0, fun _ => 0, fun _ => 0⟩

theorem loop_valid : loop.Valid Shipped.pairConfig where
  nodes := by decide
  loop := by decide
  src_lt := by decide
  dst_lt := by decide
  distinct := by decide

theorem loop_closed : loop.Closed Shipped.pairConfig.size := by
  unfold Closed
  decide

theorem message_passing_semantics_loop :
    let p := katz Shipped.pairConfig [3]
    ∃ r, secureRun Shipped.pairConfig
        (build p.algorithm (start Shipped.pairConfig 1 true true false)).2
        (loop.graph Shipped.pairConfig fun _ => 7) (blank Shipped.pairConfig) countingStreams =
          some r ∧
      r.output = ((List.range (max 1 1)).map fun column =>
        (loop.directed true).output Shipped.pairConfig true
          (p.passed (loop.directed true) Shipped.pairConfig.size
            ((loop.directed true).edgesTo Shipped.pairConfig.size fun _ => false) column
              Shipped.pairConfig.depth fun _ => 7)).flatten :=
  message_passing_semantics (katz Shipped.pairConfig [3]) (katz_arithmetic _ _) (fun _ => rfl) rfl 1
    true true (by decide) loop_valid loop_closed _ countingStreams (loop.shared_graph _ _)

end runs

end Program

end GraphMpc
