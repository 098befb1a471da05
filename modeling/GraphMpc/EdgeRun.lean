import GraphMpc.EdgeSlots
import GraphMpc.GraphSemantics
import GraphMpc.SharedWires

namespace GraphMpc

open Tabulate Permutation StableOrder Circuit Online RefCount Preprocessor GraphMpc.Valuation Servers
  Servers.Action

section lengths

variable {conf : ProtocolConfig} {f : Gate} {kd : ℕ → Kind} {v v' : ℕ → Vec}
  {π : ℕ → Permutation} {inp : ℕ → Vec}

theorem localGate_tab (hr : Ready conf v kd f) (hl : f.isLocal) (hi : f.type ≠ .insert) :
    ∃ x, localGate conf .p0 f v =
      some (tab (if f.type = .deduplicationSub then conf.size - 1 else conf.size) x) := by
  obtain ⟨hin, hout, hconst, hint⟩ := hl
  cases ht : f.type <;> simp only [Ready, ht] at hr <;>
    simp only [reduceCtorEq, if_false, if_true]
  case permute =>
    obtain ⟨hx, -, -, σ, hσ, hp⟩ := hr
    exact ⟨_, localGate_permute .p0 ht hσ hp hx.2⟩
  case reversePermute =>
    obtain ⟨hx, -, -, σ, hσ, hp⟩ := hr
    exact ⟨_, localGate_reversePermute .p0 ht hσ hp hx.2⟩
  case columnSumsToNodes =>
    obtain ⟨hd, hz, hx, -⟩ := hr
    exact ⟨_, localGate_columnSums .p0 ht hd hz fun r h => hz.trans (hx r h).2⟩
  case propagate1 => exact ⟨_, localGate_propagate1 .p0 ht hr.2.2.1 hr.2.2.2 hr.1.2⟩
  case gather2 => exact ⟨_, localGate_gather2 .p0 ht hr.2.2 (hr.2.2.trans hr.1.2)⟩
  case removeEdgeData => exact ⟨_, localGate_removeEdgeData .p0 ht hr.2.2 (hr.2.2.trans hr.1.2)⟩
  case addSIMD => exact ⟨_, localGate_addSIMD .p0 ht hr.1.2 hr.2.1.2⟩
  case subSIMD => exact ⟨_, localGate_subSIMD .p0 ht hr.1.2 hr.2.1.2⟩
  case propagate2 => exact ⟨_, localGate_propagate2 .p0 ht hr.1.2 hr.2.1.2⟩
  case addConstSIMD => exact ⟨_, localGate_addConstSIMD .p0 ht hr.1.2⟩
  case mulConstSIMD => exact ⟨_, localGate_mulConstSIMD .p0 ht hr.1.2⟩
  case flip => exact ⟨_, localGate_flip .p0 ht hr.1.2⟩
  case gather1 => exact ⟨_, localGate_gather1 .p0 ht hr.1.2⟩
  case deduplicationSub => exact ⟨_, localGate_deduplicationSub .p0 ht hr.1.2⟩
  all_goals simp_all [Gate.interactive]

theorem clearGate_length (hr : Ready conf v kd f) (hr' : Ready conf v' kd f)
    (hl : f.in1Idx ∈ f.reads conf.nodes → (v' f.in1Idx).length = (v f.in1Idx).length) :
    (clearGate conf π inp f v').length = (clearGate conf π inp f v).length := by
  by_cases hloc : f.isLocal
  · by_cases hi : f.type = .insert
    · rw [clearGate_local hloc hr (localGate_insert .p0 hi),
        clearGate_local hloc hr' (localGate_insert .p0 hi), List.length_cons, List.length_cons,
        hl (by simp [Gate.reads, hi])]
    · obtain ⟨x, hx⟩ := localGate_tab hr hloc hi
      obtain ⟨y, hy⟩ := localGate_tab hr' hloc hi
      rw [clearGate_local hloc hr hx, clearGate_local hloc hr' hy, tab_length, tab_length]
  · cases ht : f.type <;> simp_all [clearGate, destinations, apply, Gate.isLocal,
      Gate.interactive, Gate.reads]

end lengths

section edges

variable {conf : ProtocolConfig} {V : Valuation conf} {c0 : Circuit}

-- no zero test behind the prepared circuit c0 overwrites such a wire
def Kept (c0 : Circuit) (gates : List Gate) (w : ℕ) : Prop :=
  w < c0.nWires ∨ ∃ g ∈ gates, g.type = .shuffle ∧ g.outIdx = w ∧ g.in1Idx < c0.nWires

structure EdgeHolds (V : Valuation conf) (c0 : Circuit) (w : ℕ) (x : Vec) : Prop where
  length : x.length = (V.val w).length
  kept : Kept c0 V.gates w → x = V.val w
  edges : ∀ e, AtEdges c0 V.gates w e → ∀ i, conf.nodes ≤ i → i < conf.size → x.getD i 0 = e

structure Tracks (V : Valuation conf) (c0 : Circuit) : Prop extends Sound V where
  nodes : c0.nodes = conf.nodes
  opened : ∀ w ∈ openedOrders c0.ctx, w < c0.nWires
  data : ∀ w ∈ dataWires c0, w < c0.nWires
  exclusive : ∀ f ∈ V.gates, f.outIdx < c0.nWires → f.type = .eqz → f.layer = 0 →
    uses V.gates f.in1Idx = 1
  after : ∀ f ∈ V.gates, c0.nWires ≤ f.outIdx → AfterSorts c0 V.gates f
  loaded : ∀ k, ∀ x ∈ dataWires c0, loadGates k c0.ctx x ⊆ V.gates →
    ∀ i, conf.nodes ≤ i → i < conf.size → (V.val (k + 1)).getD i 0 = 0

theorem AtEdges.producer {gates : List Gate} {w : ℕ} {e : Ring} (h : AtEdges c0 gates w e) :
    c0.nWires ≤ w ∧ ∃ f ∈ gates, f.outIdx = w ∧ f.type ≠ .shuffle := by
  cases h with
  | @loaded k x hk hx h =>
    simp only [loadGates, List.cons_subset] at h
    exact ⟨hk.trans (Nat.le_succ k), _, h.2.1, rfl, by simp⟩
  | cleared hf hk h =>
    refine ⟨hk, _, hf, rfl, fun ht => ?_⟩
    simp [Gate.Clears, ht] at h
  | linear _ hf hk h =>
    refine ⟨hk, _, hf, rfl, fun ht => ?_⟩
    simp [Gate.Linear, ht] at h

namespace Tracks

variable {f : Gate} {v : ℕ → Vec} (h : Tracks V c0)

include h

theorem reads_lt (hf : f ∈ V.gates) {r : ℕ} (hr : r ∈ f.reads conf.nodes) : r < f.outIdx :=
  (h.wellFormed.wired_of_mem hf).1.reads r hr

theorem not_kept {w : ℕ} {e : Ring} (he : AtEdges c0 V.gates w e) : ¬ Kept c0 V.gates w := by
  obtain ⟨hw, f, hf, rfl, hs⟩ := he.producer
  rintro (hlt | ⟨g, hg, ht, hout, -⟩)
  · exact absurd hlt hw.not_gt
  · exact hs (h.wellFormed.eq_of_outIdx hg hf hout ▸ ht)

theorem ready (hf : f ∈ V.gates) (hv : ∀ r ∈ f.reads conf.nodes, EdgeHolds V c0 r (v r)) :
    Ready conf v V.kd f := by
  have hbefore : ∀ r ∈ f.reads conf.nodes, f.outIdx < c0.nWires → v r = V.val r := fun r hr hlt =>
    (hv r hr).kept (Or.inl ((h.reads_lt hf hr).trans hlt))
  refine (h.good f hf).of_lengths (fun r hr => (hv r hr).length) (fun ht => ?_) fun ht => ?_
  · have hr : f.in1Idx ∈ f.reads conf.nodes := by
      rcases ht with ht | ht <;> simp [Gate.reads, ht]
    refine hbefore _ hr (not_le.mp fun hle => ?_)
    exact ht.elim (h.after f hf hle).unsorted.1 (h.after f hf hle).unsorted.2
  · have hr : f.in2Idx ∈ f.reads conf.nodes := by
      rcases ht with ht | ht <;> simp [Gate.reads, ht]
    rcases lt_or_ge f.outIdx c0.nWires with hlt | hle
    · exact hbefore _ hr hlt
    · exact (hv _ hr).kept (Or.inl (h.opened _ ((h.after f hf hle).order ht)))

section entries

variable (hf : f ∈ V.gates) (hv : ∀ r ∈ f.reads conf.nodes, EdgeHolds V c0 r (v r)) {i : ℕ}
  (hi : conf.nodes ≤ i) (hi' : i < conf.size)

include hf hv hi hi'

theorem cleared_entry (hc : f.Clears conf.nodes) :
    (clearGate conf (fun idx => ofPerm conf.size (V.perm idx)) V.inp f v).getD i 0 = 0 := by
  have hr := h.ready hf hv
  rcases hc with ht | ⟨ht, hl⟩ | ⟨ht, hs⟩
  · simp only [Ready, ht] at hr
    simp only [clearGate, ht]
    rw [localGate_gather2 .p0 ht hr.2.2 (hr.2.2.trans hr.1.2), Option.getD_some,
      tab_getD_lt _ _ hi', if_neg hi.not_gt]
  · simp only [clearGate, ht, Storage.constVals, List.getD_eq_getElem?_getD]
    rw [List.getElem?_append_right (hl.trans hi), List.getElem?_replicate]
    split <;> rfl
  · have hlt : ¬ i < f.size := (hs.trans hi).not_gt
    rcases ht with ht | ⟨ht, -⟩ <;> simp only [clearGate, ht] <;>
      rw [tab_getD_lt _ _ hi', if_neg hlt]

theorem linear_entry (hl : f.Linear) {e e' : Ring} (h1 : (v f.in1Idx).getD i 0 = e)
    (h2 : f.type = .addSIMD ∨ f.type = .subSIMD → (v f.in2Idx).getD i 0 = e') :
    (clearGate conf (fun idx => ofPerm conf.size (V.perm idx)) V.inp f v).getD i 0 =
      f.atEdges e e' := by
  have hr := h.ready hf hv
  rcases hl with ht | ht | ht | ht | ht <;> simp only [Ready, ht] at hr <;>
    simp only [clearGate, ht, Gate.atEdges]
  · rw [localGate_mulConstSIMD .p0 ht hr.1.2, Option.getD_some, tab_getD_lt _ _ hi', h1]
  · rw [localGate_addConstSIMD .p0 ht hr.1.2, Option.getD_some, tab_getD_lt _ _ hi',
      if_neg fun hn => hi.not_gt hn.2, h1]
  · rw [localGate_flip .p0 ht hr.1.2, Option.getD_some, tab_getD_lt _ _ hi', if_pos rfl, h1]
  · rw [localGate_addSIMD .p0 ht hr.1.2 hr.2.1.2, Option.getD_some, tab_getD_lt _ _ hi', h1,
      h2 (Or.inl ht)]
  · rw [localGate_subSIMD .p0 ht hr.1.2 hr.2.1.2, Option.getD_some, tab_getD_lt _ _ hi', h1,
      h2 (Or.inr ht)]

theorem edge_entry {e : Ring} (he : AtEdges c0 V.gates f.outIdx e) :
    (clearGate conf (fun idx => ofPerm conf.size (V.perm idx)) V.inp f v).getD i 0 = e := by
  generalize hw : f.outIdx = w at he
  cases he with
  | @loaded k x hk hx hs =>
    have hmem := hs
    simp only [loadGates, List.cons_subset] at hmem
    obtain ⟨hshuffle, hpermute, -⟩ := hmem
    obtain rfl := h.wellFormed.eq_of_outIdx hf hpermute hw
    have hkept : ∀ r ∈ [k, c0.ctx.clearShuffledVtxOrder], Kept c0 V.gates r := by
      simp only [List.forall_mem_cons]
      exact ⟨Or.inr ⟨_, hshuffle, rfl, rfl, h.data x hx⟩,
        Or.inl (h.opened _ (by simp [openedOrders])), by simp⟩
    rw [Clear.clearGate_congr conf _ _ _ fun r hr => (hv r hr).kept (hkept r hr),
      ← V.solves _ hf (by simp)]
    exact h.loaded k x hx hs i hi hi'
  | cleared hg hk hc =>
    obtain rfl := h.wellFormed.eq_of_outIdx hf hg hw
    exact h.cleared_entry hf hv hi hi' (h.nodes ▸ hc)
  | linear e' hg hk hl h1 h2 =>
    obtain rfl := h.wellFormed.eq_of_outIdx hf hg hw
    have hin1 : f.in1Idx ∈ f.reads conf.nodes := by
      rcases hl with ht | ht | ht | ht | ht <;> simp [Gate.reads, ht]
    refine h.linear_entry hf hv hi hi' hl ((hv _ hin1).edges _ h1 i hi hi') fun ht => ?_
    have hin2 : f.in2Idx ∈ f.reads conf.nodes := by
      rcases ht with ht | ht <;> simp [Gate.reads, ht]
    exact (hv _ hin2).edges _ (h2 ht) i hi hi'

end entries

theorem solves (hf : f ∈ V.gates) (ho : f.type ≠ .output)
    (hv : ∀ r ∈ f.reads conf.nodes, EdgeHolds V c0 r (v r)) : EdgeHolds V c0 f.outIdx
      (clearGate conf (fun idx => ofPerm conf.size (V.perm idx)) V.inp f v) := by
  refine ⟨?_, fun hk => ?_, fun e he i hi hi' => h.edge_entry hf hv hi hi' he⟩
  · rw [V.solves f hf ho]
    exact clearGate_length (h.good f hf) (h.ready hf hv) fun hr => (hv _ hr).length
  · rw [V.solves f hf ho]
    refine Clear.clearGate_congr conf _ _ f fun r hr => (hv r hr).kept (Or.inl ?_)
    rcases hk with hlt | ⟨g, hg, ht, hout, hin⟩
    · exact (h.reads_lt hf hr).trans hlt
    · obtain rfl := h.wellFormed.eq_of_outIdx hf hg hout.symm
      simp only [Gate.reads, ht, List.mem_singleton] at hr
      exact hr ▸ hin

theorem negated (hf : f ∈ V.gates) (ht : f.type = .eqz) (hl : f.layer = 0) :
    total (layersOf V.gates) f.in1Idx = 1 ∨
      (∀ g ∈ V.gates, g.type = .compaction ∨ g.type = .bit2A → g.in1Idx ≠ f.in1Idx) ∧
        V.kd f.in1Idx = .add ∧ ∀ x y, EdgeHolds V c0 f.in1Idx x → y.length = x.length →
          (∀ i, f.size ≤ i → y.getD i 0 = x.getD i 0) → EdgeHolds V c0 f.in1Idx y := by
  rcases lt_or_ge f.outIdx c0.nWires with hlt | hle
  · left
    rw [total_eq_uses h.wellFormed]
    exact h.exclusive f hf hlt ht hl
  · right
    obtain ⟨hsize, e, he⟩ := (h.after f hf hle).tested ht hl
    have hkd : V.kd f.in1Idx = .add := by
      have hr := h.good f hf
      simp only [Valuation.Good, Ready, ht, hl, if_true] at hr
      exact hr.2.2.2.2.1
    refine ⟨fun g hg htg hin => ?_, hkd, fun x y hx hlen hy => ?_⟩
    · rcases htg with htg | htg
      · have hlt : g.in1Idx < g.outIdx := h.reads_lt hg (by simp [Gate.reads, htg])
        have hge := he.producer.1
        have hout : g.outIdx < c0.nWires :=
          not_le.mp fun hle => (h.after g hg hle).unsorted.1 htg
        omega
      · have hr := h.good g hg
        simp only [Valuation.Good, Ready, htg] at hr
        have hbit := hr.2.2.2.1
        rw [hin, hkd] at hbit
        cases hbit
    · refine ⟨hlen.trans hx.length, fun hk => absurd hk (h.not_kept he), fun e he i hi hi' => ?_⟩
      rw [hy i (by rw [hsize, h.nodes]; exact hi)]
      exact hx.edges e he i hi hi'

def plan (h : Tracks V c0) : Plan conf where
  gates := V.gates
  perm := V.perm
  inp := V.inp
  kd := V.kd
  holds := EdgeHolds V c0
  perm_keeps := V.keeps
  wellFormed := h.wellFormed
  sourced := h.sourced
  levelled := h.levelled
  handled := h.handled
  ready _ hf _ hv := h.ready hf hv
  solves _ hf ho _ hv := h.solves hf ho hv
  negated _ hf ht hl := h.negated hf ht hl
  columns f hf ht r hr := by
    rw [total_eq_uses h.wellFormed]
    exact h.columns f hf ht r hr
  shuffled := h.shuffled

end Tracks

end edges

section prepared

variable (conf : ProtocolConfig) (columns : ℕ) (inInputOrder reverse dedup : Bool)

theorem prepared_unrouted :
    (prepared (start conf columns inInputOrder reverse dedup)).gates.filter
      (·.type = .propagate1) = [] := by
  have hsort : ∀ s n, ∀ x ∈ sortsShapes s n, x.type ≠ .propagate1 := fun s n x hx => by
    obtain ⟨k, -, hk⟩ := List.mem_flatMap.mp hx
    simp only [sortShapes, List.mem_cons, List.not_mem_nil, or_false] at hk
    rcases hk with rfl | rfl | rfl | rfl | rfl | rfl | rfl <;> simp
  have hshapes : ∀ x ∈ inputShapes (2 * conf.bits + 4 + columnInputs columns) ++
      (orderShapes conf.size conf.bits dedup ++ prepareShapes (orderIdxs conf.bits dedup)),
      x.type ≠ .propagate1 := by
    cases dedup
    all_goals
      simp only [inputShapes, orderShapes, sortShapes, duplicateShapes, equalsZeroShapes,
        prepareShapes, List.forall_mem_append, List.forall_mem_cons, if_true, Bool.false_eq_true,
        if_false]
      and_intros
      all_goals
        first
          | exact hsort _ _
          | simp
  rw [List.filter_eq_nil_iff]
  intro f hf ht
  refine hshapes f.shape ?_ (of_decide_eq_true ht)
  rw [← (prepared_shaped conf columns inInputOrder reverse dedup).shapes]
  exact List.mem_map_of_mem hf

theorem prepared_continues : Continues (prepared (start conf columns inInputOrder reverse dedup))
    (prepared (start conf columns inInputOrder reverse dedup)) [] := by
  have hb := (prepared_spec conf columns inInputOrder reverse dedup).passable.built
  refine ⟨hb.wires, le_rfl, rfl, rfl, rfl, fun f hf hk => ?_, ?_⟩
  · have hlt := (hb.laid.wellFormed.wired_of_mem hf).2
    exact absurd (hb.wires ▸ hlt) hk.not_gt
  · rw [prepared_unrouted]
    exact .nil

theorem construct_continues {p : Program} (hf : p.Fits conf.nodes) :
    Continues (prepared (start conf columns inInputOrder reverse dedup))
      (construct p.algorithm (start conf columns inInputOrder reverse dedup)).2
      ((visited columns).flatMap fun column =>
        (List.range conf.depth).map (p.messageAtEdges column)) := by
  have hparams := (prepared_spec conf columns inInputOrder reverse dedup).params
  have h0 := prepared_continues conf columns inInputOrder reverse dedup
  rw [construct_run]
  generalize prepared (start conf columns inInputOrder reverse dedup) = c at *
  simp only [params, Prod.mk.injEq] at hparams
  obtain ⟨-, hnodes, -, hdepth, hcolumns, -⟩ := hparams
  have hnodes : c.nodes = conf.nodes := hnodes
  have hdepth : c.depth = conf.depth := hdepth
  have hcolumns : c.columns = columns := hcolumns
  rw [← hnodes] at hf
  have h := pass_continues hf h0
  rwa [hdepth, hcolumns] at h

end prepared

section constructed

theorem Op.Fits.mono {op : Op} {m n : ℕ} (h : op.Fits m) (hm : m ≤ n) : op.Fits n := by
  cases op with
  | setConstVector vals => exact le_trans h hm
  | _ => trivial

theorem Program.Fits.mono {p : Program} {m n : ℕ} (h : p.Fits m) (hm : m ≤ n) : p.Fits n :=
  ⟨fun column b hb op ho => (h.1 column b hb op ho).mono hm,
    fun i column => ⟨fun op ho => ((h.2.1 i column).1 op ho).mono hm,
      fun op ho => ((h.2.1 i column).2 op ho).mono hm⟩,
    fun column op ho => (h.2.2 column op ho).mono hm⟩

variable {conf : ProtocolConfig} {columns : ℕ} {inInputOrder reverse dedup : Bool} {p : Program}
  {V : Valuation conf} {E : Listing} {x : ℕ → Ring}

theorem Listing.vtx_lt (E : Listing) (dedup : Bool)
    (hn : Nat.count (fun i => E.isV i = true) conf.size = conf.nodes) {i : ℕ} (hi : i < conf.size) :
    (E.arrangement conf dedup).vtx i < conf.nodes ↔ E.isV i = true := by
  have hlt := sortStep_lt_count (E.arrangement conf dedup).src_keeps (fun i => !E.isV i) hi
  have hcount : Nat.count (fun i => (!E.isV i) = false) conf.size = conf.nodes := by
    simpa using hn
  rw [hcount, Bool.not_eq_false'] at hlt
  exact hlt

theorem mem_prepared_of_lt {f : Gate}
    (hf : f ∈ (construct p.algorithm (start conf columns inInputOrder reverse dedup)).2.gates)
    (hk : f.outIdx < (prepared (start conf columns inInputOrder reverse dedup)).nWires) :
    f ∈ (prepared (start conf columns inInputOrder reverse dedup)).gates := by
  have hs := prepared_spec conf columns inInputOrder reverse dedup
  obtain ⟨L, hL⟩ := pass_finishes conf columns inInputOrder reverse dedup p.algorithm_lawful hs
  rw [construct_run] at hf
  have hget := hL.grows.built.laid.wellFormed.getElem?_outIdx hf
  rw [hL.grows.gates, List.getElem?_append_left (hs.passable.built.wires ▸ hk)] at hget
  exact List.mem_of_getElem? hget

theorem Program.tracks (hz : conf.nodes ≤ conf.size) (h0 : 0 < conf.nodes)
    (hf : p.Fits conf.nodes) (hs : p.columnSums = true → p.Accumulates ∧ conf.nodes ≤ columns)
    (hV : V.gates = (construct p.algorithm (start conf columns inInputOrder reverse dedup)).2.gates)
    (hF : Fed V E x (columnInputs columns))
    (hn : Nat.count (fun i => E.isV i = true) conf.size = conf.nodes)
    (hx : ∀ i < conf.size, E.isV i = false → x i = 0) :
    Tracks V (prepared (start conf columns inInputOrder reverse dedup)) := by
  have he := constructed_extends inInputOrder reverse dedup hz (h0.trans_le hz) (fun _ => h0)
    (⟨hf.mono hz, hs⟩ : p.Regular conf columns)
  obtain ⟨ctx, hc⟩ := construct_spec conf columns inInputOrder reverse dedup p.algorithm_lawful
  have hspec := prepared_spec conf columns inInputOrder reverse dedup
  have hb := hspec.passable.built
  have hlt : ∀ {w}, Wire (prepared (start conf columns inInputOrder reverse dedup)).gates w →
      w < (prepared (start conf columns inInputOrder reverse dedup)).nWires :=
    fun hw => hb.wires ▸ hb.laid.wire_lt hw
  have hparams := hspec.params
  simp only [params, Prod.mk.injEq] at hparams
  have hnodes : (prepared (start conf columns inInputOrder reverse dedup)).nodes = conf.nodes :=
    hparams.2.1
  refine ⟨he.sound hc hV hF, hnodes, ?_, fun w hw => ?_, fun f hf hk ht hl => ?_, ?_,
    fun k w hw hsub i hi hi' => ?_⟩
  · simp only [openedOrders, List.forall_mem_cons]
    exact ⟨hlt hspec.passable.opened.vtx, hlt hspec.passable.opened.src,
      hlt hspec.passable.opened.dst, by simp⟩
  · refine hlt (hspec.inputs w ?_)
    rcases dataWires_prepared hspec hw with ⟨rfl, -⟩ | ⟨i, hi, rfl⟩ <;> omega
  · rw [hV] at hf ⊢
    exact he.prepared f (mem_prepared_of_lt hf hk) ht hl
  · rw [hV]
    exact (construct_continues conf columns inInputOrder reverse dedup hf).after
  · obtain ⟨L, hL⟩ := pass_finishes conf columns inInputOrder reverse dedup p.algorithm_lawful hspec
    rw [← construct_run] at hL
    obtain ⟨-, hA, hdata, hcols⟩ := (prepared_extends conf columns inInputOrder reverse dedup
      (h0.trans_le hz)).values V (hV ▸ hL.grows.sub) E x hF
    have hw : V.Holds w x := by
      rcases dataWires_prepared hspec hw with ⟨rfl, -⟩ | ⟨j, hj, rfl⟩
      · exact hdata
      · exact hcols j hj
    have hisV : (E.directed reverse).isV = E.isV := by cases reverse <;> rfl
    have hvtx := fun j => (E.directed reverse).vtx_lt dedup (by rwa [hisV]) (i := j)
    rw [(loadGates_value hsub hA hw).2.getD hi']
    generalize (E.directed reverse).arrangement conf dedup = A at *
    have hj := A.vtx_keeps.symm_lt hi'
    refine hx _ hj (Bool.eq_false_iff.mpr fun hv => ?_)
    rw [← hisV, ← hvtx _ hj, Equiv.apply_symm_apply] at hv
    exact absurd hv hi.not_gt

end constructed

section arithmetic

variable {nodes : ℕ} {env : List Ring}

theorem getD_zero {l : List Ring} (h : ∀ e ∈ l, e = 0) (k : ℕ) : l.getD k 0 = 0 := by
  rw [List.getD_eq_getElem?_getD]
  cases hk : l[k]? with
  | none => rfl
  | some e => exact h e (List.mem_of_getElem? hk)

theorem Op.Arithmetic.atEdges {op : Op} (hop : op.Arithmetic nodes) (h : ∀ e ∈ env, e = 0) :
    ∀ e ∈ op.atEdges env, e = 0 := by
  cases op with
  | flip x => exact hop.elim
  | clip x => exact hop.elim
  | _ =>
    simp only [Op.atEdges, List.forall_mem_append, List.forall_mem_singleton, getD_zero h]
    exact ⟨h, by simp⟩

theorem Body.Arithmetic.atEdges {arity : ℕ} {b : Body arity} (hb : b.Arithmetic nodes)
    (h : ∀ e ∈ env, e = 0) : b.atEdges env = 0 := by
  have hops : ∀ (ops : List Op) (env : List Ring), (∀ op ∈ ops, op.Arithmetic nodes) →
      (∀ e ∈ env, e = 0) → ∀ e ∈ ops.foldl Op.atEdges env, e = 0 := by
    intro ops
    induction ops with
    | nil => exact fun _ _ h => h
    | cons op ops ih =>
      intro env hop h
      obtain ⟨h1, h2⟩ := List.forall_mem_cons.mp hop
      exact ih _ h2 (h1.atEdges h)
  exact getD_zero (hops b.ops env hb h) b.ret

theorem Program.Arithmetic.stateAtEdges {p : Program} (hp : p.Arithmetic nodes) (column i : ℕ) :
    p.stateAtEdges column i = 0 := by
  induction i with
  | zero =>
    rw [Program.stateAtEdges]
    cases hb : p.initNodes column with
    | none => rfl
    | some b => exact (hp.initNodes column b hb).atEdges (List.forall_mem_nil _)
  | succ i ih => exact (hp.apply i column).atEdges (by simp [ih])

theorem Program.Arithmetic.messageAtEdges {p : Program} (hp : p.Arithmetic nodes) (column i : ℕ) :
    p.messageAtEdges column i = 0 :=
  (hp.prepare i column).atEdges (by simp [hp.stateAtEdges])

-- operands that are 0 at every edge slot give a result that is
def Op.KeepsZero (nodes : ℕ) (op : Op) : Prop :=
  ∀ env : List (ℕ → Ring), (∀ k ∈ op.operands, k < env.length) →
    (∀ x ∈ env, ∀ i, nodes ≤ i → x i = 0) → ∀ x ∈ op.eval nodes env, ∀ i, nodes ≤ i → x i = 0

theorem Op.keepsZero_iff (op : Op) (hf : op.Fits nodes) :
    op.KeepsZero nodes ↔ op.Arithmetic nodes := by
  refine ⟨fun h => ?_, fun h env _ henv x hx i hi =>
    h.eval_edge hi (fun y hy => henv y hy i hi) x hx⟩
  have hzero : ∀ n, ∀ x ∈ List.replicate n (fun _ : ℕ => (0 : Ring)), ∀ i, nodes ≤ i → x i = 0 :=
    fun n x hx i _ => by rw [List.eq_of_mem_replicate hx]
  cases op with
  | flip x =>
    have hone := h _ (by simp [operands]) (hzero (x + 1)) _
      (List.mem_append_right _ (List.mem_singleton_self _)) nodes le_rfl
    simp at hone
  | clip x =>
    have hone := h _ (by simp [operands]) (hzero (x + 1)) _
      (List.mem_append_right _ (List.mem_singleton_self _)) nodes le_rfl
    simp [clipped] at hone
  | setConstVector vals => exact hf
  | _ => trivial

end arithmetic

section runs

variable {conf : ProtocolConfig} {columns : ℕ} {inInputOrder reverse dedup : Bool} {p : Program}
  {V : Valuation conf} {c0 circ : Circuit} {E : Listing} {x : ℕ → Ring} {g0 g1 : Graph} {f : Gate}
  {e : Ring} {pre post : List Action}

theorem Tracks.operand (h : Tracks V c0)
    {S : Supply conf h.plan.perm (layersOf h.plan.gates).flatten} {inp0 inp1 : ℕ → Vec}
    {sent recvd : List Gate} {s : Servers} (hr : Running h.plan S inp0 inp1 pre sent recvd s)
    (hs : schedule (layersOf V.gates) = pre ++ recv f :: post) (ht : f.type = .propagate1)
    (he : AtEdges c0 V.gates f.in1Idx e) : ∃ v,
      Shares (s.e0.online.wires f.in1Idx) (s.e1.online.wires f.in1Idx) v ∧
        conf.size ≤ v.length ∧ ∀ i, conf.nodes ≤ i → i < conf.size → v.getD i 0 = e := by
  have hgood := h.good f (h.plan.mem_gates hs rfl)
  simp only [Valuation.Good, Ready, ht] at hgood
  obtain ⟨⟨hk, hlen⟩, -⟩ := hgood
  obtain ⟨v, hv, hrel⟩ := hr.operand (r := f.in1Idx) hs rfl
    (by simp [Action.reads, Gate.interactive, Gate.reads, ht])
  have hk : h.plan.kd f.in1Idx = .add := hk
  rw [hk] at hrel
  exact ⟨v, hrel, hv.length ▸ hlen, hv.edges e he⟩

theorem tracks_entries {G : List Gate} {m : ℕ} (hlaid : Laid conf.nodes m G)
    (hdeal : Dealable conf (layersOf G).flatten) (hlev : ColumnsLevelled conf.nodes G)
    (hcirc : circ.circ = layersOf G) (g : Streams) (hin : SharedList conf g0 g1 E x)
    (htracks : ∀ V : Valuation conf, V.gates = G → V.inp = SharedList.opened circ g0 g1 →
      Tracks V c0) (ht : f.type = .propagate1) (he : AtEdges c0 G f.in1Idx e)
    (hs : schedule circ.circ = pre ++ recv f :: post) : ∃ s v,
      runUntil conf circ g0 g1 g pre = some s ∧
        Shares (s.e0.online.wires f.in1Idx) (s.e1.online.wires f.in1Idx) v ∧
          conf.size ≤ v.length ∧ ∀ i, conf.nodes ≤ i → i < conf.size → v.getD i 0 = e := by
  let perm : ℕ → Equiv.Perm ℕ := fun idx => (deal conf g (layersOf G).flatten idx).pi
  have hk : ∀ idx, Keeps conf.size (perm idx) := fun idx => SharedPerm.pi_keeps _
  let V : Valuation conf := evaluation G (SharedList.opened circ g0 g1) hk hlaid.wellFormed hlev
    hlaid.sourced
  have T : Tracks V c0 := htracks V rfl rfl
  obtain ⟨S, s0, s1, s', hd, e0, e1, hdrives, -⟩ := T.plan.exists_drives hdeal hcirc g rfl
    fun f _ _ => hin.shares_inputs f.outIdx
  obtain ⟨s, hrun, sent, recvd, hR⟩ := hdrives.along pre (recv f :: post) hs
  obtain ⟨v, hv⟩ := T.operand hR (hcirc ▸ hs) ht he
  refine ⟨s, v, ?_, hv⟩
  simp only [runUntil, hd, e0, e1, Option.bind_eq_bind, Option.bind_some]
  exact hrun

-- the servers reach the gate, and its input then reconstructs to 0 at every edge slot
def ZeroAtEdges (conf : ProtocolConfig) (circ : Circuit) (g0 g1 : Graph) (g : Streams) (f : Gate) :
    Prop :=
  ∀ pre post, schedule circ.circ = pre ++ recv f :: post →
    ∃ s v, runUntil conf circ g0 g1 g pre = some s ∧
      Shares (s.e0.online.wires f.in1Idx) (s.e1.online.wires f.in1Idx) v ∧
        conf.size ≤ v.length ∧ ∀ i, conf.nodes ≤ i → i < conf.size → v.getD i 0 = 0

def EdgesStayZero (conf : ProtocolConfig) (circ : Circuit) (g0 g1 : Graph) (g : Streams) : Prop :=
  ∀ f ∈ circ.circ.flatten, f.type = .propagate1 → ZeroAtEdges conf circ g0 g1 g f

theorem forall₂_forall_iff {α β : Type} {R : α → β → Prop} {P : α → Prop} {Q : β → Prop}
    {l : List α} {l' : List β} (h : List.Forall₂ R l l')
    (hi : ∀ a ∈ l, ∀ b, R a b → (P a ↔ Q b)) : (∀ a ∈ l, P a) ↔ ∀ b ∈ l', Q b := by
  induction h with
  | nil => simp
  | cons hab h ih =>
    obtain ⟨h1, h2⟩ := List.forall_mem_cons.mp hi
    rw [List.forall_mem_cons, List.forall_mem_cons, h1 _ hab, ih h2]

section programs

variable (h0 : 0 < conf.nodes) (hf : p.Fits conf.nodes)
  (hsums : p.columnSums = true → p.Accumulates ∧ conf.nodes ≤ columns)
  (hcirc : circ = (build p.algorithm (start conf columns inInputOrder reverse dedup)).2)
  (g : Streams) (hin : SharedList conf g0 g1 E x)
  (hn : Nat.count (fun i => E.isV i = true) conf.size = conf.nodes)
  (hx : ∀ i < conf.size, E.isV i = false → x i = 0)

include h0 hf hsums hcirc hin hn hx

theorem Program.edge_entries (ht : f.type = .propagate1)
    (he : AtEdges (prepared (start conf columns inInputOrder reverse dedup))
      (construct p.algorithm (start conf columns inInputOrder reverse dedup)).2.gates f.in1Idx e)
    (hs : schedule circ.circ = pre ++ recv f :: post) : ∃ s v,
      runUntil conf circ g0 g1 g pre = some s ∧
        Shares (s.e0.online.wires f.in1Idx) (s.e1.online.wires f.in1Idx) v ∧
          conf.size ≤ v.length ∧ ∀ i, conf.nodes ≤ i → i < conf.size → v.getD i 0 = e := by
  have hz : conf.nodes ≤ conf.size := hn ▸ Nat.count_le _
  have hext := constructed_extends inInputOrder reverse dedup hz (h0.trans_le hz) (fun _ => h0)
    (⟨hf.mono hz, hsums⟩ : p.Regular conf columns)
  obtain ⟨ctx, hc⟩ := construct_spec conf columns inInputOrder reverse dedup p.algorithm_lawful
  have hlayers : circ.circ = _ := (congrArg Circuit.circ hcirc).trans (build_circ ..)
  have hcols : circ.columns = _ := (congrArg Circuit.columns hcirc).trans (build_columns ..)
  have hparams := hc.params
  simp only [params, Prod.mk.injEq] at hparams
  have hcols : circ.columns = columns := hcols.trans hparams.2.2.2.2.1
  exact tracks_entries hc.laid (dealable_layers conf hc.laid hc.disciplined) (hext.levelled hc)
    hlayers g hin (fun V hV hinp => Program.tracks hz h0 hf hsums hV (hcols ▸ hin.fed hinp) hn hx)
    ht he hs

theorem Program.zeroAtEdges_iff (ht : f.type = .propagate1) (hmem : f ∈ circ.circ.flatten)
    (he : AtEdges (prepared (start conf columns inInputOrder reverse dedup))
      (construct p.algorithm (start conf columns inInputOrder reverse dedup)).2.gates f.in1Idx e) :
    ZeroAtEdges conf circ g0 g1 g f ↔ conf.size ≤ conf.nodes ∨ e = 0 := by
  constructor
  · intro hzero
    obtain ⟨pre, post, hs⟩ := List.append_of_mem (mem_schedule_recv.mpr hmem)
    obtain ⟨s, v, hrun, hv, -, hz⟩ := hzero pre post hs
    obtain ⟨s', v', hrun', hv', -, he⟩ := edge_entries h0 hf hsums hcirc g hin hn hx ht he hs
    obtain rfl := Option.some.inj (hrun.symm.trans hrun')
    obtain rfl := (zipWith_shares hv).symm.trans (zipWith_shares hv')
    rcases le_or_gt conf.size conf.nodes with hle | hlt
    · exact Or.inl hle
    · exact Or.inr ((he _ le_rfl hlt).symm.trans (hz _ le_rfl hlt))
  · intro hq pre post hs
    obtain ⟨s, v, hrun, hv, hlen, he⟩ := edge_entries h0 hf hsums hcirc g hin hn hx ht he hs
    refine ⟨s, v, hrun, hv, hlen, fun i hi hi' => (he i hi hi').trans ?_⟩
    exact hq.resolve_left (hi.trans_lt hi').not_ge

theorem Program.sent_zero_iff : EdgesStayZero conf circ g0 g1 g ↔
    ∀ e ∈ (visited columns).flatMap fun column =>
      (List.range conf.depth).map (p.messageAtEdges column), conf.size ≤ conf.nodes ∨ e = 0 := by
  have hsent := (construct_continues conf columns inInputOrder reverse dedup hf).sent
  obtain ⟨ctx, hc⟩ := construct_spec conf columns inInputOrder reverse dedup p.algorithm_lawful
  have hlayers : circ.circ = _ := (congrArg Circuit.circ hcirc).trans (build_circ ..)
  have hmem : ∀ f, f ∈ circ.circ.flatten ↔
      f ∈ (construct p.algorithm (start conf columns inInputOrder reverse dedup)).2.gates :=
    fun f => hlayers ▸ mem_layersOf hc.laid.wellFormed
  calc EdgesStayZero conf circ g0 g1 g
      ↔ ∀ f ∈ (construct p.algorithm (start conf columns inInputOrder reverse dedup)).2.gates.filter
          (·.type = .propagate1), ZeroAtEdges conf circ g0 g1 g f := by
        simp [EdgesStayZero, hmem]
    _ ↔ _ := forall₂_forall_iff hsent fun f hf' e he => by
        obtain ⟨hf', ht⟩ := List.mem_filter.mp hf'
        exact Program.zeroAtEdges_iff h0 hf hsums hcirc g hin hn hx (of_decide_eq_true ht)
          ((hmem f).mpr hf') he

theorem Program.edges_stay_zero_iff :
    (EdgesStayZero conf circ g0 g1 g ↔ conf.size ≤ conf.nodes ∨
      ∀ column ∈ visited columns, ∀ i < conf.depth, p.messageAtEdges column i = 0) ∧
    ∀ op : Op, op.Fits conf.nodes → (op.KeepsZero conf.nodes ↔ op.Arithmetic conf.nodes) := by
  refine ⟨?_, fun op hop => op.keepsZero_iff hop⟩
  rw [Program.sent_zero_iff h0 hf hsums hcirc g hin hn hx]
  by_cases hle : conf.size ≤ conf.nodes
  · simp [hle]
  · simp only [hle, false_or, List.forall_mem_flatMap, List.forall_mem_map, List.mem_range]

end programs

theorem loop_data_edges : ∀ i < Shipped.pairConfig.size,
    (Program.loop.listing Shipped.pairConfig.bits).isV i = false →
      Program.loop.data (fun _ => 7) i = 0 := fun i _ hv => by
  have hv : Program.loop.isV i = false := hv
  simp [DagList.data, hv]

-- an algorithm that sends b of the states and takes the updates as the new states
def relay (b : Body 1) : Program where
  columns := 1
  initNodes _ := none
  prepare _ _ := b
  apply _ _ := .arg 1 Nat.one_lt_two
  postMp _ := .arg 0 Nat.one_pos
  columnSums := false

def relayFlip : Program := relay (.single (.flip 0) rfl)

theorem relayFlip_fits : relayFlip.Fits 1 := by
  simp [relayFlip, relay, Program.Fits, Body.Fits, Body.single, Body.arg, Op.Fits]

def relayClip : Program := relay (.single (.clip 0) Body.clip_scoped)

theorem relayClip_fits : relayClip.Fits 1 := by
  simp [relayClip, relay, Program.Fits, Body.Fits, Body.single, Body.arg, Op.Fits]

theorem edges_stay_zero_clip :
    (EdgesStayZero Shipped.pairConfig
        (build relayClip.algorithm (start Shipped.pairConfig 1 true false false)).2
        (Program.loop.graph Shipped.pairConfig fun _ => 7) (DagList.blank Shipped.pairConfig)
        countingStreams ↔
      Shipped.pairConfig.size ≤ Shipped.pairConfig.nodes ∨
        ∀ column ∈ visited 1, ∀ i < Shipped.pairConfig.depth,
          relayClip.messageAtEdges column i = 0) ∧
    ∀ op : Op, op.Fits Shipped.pairConfig.nodes →
      (op.KeepsZero Shipped.pairConfig.nodes ↔ op.Arithmetic Shipped.pairConfig.nodes) :=
  Program.edges_stay_zero_iff (by decide) relayClip_fits (fun h => absurd h (by decide)) rfl
    countingStreams (Program.loop.shared_graph _ _) Program.loop_valid.nodes loop_data_edges

theorem clip_fills_edges :
    ¬ EdgesStayZero Shipped.pairConfig
        (build relayClip.algorithm (start Shipped.pairConfig 1 true false false)).2
        (Program.loop.graph Shipped.pairConfig fun _ => 7) (DagList.blank Shipped.pairConfig)
        countingStreams ∧
      ¬ EdgesStayZero Shipped.pairConfig
        (build relayFlip.algorithm (start Shipped.pairConfig 1 true false false)).2
        (Program.loop.graph Shipped.pairConfig fun _ => 7) (DagList.blank Shipped.pairConfig)
        countingStreams := by
  constructor
  · rw [Program.sent_zero_iff (by decide) relayClip_fits (fun h => absurd h (by decide)) rfl
      countingStreams (Program.loop.shared_graph _ _) Program.loop_valid.nodes loop_data_edges]
    simp [visited, Shipped.pairConfig, Program.messageAtEdges, Program.stateAtEdges, Body.atEdges,
      Body.single, Op.atEdges, relayClip, relay]
  · rw [Program.sent_zero_iff (by decide) relayFlip_fits (fun h => absurd h (by decide)) rfl
      countingStreams (Program.loop.shared_graph _ _) Program.loop_valid.nodes loop_data_edges]
    simp [visited, Shipped.pairConfig, Program.messageAtEdges, Program.stateAtEdges, Body.atEdges,
      Body.single, Op.atEdges, relayFlip, relay]

end runs

end GraphMpc
