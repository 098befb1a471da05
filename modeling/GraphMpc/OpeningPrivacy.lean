import GraphMpc.Assignments
import GraphMpc.SortCircuit

namespace GraphMpc

open Tabulate Permutation Circuit GraphMpc.Valuation Servers Servers.Action

section shapes

def NoReveal (l : List Shape) : Prop := ∀ k ∈ l, k.type ≠ .reveal

theorem NoReveal.append {l l' : List Shape} (h : NoReveal l) (h' : NoReveal l') :
    NoReveal (l ++ l') := List.forall_mem_append.mpr ⟨h, h'⟩

theorem NoReveal.flatMap {α : Type} {f : α → List Shape} (h : ∀ a, NoReveal (f a)) (l : List α) :
    NoReveal (l.flatMap f) := List.forall_mem_flatMap.mpr fun a _ => h a

theorem Op.shapes_noReveal (nodes : ℕ) (op : Op) : NoReveal (op.shapes nodes) := by
  cases op <;> simp [NoReveal, Op.shapes, clipShapes, equalsZeroShapes]

theorem Body.shapes_noReveal {arity : ℕ} (b : Body arity) (nodes : ℕ) :
    NoReveal (b.shapes nodes) := .flatMap (Op.shapes_noReveal nodes) _

theorem outputShapes_noReveal (nodes vtx : ℕ) (inInputOrder : Bool) :
    NoReveal (outputShapes nodes vtx inInputOrder) := by
  cases inInputOrder <;> simp [NoReveal, outputShapes]

theorem columnShapes_noReveal (p : Program) (v : View) (column : ℕ) :
    NoReveal (columnShapes p v column) := by
  have hload : NoReveal (loadShapes v.vtxShuffleIdx) := by simp [NoReveal, loadShapes]
  have hinit : NoReveal (initShapes p v.nodes column) := by
    rw [initShapes]
    split
    · simp [NoReveal]
    · exact Body.shapes_noReveal _ _
  have hroute : NoReveal (routeShapes v.shuffleIdx) := by simp [NoReveal, routeShapes]
  exact hload.append (hinit.append (.flatMap (fun i => (Body.shapes_noReveal _ _).append
    (hroute.append (Body.shapes_noReveal _ _))) _))

theorem passShapes_noReveal (p : Program) (v : View) : NoReveal (passShapes p v) := by
  have hout := outputShapes_noReveal v.nodes v.vtxShuffleIdx v.inInputOrder
  refine .append (.flatMap (columnShapes_noReveal p v) _)
    (.append (.flatMap (fun column => Body.shapes_noReveal _ _) _) ?_)
  split
  · exact List.forall_mem_cons.mpr ⟨by simp, hout⟩
  · exact .flatMap (fun _ => hout) _

theorem construct_reveals (conf : ProtocolConfig) (columns : ℕ)
    (inInputOrder reverse dedup : Bool) (p : Program) : ∃ L,
      (construct p.algorithm (start conf columns inInputOrder reverse dedup)).2.gates =
        (prepared (start conf columns inInputOrder reverse dedup)).gates ++ L ∧
      ∀ f ∈ L, f.type ≠ .reveal := by
  have hs := prepared_spec conf columns inInputOrder reverse dedup
  obtain ⟨L, hL⟩ := pass_finishes conf columns inInputOrder reverse dedup p.algorithm_lawful hs
  have hprepared := prepared_shaped conf columns inInputOrder reverse dedup
  have hshapes := (pass_emits p _ _ hprepared).shapes
  rw [construct_run]
  rw [hL.grows.gates, List.map_append, hprepared.shapes] at hshapes
  refine ⟨L, hL.grows.gates, fun f hf => ?_⟩
  have hmem : f.shape ∈ L.map Gate.shape := List.mem_map_of_mem hf
  rw [List.append_cancel_left hshapes] at hmem
  exact passShapes_noReveal p _ _ hmem

theorem construct_openings {conf : ProtocolConfig} (hsize : 0 < conf.size) (columns : ℕ)
    (inInputOrder reverse dedup : Bool) (p : Program) {E : Listing} (x : ℕ → Ring)
    (hs : E.srcBits.length = conf.bits) (hd : E.dstBits.length = conf.bits) : ∃ ρs,
      Openings (fun V : Valuation conf => Fed V E x (columnInputs columns))
        (construct p.algorithm (start conf columns inInputOrder reverse dedup)).2.gates 0 ρs := by
  obtain ⟨L, hgates, hquiet⟩ := construct_reveals conf columns inInputOrder reverse dedup p
  obtain ⟨ρs, h⟩ := (prepared_extends conf columns inInputOrder reverse dedup hsize).opens E x hs hd
  rw [hgates]
  exact ⟨_, h.append (.silent (fun _ => True) _ hquiet) rfl (fun _ _ hF => hF)
    fun _ _ _ _ => trivial⟩

end shapes

section pairs

variable {conf : ProtocolConfig} {P P' : Valuation conf → Prop} {L : List Gate}
  {ρs ρs' : List (Equiv.Perm ℕ)}

theorem Openings.keeps (h : Openings P L 0 ρs) {V : Valuation conf} (hV : L ⊆ V.gates) (hP : P V)
    (i : ℕ) : Keeps conf.size (ρs.getD i 1) := by
  by_cases hi : i < ρs.length
  · have hlen := h.length_eq
    have hi' : i < (L.filter (·.type = .reveal)).length := hlen.symm ▸ hi
    have hopens := (List.forall₂_iff_get.mp h).2 i hi' (by simpa using hi) V hV hP
    simp only [List.get_eq_getElem, List.getElem_zipIdx, zero_add] at hopens
    rw [List.getD_eq_getElem _ _ hi]
    have hmul := hopens.1.mul (V.keeps i)
    rwa [inv_mul_cancel_right] at hmul
  · rw [List.getD_eq_default _ _ (not_lt.mp hi)]
    exact .one _

theorem Openings.exists_index (h : Openings P L 0 ρs) (h' : Openings P' L 0 ρs') {f : Gate}
    (hf : f ∈ L) (ht : f.type = .reveal) : ∃ i,
      (∀ V : Valuation conf, L ⊆ V.gates → P V →
        V.Opens f.outIdx (ρs.getD i 1 * (V.perm i)⁻¹)) ∧
      ∀ V : Valuation conf, L ⊆ V.gates → P' V →
        V.Opens f.outIdx (ρs'.getD i 1 * (V.perm i)⁻¹) := by
  have hmem : f ∈ L.filter (·.type = .reveal) := List.mem_filter.mpr ⟨hf, by simpa using ht⟩
  obtain ⟨i, hi, rfl⟩ := List.mem_iff_getElem.mp hmem
  have hi1 : i < ρs.length := h.length_eq ▸ hi
  have hi2 : i < ρs'.length := h'.length_eq ▸ hi
  refine ⟨i, fun V hV hP => ?_, fun V hV hP => ?_⟩
  · have hopens := (List.forall₂_iff_get.mp h).2 i hi (by simpa using hi1) V hV hP
    simp only [List.get_eq_getElem, List.getElem_zipIdx, zero_add] at hopens
    rwa [List.getD_eq_getElem _ _ hi1]
  · have hopens := (List.forall₂_iff_get.mp h').2 i hi (by simpa using hi2) V hV hP
    simp only [List.get_eq_getElem, List.getElem_zipIdx, zero_add] at hopens
    rwa [List.getD_eq_getElem _ _ hi2]

end pairs

section runs

variable (conf : ProtocolConfig) (circ : Circuit) (g0 g1 : Graph) (g : Streams)

def Clear.openings (perm : ℕ → Permutation) (inputToVal : ℕ → Vec) : List Vec :=
  (circ.circ.flatten.filter (·.type = .reveal)).map fun f =>
    (Clear.run conf perm inputToVal circ.circ.flatten).wires f.outIdx

def Servers.Action.reveals (w : Gate → Vec × Vec) : Action → List (Vec × Vec)
  | recv f => if f.type = .reveal then [w f] else []
  | _ => []

def Servers.opened (s : Servers) : Action → List (Vec × Vec) :=
  reveals fun f => (s.e0.online.wires f.outIdx, s.e1.online.wires f.outIdx)

def runOpenings : Option (List (Vec × Vec)) := do
  let dealer ← Preprocessor.runDealer conf circ.circ g
  let s0 ← Preprocessor.runParty conf circ.circ g dealer .p0
  let s1 ← Preprocessor.runParty conf circ.circ g dealer .p1
  Trace.collect (Servers.step conf) Servers.opened
    ⟨Evaluator.init circ s0 g0, Evaluator.init circ s1 g1⟩ (schedule circ.circ)

variable {conf circ g0 g1 g}

theorem recv_reveals (w : Gate → Vec × Vec) (layer : List Gate) :
    (layer.map recv).flatMap (reveals w) = (layer.filter (·.type = .reveal)).map w := by
  induction layer with
  | nil => rfl
  | cons f layer ih =>
    rw [List.map_cons, List.flatMap_cons, ih, reveals, List.filter_cons]
    by_cases ht : f.type = .reveal <;> simp [ht]

theorem schedule_reveals (w : Gate → Vec × Vec) (layers : List (List Gate)) :
    (schedule layers).flatMap (reveals w) = (layers.flatten.filter (·.type = .reveal)).map w := by
  induction layers with
  | nil => rfl
  | cons layer layers ih =>
    have hsend : (layer.map send).flatMap (reveals w) = [] := by
      simp [List.flatMap_map, reveals]
    have hcons : schedule (layer :: layers) = layerSchedule layer ++ schedule layers := rfl
    rw [hcons, List.flatMap_append, ih, layerSchedule, List.flatMap_append, List.flatMap_append,
      List.flatMap_append, hsend, recv_reveals, List.flatten_cons, List.filter_append,
      List.map_append]
    simp [reveals]

theorem Execution.opened_eq (X : Execution conf circ g g0 g1) {pre post : List Action} {f : Gate}
    (hs : schedule circ.circ = (pre ++ [recv f]) ++ post) (ht : f.type = .reveal) {s : Servers}
    (h : InRun X.evaluates.plan X.supply (Evaluator.init circ X.s0 g0).inputToVal
      (Evaluator.init circ X.s1 g1).inputToVal (pre ++ [recv f]) s) :
    s.e0.online.wires f.outIdx = X.val.val f.outIdx ∧
      s.e1.online.wires f.outIdx = X.val.val f.outIdx := by
  rw [X.layers] at hs
  obtain ⟨sent, recvd, h⟩ := h
  have hu : InUse conf.nodes (pre ++ [recv f]) post f.outIdx :=
    Or.inl ⟨pre, recv f, rfl, by simp [Action.writes, ht]⟩
  obtain ⟨hwritten, hlive⟩ := Plan.inUse_live (P := X.evaluates.plan) hs hu
  rw [List.append_assoc] at hs
  have hf : f ∈ X.val.gates := X.evaluates.plan.mem_gates hs rfl
  have hk : X.val.kd f.outIdx = .pub := by
    rw [X.val.kind f hf (by simp [ht]), Gate.kind, ht]
  have hrel : (X.val.kd f.outIdx).Rel _ _ (X.val.val f.outIdx) :=
    X.evaluates.related (h.wires _ hwritten hlive)
  rw [hk] at hrel
  exact hrel.pub_eq

theorem Execution.openings_eq (X : Execution conf circ g g0 g1) : runOpenings conf circ g0 g1 g =
    some ((Clear.openings conf circ (dealerPi X.dealer) X.val.inp).map fun v => (v, v)) := by
  have hcollect : Trace.collect (Servers.step conf) opened
      ⟨Evaluator.init circ X.s0 g0, Evaluator.init circ X.s1 g1⟩ (schedule circ.circ) =
        some ((schedule circ.circ).flatMap
          (reveals fun f => (X.val.val f.outIdx, X.val.val f.outIdx))) := by
    refine X.drives.collect_eq _ fun pre a post s hs h => ?_
    cases a with
    | recv f =>
      rw [opened, reveals, reveals]
      split
      · rename_i ht
        rw [List.append_cons] at hs
        obtain ⟨h0, h1⟩ := X.opened_eq hs ht h
        rw [h0, h1]
      · rfl
    | send f => rfl
    | exchange => rfl
    | clear => rfl
  simp only [runOpenings, X.dealer_run, X.party0, X.party1, Option.bind_eq_bind, Option.bind_some]
  refine hcollect.trans (congrArg some ?_)
  rw [schedule_reveals, Clear.openings, List.map_map, ← X.cleartext]
  rfl

end runs

section programs

variable {conf : ProtocolConfig} {columns : ℕ} {inInputOrder reverse dedup : Bool} {p : Program}
  {circ : Circuit} {G : List Gate}

theorem shuffleIdx_of_mem (hlayers : circ.circ = layersOf G)
    (hd : Dealable conf (layersOf G).flatten) {f : Gate} (hf : f ∈ circ.circ.flatten) {idx : ℕ}
    (hidx : idx ∈ Clear.permIdxs f) : ShuffleIdx circ idx := by
  have ho : ∃ l r, (layersOf G).flatten = l ++ f :: r := List.append_of_mem (hlayers ▸ hf)
  obtain ⟨l, r, ho⟩ := ho
  have hsub : l ⊆ circ.circ.flatten := by
    rw [hlayers, ho]
    exact List.subset_append_left ..
  cases ht : f.type <;>
    simp only [Clear.permIdxs, ht, List.mem_cons, List.not_mem_nil, or_false] at hidx
  · exact ⟨f, hf, ht, hidx.symm⟩
  · obtain ⟨x, hx, hxt, hxi⟩ := hd.shuffled l f r ho ht
    exact ⟨x, hsub hx, hxt, hxi.trans hidx.symm⟩
  · obtain ⟨⟨x, hx, hxt, hxi⟩, ⟨y, hy, hyt, hyi⟩⟩ := hd.merged l f r ho ht
    rcases hidx with rfl | rfl
    · exact ⟨x, hsub hx, hxt, hxi⟩
    · exact ⟨y, hsub hy, hyt, hyi⟩

theorem openings_perm_congr (hlayers : circ.circ = layersOf G)
    (hd : Dealable conf (layersOf G).flatten) {perm perm' : ℕ → Permutation}
    (h : ∀ idx, ShuffleIdx circ idx → perm idx = perm' idx) (inputToVal : ℕ → Vec) :
    Clear.openings conf circ perm inputToVal = Clear.openings conf circ perm' inputToVal := by
  have hrun := Clear.run_perm_congr conf perm inputToVal fun f hf idx hidx =>
    h idx (shuffleIdx_of_mem hlayers hd hf hidx)
  rw [Clear.openings, Clear.openings, hrun]

variable (hz : conf.nodes ≤ conf.size) (hsize : 0 < conf.size)
  (hnodes : 0 < conf.depth → 0 < conf.nodes) (he : p.Evaluable conf columns)
  (hcirc : circ = (build p.algorithm (start conf columns inInputOrder reverse dedup)).2)
  {g0 g1 g0' g1' : Graph} {E E' : Listing} {x x' : ℕ → Ring}
  (hin : SharedList conf g0 g1 E x) (hin' : SharedList conf g0' g1' E' x')

include hz hsize hnodes he hcirc

theorem Program.build_laid : ∃ G m, circ.circ = layersOf G ∧ circ.columns = columns ∧
    Laid conf.nodes m G ∧ ColumnsLevelled conf.nodes G ∧ Dealable conf (layersOf G).flatten ∧
    ∀ E : Listing, E.srcBits.length = conf.bits → E.dstBits.length = conf.bits → ∀ x, ∃ ρs,
      Openings (fun V : Valuation conf => Fed V E x (columnInputs columns)) G 0 ρs := by
  obtain ⟨ctx, hc⟩ := construct_spec conf columns inInputOrder reverse dedup p.algorithm_lawful
  have hx := constructed_extends inInputOrder reverse dedup hz hsize hnodes he.toRegular
  have hlayers : circ.circ = _ := (congrArg Circuit.circ hcirc).trans (build_circ ..)
  have hcols : circ.columns = _ := (congrArg Circuit.columns hcirc).trans (build_columns ..)
  have hparams := hc.params
  simp only [params, Prod.mk.injEq] at hparams
  exact ⟨_, _, hlayers, hcols.trans hparams.2.2.2.2.1, hc.laid, hx.levelled hc,
    dealable_layers conf hc.laid hc.disciplined, fun E hs hd x =>
      construct_openings hsize columns inInputOrder reverse dedup p x hs hd⟩

include hin hin'

theorem Program.openings_shift : ∃ (c : ℕ → Equiv.Perm ℕ) (hc : ∀ idx, Keeps conf.size (c idx)),
    ∀ a : Assignment conf circ,
      Clear.openings conf circ a.perm (SharedList.opened circ g0 g1) =
        Clear.openings conf circ (Assignment.shift hc a).perm
          (SharedList.opened circ g0' g1') := by
  obtain ⟨G, m, hlayers, hcols, hlaid, hlev, hdeal, hopen⟩ :=
    Program.build_laid hz hsize hnodes he hcirc
  obtain ⟨-, -, -, -, hs, hd⟩ := hin.lengths
  obtain ⟨-, -, -, -, hs', hd'⟩ := hin'.lengths
  obtain ⟨ρs, hρ⟩ := hopen E hs hd x
  obtain ⟨ρs', hρ'⟩ := hopen E' hs' hd' x'
  have hwf := hlaid.wellFormed
  have hfed : ∀ V : Valuation conf, V.inp = SharedList.opened circ g0 g1 →
      Fed V E x (columnInputs columns) := fun V hV => hcols ▸ hin.fed hV
  have hfed' : ∀ V : Valuation conf, V.inp = SharedList.opened circ g0' g1' →
      Fed V E' x' (columnInputs columns) := fun V hV => hcols ▸ hin'.fed hV
  let V (perm : ℕ → Equiv.Perm ℕ) (hk : ∀ idx, Keeps conf.size (perm idx)) (inp : ℕ → Vec) :
    Valuation conf := evaluation G inp hk hwf hlev hlaid.sourced
  have hk1 : ∀ idx : ℕ, Keeps conf.size ((1 : ℕ → Equiv.Perm ℕ) idx) := fun _ => .one _
  have hc : ∀ idx, Keeps conf.size ((ρs.getD idx 1)⁻¹ * ρs'.getD idx 1) := fun idx =>
    (hρ.keeps (V := V 1 hk1 _) (List.Subset.refl _) (hfed _ rfl) idx).inv.mul
      (hρ'.keeps (V := V 1 hk1 _) (List.Subset.refl _) (hfed' _ rfl) idx)
  refine ⟨_, hc, fun a => ?_⟩
  have hka := a.extension_keeps
  have hkc : ∀ idx, Keeps conf.size
      ((a.extension * fun idx => (ρs.getD idx 1)⁻¹ * ρs'.getD idx 1) idx) :=
    fun idx => (hka idx).mul (hc idx)
  rw [openings_perm_congr hlayers hdeal fun idx h => a.perm_eq h,
    openings_perm_congr hlayers hdeal fun idx h => Assignment.perm_shift hc a h]
  refine List.map_congr_left fun f hf => ?_
  obtain ⟨hf, ht⟩ := List.mem_filter.mp hf
  have hfG : f ∈ G := (mem_layersOf hwf).mp (hlayers ▸ hf)
  obtain ⟨i, ho, ho'⟩ := hρ.exists_index hρ' hfG (by simpa using ht)
  have h1 := (ho (V _ hka _) (List.Subset.refl _) (hfed _ rfl)).2.2
  have h2 := (ho' (V _ hkc _) (List.Subset.refl _) (hfed' _ rfl)).2.2
  have hmul : ρs'.getD i 1 * (a.extension i * ((ρs.getD i 1)⁻¹ * ρs'.getD i 1))⁻¹ =
      ρs.getD i 1 * (a.extension i)⁻¹ := by group
  rw [hlayers]
  refine h1.trans (Eq.trans ?_ h2.symm)
  exact congrArg (fun σ => (ofPerm conf.size σ).permVec) hmul.symm

end programs

section shipped

variable {conf : ProtocolConfig} {g0 g1 g0' g1' : Graph} {E E' : Listing} {x x' : ℕ → Ring}

theorem Program.runOpenings_eq {columns : ℕ} {inInputOrder reverse dedup : Bool} {p : Program}
    {circ : Circuit} (hz : conf.nodes ≤ conf.size) (hsize : 0 < conf.size)
    (hnodes : 0 < conf.depth → 0 < conf.nodes) (he : p.Evaluable conf columns)
    (hcirc : circ = (build p.algorithm (start conf columns inInputOrder reverse dedup)).2)
    (hin : SharedList conf g0 g1 E x) {a : Assignment conf circ} {g : Streams}
    (ha : Deals conf circ g a) : runOpenings conf circ g0 g1 g = some
      ((Clear.openings conf circ a.perm (SharedList.opened circ g0 g1)).map fun v => (v, v)) := by
  obtain ⟨G, m, hlayers, -, -, -, hdeal, -⟩ := Program.build_laid hz hsize hnodes he hcirc
  obtain ⟨X, -⟩ := Program.exists_evaluation hz hsize hnodes he hcirc g hin
  obtain ⟨dealer, hrun, hperm⟩ := ha
  obtain rfl : X.dealer = dealer := Option.some.inj (X.dealer_run.symm.trans hrun)
  rw [X.openings_eq, X.inputs, openings_perm_congr hlayers hdeal hperm]

theorem opened_carry_nothing (hz : conf.nodes ≤ conf.size) (hsize : 0 < conf.size)
    (hnodes : 0 < conf.depth → 0 < conf.nodes) (alg : Shipped) (columns : ℕ)
    (hc : alg = .piR → conf.nodes ≤ columns) (inInputOrder reverse dedup : Bool)
    {circ : Circuit} (hcirc : circ = shippedCircuit conf alg columns inInputOrder reverse dedup)
    (hin : SharedList conf g0 g1 E x) (hin' : SharedList conf g0' g1' E' x') :
    (∀ g, ∃ a, Deals conf circ g a) ∧ (∀ a, ∃ g, Deals conf circ g a) ∧
    ∃ Φ : Assignment conf circ ≃ Assignment conf circ, ∀ a, ∃ l : List Vec,
      Clear.openings conf circ a.perm (SharedList.opened circ g0 g1) = l ∧
      Clear.openings conf circ (Φ a).perm (SharedList.opened circ g0' g1') = l ∧
      (∀ g, Deals conf circ g a → runOpenings conf circ g0 g1 g = some (l.map fun v => (v, v))) ∧
      ∀ g, Deals conf circ g (Φ a) →
        runOpenings conf circ g0' g1' g = some (l.map fun v => (v, v)) := by
  have he := alg.evaluable_of hz columns hc
  obtain ⟨G, m, hlayers, -, -, -, hdeal, -⟩ := Program.build_laid hz hsize hnodes he hcirc
  rw [← hlayers] at hdeal
  obtain ⟨c, hk, hshift⟩ := Program.openings_shift hz hsize hnodes he hcirc hin hin'
  refine ⟨exists_deals hdeal, deals_surjective hdeal, Assignment.shift hk, fun a => ?_⟩
  refine ⟨_, rfl, (hshift a).symm, fun g ha => ?_, fun g ha => ?_⟩
  · exact Program.runOpenings_eq hz hsize hnodes he hcirc hin ha
  · rw [hshift a]
    exact Program.runOpenings_eq hz hsize hnodes he hcirc hin' ha

theorem opened_carry_nothing_pair : ∃ g l,
    runOpenings Shipped.pairConfig Shipped.pairCircuit (Shipped.pairGraph [1, 0])
      (Shipped.pairGraph [0, 0]) countingStreams = some l ∧
    runOpenings Shipped.pairConfig Shipped.pairCircuit
      (Program.loop.graph Shipped.pairConfig fun _ => 7) (DagList.blank Shipped.pairConfig) g =
        some l := by
  have hcirc : Shipped.pairCircuit =
      shippedCircuit Shipped.pairConfig .bfs 1 true false false := rfl
  obtain ⟨hall, honto, Φ, hΦ⟩ := opened_carry_nothing (by decide) (by decide) (by decide) .bfs 1
    (by simp) true false false hcirc Shipped.pairGraph_shared
    (Program.loop.shared_graph Shipped.pairConfig fun _ => 7)
  obtain ⟨a, ha⟩ := hall countingStreams
  obtain ⟨g, hg⟩ := honto (Φ a)
  obtain ⟨l, -, -, h, h'⟩ := hΦ a
  exact ⟨g, _, h _ ha, h' _ hg⟩

end shipped

end GraphMpc
