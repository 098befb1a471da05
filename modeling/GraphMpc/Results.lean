import GraphMpc.Levels

namespace GraphMpc

open Circuit GraphMpc.Valuation StableOrder Tabulate

section outputs

variable {conf : ProtocolConfig} {c : Circuit}

def outputsOf {conf : ProtocolConfig} (V : Valuation conf) (L : List Gate) : List Vec :=
  (L.filter (·.type = .output)).map fun f => V.val f.in1Idx

theorem outputsOf_append (V : Valuation conf) (L L' : List Gate) :
    outputsOf V (L ++ L') = outputsOf V L ++ outputsOf V L' := by
  simp [outputsOf]

theorem outputsOf_quiet (V : Valuation conf) {L : List Gate} (h : ∀ f ∈ L, f.type ≠ .output) :
    outputsOf V L = [] := by
  rw [outputsOf, List.map_eq_nil_iff, List.filter_eq_nil_iff]
  exact fun f hf => by simpa using h f hf

structure OutputsExtend (conf : ProtocolConfig) (ws : List ℕ) (c c' : Circuit) (L : List Gate) :
    Prop where
  adds : Extends (ws ++ openedOrders c.ctx) c c' L
  quiet : ∀ f ∈ L, f.type ≠ .eqz ∧ f.type ≠ .columnSumsToNodes
  values : ∀ (V : Valuation conf) (A : Arrangement conf) (xs : List (ℕ → Ring)), L ⊆ V.gates →
    Arranged V c.ctx A → List.Forall₂ V.Holds ws xs → (∀ f ∈ L, V.Good f) ∧
      outputsOf V L = xs.map fun x => tab conf.size (released A c.outputsInInputOrder x)

theorem outputData_extends (hz : conf.nodes ≤ conf.size) (hb : Built c)
    (hn : c.nodes = conf.nodes) (ho : Opened c.gates c.ctx) {x : ℕ} (hx : Wire c.gates x) :
    OutputsExtend conf [x] c (outputData x c).2
      (outputGates c.nWires c.nodes c.outputsInInputOrder c.ctx x) := by
  have p1 := outputData_passes hb ho hx
  refine ⟨⟨p1.grows, ?_⟩, ?_, fun V A xs hsub hA hxs => ?_⟩
  · cases c.outputsInInputOrder
    all_goals
      simp only [outputGates, List.forall_mem_cons, if_true, Bool.false_eq_true, if_false]
      and_intros
      all_goals
        simp only [Gate.counted, openedOrders, List.mem_cons, List.mem_ite_nil_right,
          List.not_mem_nil, or_false, List.mem_append]
        try omega
      simp
  · cases c.outputsInInputOrder <;> simp [outputGates]
  · rw [hn] at hsub ⊢
    cases hxs with
    | cons hx hnil =>
      cases hnil
      obtain ⟨good, hv⟩ := outputGates_value hsub hA hz hx
      refine ⟨good, ?_⟩
      cases hb : c.outputsInInputOrder <;> rw [hb] at hv <;>
        simpa [outputsOf, outputGates] using hv.2

theorem outputs_extend (hz : conf.nodes ≤ conf.size) (f : ℕ → ℕ) (l : List ℕ) (hb : Built c)
    (hn : c.nodes = conf.nodes) (ho : Opened c.gates c.ctx) (hf : ∀ i ∈ l, Wire c.gates (f i)) :
    ∃ L, OutputsExtend conf (l.map f) c (l.forM (fun i => outputData (f i)) c).2 L := by
  induction l generalizing c with
  | nil =>
    refine ⟨[], .refl _ hb, by simp, fun V A xs _ _ hxs => ⟨by simp, ?_⟩⟩
    cases hxs
    rfl
  | cons i l ih =>
    have hfi := hf i (List.mem_cons_self ..)
    have e1 := outputData_extends hz hb hn ho hfi
    have p1 := outputData_passes hb ho hfi
    obtain ⟨hctx, -, -⟩ := context_eq ((outputData (f i) c).2) p1.context
    have horder : (outputData (f i) c).2.outputsInInputOrder = c.outputsInInputOrder := by
      have hparams := p1.grows.params
      simp only [params, Prod.mk.injEq] at hparams
      exact hparams.2.2.2.2.2.1
    rw [forM_cons_run]
    generalize outputData (f i) c = r at *
    obtain ⟨L2, e2⟩ := ih p1.grows.built (p1.grows.nodes.trans hn)
      (by rw [hctx]; exact ho.mono p1.grows.sub) fun j hj =>
        p1.grows.wire (hf j (List.mem_cons_of_mem _ hj))
    refine ⟨_, (e1.adds.mono ?_).trans hb e2.adds fun w hw => Or.inl ?_, fun g hg => ?_,
      fun V A xs hsub hA hxs => ?_⟩
    · simp
    · rw [hctx] at hw
      simp only [List.map_cons, List.cons_append, List.mem_cons]
      exact Or.inr hw
    · exact (List.mem_append.mp hg).elim (e1.quiet g) (e2.quiet g)
    · obtain ⟨hs1, hs2⟩ := List.append_subset.mp hsub
      cases hxs with
      | cons hx hxs =>
        obtain ⟨good1, ho1⟩ := e1.values V A _ hs1 hA (.cons hx .nil)
        obtain ⟨good2, ho2⟩ := e2.values V A _ hs2 (hctx ▸ hA) hxs
        refine ⟨fun g hg => (List.mem_append.mp hg).elim (good1 g) (good2 g), ?_⟩
        rw [outputsOf_append, ho1, ho2, horder]
        rfl

end outputs

section states

variable {conf : ProtocolConfig} {c : Circuit}

def columnResult (A : Arrangement conf) (p : Program) (x : ℕ → Ring) (column : ℕ) : ℕ → Ring :=
  (p.postMp column).eval conf.nodes [stateValue A p column x]

structure Program.Regular (p : Program) (conf : ProtocolConfig) (columns : ℕ) : Prop where
  fits : p.Fits conf.size
  sums : p.columnSums = true → p.Accumulates ∧ conf.nodes ≤ columns

structure Program.Evaluable (p : Program) (conf : ProtocolConfig) (columns : ℕ) : Prop
    extends p.Regular conf columns where
  clipFree : p.ClipFree
  post : p.Clips ∨ p.PostClipFree

def states (alg : Algorithm) (data : ℕ → ℕ) (l : List ℕ) : Build (List ℕ) := do
  let states ← l.mapM fun i => messagePassing alg (data i) i
  bumpShuffleIdx 3
  l.mapM fun i => alg.postMp (states.getD i 0) i

structure StatesExtend (conf : ProtocolConfig) (p : Program) (data : ℕ → ℕ) (l : List ℕ)
    (c : Circuit) (r : List ℕ × Circuit) (L : List Gate) : Prop where
  adds : Extends (l.map data ++ openedOrders c.ctx) c r.2 L
  quiet : ∀ f ∈ L, f.type ≠ .output ∧ f.type ≠ .columnSumsToNodes
  handles : ∀ w ∈ r.1, Handle r.2.gates w
  ctx : r.2.ctx = c.ctx
  length : r.1.length = l.length
  new : ∀ w ∈ r.1, c.nWires ≤ w
  sealed : p.ClipFree → p.Clips ∨ p.PostClipFree → ∀ X, Sealed c X →
    (∀ x ∈ X, x ∉ l.map data ++ openedOrders c.ctx) →
      ∃ X', Sealed r.2 X' ∧ ∀ x ∈ X', x ∉ r.1 ++ openedOrders c.ctx
  fresh : p.Clips → r.1.Nodup ∧ ∀ w ∈ r.1, Fresh r.2 w
  levels : p.Accumulates → ∀ G, WellFormed conf.nodes G → r.2.gates ⊆ G →
    ∃ lv, ∀ w ∈ r.1, level G w = lv
  values : ∀ (V : Valuation conf) (A : Arrangement conf) (x : ℕ → Ring), L ⊆ V.gates →
    Arranged V c.ctx A → (∀ i ∈ l, V.Holds (data i) x) →
      (∀ f ∈ L, V.Good f) ∧ List.Forall₂ V.Holds r.1 (l.map (columnResult A p x))

theorem getD_range_map {l : List ℕ} {n : ℕ} (h : l.length = n) :
    ((List.range n).map fun i => l.getD i 0) = l := by
  subst h
  refine List.ext_getElem (by simp) fun i h1 h2 => ?_
  rw [List.getElem_map, List.getElem_range, List.getD_eq_getElem _ _ h2]

theorem states_extend (hz : conf.nodes ≤ conf.size) (h0 : 0 < conf.depth → 0 < conf.nodes)
    {p : Program} (hf : p.Fits conf.size) (data : ℕ → ℕ) (n : ℕ) (hp : Passable c)
    (hn : c.nodes = conf.nodes) (hd : c.depth = conf.depth)
    (hx : ∀ i < n, Wire c.gates (data i)) :
    ∃ L, StatesExtend conf p data (List.range n) c (states p.algorithm data (List.range n) c) L := by
  obtain ⟨L1, e1⟩ := columns_deliver hz h0 p data (List.range n) hp hn hd
    fun i hi => hx i (List.mem_range.mp hi)
  have hlevel := fun ha G => @columns_level p c G ha data (List.range n) hp
    fun i hi => hx i (List.mem_range.mp hi)
  simp only [states, bind_run, bumpShuffleIdx_run]
  have hlen := e1.length
  rw [List.length_range] at hlen
  generalize (List.range n).mapM (fun i => messagePassing p.algorithm (data i) i) c = r at *
  obtain ⟨hctx, -, -⟩ := context_eq _ e1.context
  have a1 := e1.adds.with_context r.2.ctx r.2.inp (r.2.shuffleIdx + 3)
  have hb1 := a1.grows.built
  have hh : ∀ i ∈ List.range n, Handle r.2.gates (r.1.getD i 0) := fun i hi =>
    handle_getD e1.handles (hlen.symm ▸ List.mem_range.mp hi)
  obtain ⟨L2, e2⟩ := posts_extend hz p (fun i => r.1.getD i 0) (List.range n) hb1
    (a1.grows.nodes.trans hn) hh
  have hlevel' := fun ha G lv =>
    @posts_level p _ G ha (fun i => r.1.getD i 0) (List.range n) lv hb1 hh
  generalize (List.range n).mapM (fun i => p.algorithm.postMp (r.1.getD i 0) i) _ = r' at *
  obtain ⟨hctx', -, -⟩ := context_eq _ e2.context
  have hmap := getD_range_map hlen
  have hle : c.nWires ≤ r.2.nWires := e1.adds.grows.nWires_le hp.built
  have hopen : ∀ w ∈ openedOrders c.ctx, w < c.nWires := by
    have hlt : ∀ {w}, Wire c.gates w → w < c.nWires :=
      fun hw => hp.built.wires ▸ hp.built.laid.wire_lt hw
    simp only [openedOrders, List.forall_mem_cons]
    exact ⟨hlt hp.opened.vtx, hlt hp.opened.src, hlt hp.opened.dst, by simp⟩
  have hres : ∀ w ∈ r'.1, w ∈ r.1 ∨ r.2.nWires ≤ w := by
    rw [← hmap]
    exact e2.results
  refine ⟨L1 ++ L2, a1.trans hp.built e2.adds fun w hw => Or.inr ?_, fun f hf => ?_, e2.handles,
    hctx'.trans hctx, e2.length, fun w hw => ?_, fun hfree hpost X hX hne => ?_,
    fun hc => ⟨(e2.fresh hc).1, fun w hw => ((e2.fresh hc).2 w hw).2⟩, fun ha G hwf hs => ?_,
    fun V A x hsub hA hd => ?_⟩
  · rw [hmap] at hw
    exact e1.new w hw
  · exact (List.mem_append.mp hf).elim (e1.quiet f) (e2.quiet f)
  · exact (hres w hw).elim (e1.new w) hle.trans
  · have hX1 : Sealed { r.2 with shuffleIdx := r.2.shuffleIdx + 3 } X :=
      hX.extend hp.built a1 hne (e1.plain hfree)
    have hold : ∀ x ∈ X, x ∉ r.1 := fun x hx hmem =>
      absurd (hX.below x hx).2 (e1.new x hmem).not_gt
    obtain ⟨X', hX', hsub⟩ := e2.sealed hpost X hX1 (by rwa [hmap]) fun hc => by
      rw [hmap]
      exact e1.fresh hc
    refine ⟨X', hX', fun x hx hmem => ?_⟩
    rw [hmap] at hsub
    rcases List.mem_append.mp hmem with hmem | hmem
    · rcases hsub x hx with hx | ⟨hc, hx⟩
      · rcases hres x hmem with hm | hm
        · exact hold x hx hm
        · exact absurd (hX1.below x hx).2 hm.not_gt
      · have h1 := ((e2.fresh hc).2 x hmem).1
        have h2 := ((e1.fresh hc).2 x hx).2.1
        exact absurd h2 h1.not_gt
    · rcases hsub x hx with hx | ⟨hc, hx⟩
      · exact hne x hx (List.mem_append_right _ hmem)
      · exact absurd (hopen x hmem) (e1.new x hx).not_gt
  · have hwf1 : WellFormed r.2.nodes G := (a1.grows.nodes.trans hn).symm ▸ hwf
    have hlv := hlevel ha G (hn.symm ▸ hwf) (List.Subset.trans e2.adds.grows.sub hs)
    refine ⟨_, hlevel' ha G _ hwf1 (fun i hi => hlv _ ?_) hs⟩
    rw [List.getD_eq_getElem _ _ (hlen.symm ▸ List.mem_range.mp hi)]
    exact List.getElem_mem _
  · obtain ⟨hs1, hs2⟩ := List.append_subset.mp hsub
    obtain ⟨good1, hv1⟩ := e1.values V A x hs1 hA hd hf
    have hstate : ∀ i ∈ List.range n, V.Holds (r.1.getD i 0) (stateValue A p i x) := by
      intro i hi
      have hi := List.mem_range.mp hi
      have hget : ((List.range n).map fun i => stateValue A p i x).getD i 0 = stateValue A p i x :=
        tab_getD_lt _ _ hi
      exact hget ▸ forall₂_getD hv1 0 0 (hlen.symm ▸ hi)
    obtain ⟨good2, hv2⟩ := e2.values V (fun i => stateValue A p i x) hs2 hstate hf
    exact ⟨fun f hf => (List.mem_append.mp hf).elim (good1 f) (good2 f), hv2⟩

def programResults (A : Arrangement conf) (p : Program) (columns : ℕ) (x : ℕ → Ring) :
    List (ℕ → Ring) :=
  if columns > 1 then
    if p.columnSums then
      [fun i => if i < conf.nodes then prefixSum (columnResult A p x i) conf.nodes else 0]
    else (List.range columns).map (columnResult A p x)
  else [columnResult A p x 0]

structure PassExtends (conf : ProtocolConfig) (p : Program) (data : List ℕ) (c c' : Circuit)
    (L : List Gate) : Prop where
  adds : Extends (data ++ openedOrders c.ctx) c c' L
  sealed : p.ClipFree → p.Clips ∨ p.PostClipFree → ∀ X, Sealed c X →
    (∀ x ∈ X, x ∉ data ++ openedOrders c.ctx) → ∃ X', Sealed c' X'
  sums : ∀ f ∈ L, f.type = .columnSumsToNodes → ∀ r ∈ f.reads conf.nodes,
    (uses c'.gates r = 0 ∨ r ∈ f.counted) ∧ ∀ G, WellFormed conf.nodes G → c'.gates ⊆ G →
      level G r = level G f.in1Idx
  values : ∀ (V : Valuation conf) (A : Arrangement conf) (x : ℕ → Ring), L ⊆ V.gates →
    Arranged V c.ctx A → (∀ w ∈ data, V.Holds w x) → (∀ f ∈ L, V.Good f) ∧
      outputsOf V L = (programResults A p c.columns x).map fun y =>
        tab conf.size (released A c.outputsInInputOrder y)

theorem states_output (hz : conf.nodes ≤ conf.size) (h0 : 0 < conf.depth → 0 < conf.nodes)
    {p : Program} (hf : p.Fits conf.size) (data : ℕ → ℕ) {n : ℕ} (hp : Passable c)
    (hn : c.nodes = conf.nodes) (hd : c.depth = conf.depth)
    (hx : ∀ i < n, Wire c.gates (data i))
    (hr : ∀ (A : Arrangement conf) x,
      programResults A p c.columns x = (List.range n).map (columnResult A p x)) :
    ∃ L, PassExtends conf p ((List.range n).map data) c ((do
      let s ← states p.algorithm data (List.range n)
      (List.range n).forM fun i => outputData (s.getD i 0) : Build Unit) c).2 L := by
  obtain ⟨L1, e1⟩ := states_extend hz h0 hf data n hp hn hd hx
  rw [bind_run]
  generalize states p.algorithm data (List.range n) c = r at *
  have hlen : r.1.length = n := e1.length.trans List.length_range
  have hb1 := e1.adds.grows.built
  have ho1 : Opened r.2.gates r.2.ctx := by
    rw [e1.ctx]
    exact hp.opened.mono e1.adds.grows.sub
  obtain ⟨L2, e2⟩ := outputs_extend hz (fun i => r.1.getD i 0) (List.range n) hb1
    (e1.adds.grows.nodes.trans hn) ho1 fun i hi => (handle_getD e1.handles (by
      rw [hlen]
      exact List.mem_range.mp hi)).1
  rw [getD_range_map hlen] at e2
  generalize (List.range n).forM (fun i => outputData (r.1.getD i 0)) r.2 = r' at *
  have horder : r.2.outputsInInputOrder = c.outputsInInputOrder := by
    have hparams := e1.adds.grows.params
    simp only [params, Prod.mk.injEq] at hparams
    exact hparams.2.2.2.2.2.1
  refine ⟨L1 ++ L2, e1.adds.trans hp.built e2.adds fun w hw => ?_,
    fun hfree hpost X hX hne => ?_, fun f hf ht => ?_, fun V A x hsub hA hx => ?_⟩
  · rw [e1.ctx] at hw
    rcases List.mem_append.mp hw with hw | hw
    · exact Or.inr (e1.new w hw)
    · exact Or.inl (List.mem_append_right _ hw)
  · obtain ⟨X', hX', hne'⟩ := e1.sealed hfree hpost X hX hne
    exact ⟨X', hX'.extend_silent hb1 e2.adds (by rwa [e1.ctx]) fun f hf => (e2.quiet f hf).1⟩
  · rcases List.mem_append.mp hf with hf | hf
    · exact absurd ht (e1.quiet f hf).2
    · exact absurd ht (e2.quiet f hf).2
  · obtain ⟨hs1, hs2⟩ := List.append_subset.mp hsub
    obtain ⟨good1, hv1⟩ := e1.values V A x hs1 hA fun i hi => hx _ (List.mem_map_of_mem hi)
    obtain ⟨good2, hout⟩ := e2.values V A _ hs2 (e1.ctx.symm ▸ hA) hv1
    refine ⟨fun f hf => (List.mem_append.mp hf).elim (good1 f) (good2 f), ?_⟩
    rw [outputsOf_append, outputsOf_quiet V fun f hf => (e1.quiet f hf).1, hout, hr, horder]
    rfl

theorem outputGates_uses {k nodes : ℕ} {b : Bool} {ctx : MPContext} {x w : ℕ} (hw : 0 < w)
    (hk : w < k) (hx : w ≠ x) (ho : w ∉ openedOrders ctx) :
    uses (outputGates k nodes b ctx x) w = 0 := by
  refine uses_eq_zero fun f hf hmem => ?_
  simp only [openedOrders, List.mem_cons, List.not_mem_nil, or_false, not_or] at ho
  cases b
  all_goals
    simp only [outputGates, if_true, Bool.false_eq_true, if_false, List.mem_cons, List.not_mem_nil,
      or_false] at hf
    rcases hf with rfl | rfl | rfl | rfl
  all_goals
    simp only [Gate.counted, List.mem_cons, List.mem_ite_nil_right, List.not_mem_nil,
      or_false] at hmem
    omega

def columnSumsGate (k : ℕ) (l : List ℕ) : Gate :=
  { type := .columnSumsToNodes, gId := k, in1Idx := l.getD (l.length - 1) 0, outIdx := k,
    dataParallel := l }

theorem columnSums_extends {l : List ℕ} (hb : Built c) (hl : l ≠ [])
    (hw : ∀ w ∈ l, Handle c.gates w) :
    Extends l c (columnSumsToNodes l c).2 [columnSumsGate c.nWires l] := by
  have hlast : l.getD (l.length - 1) 0 ∈ l := by
    rw [List.getD_eq_getElem _ _ (Nat.sub_lt (List.length_pos_iff.mpr hl) Nat.one_pos)]
    exact List.getElem_mem _
  have hf : Admissible c.nodes c.nMults c.nWires (· ∈ l) (columnSumsGate c.nWires l) :=
    ⟨rfl, rfl, Or.inr hlast, Or.inl rfl, fun r hr => columnSums_reads rfl hr,
      by simp [Gate.Handled, Gate.binaryOperator, columnSumsGate],
      fun h0 => absurd h0 hb.pos.ne', by simp [Gate.takesTriple, columnSumsGate]⟩
  refine .of_block (single_grows hb (hf.mono fun w hmem => (hw w hmem).1) rfl rfl ?_ rfl)
    ⟨hf, trivial⟩
  simp [columnSumsToNodes, addGate_run, columnSumsGate, hb.wires]

theorem states_sum (hz : conf.nodes ≤ conf.size) (h0 : 0 < conf.depth → 0 < conf.nodes)
    {p : Program}
    (he : p.Regular conf c.columns) (data : ℕ → ℕ) (hp : Passable c)
    (hn : c.nodes = conf.nodes) (hd : c.depth = conf.depth) (hc : c.columns > 1)
    (hs : p.columnSums = true) (hx : ∀ i < c.columns, Wire c.gates (data i)) :
    ∃ L, PassExtends conf p ((List.range c.columns).map data) c ((do
      let s ← states p.algorithm data (List.range c.columns)
      let w ← columnSumsToNodes s
      outputData w : Build Unit) c).2 L := by
  obtain ⟨L1, e1⟩ := states_extend hz h0 he.fits data c.columns hp hn hd hx
  rw [bind_run, bind_run]
  generalize states p.algorithm data (List.range c.columns) c = r at *
  have hlen : r.1.length = c.columns := e1.length.trans List.length_range
  have hb1 := e1.adds.grows.built
  have hne : r.1 ≠ [] := by
    rw [← List.length_pos_iff, hlen]
    omega
  have e2 := columnSums_extends hb1 hne e1.handles
  have hout : (columnSumsToNodes r.1 r.2).1 = r.2.nWires := rfl
  have hctx : (columnSumsToNodes r.1 r.2).2.ctx = c.ctx := e1.ctx
  rw [hout]
  generalize (columnSumsToNodes r.1 r.2).2 = c2 at *
  have hb2 := e2.grows.built
  have hw2 : Wire c2.gates r.2.nWires :=
    e2.grows.wire_new ⟨_, List.mem_singleton_self _, rfl, by simp [columnSumsGate]⟩
  have a12 := e1.adds.trans hp.built e2 fun w hw => Or.inr (e1.new w hw)
  have hn2 : c2.nodes = conf.nodes := a12.grows.nodes.trans hn
  have e3 := outputData_extends hz hb2 hn2 (by
    rw [hctx]
    exact hp.opened.mono a12.grows.sub) hw2
  have horder : c2.outputsInInputOrder = c.outputsInInputOrder := by
    have hparams := a12.grows.params
    simp only [params, Prod.mk.injEq] at hparams
    exact hparams.2.2.2.2.2.1
  obtain ⟨hacc, hcols⟩ := he.sums hs
  have hle : c.nWires ≤ r.2.nWires := e1.adds.grows.nWires_le hp.built
  have hlt2 : r.2.nWires < c2.nWires := by
    rw [hb2.wires]
    exact hb2.laid.wire_lt hw2
  have hopen : ∀ w ∈ openedOrders c.ctx, w < c.nWires := by
    have hlt : ∀ {w}, Wire c.gates w → w < c.nWires :=
      fun hw => hp.built.wires ▸ hp.built.laid.wire_lt hw
    simp only [openedOrders, List.forall_mem_cons]
    exact ⟨hlt hp.opened.vtx, hlt hp.opened.src, hlt hp.opened.dst, by simp⟩
  refine ⟨_, a12.trans hp.built e3.adds fun w hw => ?_, fun hfree hpost X hX hne => ?_,
    fun f hf ht w hr => ?_, fun V A x hsub hA hx => ?_⟩
  · rw [hctx] at hw
    rcases List.mem_append.mp hw with hw | hw
    · exact Or.inr (List.mem_singleton.mp hw ▸ hle)
    · exact Or.inl (List.mem_append_right _ hw)
  · obtain ⟨X', hX', hne'⟩ := e1.sealed hfree hpost X hX hne
    have h2 : Sealed c2 X' := hX'.extend_silent hb1 e2
      (fun x hx hmem => hne' x hx (List.mem_append_left _ hmem)) (by simp [columnSumsGate])
    refine ⟨X', h2.extend_silent hb2 e3.adds (fun x hx hmem => ?_) fun f hf => (e3.quiet f hf).1⟩
    rw [hctx] at hmem
    rcases List.mem_append.mp hmem with hmem | hmem
    · exact absurd (hX'.below x hx).2 (List.mem_singleton.mp hmem).not_lt
    · exact hne' x hx (List.mem_append_right _ hmem)
  · simp only [List.mem_append, List.mem_singleton] at hf
    rcases hf with (hf | rfl) | hf
    · exact absurd ht (e1.quiet f hf).2
    · have hr : w ∈ r.1 := columnSums_reads rfl hr
      obtain ⟨hpos, hlt, h1⟩ := (e1.fresh hacc.clips).2 w hr
      have hopened : w ∉ openedOrders c2.ctx := fun hmem => by
        have h2 := hopen w (hctx ▸ hmem)
        have h3 := e1.new w hr
        omega
      refine ⟨?_, fun G hwf hsub => ?_⟩
      · rw [e3.adds.grows.gates, uses_append, e2.grows.gates, uses_append, h1,
          outputGates_uses hpos (by omega) (by omega) hopened]
        simp only [uses, List.map_cons, List.map_nil, List.sum_cons, List.sum_nil]
        by_cases hmem : w ∈ (columnSumsGate r.2.nWires r.1).counted
        · exact Or.inr hmem
        · exact Or.inl (by simp [List.count_eq_zero.mpr hmem])
      · have hsub1 := List.Subset.trans (List.Subset.trans e2.grows.sub e3.adds.grows.sub) hsub
        obtain ⟨lv, hlv⟩ := e1.levels hacc G hwf hsub1
        have hlast : (columnSumsGate r.2.nWires r.1).in1Idx ∈ r.1 := by
          rw [columnSumsGate, List.getD_eq_getElem _ _ (by omega)]
          exact List.getElem_mem _
        rw [hlv w hr, hlv _ hlast]
    · exact absurd ht (e3.quiet f hf).2
  · simp only [List.append_subset] at hsub
    obtain ⟨⟨hs1, hs2⟩, hs3⟩ := hsub
    obtain ⟨good1, hv1⟩ := e1.values V A x hs1 hA fun i hi => hx _ (List.mem_map_of_mem hi)
    obtain ⟨good2, hv2⟩ := yields_columnSums (hs2 (List.mem_singleton_self _)) rfl hz
      (hcols.trans hlen.ge) fun i hi => forall₂_getD hv1 0 0 (by omega)
    have hsum : V.Holds r.2.nWires fun i => if i < conf.nodes then
        prefixSum (columnResult A p x i) conf.nodes else 0 := by
      refine Holds.congr hv2 fun i _ => ?_
      by_cases hi : i < conf.nodes
      · have hget : ((List.range c.columns).map (columnResult A p x)).getD i 0 =
            columnResult A p x i := tab_getD_lt _ _ (hi.trans_le hcols)
        simp only [if_pos hi, hget]
      · simp only [if_neg hi]
    obtain ⟨good3, hout⟩ := e3.values V A _ hs3 (hctx.symm ▸ hA) (.cons hsum .nil)
    refine ⟨?_, ?_⟩
    · simp only [List.forall_mem_append, List.forall_mem_singleton]
      exact ⟨⟨good1, good2⟩, good3⟩
    · rw [outputsOf_append, outputsOf_append, outputsOf_quiet V fun f hf => (e1.quiet f hf).1,
        outputsOf_quiet V (by simp [columnSumsGate]), hout, programResults, if_pos hc, if_pos hs,
        horder]
      rfl

theorem pass_states_one (p : Program) (hc : ¬ c.columns > 1) : pass p.algorithm c = (do
    let s ← states p.algorithm (fun _ => c.inp.data) (List.range 1)
    (List.range 1).forM fun i => outputData (s.getD i 0) : Build Unit) c := by
  rw [pass_one p.algorithm hc]
  rfl

theorem pass_states_sum (p : Program) (hc : c.columns > 1) (hs : p.columnSums = true) :
    pass p.algorithm c = (do
      let s ← states p.algorithm (fun i => c.inp.dataParallel.getD i 0) (List.range c.columns)
      let w ← columnSumsToNodes s
      outputData w : Build Unit) c := by
  rw [pass_many p.algorithm hc]
  simp only [states, bind_run, Program.algorithm, hs, if_true, pure_run]

theorem pass_states_many (p : Program) (hc : c.columns > 1) (hs : p.columnSums = false) :
    pass p.algorithm c = (do
      let s ← states p.algorithm (fun i => c.inp.dataParallel.getD i 0) (List.range c.columns)
      (List.range c.columns).forM fun i => outputData (s.getD i 0) : Build Unit) c := by
  rw [pass_many p.algorithm hc]
  simp only [states, bind_run, Program.algorithm, hs, if_false, pure_run, Bool.false_eq_true]

def dataWires (c : Circuit) : List ℕ :=
  if c.columns > 1 then (List.range c.columns).map fun i => c.inp.dataParallel.getD i 0
  else [c.inp.data]

theorem pass_extends (hz : conf.nodes ≤ conf.size) (h0 : 0 < conf.depth → 0 < conf.nodes)
    {p : Program}
    (he : p.Regular conf c.columns) (hp : Passable c) (hn : c.nodes = conf.nodes)
    (hd : c.depth = conf.depth) (hx : ∀ w ∈ dataWires c, Wire c.gates w) :
    ∃ L, PassExtends conf p (dataWires c) c (pass p.algorithm c).2 L := by
  by_cases hc : c.columns > 1
  · simp only [dataWires, if_pos hc, List.forall_mem_map, List.mem_range] at hx ⊢
    cases hs : p.columnSums
    · rw [pass_states_many p hc hs]
      exact states_output hz h0 he.fits _ hp hn hd hx fun A x => by
        rw [programResults, if_pos hc, hs, if_neg Bool.false_ne_true]
    · rw [pass_states_sum p hc hs]
      exact states_sum hz h0 he _ hp hn hd hc hs hx
  · simp only [dataWires, if_neg hc, List.forall_mem_singleton] at hx ⊢
    rw [pass_states_one p hc]
    have hr : ∀ (A : Arrangement conf) x,
        programResults A p c.columns x = (List.range 1).map (columnResult A p x) :=
      fun A x => if_neg hc
    exact states_output hz h0 he.fits (fun _ => c.inp.data) hp hn hd (fun _ _ => hx) hr

end states

section constructed

variable (conf : ProtocolConfig) (columns : ℕ) (inInputOrder reverse dedup : Bool)

-- a constructed circuit: no wire that a first EQZ layer of the sorts, or without clips in the rounds
-- of any gate, overwrites has another consumer, and its gates put out the results of the program
structure ConstructedExtends (p : Program) (c : Circuit) : Prop where
  sealed : p.ClipFree → p.Clips ∨ p.PostClipFree → ∃ X, Sealed c X
  prepared : ∀ f ∈ (prepared (start conf columns inInputOrder reverse dedup)).gates,
    f.type = .eqz → f.layer = 0 → uses c.gates f.in1Idx = 1
  sums : ∀ f ∈ c.gates, f.type = .columnSumsToNodes → ∀ r ∈ f.reads conf.nodes,
    (uses c.gates r = 0 ∨ r ∈ f.counted) ∧ level c.gates r = level c.gates f.in1Idx
  values : ∀ V : Valuation conf, c.gates ⊆ V.gates → ∀ E x, Fed V E x (columnInputs columns) →
    (∀ f ∈ c.gates, V.Good f) ∧ outputsOf V c.gates =
      (programResults ((E.directed reverse).arrangement conf dedup) p columns x).map fun y =>
        tab conf.size (released ((E.directed reverse).arrangement conf dedup) inInputOrder y)

variable {conf columns inInputOrder reverse dedup}

theorem dataWires_prepared {c : Circuit}
    (h : PreparedSpec conf columns inInputOrder reverse dedup c) {w : ℕ} (hw : w ∈ dataWires c) :
    w = 2 * conf.bits + 3 ∧ ¬ columns > 1 ∨
      ∃ i < columnInputs columns, w = 2 * conf.bits + 4 + i := by
  have hparams := h.params
  simp only [params, Prod.mk.injEq] at hparams
  have hcolumns : c.columns = columns := hparams.2.2.2.2.1
  simp only [dataWires, hcolumns] at hw
  by_cases hc : columns > 1
  · simp only [if_pos hc, List.mem_map, List.mem_range] at hw
    obtain ⟨i, hi, rfl⟩ := hw
    have hi' : i < columnInputs columns := by rwa [columnInputs, if_pos hc]
    refine Or.inr ⟨i, hi', ?_⟩
    rw [h.dataParallel, List.getD_eq_getElem _ _ (by rwa [List.length_range']),
      List.getElem_range', Nat.one_mul]
  · simp only [if_neg hc, List.mem_singleton] at hw
    exact Or.inl ⟨hw.trans h.data, hc⟩

theorem constructed_extends (inInputOrder reverse dedup : Bool) (hz : conf.nodes ≤ conf.size)
    (hsize : 0 < conf.size) (h0 : 0 < conf.depth → 0 < conf.nodes)
    {p : Program} (he : p.Regular conf columns) :
    ConstructedExtends conf columns inInputOrder reverse dedup p
      (construct p.algorithm (start conf columns inInputOrder reverse dedup)).2 := by
  have hs := prepared_spec conf columns inInputOrder reverse dedup
  have hp := prepared_extends conf columns inInputOrder reverse dedup hsize
  rw [construct_run]
  generalize hc : prepared (start conf columns inInputOrder reverse dedup) = c at *
  have hparams := hs.params
  simp only [params, Prod.mk.injEq] at hparams
  obtain ⟨-, hnodes, -, hdepth, hcolumns, horder, -⟩ := hparams
  have hcolumns : c.columns = columns := hcolumns
  have horder : c.outputsInInputOrder = inInputOrder := horder
  obtain ⟨L, hL⟩ := pass_extends hz h0 (hcolumns.symm ▸ he) hs.passable hnodes hdepth
    fun w hw => hs.inputs w (by
      rcases dataWires_prepared hs hw with ⟨rfl, -⟩ | ⟨i, hi, rfl⟩ <;> omega)
  obtain ⟨X, hX, hne⟩ := hp.sealed
  have hne' : ∀ x ∈ X, x ∉ dataWires c ++ openedOrders c.ctx := by
    intro x hx hmem
    rcases List.mem_append.mp hmem with hmem | hmem
    · have hle := (hne x hx).2
      rcases dataWires_prepared hs hmem with ⟨rfl, -⟩ | ⟨i, hi, rfl⟩ <;> omega
    · exact (hne x hx).1 hmem
  refine ⟨fun hfree hpost => hL.sealed hfree hpost X hX hne', fun f hf ht hl => ?_,
    fun f hf ht r hr => ?_, fun V hsub E x hF => ?_⟩
  · rw [hc] at hf
    exact (hX.once_extend hs.passable.built hL.adds hne' (hX.first f hf ht hl)).2.2
  · rw [hL.adds.grows.gates] at hf
    rcases List.mem_append.mp hf with hf | hf
    · exact absurd ht (hp.quiet f hf).2
    · obtain ⟨huses, hlevel⟩ := hL.sums f hf ht r hr
      have hn : (pass p.algorithm c).2.nodes = conf.nodes := hL.adds.grows.nodes.trans hnodes
      exact ⟨huses, hlevel _ (hn ▸ hL.adds.grows.built.laid.wellFormed) (List.Subset.refl _)⟩
  · rw [hL.adds.grows.gates] at hsub ⊢
    obtain ⟨hs0, hs1⟩ := List.append_subset.mp hsub
    obtain ⟨good0, hA, hdata, hcols⟩ := hp.values V hs0 E x hF
    obtain ⟨good1, hout⟩ := hL.values V _ x hs1 hA fun w hw => by
      rcases dataWires_prepared hs hw with ⟨rfl, -⟩ | ⟨i, hi, rfl⟩
      · exact hdata
      · exact hcols i hi
    refine ⟨fun f hf => (List.mem_append.mp hf).elim (good0 f) (good1 f), ?_⟩
    rw [outputsOf_append, outputsOf_quiet V fun f hf => (hp.quiet f hf).1, hout, hcolumns, horder]
    rfl

end constructed

end GraphMpc
