import GraphMpc.Assembly

namespace GraphMpc

open Circuit

namespace Circuit

-- a circuit as the constructor and the three functions for its settings leave it
def start (conf : ProtocolConfig) (columns : ℕ) (inInputOrder reverse dedup : Bool) : Circuit :=
  { init conf columns with
    outputsInInputOrder := inInputOrder
    reversePassing := reverse
    deduplication := dedup }

def withInputs (c : Circuit) : Circuit := (setInputs (lockSettings c).2).2

def withOrders (c : Circuit) : Circuit := (computeSorts (preMp (withInputs c)).2).2

def prepared (c : Circuit) : Circuit := (prepareShuffles (withOrders c)).2

def pass (alg : Algorithm) : Build Unit := do
  let columns := (← get).columns
  if columns > 1 then
    let inp := (← get).inp
    let states ← (List.range columns).mapM fun i =>
      messagePassing alg (inp.dataParallel.getD i 0) i
    bumpShuffleIdx 3
    let states ← (List.range columns).mapM fun i => alg.postMp (states.getD i 0) i
    let (maybeAggregation, states) ← alg.postMpAggregate states
    match maybeAggregation with
    | some w => outputData w
    | none => (List.range columns).forM fun i => outputData (states.getD i 0)
  else
    let dataOut ← messagePassing alg (← get).inp.data 0
    bumpShuffleIdx 3
    let dataOut ← alg.postMp dataOut 0
    outputData dataOut

theorem construct_run (alg : Algorithm) (c : Circuit) : construct alg c = pass alg (prepared c) := by
  simp only [construct, prepared, withOrders, withInputs, bind_run]
  generalize (prepareShuffles _).2 = c'
  rfl

end Circuit

section inputs

variable (conf : ProtocolConfig) (columns : ℕ) (inInputOrder reverse dedup : Bool)

def columnInputs (columns : ℕ) : ℕ := if columns > 1 then columns else 0

theorem withInputs_eq : withInputs (start conf columns inInputOrder reverse dedup) =
    { (lockSettings (start conf columns inInputOrder reverse dedup)).2 with
      nWires := 2 * conf.bits + 4 + columnInputs columns + 1
      gates := setInputsGates conf.bits (columnInputs columns)
      inp := inputsOf conf.bits (columnInputs columns) reverse } := by
  have hlen : (init conf columns).inp.dataParallel.length = columnInputs columns := by
    simp only [init, columnInputs]
    split <;> simp
  rw [withInputs, setInputs_run rfl rfl rfl]
  simp only [lockSettings, modify_run, start, hlen]
  rfl

theorem inputGate_mem {k n w : ℕ} (h1 : k ≤ w) (h2 : w < k + n) :
    ({ type := .input, gId := w, outIdx := w } : Gate) ∈ inputGates k n :=
  List.mem_map_of_mem (List.mem_range'_1.mpr ⟨h1, h2⟩)

theorem wire_input {b n w : ℕ} (hw : w < 2 * b + 4 + n + 1) : Wire (setInputsGates b n) w := by
  rcases Nat.lt_succ_iff_lt_or_eq.mp hw with hlt | rfl
  · exact ⟨_, List.mem_append_left _ (inputGate_mem (Nat.zero_le w) (by omega)), rfl, by simp⟩
  · exact ⟨_, List.mem_append_right _ (List.mem_singleton_self _), rfl, by simp⟩

theorem inputGates_laid (nodes n : ℕ) : Laid nodes 0 (inputGates 0 n) := by
  have h := (Laid.nil nodes 0).append (inputGates_block n)
  have hcount : (inputGates 0 n).countP Gate.takesTriple = 0 := by
    simp [inputGates, List.countP_eq_zero, Gate.takesTriple]
  rwa [List.nil_append, List.length_nil, hcount] at h

theorem withInputs_built : Built (withInputs (start conf columns inInputOrder reverse dedup)) := by
  rw [withInputs_eq]
  refine ⟨?_, ?_, Nat.succ_pos _⟩
  · simp [setInputsGates, inputGates]
  · have h1 := inputGates_laid conf.nodes (2 * conf.bits + 4 + columnInputs columns)
    have hlen : (inputGates 0 (2 * conf.bits + 4 + columnInputs columns)).length =
        2 * conf.bits + 4 + columnInputs columns := by simp [inputGates]
    have hw : Wire (inputGates 0 (2 * conf.bits + 4 + columnInputs columns)) (2 * conf.bits + 2) :=
      ⟨_, inputGate_mem (Nat.zero_le _) (by omega), rfl, by simp⟩
    have hf : Admissible conf.nodes 0
        (inputGates 0 (2 * conf.bits + 4 + columnInputs columns)).length
        (Wire (inputGates 0 (2 * conf.bits + 4 + columnInputs columns)))
        (flipGate (2 * conf.bits + 4 + columnInputs columns) (2 * conf.bits + 2)) := by
      rw [hlen]
      simp [flipGate, admissible_iff, Gate.reads, Gate.Handled, Gate.binaryOperator,
        Gate.takesTriple, hw]
    exact h1.snoc hf

theorem withInputs_keyed : Keyed (withInputs (start conf columns inInputOrder reverse dedup)) := by
  have hb := withInputs_built conf columns inInputOrder reverse dedup
  have hw : ∀ w, w < 2 * conf.bits + 4 + columnInputs columns + 1 →
      Wire (withInputs (start conf columns inInputOrder reverse dedup)).gates w := by
    intro w hw
    rw [withInputs_eq]
    exact wire_input hw
  have hinp : (withInputs (start conf columns inInputOrder reverse dedup)).inp =
      inputsOf conf.bits (columnInputs columns) reverse := by
    rw [withInputs_eq]
  have hbits : (withInputs (start conf columns inInputOrder reverse dedup)).bits = conf.bits := by
    rw [withInputs_eq]
    rfl
  refine ⟨hb, ⟨_, _, congrArg Inputs.srcOrderBits hinp, ?_⟩,
    ⟨_, _, congrArg Inputs.dstOrderBits hinp, ?_⟩, fun x hx => hw x ?_, fun x hx => hw x ?_,
    hw _ ?_, hw _ ?_, hw _ ?_⟩
  · rw [hbits]
    split <;> simp
  · rw [hbits]
    split <;> simp
  · rw [hinp] at hx
    simp only [inputsOf, List.mem_cons] at hx
    rcases hx with rfl | hx
    · omega
    · split at hx <;> rw [List.mem_range'_1] at hx <;> omega
  · rw [hinp] at hx
    simp only [inputsOf, List.mem_cons] at hx
    rcases hx with rfl | hx
    · omega
    · split at hx <;> rw [List.mem_range'_1] at hx <;> omega
  all_goals
    rw [hinp]
    simp only [inputsOf]
    try split
  all_goals omega

end inputs

section prepared

variable {conf : ProtocolConfig} {columns : ℕ} {inInputOrder reverse dedup : Bool}

structure Preparation (conf : ProtocolConfig) (columns : ℕ) (reverse dedup : Bool)
    (ctx : MPContext) (G : List Gate) : Prop where
  inputs : setInputsGates conf.bits (columnInputs columns) ⊆ G
  orders : Orders G conf.size (inputsOf conf.bits (columnInputs columns) reverse) dedup
    ctx.srcOrder ctx.dstOrder ctx.vtxOrder
  opened : ∃ k, prepareGates k ctx.vtxShuffleIdx ctx ⊆ G ∧ ctx.clearShuffledVtxOrder = k + 3 ∧
    ctx.clearShuffledSrcOrder = k + 4 ∧ ctx.clearShuffledDstOrder = k + 5
  src_idx : ctx.srcShuffleIdx = ctx.vtxShuffleIdx + 1
  dst_idx : ctx.dstShuffleIdx = ctx.vtxShuffleIdx + 2

theorem level_input {nodes : ℕ} {G : List Gate} (h : WellFormed nodes G) {b n w : ℕ}
    (hG : setInputsGates b n ⊆ G) (hw : w < 2 * b + 4 + n + 1) : level G w = 0 := by
  have hin : ∀ w, w < 2 * b + 4 + n → level G w = 0 := fun w hlt => by
    have := level_unary h (hG (List.mem_append_left _ (inputGate_mem (Nat.zero_le w) (by omega))))
      (by simp) rfl
    simp only [Gate.delay, Gate.interactive, Bool.false_eq_true, if_false] at this
    rw [this, level_zero h]
  rcases Nat.lt_succ_iff_lt_or_eq.mp hw with hlt | rfl
  · exact hin w hlt
  · have := level_unary h (hG (List.mem_append_right _ (List.mem_singleton_self _))) (by simp) rfl
    simp only [Gate.delay, Gate.interactive, Bool.false_eq_true, if_false] at this
    rw [this, hin _ (by omega)]

theorem inputsOf_lt {b n x : ℕ} {reverse : Bool}
    (hx : x ∈ (inputsOf b n reverse).srcOrderBits ∨ x ∈ (inputsOf b n reverse).dstOrderBits) :
    x < 2 * b + 4 + n + 1 := by
  simp only [inputsOf, List.mem_cons] at hx
  rcases hx with (rfl | hx) | (rfl | hx)
  · omega
  · split at hx <;> rw [List.mem_range'_1] at hx <;> omega
  · omega
  · split at hx <;> rw [List.mem_range'_1] at hx <;> omega

structure PreparedSpec (conf : ProtocolConfig) (columns : ℕ) (inInputOrder reverse dedup : Bool)
    (c : Circuit) : Prop where
  passable : Passable c
  params : c.params = (start conf columns inInputOrder reverse dedup).params
  data : c.inp.data = 2 * conf.bits + 3
  dataParallel : c.inp.dataParallel = List.range' (2 * conf.bits + 4) (columnInputs columns)
  inputs : ∀ w, w < 2 * conf.bits + 4 + columnInputs columns + 1 → Wire c.gates w
  contains : ∀ G, WellFormed conf.nodes G → c.gates ⊆ G →
    Preparation conf columns reverse dedup c.ctx G ∧ ShufflesKnown G c.ctx ∧
      ∀ f ∈ c.gates, Disciplined G c.ctx f

theorem prepared_spec (conf : ProtocolConfig) (columns : ℕ) (inInputOrder reverse dedup : Bool) :
    PreparedSpec conf columns inInputOrder reverse dedup
      (prepared (start conf columns inInputOrder reverse dedup)) := by
  have hk := withInputs_keyed conf columns inInputOrder reverse dedup
  obtain ⟨L, hO⟩ := orders_spec hk
  have heq := withInputs_eq conf columns inInputOrder reverse dedup
  rw [prepared, withOrders, prepareShuffles_run hO.grows.built.wires]
  generalize (computeSorts (preMp (withInputs (start conf columns inInputOrder reverse dedup))).2).2
    = c1 at *
  have hgates : (withInputs (start conf columns inInputOrder reverse dedup)).gates =
      setInputsGates conf.bits (columnInputs columns) := by rw [heq]
  have hinp : (withInputs (start conf columns inInputOrder reverse dedup)).inp =
      inputsOf conf.bits (columnInputs columns) reverse := by rw [heq]
  have hparams : (withInputs (start conf columns inInputOrder reverse dedup)).params =
      (start conf columns inInputOrder reverse dedup).params := by
    rw [heq]
    rfl
  have hinputs : ∀ w, w < 2 * conf.bits + 4 + columnInputs columns + 1 →
      Wire (withInputs (start conf columns inInputOrder reverse dedup)).gates w := by
    intro w hw
    rw [hgates]
    exact wire_input hw
  generalize withInputs (start conf columns inInputOrder reverse dedup) = c0 at *
  have hg : Grows c1 { c1 with
      nShuffles := c1.nShuffles + 3
      nWires := c1.nWires + 6
      gates := c1.gates ++ prepareGates c1.nWires c1.shuffleIdx c1.ctx }
      (prepareGates c1.nWires c1.shuffleIdx c1.ctx) :=
    Grows.of_block hO.grows.built (prepareGates_block hO.grows.built.pos hO.vtx hO.src hO.dst)
      rfl rfl rfl rfl
  have hopen : ∀ w ∈ [c1.nWires + 3, c1.nWires + 4, c1.nWires + 5],
      Wire (c1.gates ++ prepareGates c1.nWires c1.shuffleIdx c1.ctx) w := by
    simp only [List.forall_mem_cons]
    refine ⟨hg.wire_new ?_, hg.wire_new ?_, hg.wire_new ?_, (by simp)⟩ <;> simp [Wire, prepareGates]
  have hall := hO.grows.trans hg
  refine ⟨⟨⟨hg.built.wires, hg.built.laid, hg.built.pos⟩, ⟨hopen _ (by simp), hopen _ (by simp),
      hopen _ (by simp), Nat.succ_pos _, Nat.succ_pos _, Nat.succ_pos _⟩, ?_, rfl⟩,
    hall.params.trans hparams, ?_, ?_, fun w hw => hall.wire (hinputs w hw), fun G hwf hsub => ?_⟩
  · exact Nat.le_add_right _ 2
  · show c1.inp.data = _
    rw [hO.data, hinp]
    rfl
  · show c1.inp.dataParallel = _
    rw [hO.dataParallel, hinp]
    rfl
  · have hp := hparams
    simp only [params, Prod.mk.injEq] at hp
    obtain ⟨hsize, hnodes, -, -, -, -, -, hdedup⟩ := hp
    obtain ⟨h0, hnew⟩ := hall.subset hsub
    obtain ⟨hL, hprep⟩ := List.append_subset.mp hnew
    rw [hgates] at h0
    obtain ⟨hord, hsort⟩ := hO.computed G (by rwa [hnodes]) hL
    rw [hinp, hsize, hdedup] at hord
    have hkeys : ∀ x, x ∈ (inputsOf conf.bits (columnInputs columns) reverse).srcOrderBits ∨
        x ∈ (inputsOf conf.bits (columnInputs columns) reverse).dstOrderBits → level G x = 0 :=
      fun x hx => level_input hwf h0 (inputsOf_lt hx)
    obtain ⟨hls, hld⟩ := hord.level_lt hwf (by simp [inputsOf, apply_ite List.length])
      (fun x hx => hkeys x (Or.inl hx)) (fun x hx => hkeys x (Or.inr hx))
    refine ⟨⟨h0, hord, ⟨c1.nWires, hprep, rfl, rfl, rfl⟩, rfl, rfl⟩,
      prepareGates_known hwf hprep hls hld rfl rfl rfl rfl, fun f hf => ?_⟩
    rw [hall.gates, hgates] at hf
    simp only [List.mem_append] at hf
    rcases hf with hf | hf | hf
    · refine .plain ?_ ?_ ?_
      all_goals
        simp only [setInputsGates, inputGates, List.mem_append, List.mem_map,
          List.mem_singleton] at hf
        rcases hf with ⟨w, -, rfl⟩ | rfl <;> simp
    · exact .of_sorting (hsort f hf) (Nat.le_add_right _ 3)
    · exact prepareGates_disciplined rfl f hf

end prepared

section pass

variable {c : Circuit} {ctx : MPContext} {alg : Algorithm}

structure Finishes (ctx : MPContext) (c c' : Circuit) (L : List Gate) : Prop where
  grows : Grows c c' L
  disciplined : ∀ G, WellFormed c.nodes G → L ⊆ G → ShufflesKnown G ctx →
    ∀ f ∈ L, Disciplined G ctx f

theorem Passes.bump {c' c'' : Circuit} {L L' : List Gate} {idx : ℕ} (h : Passes ctx c c' L)
    (h' : Passes ctx { c' with shuffleIdx := idx } c'' L') : Finishes ctx c c'' (L ++ L') := by
  have hg := h.grows.with_context c'.ctx c'.inp idx
  refine ⟨hg.trans h'.grows, fun G hwf hs hk f hf => ?_⟩
  obtain ⟨h1, h2⟩ := List.append_subset.mp hs
  rcases List.mem_append.mp hf with hf | hf
  · exact h.disciplined G hwf h1 hk f hf
  · exact h'.disciplined G (by rwa [hg.nodes]) h2 hk f hf

theorem postMp_output (hl : alg.Lawful) {x : ℕ} (hb : Built c) (hc : c.ctx = ctx)
    (ho : Opened c.gates ctx) (hx : Handle c.gates x) :
    ∃ L, Passes ctx c (outputData (alg.postMp x 0 c).1 (alg.postMp x 0 c).2).2 L := by
  subst hc
  obtain ⟨hcalls, hw⟩ := hl.postMp c x 0 hb hx
  obtain ⟨L1, p1⟩ := Passes.of_calls c.ctx hb hcalls
  obtain ⟨hctx, -, -⟩ := context_eq ((alg.postMp x 0 c).2) p1.context
  generalize alg.postMp x 0 c = r at *
  have p2 := outputData_passes p1.grows.built (by rw [hctx]; exact ho.mono p1.grows.sub) hw.1
  rw [hctx] at p2
  exact ⟨_, p1.trans p2⟩

theorem pass_one (alg : Algorithm) (hc : ¬ c.columns > 1) : pass alg c = (do
    let dataOut ← messagePassing alg c.inp.data 0
    bumpShuffleIdx 3
    let dataOut ← alg.postMp dataOut 0
    outputData dataOut : Build Unit) c := by
  rw [Circuit.pass, bind_run, get_run]
  exact congrFun (if_neg hc) c

theorem pass_many (alg : Algorithm) (hc : c.columns > 1) : pass alg c = (do
    let states ← (List.range c.columns).mapM fun i =>
      messagePassing alg (c.inp.dataParallel.getD i 0) i
    bumpShuffleIdx 3
    let states ← (List.range c.columns).mapM fun i => alg.postMp (states.getD i 0) i
    let r ← alg.postMpAggregate states
    match r.1 with
    | some w => outputData w
    | none => (List.range c.columns).forM fun i => outputData (r.2.getD i 0) : Build Unit) c := by
  rw [Circuit.pass, bind_run, get_run]
  exact congrFun (if_pos hc) c

theorem pass_single (hl : alg.Lawful) (hp : Passable c) (hc : ¬ c.columns > 1)
    (hx : Wire c.gates c.inp.data) : ∃ L, Finishes c.ctx c (pass alg c).2 L := by
  rw [pass_one alg hc]
  simp only [bind_run, bumpShuffleIdx_run]
  obtain ⟨L1, p1, h1⟩ := messagePassing_passes hl 0 hp hx
  obtain ⟨hctx, -, -⟩ := context_eq ((messagePassing alg c.inp.data 0 c).2) p1.context
  generalize messagePassing alg c.inp.data 0 c = r at *
  have hg := p1.grows.with_context r.2.ctx r.2.inp (r.2.shuffleIdx + 3)
  obtain ⟨L2, p2⟩ := postMp_output hl hg.built hctx (hp.opened.mono p1.grows.sub) h1
  exact ⟨_, p1.bump p2⟩

theorem handle_getD {gates : List Gate} {l : List ℕ} (h : ∀ w ∈ l, Handle gates w) {i : ℕ}
    (hi : i < l.length) : Handle gates (l.getD i 0) := by
  rw [List.getD_eq_getElem _ _ hi]
  exact h _ (List.getElem_mem hi)

theorem postMps_output (hl : alg.Lawful) {states : List ℕ} {n : ℕ} (hb : Built c)
    (hc : c.ctx = ctx) (ho : Opened c.gates ctx) (hn : 0 < n) (hlen : states.length = n)
    (hs : ∀ w ∈ states, Handle c.gates w) :
    ∃ L, Passes ctx c ((do
      let states ← (List.range n).mapM fun i => alg.postMp (states.getD i 0) i
      let r ← alg.postMpAggregate states
      match r.1 with
      | some w => outputData w
      | none => (List.range n).forM fun i => outputData (r.2.getD i 0) : Build Unit) c).2 L := by
  subst hc
  simp only [bind_run]
  obtain ⟨L1, p1, hlen1, h1⟩ := mapM_passes c.ctx
    (fun i => alg.postMp (states.getD i 0) i) (List.range n) hb
    fun i hi c' hb' hsub hc => by
      have hi' : i < states.length := by rw [hlen]; exact List.mem_range.mp hi
      have hw := handle_getD hs hi'
      obtain ⟨hcalls, h⟩ := hl.postMp c' (states.getD i 0) i hb' ⟨hw.1.imp fun _ hf =>
        ⟨hsub hf.1, hf.2⟩, hw.2⟩
      obtain ⟨L, p⟩ := Passes.of_calls c.ctx hb' hcalls
      exact ⟨L, p, h⟩
  generalize (List.range n).mapM (fun i => alg.postMp (states.getD i 0) i) c = r1 at *
  have hne : r1.1 ≠ [] := by
    rw [← List.length_pos_iff, hlen1, List.length_range]
    exact hn
  obtain ⟨hcalls, hone, hlen2, hall⟩ := hl.postMpAggregate r1.2 r1.1 p1.grows.built hne h1
  obtain ⟨L2, p2⟩ := Passes.of_calls c.ctx p1.grows.built hcalls
  have p12 := p1.trans p2
  generalize alg.postMpAggregate r1.1 r1.2 = r2 at *
  obtain ⟨hctx, -, -⟩ := context_eq (r2.2) p12.context
  have ho2 : Opened r2.2.gates r2.2.ctx := by
    rw [hctx]
    exact ho.mono p12.grows.sub
  cases hv : r2.1.1 with
  | some w =>
    have p3 := outputData_passes p12.grows.built ho2 (hone w hv).1
    rw [hctx] at p3
    exact ⟨_, p12.trans p3⟩
  | none =>
    obtain ⟨L3, p3⟩ := outputs_passes r2.1.2 (List.range n) p12.grows.built ho2
      fun i hi => (handle_getD hall (by
        rw [hlen2, hlen1]
        exact (List.mem_range.mp hi).trans_eq List.length_range.symm)).1
    rw [hctx] at p3
    exact ⟨_, p12.trans p3⟩

theorem columns_passes (hl : alg.Lawful) (data : ℕ → ℕ) (l : List ℕ) (hp : Passable c)
    (hx : ∀ i ∈ l, Wire c.gates (data i)) :
    ∃ L, Passes c.ctx c (l.mapM (fun i => messagePassing alg (data i) i) c).2 L ∧
      (l.mapM (fun i => messagePassing alg (data i) i) c).1.length = l.length ∧
      ∀ w ∈ (l.mapM (fun i => messagePassing alg (data i) i) c).1,
        Handle (l.mapM (fun i => messagePassing alg (data i) i) c).2.gates w := by
  refine mapM_passes c.ctx _ l hp.built fun i hi c' hb' hsub hc' => ?_
  obtain ⟨h1, -, h2⟩ := context_eq c' hc'
  obtain ⟨L, p, h⟩ := messagePassing_passes (c := c') hl i
    ⟨hb', by rw [h1]; exact hp.opened.mono hsub, by rw [h1]; exact hp.vtx_le,
      by rw [h1, h2]; exact hp.idx⟩ ((hx i hi).imp fun _ hf => ⟨hsub hf.1, hf.2⟩)
  rw [h1] at p
  exact ⟨L, p, h⟩

theorem pass_columns (hl : alg.Lawful) (hp : Passable c) (hc : c.columns > 1)
    (hx : ∀ i < c.columns, Wire c.gates (c.inp.dataParallel.getD i 0)) :
    ∃ L, Finishes c.ctx c (pass alg c).2 L := by
  rw [pass_many alg hc, bind_run, bind_run, bumpShuffleIdx_run]
  obtain ⟨L1, p1, hlen, h1⟩ := columns_passes hl (fun i => c.inp.dataParallel.getD i 0)
    (List.range c.columns) hp fun i hi => hx i (List.mem_range.mp hi)
  obtain ⟨hctx, -, -⟩ := context_eq (((List.range c.columns).mapM
    (fun i => messagePassing alg (c.inp.dataParallel.getD i 0) i) c).2) p1.context
  generalize (List.range c.columns).mapM
    (fun i => messagePassing alg (c.inp.dataParallel.getD i 0) i) c = r at *
  have hg := p1.grows.with_context r.2.ctx r.2.inp (r.2.shuffleIdx + 3)
  obtain ⟨L2, p2⟩ := postMps_output hl hg.built hctx (hp.opened.mono p1.grows.sub)
    (Nat.zero_lt_of_lt hc) (hlen.trans List.length_range) h1
  exact ⟨_, p1.bump p2⟩

end pass

section constructed

variable (conf : ProtocolConfig) (columns : ℕ) (inInputOrder reverse dedup : Bool)

structure Constructed (ctx : MPContext) (c : Circuit) : Prop where
  built : Built c
  nodes : c.nodes = conf.nodes
  params : c.params = (start conf columns inInputOrder reverse dedup).params
  preparation : Preparation conf columns reverse dedup ctx c.gates
  disciplined : ∀ f ∈ c.gates, Disciplined c.gates ctx f

theorem pass_finishes {alg : Algorithm} (hl : alg.Lawful) {c : Circuit}
    (hs : PreparedSpec conf columns inInputOrder reverse dedup c) :
    ∃ L, Finishes c.ctx c (pass alg c).2 L := by
  have hparams := hs.params
  simp only [params, Prod.mk.injEq] at hparams
  have hcolumns : c.columns = columns := hparams.2.2.2.2.1
  by_cases hc : c.columns > 1
  · refine pass_columns hl hs.passable hc fun i hi => hs.inputs _ ?_
    rw [hs.dataParallel, columnInputs, if_pos (hcolumns ▸ hc), List.getD_eq_getElem _ _
      (by rwa [List.length_range', ← hcolumns]), List.getElem_range']
    omega
  · exact pass_single hl hs.passable hc (hs.inputs _ (by rw [hs.data]; omega))

theorem construct_spec {alg : Algorithm} (hl : alg.Lawful) :
    ∃ ctx, Constructed conf columns inInputOrder reverse dedup ctx
      (construct alg (start conf columns inInputOrder reverse dedup)).2 := by
  have hs := prepared_spec conf columns inInputOrder reverse dedup
  obtain ⟨L, hf⟩ := pass_finishes conf columns inInputOrder reverse dedup hl hs
  rw [construct_run]
  generalize prepared (start conf columns inInputOrder reverse dedup) = c at *
  have hparams := hs.params
  simp only [params, Prod.mk.injEq] at hparams
  have hnodes : c.nodes = conf.nodes := hparams.2.1
  have hwf : WellFormed conf.nodes (pass alg c).2.gates := by
    rw [← hnodes, ← hf.grows.nodes]
    exact hf.grows.built.laid.wellFormed
  obtain ⟨hprep, hknown, hd⟩ := hs.contains _ hwf hf.grows.sub
  refine ⟨c.ctx, hf.grows.built, hf.grows.nodes.trans hnodes, hf.grows.params.trans hs.params,
    hprep, fun f hmem => ?_⟩
  obtain ⟨-, hL⟩ := hf.grows.subset (List.Subset.refl _)
  rw [hf.grows.gates] at hmem
  rcases List.mem_append.mp hmem with hmem | hmem
  · exact hd f hmem
  · exact hf.disciplined _ (by rwa [hnodes]) hL hknown f hmem

theorem construct_contains {alg : Algorithm} (hl : alg.Lawful) :
    (withOrders (start conf columns inInputOrder reverse dedup)).gates ⊆
      (construct alg (start conf columns inInputOrder reverse dedup)).2.gates := by
  obtain ⟨L, hf⟩ := pass_finishes conf columns inInputOrder reverse dedup hl
    (prepared_spec conf columns inInputOrder reverse dedup)
  obtain ⟨L', hO⟩ := orders_spec (withInputs_keyed conf columns inInputOrder reverse dedup)
  rw [construct_run]
  refine List.Subset.trans ?_ hf.grows.sub
  rw [prepared, withOrders, prepareShuffles_run hO.grows.built.wires]
  exact List.subset_append_left ..

theorem build_circ (alg : Algorithm) (c : Circuit) :
    (build alg c).2.circ = layersOf (construct alg c).2.gates := rfl

theorem build_columns (alg : Algorithm) (c : Circuit) :
    (build alg c).2.columns = (construct alg c).2.columns := rfl

end constructed

section dealable

variable {nodes m : ℕ} {G : List Gate} {ctx : MPContext} {f : Gate}

theorem ShuffledBefore.mem_before (h : WellFormed nodes G) {idx : ℕ}
    (hb : ShuffledBefore G idx f.outIdx) {l r : List Gate} (ho : (layersOf G).flatten = l ++ f :: r)
    (hf : f.type ≠ .output) : ∃ g ∈ l, g.type = .shuffle ∧ g.shuffleIdx = idx := by
  obtain ⟨g, hg, ht, hi, hlt⟩ := hb
  refine ⟨g, ?_, ht, hi⟩
  have hpair := pairwise_layersOf h
  have hmem : g ∈ l ++ f :: r := ho ▸ (mem_layersOf h).mpr hg
  have hfG : f ∈ G := (mem_layersOf h).mp (ho ▸ List.mem_append_right _ (List.mem_cons_self ..))
  have hlayer : (levels G).layer g < (levels G).layer f := by
    rw [layer_eq h hg (by simp [ht]), layer_eq h hfG hf]
    exact hlt
  rw [ho, List.pairwise_append, List.pairwise_cons] at hpair
  rcases List.mem_append.mp hmem with hmem | hmem
  · exact hmem
  · rcases List.mem_cons.mp hmem with rfl | hmem
    · exact absurd hlayer (lt_irrefl _)
    · rcases hpair.2.1.1 g hmem with hlt' | ⟨heq, -⟩
      · exact absurd hlayer hlt'.asymm
      · exact absurd heq hlayer.ne'

theorem dealable_layers (conf : ProtocolConfig) (hl : Laid nodes m G)
    (hd : ∀ f ∈ G, Disciplined G ctx f) : Dealable conf (layersOf G).flatten := by
  have h := hl.wellFormed
  have hmem : ∀ {l r : List Gate} {f : Gate}, (layersOf G).flatten = l ++ f :: r → f ∈ G :=
    fun ho => (mem_layersOf h).mp (ho ▸ List.mem_append_right _ (List.mem_cons_self ..))
  refine ⟨nodup_layersOf h, fun l f r ho ht => ?_, fun l f r ho ht => ?_,
    fun f hf g hg htf htg => ?_, fun f hf g hg htf htg he => ?_, ?_⟩
  · exact ((hd f (hmem ho)).unshuffle ht).mem_before h ho (by simp [ht])
  · obtain ⟨-, h1, h2⟩ := (hd f (hmem ho)).merged ht
    exact ⟨h1.mem_before h ho (by simp [ht]), h2.mem_before h ho (by simp [ht])⟩
  · have h1 := (hd f ((mem_layersOf h).mp hf)).shuffle htf
    obtain ⟨h2, -⟩ := (hd g ((mem_layersOf h).mp hg)).merged htg
    simp only [List.mem_cons, List.not_mem_nil, or_false, Prod.mk.injEq] at h2
    omega
  · obtain ⟨h1, -⟩ := (hd f ((mem_layersOf h).mp hf)).merged htf
    obtain ⟨h2, -⟩ := (hd g ((mem_layersOf h).mp hg)).merged htg
    simp only [List.mem_cons, List.not_mem_nil, or_false, Prod.mk.injEq] at h1 h2
    omega
  · refine (layersOf_perm h).symm.pairwise hl.distinct ?_
    intro a b hab ha hb he
    exact hab hb ha he.symm

end dealable

end GraphMpc
