import GraphMpc.Reconstruction
import GraphMpc.Consistency

namespace GraphMpc

open Tabulate Permutation Circuit Online Preprocessor GraphMpc.Valuation Servers.Action

section constructed

variable {conf : ProtocolConfig} {columns : ℕ} {inInputOrder reverse dedup : Bool} {p : Program}
  {c : Circuit} {ctx : MPContext}

theorem Constructed.laid (hc : Constructed conf columns inInputOrder reverse dedup ctx c) :
    Laid conf.nodes c.nMults c.gates := hc.nodes ▸ hc.built.laid

namespace ConstructedExtends

variable (h : ConstructedExtends conf columns inInputOrder reverse dedup p c)
  (hc : Constructed conf columns inInputOrder reverse dedup ctx c)

include h hc

theorem levelled : ColumnsLevelled conf.nodes c.gates := by
  have hwf := hc.laid.wellFormed
  intro f hf ht r hr
  have hl : level c.gates r = level c.gates f.in1Idx := (h.sums f hf ht r hr).2
  have hout := level_out hwf hf (by simp [ht])
  rw [layer_eq hwf hf (by simp [ht])]
  exact (hl.le.trans ((le_max_left ..).trans (Nat.le_add_right ..))).trans hout.ge

theorem sound {V : Valuation conf} (hV : V.gates = c.gates) {E : Listing} {x : ℕ → Ring}
    (hF : Fed V E x (columnInputs columns)) : Sound V := by
  have hlaid := hc.laid
  have hlev := h.levelled hc
  have hgood := (h.values V (hV ▸ List.Subset.refl _) E x hF).1
  refine ⟨?_, ?_, ?_, ?_, ?_, ?_, ?_⟩ <;> rw [hV]
  · exact hlaid.wellFormed
  · exact hlaid.sourced
  · exact hlev
  · exact hlaid.handled
  · exact hgood
  · exact fun f hf ht r hr => (h.sums f hf ht r hr).1
  · intro f hf ht
    obtain ⟨g, hg, hgt, hi, hlt⟩ := (hc.disciplined f hf).unshuffle ht
    refine ⟨g, hg, hgt, hi, ?_⟩
    rw [layer_eq hlaid.wellFormed hg (by simp [hgt]), layer_eq hlaid.wellFormed hf (by simp [ht])]
    exact hlt

theorem evaluates (he : p.Evaluable conf columns) {V : Valuation conf} (hV : V.gates = c.gates)
    {E : Listing} {x : ℕ → Ring} (hF : Fed V E x (columnInputs columns)) : Evaluates V := by
  obtain ⟨X, hX⟩ := h.sealed he.clipFree he.post
  refine ⟨h.sound hc hV hF, ?_⟩
  rw [hV]
  exact fun f hf ht hl => hX.once _ (hX.first f hf ht hl)

end ConstructedExtends

end constructed

structure SharedList (conf : ProtocolConfig) (g0 g1 : Graph) (E : Listing) (x : ℕ → Ring) :
    Prop where
  lengths : g0.srcBits.length = conf.bits ∧ g1.srcBits.length = conf.bits ∧
    g0.dstBits.length = conf.bits ∧ g1.dstBits.length = conf.bits ∧
      E.srcBits.length = conf.bits ∧ E.dstBits.length = conf.bits
  srcBits : ∀ j < conf.bits, Shares (g0.srcBits.getD j []) (g1.srcBits.getD j [])
    (tab conf.size fun i => if E.srcBits.getD j (fun _ => false) i then 1 else 0)
  dstBits : ∀ j < conf.bits, Shares (g0.dstBits.getD j []) (g1.dstBits.getD j [])
    (tab conf.size fun i => if E.dstBits.getD j (fun _ => false) i then 1 else 0)
  src : Shares g0.src g1.src (tab conf.size E.src)
  dst : Shares g0.dst g1.dst (tab conf.size E.dst)
  isV : Shares g0.isV g1.isV (tab conf.size fun i => if E.isV i then 1 else 0)
  data : Shares g0.data g1.data (tab conf.size x)

theorem inputs_getD {c : Circuit} {g : Graph} {b : ℕ} (hs : g.srcBits.length = b)
    (hd : g.dstBits.length = b) (w : ℕ) : (Evaluator.inputs c g).getD w [] =
      if w < b then g.srcBits.getD w [] else if w < 2 * b then g.dstBits.getD (w - b) []
      else if w = 2 * b then g.src else if w = 2 * b + 1 then g.dst
      else if w = 2 * b + 2 then g.isV
      else if w < 2 * b + 4 + columnInputs c.columns then g.data else [] := by
  subst hs
  have hrest : (if c.columns > 1 then List.replicate c.columns g.data else []) =
      List.replicate (columnInputs c.columns) g.data := by
    rw [columnInputs]
    split <;> rfl
  rw [Evaluator.inputs, hrest]
  simp only [List.getD_eq_getElem?_getD, List.append_assoc]
  by_cases h1 : w < g.srcBits.length
  · rw [if_pos h1, List.getElem?_append_left h1]
  rw [if_neg h1, List.getElem?_append_right (by omega)]
  by_cases h2 : w < 2 * g.srcBits.length
  · rw [if_pos h2, List.getElem?_append_left (by omega)]
  rw [if_neg h2, List.getElem?_append_right (by omega), hd]
  obtain ⟨k, rfl⟩ : ∃ k, w = 2 * g.srcBits.length + k := ⟨w - 2 * g.srcBits.length, by omega⟩
  have hk : 2 * g.srcBits.length + k - g.srcBits.length - g.srcBits.length = k := by omega
  rw [hk]
  rcases k with _ | _ | _ | _ | k
  · simp
  · simp
  · simp
  · simp
    omega
  · simp [List.getElem?_replicate]
    split_ifs <;> first
      | rfl
      | omega
namespace SharedList

variable {conf : ProtocolConfig} {g0 g1 : Graph} {E : Listing} {x : ℕ → Ring} {c : Circuit}

def opened (c : Circuit) (g0 g1 : Graph) (w : ℕ) : Vec :=
  List.zipWith (· + ·) ((Evaluator.inputs c g0).getD w []) ((Evaluator.inputs c g1).getD w [])

variable (h : SharedList conf g0 g1 E x)

include h

theorem shares_inputs (w : ℕ) : Shares ((Evaluator.inputs c g0).getD w [])
    ((Evaluator.inputs c g1).getD w []) (opened c g0 g1 w) := by
  refine shares_zipWith ?_
  obtain ⟨h0, h1, h2, h3, -⟩ := h.lengths
  rw [inputs_getD h0 h2, inputs_getD h1 h3]
  split_ifs with w1 w2
  · exact (h.srcBits w w1).left.trans (h.srcBits w w1).right.symm
  · have hd := h.dstBits (w - conf.bits) (by omega)
    exact hd.left.trans hd.right.symm
  · exact h.src.left.trans h.src.right.symm
  · exact h.dst.left.trans h.dst.right.symm
  · exact h.isV.left.trans h.isV.right.symm
  · exact h.data.left.trans h.data.right.symm
  · rfl

theorem opened_eq (w : ℕ) : opened c g0 g1 w =
    if w < conf.bits then
      tab conf.size fun i => if E.srcBits.getD w (fun _ => false) i then 1 else 0
    else if w < 2 * conf.bits then
      tab conf.size fun i => if E.dstBits.getD (w - conf.bits) (fun _ => false) i then 1 else 0
    else if w = 2 * conf.bits then tab conf.size E.src
    else if w = 2 * conf.bits + 1 then tab conf.size E.dst
    else if w = 2 * conf.bits + 2 then tab conf.size fun i => if E.isV i then 1 else 0
    else if w < 2 * conf.bits + 4 + columnInputs c.columns then tab conf.size x else [] := by
  obtain ⟨h0, h1, h2, h3, -⟩ := h.lengths
  rw [opened, inputs_getD h0 h2, inputs_getD h1 h3]
  split_ifs with w1 w2
  · exact zipWith_shares (h.srcBits w w1)
  · exact zipWith_shares (h.dstBits _ (by omega))
  · exact zipWith_shares h.src
  · exact zipWith_shares h.dst
  · exact zipWith_shares h.isV
  · exact zipWith_shares h.data
  · rfl

theorem fed {V : Valuation conf} (hV : V.inp = opened c g0 g1) :
    Fed V E x (columnInputs c.columns) := by
  obtain ⟨-, -, -, -, hs, hd⟩ := h.lengths
  refine ⟨hs, hd, fun j hj => ?_, fun j hj => ?_, ?_, ?_, ?_, ?_, fun j hj => ?_⟩ <;>
    rw [hV, h.opened_eq]
  · rw [if_pos (hs ▸ hj), List.getD_eq_getElem _ _ hj]
  · rw [if_neg (by omega), if_pos (by omega), Nat.add_sub_cancel_left, List.getD_eq_getElem _ _ hj]
  · rw [if_neg (by omega), if_neg (by omega), if_pos rfl]
  · rw [if_neg (by omega), if_neg (by omega), if_neg (by omega), if_pos rfl]
  · rw [if_neg (by omega), if_neg (by omega), if_neg (by omega), if_neg (by omega), if_pos rfl]
  · rw [if_neg (by omega), if_neg (by omega), if_neg (by omega), if_neg (by omega),
      if_neg (by omega), if_pos (by omega)]
  · rw [if_neg (by omega), if_neg (by omega), if_neg (by omega), if_neg (by omega),
      if_neg (by omega), if_pos (by omega)]

end SharedList

structure Execution (conf : ProtocolConfig) (circ : Circuit) (g : Streams) (g0 g1 : Graph) where
  val : Valuation conf
  evaluates : Evaluates val
  supply : Supply conf evaluates.plan.perm (layersOf evaluates.plan.gates).flatten
  dealer : Storage
  s0 : Storage
  s1 : Storage
  final : Servers
  layers : circ.circ = layersOf val.gates
  inputs : val.inp = SharedList.opened circ g0 g1
  cleartext : val.val = (Clear.run conf (dealerPi dealer) val.inp circ.circ.flatten).wires
  dealer_run : runDealer conf circ.circ g = some dealer
  party0 : runParty conf circ.circ g dealer .p0 = some s0
  party1 : runParty conf circ.circ g dealer .p1 = some s1
  drives : Drives evaluates.plan supply (Evaluator.init circ s0 g0).inputToVal
    (Evaluator.init circ s1 g1).inputToVal []
    ⟨Evaluator.init circ s0 g0, Evaluator.init circ s1 g1⟩ (Servers.schedule circ.circ) final
  output : Shares final.e0.online.output final.e1.online.output
    (Evaluates.outputs val circ.circ.flatten)

namespace Execution

variable {conf : ProtocolConfig} {circ : Circuit} {g : Streams} {g0 g1 : Graph}
  (X : Execution conf circ g g0 g1)

theorem secureRun_eq : secureRun conf circ g0 g1 g = some ⟨X.dealer, X.final⟩ := by
  simp only [secureRun, X.dealer_run, X.party0, X.party1, Option.bind_eq_bind, Option.bind_some]
  have hrun : Servers.run conf ⟨Evaluator.init circ X.s0 g0, Evaluator.init circ X.s1 g1⟩
      (Servers.schedule circ.circ) = some X.final := X.drives.run
  rw [hrun]
  rfl

theorem output_eq : (⟨X.dealer, X.final⟩ : Result).output =
    (Clear.run conf (dealerPi X.dealer) X.val.inp circ.circ.flatten).output := by
  have he := X.evaluates
  have hord := Clear.ordered_layers conf (dealerPi X.dealer) X.val.inp he.wellFormed he.levelled
    he.sourced
  rw [Clear.run, X.layers, Clear.run_output conf _ _ hord, ← X.layers]
  refine (zipWith_shares X.output).trans ?_
  rw [Evaluates.outputs]
  exact congrArg (fun v : ℕ → Vec => (circ.circ.flatten.filter (·.type = .output)).flatMap
    fun f => (v f.in1Idx).take conf.size) X.cleartext

end Execution

section constructed

variable {conf : ProtocolConfig} {columns : ℕ} {inInputOrder reverse dedup : Bool} {p : Program}
  {c circ : Circuit} {ctx : MPContext} {g0 g1 : Graph} {E : Listing} {x : ℕ → Ring}

-- the servers' storages after preprocessing serve every gate of the circuit in order
theorem exists_supply {order : List Gate} {π : ℕ → Equiv.Perm ℕ} (hdeal : Dealable conf order)
    (g : Streams) (hπ : π = fun idx => (deal conf g order idx).pi) {layers : List (List Gate)}
    (hl : layers.flatten = order) : ∃ (S : Supply conf π order) (s0 s1 : Storage),
      runParty conf layers g (dealerAt conf g order) .p0 = some s0 ∧
      runParty conf layers g (dealerAt conf g order) .p1 = some s1 ∧ S.Stocked [] [] s0 s1 := by
  subst hπ
  obtain ⟨s0, s1, recv, e0, e1, hp⟩ := runParty_prepared (g := g) hdeal hl
  exact ⟨supply hdeal hp, s0, s1, e0, e1, hp.stocked⟩

theorem Plan.exists_drives (P : Plan conf) (hdeal : Dealable conf (layersOf P.gates).flatten)
    (hcirc : circ.circ = layersOf P.gates) (g : Streams)
    (hperm : P.perm = fun idx => (deal conf g (layersOf P.gates).flatten idx).pi)
    (hin : ∀ f ∈ P.gates, f.type = .input → Shares ((Evaluator.inputs circ g0).getD f.outIdx [])
      ((Evaluator.inputs circ g1).getD f.outIdx []) (P.inp f.outIdx)) :
    ∃ (S : Supply conf P.perm (layersOf P.gates).flatten) (s0 s1 : Storage) (s' : Servers),
      runDealer conf circ.circ g = some (dealerAt conf g (layersOf P.gates).flatten) ∧
      runParty conf circ.circ g (dealerAt conf g (layersOf P.gates).flatten) .p0 = some s0 ∧
      runParty conf circ.circ g (dealerAt conf g (layersOf P.gates).flatten) .p1 = some s1 ∧
      Drives P S (Evaluator.init circ s0 g0).inputToVal (Evaluator.init circ s1 g1).inputToVal []
        ⟨Evaluator.init circ s0 g0, Evaluator.init circ s1 g1⟩ (Servers.schedule circ.circ) s' ∧
      ∃ out, P.Outputs circ.circ.flatten out ∧
        Shares s'.e0.online.output s'.e1.online.output out := by
  obtain ⟨S, s0, s1, e0, e1, hstock⟩ := exists_supply hdeal g hperm rfl
  obtain ⟨s', hdrives, out, hout, hshares⟩ := @run_plan conf P S
    (Evaluator.init circ s0 g0).inputToVal (Evaluator.init circ s1 g1).inputToVal hin s0 s1 hstock
  have hinit : ∀ (s : Storage) (g : Graph), Evaluator.init circ s g =
      ⟨Online.initWaiting {} (layersOf P.gates), s, (Evaluator.init circ s g).inputToVal⟩ := by
    intro s g
    rw [Evaluator.init, hcirc]
  refine ⟨S, s0, s1, s', ?_, ?_, ?_, ?_, out, ?_, hshares⟩
  · rw [hcirc]
    exact runDealer_eq _ _ _
  · rw [hcirc]
    exact e0
  · rw [hcirc]
    exact e1
  · rw [hcirc, hinit s0 g0, hinit s1 g1]
    exact hdrives
  · rw [hcirc]
    exact hout

theorem evaluates_execution {G : List Gate} {m : ℕ} (hlaid : Laid conf.nodes m G)
    (hdeal : Dealable conf (layersOf G).flatten) (hlev : ColumnsLevelled conf.nodes G)
    (hcirc : circ.circ = layersOf G) (g : Streams)
    (hin : ∀ f ∈ G, f.type = .input → Shares ((Evaluator.inputs circ g0).getD f.outIdx [])
      ((Evaluator.inputs circ g1).getD f.outIdx []) (SharedList.opened circ g0 g1 f.outIdx))
    (he : ∀ V : Valuation conf, V.gates = G → V.inp = SharedList.opened circ g0 g1 →
      Evaluates V) : ∃ X : Execution conf circ g g0 g1, X.val.gates = G := by
  let perm : ℕ → Equiv.Perm ℕ := fun idx => (deal conf g (layersOf G).flatten idx).pi
  have hk : ∀ idx, Keeps conf.size (perm idx) := fun idx => SharedPerm.pi_keeps _
  let V : Valuation conf := evaluation G (SharedList.opened circ g0 g1) hk hlaid.wellFormed hlev
    hlaid.sourced
  have he : Evaluates V := he V rfl rfl
  obtain ⟨S, s0, s1, s', hd, e0, e1, hdrives, out, hout, hshares⟩ :=
    he.plan.exists_drives hdeal hcirc g rfl hin
  have hperm : ∀ f ∈ (layersOf G).flatten, ∀ idx ∈ Clear.permIdxs f,
      ofPerm conf.size (perm idx) = dealerPi (dealerAt conf g (layersOf G).flatten) idx := by
    intro f hf idx hidx
    refine (dealerPi_eq hdeal ?_).symm
    cases ht : f.type <;>
      simp only [Clear.permIdxs, ht, List.mem_cons, List.not_mem_nil, or_false] at hidx
    · exact hidx ▸ dealt_of_mem hf (Or.inl ht)
    · exact hidx ▸ dealt_unshuffle hdeal hf ht
    · obtain ⟨h1, h2⟩ := dealt_operands hdeal hf ht
      rcases hidx with rfl | rfl
      · exact h1
      · exact h2
  refine ⟨⟨V, he, S, dealerAt conf g (layersOf G).flatten, s0, s1, s', hcirc, rfl, ?_, hd, e0, e1,
    hdrives, he.outputs_eq hout ▸ hshares⟩, rfl⟩
  rw [hcirc, ← Clear.run_perm_congr conf _ _ hperm]
  rfl

theorem exists_execution (he : p.Evaluable conf columns)
    (h : ConstructedExtends conf columns inInputOrder reverse dedup p c)
    (hc : Constructed conf columns inInputOrder reverse dedup ctx c)
    (hcirc : circ.circ = layersOf c.gates) (hcols : circ.columns = columns) (g : Streams)
    (hin : SharedList conf g0 g1 E x) :
    ∃ X : Execution conf circ g g0 g1, X.val.gates = c.gates :=
  evaluates_execution hc.laid (dealable_layers conf hc.laid hc.disciplined) (h.levelled hc) hcirc g
    (fun f _ _ => hin.shares_inputs f.outIdx)
    fun _ hV hinp => h.evaluates hc he hV (hcols ▸ hin.fed hinp)

theorem Execution.results (h : ConstructedExtends conf columns inInputOrder reverse dedup p c)
    (hcols : circ.columns = columns) {g : Streams} (hin : SharedList conf g0 g1 E x)
    (X : Execution conf circ g g0 g1) (hX : X.val.gates = c.gates) :
    (⟨X.dealer, X.final⟩ : Result).output =
      ((programResults ((E.directed reverse).arrangement conf dedup) p columns x).map fun y =>
        tab conf.size (released ((E.directed reverse).arrangement conf dedup)
          inInputOrder y)).flatten := by
  have hF : Fed X.val E x (columnInputs columns) := hcols ▸ hin.fed X.inputs
  obtain ⟨-, hout⟩ := h.values X.val (hX ▸ List.Subset.refl _) E x hF
  rw [← hX] at hout
  have hlen : ∀ v ∈ outputsOf X.val X.val.gates, v.length = conf.size := by
    intro v hv
    rw [hout] at hv
    obtain ⟨y, -, rfl⟩ := List.mem_map.mp hv
    exact tab_length ..
  rw [← hout, ← Evaluates.plan_outputs hlen, ← X.layers]
  exact zipWith_shares X.output

section programs

variable (hz : conf.nodes ≤ conf.size) (hsize : 0 < conf.size) (h0 : 0 < conf.depth → 0 < conf.nodes)
  (he : p.Evaluable conf columns)
  (hcirc : circ = (build p.algorithm (start conf columns inInputOrder reverse dedup)).2)
  (g : Streams) (hin : SharedList conf g0 g1 E x)

include hz hsize h0 he hcirc hin

theorem Program.exists_evaluation : ∃ X : Execution conf circ g g0 g1,
    X.val.gates = (construct p.algorithm (start conf columns inInputOrder reverse dedup)).2.gates ∧
      circ.columns = columns := by
  obtain ⟨ctx, hc⟩ := construct_spec conf columns inInputOrder reverse dedup p.algorithm_lawful
  have hx := constructed_extends inInputOrder reverse dedup hz hsize h0 he.toRegular
  have hlayers : circ.circ = _ := (congrArg Circuit.circ hcirc).trans (build_circ ..)
  have hcols : circ.columns = _ := (congrArg Circuit.columns hcirc).trans (build_columns ..)
  have hparams := hc.params
  simp only [params, Prod.mk.injEq] at hparams
  have hcols : circ.columns = columns := hcols.trans hparams.2.2.2.2.1
  obtain ⟨X, hX⟩ := GraphMpc.exists_execution he hx hc hlayers hcols g hin
  exact ⟨X, hX, hcols⟩

theorem Program.exists_execution : ∃ X : Execution conf circ g g0 g1,
    (⟨X.dealer, X.final⟩ : Result).output =
      ((programResults ((E.directed reverse).arrangement conf dedup) p columns x).map fun y =>
        tab conf.size (released ((E.directed reverse).arrangement conf dedup)
          inInputOrder y)).flatten := by
  obtain ⟨X, hX, hcols⟩ := exists_evaluation hz hsize h0 he hcirc g hin
  have hx := constructed_extends inInputOrder reverse dedup hz hsize h0 he.toRegular
  exact ⟨X, X.results hx hcols hin hX⟩

end programs

end constructed

namespace Shipped

variable {conf : ProtocolConfig} {inInputOrder : Bool} {circ : Circuit} {alg : Shipped}

def columns (conf : ProtocolConfig) : Shipped → ℕ
  | bfs | piM _ | piK _ => 1
  | bfs3Parallel => 3
  | piR => conf.nodes

def reverse : Shipped → Bool
  | piM _ | piK _ => true
  | _ => false

def dedup : Shipped → Bool
  | piK _ => true
  | _ => false

theorem circuit_eq (h : alg.circuit conf inInputOrder = .ok circ) :
    circ = (build (alg.program conf).algorithm
      (start conf (alg.columns conf) inInputOrder alg.reverse alg.dedup)).2 := by
  have hc : ∀ c, alg.create conf = .ok c →
      c = start conf (alg.columns conf) false alg.reverse alg.dedup := by
    intro c hc
    cases alg with
    | bfs => exact (Except.ok.inj hc).symm
    | bfs3Parallel =>
      simp only [create] at hc
      split at hc
      · cases hc
      · exact (Except.ok.inj hc).symm
    | piM weights =>
      simp only [create] at hc
      split at hc
      · cases hc
      · exact (Except.ok.inj hc).symm
    | piK weights =>
      simp only [create] at hc
      split at hc
      · cases hc
      · exact (Except.ok.inj hc).symm
    | piR => exact (Except.ok.inj hc).symm
  cases hcreate : alg.create conf with
  | error e =>
    rw [circuit, hcreate] at h
    cases h
  | ok c =>
    rw [circuit, hcreate, hc c hcreate] at h
    cases inInputOrder <;> exact (Except.ok.inj h).symm

theorem oneHot_length (nodes column : ℕ) : (oneHot nodes column).length = nodes := by
  simp [oneHot]

theorem accumulates (h : alg = bfs3Parallel ∨ alg = piR) : (alg.program conf).Accumulates := by
  rcases h with rfl | rfl
  · exact ⟨fun column => ⟨_, rfl⟩, fun _ _ => rfl, fun _ _ => rfl, fun _ => rfl⟩
  · exact ⟨fun column => ⟨_, rfl⟩, fun _ _ => rfl, fun _ _ => rfl, fun _ => rfl⟩

theorem evaluable_of (hz : conf.nodes ≤ conf.size) (alg : Shipped) (columns : ℕ)
    (hc : alg = piR → conf.nodes ≤ columns) : (alg.program conf).Evaluable conf columns := by
  cases alg with
  | bfs =>
    refine ⟨⟨?_, ?_⟩, ?_, Or.inl ⟨?_, fun i column => ⟨.add 0 1, rfl, rfl, rfl⟩, fun _ => rfl⟩⟩
    all_goals simp [program, GraphMpc.bfs, Program.ClipFree, Program.Fits, Body.ClipFree, Body.Fits,
      Body.single, Body.arg, Op.isClip, Op.Fits]
  | bfs3Parallel =>
    have ha : (bfs3Parallel.program conf).Accumulates := accumulates (Or.inl rfl)
    refine ⟨⟨?_, ?_⟩, ?_, Or.inl ha.clips⟩
    all_goals simp [program, GraphMpc.bfs3Parallel, Program.ClipFree, Program.Fits, Body.ClipFree,
      Body.Fits, Body.single, Body.arg, Op.isClip, Op.Fits, oneHot_length, hz]
  | piM weights | piK weights =>
    refine ⟨⟨?_, ?_⟩, ?_, Or.inr ?_⟩
    all_goals simp [program, katz, Program.ClipFree, Program.PostClipFree, Program.Fits,
      Body.ClipFree, Body.Fits, Body.single, Body.arg, Op.isClip, Op.Fits, hz]
  | piR =>
    have ha : (piR.program conf).Accumulates := accumulates (Or.inr rfl)
    refine ⟨⟨?_, fun _ => ⟨ha, hc rfl⟩⟩, ?_, Or.inl ha.clips⟩
    all_goals simp [program, GraphMpc.piR, Program.ClipFree, Program.Fits, Body.ClipFree,
      Body.Fits, Body.single, Body.arg, Op.isClip, Op.Fits, oneHot_length, hz]

theorem evaluable (hz : conf.nodes ≤ conf.size) (alg : Shipped) :
    (alg.program conf).Evaluable conf (alg.columns conf) :=
  alg.evaluable_of hz _ (by rintro rfl; exact le_rfl)

theorem secure_run_refines (hz : conf.nodes ≤ conf.size) (h0 : 0 < conf.nodes)
    (hc : alg.circuit conf inInputOrder = .ok circ) (g : Streams) {g0 g1 : Graph} {E : Listing}
    {x : ℕ → Ring} (hin : SharedList conf g0 g1 E x) :
    ∃ r, secureRun conf circ g0 g1 g = some r ∧ r.output =
      (Clear.run conf (dealerPi r.dealer) (SharedList.opened circ g0 g1) circ.circ.flatten).output := by
  obtain ⟨X, -⟩ := Program.exists_execution hz (h0.trans_le hz) (fun _ => h0) (evaluable hz alg)
    (circuit_eq hc) g hin
  exact ⟨_, X.secureRun_eq, X.inputs ▸ X.output_eq⟩

def pairGraph (isV : Vec) : Graph where
  src := [0, 0]
  dst := [0, 0]
  isV := isV
  data := [0, 0]
  srcBits := [[0, 0]]
  dstBits := [[0, 0]]
  size := 2

def pairListing : Listing :=
  ⟨fun i => i = 0, fun _ => 0, fun _ => 0, [fun _ => false], [fun _ => false]⟩

theorem pairConfig_int : 2 < 2 ^ 31 := by decide

def pairConfig : ProtocolConfig := ⟨2, 1, 1, 1, pairConfig_int⟩

def pairCircuit : Circuit :=
  (build (bfs.program pairConfig).algorithm (start pairConfig 1 true false false)).2

theorem pairCircuit_eq : bfs.circuit pairConfig true = .ok pairCircuit := rfl

theorem pairGraph_shared :
    SharedList pairConfig (pairGraph [1, 0]) (pairGraph [0, 0]) pairListing fun _ => 0 := by
  have hshares : ∀ v : Vec, v.length = 2 → Shares v [0, 0] v := by
    intro v hv
    refine ⟨rfl, by rw [hv]; rfl, fun i => ?_⟩
    rcases i with _ | _ | i
    · exact add_zero _
    · exact add_zero _
    · exact add_zero _
  refine ⟨⟨rfl, rfl, rfl, rfl, rfl, rfl⟩, fun j hj => ?_, fun j hj => ?_, hshares _ rfl,
    hshares _ rfl, hshares _ rfl, hshares _ rfl⟩
  all_goals
    obtain rfl : j = 0 := Nat.lt_one_iff.mp hj
    exact hshares _ rfl

theorem secure_run_refines_pair : ∃ r, secureRun pairConfig pairCircuit
    (pairGraph [1, 0]) (pairGraph [0, 0]) countingStreams = some r ∧ r.output =
      (Clear.run pairConfig (dealerPi r.dealer) (SharedList.opened pairCircuit
        (pairGraph [1, 0]) (pairGraph [0, 0])) pairCircuit.circ.flatten).output :=
  secure_run_refines (by decide) (by decide) pairCircuit_eq countingStreams pairGraph_shared

end Shipped

end GraphMpc
