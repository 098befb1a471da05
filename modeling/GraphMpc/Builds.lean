import GraphMpc.Blocks
import GraphMpc.Dealer

namespace GraphMpc

open Circuit

def Wire (gates : List Gate) (w : ℕ) : Prop := ∃ f ∈ gates, f.outIdx = w ∧ f.type ≠ .output

@[mk_iff]
structure Admissible (nodes m k : ℕ) (W : ℕ → Prop) (f : Gate) : Prop where
  gId : f.gId = k
  outIdx : f.outIdx = k
  in1 : f.in1Idx = 0 ∨ W f.in1Idx
  in2 : f.in2Idx = 0 ∨ W f.in2Idx
  reads : ∀ r ∈ f.reads nodes, W r
  handled : f.Handled
  first : k = 0 → f.type = .input
  mult : f.takesTriple = true → f.multIdx = m

def Block (nodes : ℕ) : ℕ → ℕ → (ℕ → Prop) → List Gate → Prop
  | _, _, _, [] => True
  | m, k, W, f :: fs => Admissible nodes m k W f ∧
      Block nodes (if f.takesTriple then m + 1 else m) (k + 1)
        (fun w => W w ∨ w = k ∧ f.type ≠ .output) fs

structure Laid (nodes m : ℕ) (gates : List Gate) : Prop where
  wellFormed : WellFormed nodes gates
  sourced : Sourced nodes gates
  handled : ∀ f ∈ gates, f.Handled
  operands : ∀ f ∈ gates, ∀ w ∈ [f.in1Idx, f.in2Idx], w = 0 ∨ Wire gates w
  bounded : ∀ f ∈ gates, f.takesTriple = true → f.multIdx < m
  distinct : gates.Pairwise fun f g => f.takesTriple = true → g.takesTriple = true →
    f.multIdx ≠ g.multIdx

theorem Block.congr {nodes m k : ℕ} {W W' : ℕ → Prop} {l : List Gate} (hW : ∀ w, W w → W' w)
    (h : Block nodes m k W l) : Block nodes m k W' l := by
  induction l generalizing m k W W' with
  | nil => trivial
  | cons f l ih =>
    obtain ⟨hf, hl⟩ := h
    refine ⟨⟨hf.gId, hf.outIdx, hf.in1.imp_right (hW _), hf.in2.imp_right (hW _),
      fun r hr => hW r (hf.reads r hr), hf.handled, hf.first, hf.mult⟩, ih ?_ hl⟩
    exact fun w hw => hw.imp_left (hW w)

namespace Laid

variable {nodes m : ℕ} {gates l : List Gate} {f : Gate}

theorem wire_lt (h : Laid nodes m gates) {w : ℕ} (hw : Wire gates w) : w < gates.length := by
  obtain ⟨f, hf, rfl, -⟩ := hw
  exact (h.wellFormed.wired_of_mem hf).2

theorem nil (nodes m : ℕ) : Laid nodes m [] where
  wellFormed := WellFormed.nil
  sourced f hf := by cases hf
  handled f hf := by cases hf
  operands f hf := by cases hf
  bounded f hf := by cases hf
  distinct := List.Pairwise.nil

theorem snoc (h : Laid nodes m gates) (hf : Admissible nodes m gates.length (Wire gates) f) :
    Laid nodes (if f.takesTriple then m + 1 else m) (gates ++ [f]) := by
  have hle : ∀ w, w = 0 ∨ Wire gates w → w ≤ gates.length - 1 := by
    rintro w (rfl | hw)
    · exact Nat.zero_le _
    · have := h.wire_lt hw
      omega
  have hw : f.Wired nodes gates.length :=
    { gId := hf.gId, outIdx := hf.outIdx, in1 := hle _ hf.in1, in2 := hle _ hf.in2,
      reads := fun r hr => h.wire_lt (hf.reads r hr), first := hf.first }
  have hwire : ∀ w, w = 0 ∨ Wire gates w → w = 0 ∨ Wire (gates ++ [f]) w := fun w =>
    Or.imp_right fun ⟨g, hg, hgw⟩ => ⟨g, List.mem_append_left _ hg, hgw⟩
  refine ⟨h.wellFormed.snoc hw, ?_, ?_, ?_, ?_, ?_⟩
  · intro g hg r hr x hx hxr
    rw [List.mem_append, List.mem_singleton] at hg hx
    have hlt : r < gates.length := by
      rcases hg with hg | rfl
      · obtain ⟨hgw, hgl⟩ := h.wellFormed.wired_of_mem hg
        exact (hgw.reads r hr).trans hgl
      · exact h.wire_lt (hf.reads r hr)
    rcases hx with hx | rfl
    · rcases hg with hg | rfl
      · exact h.sourced g hg r hr x hx hxr
      · obtain ⟨y, hy, hyr, hyo⟩ := hf.reads r hr
        rw [h.wellFormed.eq_of_outIdx hx hy (hxr.trans hyr.symm)]
        exact hyo
    · rw [← hxr, hf.outIdx] at hlt
      exact absurd hlt (lt_irrefl _)
  · intro g hg
    rcases List.mem_append.mp hg with hg | hg
    · exact h.handled g hg
    · rw [List.mem_singleton.mp hg]
      exact hf.handled
  · intro g hg w hgw
    refine hwire w ?_
    rcases List.mem_append.mp hg with hg | hg
    · exact h.operands g hg w hgw
    · rw [List.mem_singleton.mp hg] at hgw
      rcases List.mem_pair.mp hgw with rfl | rfl
      · exact hf.in1
      · exact hf.in2
  · intro g hg ht
    rcases List.mem_append.mp hg with hg | hg
    · have := h.bounded g hg ht
      split <;> omega
    · rw [List.mem_singleton.mp hg] at ht ⊢
      rw [if_pos ht, hf.mult ht]
      exact Nat.lt_succ_self m
  · rw [List.pairwise_append]
    refine ⟨h.distinct, List.pairwise_singleton _ _, fun g hg x hx hgt hxt => ?_⟩
    rw [List.mem_singleton.mp hx] at hxt ⊢
    rw [hf.mult hxt]
    exact (h.bounded g hg hgt).ne

theorem append (h : Laid nodes m gates) (hl : Block nodes m gates.length (Wire gates) l) :
    Laid nodes (m + l.countP Gate.takesTriple) (gates ++ l) := by
  induction l generalizing m gates with
  | nil => simpa using h
  | cons f l ih =>
    obtain ⟨hf, hl⟩ := hl
    have hb : Block nodes (if f.takesTriple then m + 1 else m) (gates ++ [f]).length
        (Wire (gates ++ [f])) l := by
      rw [List.length_append, List.length_singleton]
      refine hl.congr ?_
      rintro w (⟨g, hg, hgw⟩ | ⟨rfl, hf'⟩)
      · exact ⟨g, List.mem_append_left _ hg, hgw⟩
      · exact ⟨f, by simp, hf.outIdx, hf'⟩
    have happ := ih (h.snoc hf) hb
    rw [List.append_assoc, List.singleton_append] at happ
    rw [List.countP_cons]
    split_ifs at happ ⊢ with ht
    · rwa [Nat.add_right_comm] at happ
    · exact happ

end Laid

structure Built (c : Circuit) : Prop where
  wires : c.nWires = c.gates.length
  laid : Laid c.nodes c.nMults c.gates
  pos : 0 < c.nWires

namespace Circuit

def params (c : Circuit) : ℕ × ℕ × ℕ × ℕ × ℕ × Bool × Bool × Bool :=
  (c.size, c.nodes, c.bits, c.depth, c.columns, c.outputsInInputOrder, c.reversePassing,
    c.deduplication)

def context (c : Circuit) : MPContext × Inputs × ℕ := (c.ctx, c.inp, c.shuffleIdx)

end Circuit

structure Grows (c c' : Circuit) (l : List Gate) : Prop where
  built : Built c'
  gates : c'.gates = c.gates ++ l
  params : c'.params = c.params

namespace Grows

variable {c c' c'' : Circuit} {l l' : List Gate}

theorem refl (h : Built c) : Grows c c [] := ⟨h, (List.append_nil _).symm, rfl⟩

theorem trans (h : Grows c c' l) (h' : Grows c' c'' l') : Grows c c'' (l ++ l') where
  built := h'.built
  gates := by rw [h'.gates, h.gates, List.append_assoc]
  params := h'.params.trans h.params

theorem of_block (h : Built c) (hb : Block c.nodes c.nMults c.nWires (Wire c.gates) l)
    (hw : c'.nWires = c.nWires + l.length)
    (hm : c'.nMults = c.nMults + l.countP Gate.takesTriple) (hg : c'.gates = c.gates ++ l)
    (hp : c'.params = c.params) : Grows c c' l := by
  have hn : c'.nodes = c.nodes := (Prod.ext_iff.mp (Prod.ext_iff.mp hp).2).1
  refine ⟨⟨?_, ?_, ?_⟩, hg, hp⟩
  · rw [hw, hg, List.length_append, h.wires]
  · rw [hn, hm, hg]
    rw [h.wires] at hb
    exact h.laid.append hb
  · exact hw ▸ Nat.add_pos_left h.pos _

theorem wire (h : Grows c c' l) {w : ℕ} (hw : Wire c.gates w) : Wire c'.gates w := by
  obtain ⟨f, hf, hfw⟩ := hw
  exact ⟨f, h.gates ▸ List.mem_append_left _ hf, hfw⟩

theorem nodes (h : Grows c c' l) : c'.nodes = c.nodes :=
  (Prod.ext_iff.mp (Prod.ext_iff.mp h.params).2).1

theorem wire_new (h : Grows c c' l) {w : ℕ} (hw : Wire l w) : Wire c'.gates w := by
  obtain ⟨f, hf, hfw⟩ := hw
  exact ⟨f, h.gates ▸ List.mem_append_right _ hf, hfw⟩

theorem subset {G : List Gate} (h : Grows c c' l) (hG : c'.gates ⊆ G) : c.gates ⊆ G ∧ l ⊆ G := by
  rw [h.gates] at hG
  exact List.append_subset.mp hG

end Grows

section blocks

variable {nodes m k : ℕ} {W : ℕ → Prop}

theorem inputGates_block (n : ℕ) : Block nodes m k W (inputGates k n) := by
  induction n generalizing k W with
  | zero => trivial
  | succ n ih =>
    rw [inputGates, List.range'_succ, List.map_cons]
    exact ⟨by simp [admissible_iff, Gate.reads, Gate.Handled, Gate.binaryOperator,
      Gate.takesTriple], ih⟩

variable (hk : 0 < k)

include hk

theorem clipGates_block {x size : ℕ} (hx : W x) :
    Block nodes m k W (clipGates k m x size) := by
  simp [clipGates, equalsZeroGates, Block, admissible_iff, Gate.reads, Gate.Handled,
    Gate.binaryOperator, Gate.takesTriple, hx, hk.ne']

theorem sortGates_block {idx perm keys : ℕ} (hp : W perm) (hx : W keys) :
    Block nodes m k W (sortGates k m idx perm keys) := by
  simp [sortGates, Block, admissible_iff, Gate.reads, Gate.Handled, Gate.binaryOperator,
    Gate.takesTriple, hp, hx, hk.ne']

theorem duplicateGates_block {idx size perm src dst : ℕ} (hp : W perm) (hs : W src)
    (hd : W dst) : Block nodes m k W (duplicateGates k m idx size perm src dst) := by
  simp [duplicateGates, equalsZeroGates, Block, admissible_iff, Gate.reads, Gate.Handled,
    Gate.binaryOperator, Gate.takesTriple, hp, hs, hd, hk.ne']

theorem prepareGates_block {idx : ℕ} {ctx : MPContext} (hv : W ctx.vtxOrder)
    (hs : W ctx.srcOrder) (hd : W ctx.dstOrder) : Block nodes m k W (prepareGates k idx ctx) := by
  simp [prepareGates, Block, admissible_iff, Gate.reads, Gate.Handled, Gate.binaryOperator,
    Gate.takesTriple, hv, hs, hd, hk.ne']

end blocks

-- the opened orders are wires, and not wire 0, which stands for no second operand
structure Opened (gates : List Gate) (ctx : MPContext) : Prop where
  vtx : Wire gates ctx.clearShuffledVtxOrder
  src : Wire gates ctx.clearShuffledSrcOrder
  dst : Wire gates ctx.clearShuffledDstOrder
  vtx_pos : 0 < ctx.clearShuffledVtxOrder
  src_pos : 0 < ctx.clearShuffledSrcOrder
  dst_pos : 0 < ctx.clearShuffledDstOrder

section blocks

variable {nodes m k : ℕ} {gates : List Gate} {ctx : MPContext} (hk : 0 < k)
  (ho : Opened gates ctx) {x : ℕ} (hx : Wire gates x)

include hk ho hx

theorem loadGates_block : Block nodes m k (Wire gates) (loadGates k ctx x) := by
  simp [loadGates, Block, admissible_iff, Gate.reads, Gate.Handled, Gate.binaryOperator,
    Gate.takesTriple, hx, ho.vtx, ho.vtx_pos.ne', hk.ne']

theorem routeGates_block (i1 i2 i3 : ℕ) :
    Block nodes m k (Wire gates) (routeGates k ctx i1 i2 i3 x) := by
  simp [routeGates, Block, admissible_iff, Gate.reads, Gate.Handled, Gate.binaryOperator,
    Gate.takesTriple, hx, ho.vtx, ho.src, ho.dst, ho.vtx_pos.ne', ho.src_pos.ne', ho.dst_pos.ne',
    hk.ne']

theorem outputGates_block (b : Bool) :
    Block nodes m k (Wire gates) (outputGates k nodes b ctx x) := by
  cases b <;> simp [outputGates, Block, admissible_iff, Gate.reads, Gate.Handled,
    Gate.binaryOperator, Gate.takesTriple, hx, ho.vtx, ho.vtx_pos.ne', hk.ne']

end blocks

def Handle (gates : List Gate) (w : ℕ) : Prop := Wire gates w ∧ w ≠ 0

inductive LibraryCall (c : Circuit) : Circuit → Prop where
  | multiply {x y : ℕ} (hx : Handle c.gates x) (hy : Handle c.gates y) :
      LibraryCall c (multiply x y c).2
  | multiplyByConstant {x : ℕ} (hx : Handle c.gates x) (constant : Ring) :
      LibraryCall c (mulConstSIMD x constant c).2
  | add {x y : ℕ} (hx : Handle c.gates x) (hy : Handle c.gates y) : LibraryCall c (addSIMD x y c).2
  | subtract {x y : ℕ} (hx : Handle c.gates x) (hy : Handle c.gates y) :
      LibraryCall c (subSIMD x y c).2
  | addConstant {x : ℕ} (hx : Handle c.gates x) (constant : Ring) :
      LibraryCall c (addConstSIMD x constant c).2
  | flip {x : ℕ} (hx : Handle c.gates x) : LibraryCall c (flipSIMD x c).2
  | clip {x : ℕ} (hx : Handle c.gates x) : LibraryCall c (clipSIMD x c).2
  | setConstVector (vals : Vec) : LibraryCall c (setConstVecSIMD vals c).2
  | columnSumsToNodes {l : List ℕ} (hl : l ≠ []) (hx : ∀ x ∈ l, Handle c.gates x) :
      LibraryCall c (columnSumsToNodes l c).2

abbrev LibraryCalls : Circuit → Circuit → Prop := Relation.ReflTransGen LibraryCall

namespace Gate

def isOperation (f : Gate) : Bool :=
  match f.type with
  | .mulSIMD | .mulConstSIMD | .addSIMD | .subSIMD | .addConstSIMD | .flip | .eqz | .bit2A
  | .setConstVecSIMD | .columnSumsToNodes => true
  | _ => false

end Gate

-- the overrides of a subclass do nothing to the circuit but to call operations of the library, and
-- they return values that they were given or that operations returned
structure Algorithm.Lawful (alg : Algorithm) : Prop where
  initNodes : ∀ c column, Built c → LibraryCalls c (alg.initNodes column c).2 ∧
    ∀ w ∈ (alg.initNodes column c).1, Handle (alg.initNodes column c).2.gates w
  prepare : ∀ c state i column, Built c → Handle c.gates state →
    LibraryCalls c (alg.prepare state i column c).2 ∧
      Handle (alg.prepare state i column c).2.gates (alg.prepare state i column c).1
  apply : ∀ c state update i column, Built c → Handle c.gates state → Handle c.gates update →
    LibraryCalls c (alg.apply state update i column c).2 ∧
      Handle (alg.apply state update i column c).2.gates (alg.apply state update i column c).1
  postMp : ∀ c state column, Built c → Handle c.gates state →
    LibraryCalls c (alg.postMp state column c).2 ∧
      Handle (alg.postMp state column c).2.gates (alg.postMp state column c).1
  postMpAggregate : ∀ c states, Built c → states ≠ [] → (∀ w ∈ states, Handle c.gates w) →
    LibraryCalls c (alg.postMpAggregate states c).2 ∧
      (∀ w ∈ (alg.postMpAggregate states c).1.1,
        Handle (alg.postMpAggregate states c).2.gates w) ∧
      (alg.postMpAggregate states c).1.2.length = states.length ∧
      ∀ w ∈ (alg.postMpAggregate states c).1.2,
        Handle (alg.postMpAggregate states c).2.gates w

section library

variable {c c' : Circuit}

theorem single_grows (hb : Built c) {f : Gate}
    (hf : Admissible c.nodes c.nMults c.nWires (Wire c.gates) f) (hw : c'.nWires = c.nWires + 1)
    (hm : c'.nMults = if f.takesTriple then c.nMults + 1 else c.nMults)
    (hg : c'.gates = c.gates ++ [f]) (hp : c'.params = c.params) : Grows c c' [f] := by
  refine Grows.of_block hb ⟨hf, trivial⟩ hw ?_ hg hp
  rw [hm, List.countP_singleton]
  split <;> rfl

theorem columnSums_reads {nodes : ℕ} {f : Gate} (ht : f.type = .columnSumsToNodes) {r : ℕ}
    (hr : r ∈ f.reads nodes) : r ∈ f.dataParallel := by
  rw [Gate.reads, ht] at hr
  exact List.mem_of_mem_take hr

theorem LibraryCall.grows (hb : Built c) (h : LibraryCall c c') :
    ∃ l, Grows c c' l ∧ c'.context = c.context ∧ ∀ f ∈ l, f.isOperation = true := by
  have hw := hb.wires
  have hne : c.gates ≠ [] := List.length_pos_iff.mp (hw ▸ hb.pos)
  cases h with
  | multiply hx hy =>
    refine ⟨_, single_grows hb ?_ rfl rfl rfl rfl, rfl, by simp [Gate.isOperation]⟩
    simp [admissible_iff, Gate.reads, Gate.Handled, Gate.binaryOperator, Gate.takesTriple, hx.1,
      hy.1, hy.2, hne, hw]
  | multiplyByConstant hx constant =>
    refine ⟨_, single_grows hb ?_ rfl rfl rfl rfl, rfl, by simp [Gate.isOperation]⟩
    simp [admissible_iff, Gate.reads, Gate.Handled, Gate.binaryOperator, Gate.takesTriple, hx.1,
      hne, hw]
  | add hx hy =>
    refine ⟨_, single_grows hb ?_ rfl rfl rfl rfl, rfl, by simp [Gate.isOperation]⟩
    simp [admissible_iff, Gate.reads, Gate.Handled, Gate.binaryOperator, Gate.takesTriple, hx.1,
      hy.1, hy.2, hne, hw]
  | subtract hx hy =>
    refine ⟨_, single_grows hb ?_ rfl rfl rfl rfl, rfl, by simp [Gate.isOperation]⟩
    simp [admissible_iff, Gate.reads, Gate.Handled, Gate.binaryOperator, Gate.takesTriple, hx.1,
      hy.1, hy.2, hne, hw]
  | addConstant hx constant =>
    refine ⟨_, single_grows hb ?_ rfl rfl rfl rfl, rfl, by simp [Gate.isOperation]⟩
    simp [admissible_iff, Gate.reads, Gate.Handled, Gate.binaryOperator, Gate.takesTriple, hx.1,
      hne, hw]
  | flip hx =>
    refine ⟨_, single_grows hb ?_ rfl rfl rfl rfl, rfl, by simp [Gate.isOperation]⟩
    simp [admissible_iff, Gate.reads, Gate.Handled, Gate.binaryOperator, Gate.takesTriple, hx.1,
      hne, hw]
  | clip hx =>
    rw [clipSIMD_run hw]
    refine ⟨_, Grows.of_block hb (clipGates_block hb.pos hx.1) rfl rfl rfl rfl, rfl, ?_⟩
    simp [clipGates, equalsZeroGates, Gate.isOperation]
  | setConstVector vals =>
    refine ⟨_, single_grows hb ?_ rfl rfl rfl rfl, rfl, by simp [Gate.isOperation]⟩
    simp [admissible_iff, Gate.reads, Gate.Handled, Gate.binaryOperator, Gate.takesTriple, hne, hw]
  | columnSumsToNodes hl hx =>
    refine ⟨_, single_grows hb ?_ rfl rfl rfl rfl, rfl, by simp [Gate.isOperation]⟩
    refine ⟨hw.symm, rfl, Or.inr ?_, Or.inl rfl, fun r hr => ?_, by simp [Gate.Handled,
      Gate.binaryOperator], fun h0 => absurd h0 hb.pos.ne', by simp [Gate.takesTriple]⟩
    · refine (hx _ ?_).1
      rw [List.getD_eq_getElem _ _ (Nat.sub_lt (List.length_pos_iff.mpr hl) Nat.one_pos)]
      exact List.getElem_mem _
    · exact (hx r (columnSums_reads rfl hr)).1

theorem LibraryCalls.grows (hb : Built c) (h : LibraryCalls c c') :
    ∃ l, Grows c c' l ∧ c'.context = c.context ∧ ∀ f ∈ l, f.isOperation = true := by
  induction h with
  | refl => exact ⟨[], Grows.refl hb, rfl, by simp⟩
  | tail _ hstep ih =>
    obtain ⟨l, hg, hc, hl⟩ := ih
    obtain ⟨l', hg', hc', hl'⟩ := hstep.grows hg.built
    refine ⟨l ++ l', hg.trans hg', hc'.trans hc, fun f hf => ?_⟩
    rcases List.mem_append.mp hf with hf | hf
    · exact hl f hf
    · exact hl' f hf

end library

end GraphMpc
