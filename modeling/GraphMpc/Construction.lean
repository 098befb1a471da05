import GraphMpc.Builds

namespace GraphMpc

open Circuit

section levels

variable {nodes : ℕ} {G : List Gate} (h : WellFormed nodes G)

def level (G : List Gate) (w : ℕ) : ℕ := (levels G).wireLevel w

include h

theorem level_out {f : Gate} (hf : f ∈ G) (ho : f.type ≠ .output) :
    level G f.outIdx = max (level G f.in1Idx) (level G f.in2Idx) + f.delay :=
  (functionLevel_eq h hf ho).2.1

theorem level_zero : level G 0 = 0 := by
  induction G using List.reverseRecOn with
  | nil => rfl
  | append_singleton G f ih =>
    rw [level, levels_snoc]
    by_cases ho : f.type = .output
    · rw [levelStep, if_pos ho]
      exact ih h.of_append
    · rw [levelStep_wireLevel ho]
      split
      · rename_i he
        have hw := h.last
        have hk : G.length = 0 := hw.outIdx.symm.trans he.symm
        have hd : f.delay = 0 := by simp [Gate.delay, Gate.interactive, hw.first hk]
        rw [hd, List.length_eq_zero_iff.mp hk]
        rfl
      · exact ih h.of_append

theorem level_unary {f : Gate} (hf : f ∈ G) (ho : f.type ≠ .output) (h2 : f.in2Idx = 0) :
    level G f.outIdx = level G f.in1Idx + f.delay := by
  rw [level_out h hf ho, h2, level_zero h, Nat.max_zero]

end levels

section sorting

def ShuffledBefore (G : List Gate) (idx w : ℕ) : Prop :=
  ∃ g ∈ G, g.type = .shuffle ∧ g.shuffleIdx = idx ∧ level G g.outIdx < level G w

structure Sorting (G : List Gate) (hi : ℕ) (f : Gate) : Prop where
  shuffle : f.type = .shuffle → f.shuffleIdx < hi
  unshuffle : f.type = .unshuffle → ShuffledBefore G f.shuffleIdx f.outIdx
  merged : f.type ≠ .mergedShuffle
  output : f.type ≠ .output

theorem Sorting.mono {G : List Gate} {hi hi' : ℕ} {f : Gate} (hf : Sorting G hi f)
    (h : hi ≤ hi') : Sorting G hi' f :=
  ⟨fun ht => (hf.shuffle ht).trans_le h, hf.unshuffle, hf.merged, hf.output⟩

theorem Sorting.plain {G : List Gate} {hi : ℕ} {f : Gate} (h1 : f.type ≠ .shuffle)
    (h2 : f.type ≠ .unshuffle) (h3 : f.type ≠ .mergedShuffle) (h4 : f.type ≠ .output) :
    Sorting G hi f :=
  ⟨fun h => absurd h h1, fun h => absurd h h2, h3, h4⟩

inductive SortChain (G : List Gate) : ℕ → List ℕ → ℕ → Prop where
  | nil (perm : ℕ) : SortChain G perm [] perm
  | cons {k m idx perm key out : ℕ} {keys : List ℕ} (hs : sortGates k m idx perm key ⊆ G)
      (hc : SortChain G (k + 6) keys out) : SortChain G perm (key :: keys) out

def compactionGate (k m x : ℕ) : Gate :=
  { type := .compaction, gId := k, in1Idx := x, outIdx := k, shuffleIdx := m, multIdx := m }

def SortOf (G : List Gate) (key : ℕ) (keys : List ℕ) (out : ℕ) : Prop :=
  ∃ k m, compactionGate k m key ∈ G ∧ SortChain G k keys out

variable {nodes : ℕ} {G : List Gate} (h : WellFormed nodes G)

include h

theorem sortGates_level {k m idx perm key : ℕ} (hs : sortGates k m idx perm key ⊆ G) :
    level G k = level G perm + 1 ∧
      level G (k + 6) = max (level G perm + 4) (level G key + 3) := by
  simp only [sortGates, List.cons_subset] at hs
  obtain ⟨h0, h1, h2, h3, h4, h5, h6, -⟩ := hs
  have l0 := level_unary h h0 (by simp) rfl
  have l1 := level_unary h h1 (by simp) rfl
  have l2 := level_unary h h2 (by simp) rfl
  have l3 := level_out h h3 (by simp)
  have l4 := level_unary h h4 (by simp) rfl
  have l5 := level_out h h5 (by simp)
  have l6 := level_unary h h6 (by simp) rfl
  simp only [Gate.delay, Gate.interactive, if_true, Bool.false_eq_true, if_false] at *
  omega

theorem sortGates_sorting {k m idx perm key : ℕ} (hs : sortGates k m idx perm key ⊆ G) :
    ∀ f ∈ sortGates k m idx perm key, Sorting G (idx + 1) f := by
  obtain ⟨hk, hout⟩ := sortGates_level h hs
  have hbefore : ShuffledBefore G idx (k + 6) := by
    refine ⟨_, hs (List.mem_cons_self ..), rfl, rfl, ?_⟩
    show level G k < level G (k + 6)
    omega
  simp only [sortGates, List.forall_mem_cons]
  and_intros
  all_goals try constructor
  all_goals simp [hbefore]

theorem SortChain.level_of {perm out : ℕ} {keys : List ℕ} (hc : SortChain G perm keys out)
    (hk : ∀ x ∈ keys, level G x = 0) : level G out = level G perm + 4 * keys.length := by
  induction hc with
  | nil => rfl
  | cons hs _ ih =>
    have hl := (sortGates_level h hs).2
    have hkey := hk _ (List.mem_cons_self ..)
    rw [ih fun x hx => hk x (List.mem_cons_of_mem _ hx), List.length_cons]
    omega

theorem duplicateGates_level {k m idx size perm src dst : ℕ}
    (hs : duplicateGates k m idx size perm src dst ⊆ G) :
    level G k = level G perm + 1 ∧ level G perm + 3 ≤ level G (k + 22) := by
  simp only [duplicateGates, equalsZeroGates, List.cons_append, List.nil_append, List.cons_subset]
    at hs
  obtain ⟨h0, h1, -, -, -, -, -, -, -, -, -, -, -, -, -, -, -, -, -, -, -, h21, h22, -⟩ := hs
  have l0 := level_unary h h0 (by simp) rfl
  have l1 := level_unary h h1 (by simp) rfl
  have l21 := level_out h h21 (by simp)
  have l22 := level_unary h h22 (by simp) rfl
  simp only [Gate.delay, Gate.interactive, if_true, Bool.false_eq_true, if_false] at *
  omega

theorem duplicateGates_sorting {k m idx size perm src dst : ℕ}
    (hs : duplicateGates k m idx size perm src dst ⊆ G) :
    ∀ f ∈ duplicateGates k m idx size perm src dst, Sorting G (idx + 1) f := by
  obtain ⟨hk, hout⟩ := duplicateGates_level h hs
  have hbefore : ShuffledBefore G idx (k + 22) := by
    refine ⟨_, hs (List.mem_cons_self ..), rfl, rfl, ?_⟩
    show level G k < level G (k + 22)
    omega
  simp only [duplicateGates, equalsZeroGates, List.cons_append, List.nil_append,
    List.forall_mem_cons]
  and_intros
  all_goals try constructor
  all_goals simp [hbefore]

theorem SortOf.level_of {key out : ℕ} {keys : List ℕ} (hs : SortOf G key keys out)
    (hk : ∀ x ∈ key :: keys, level G x = 0) : level G out = 4 * keys.length + 1 := by
  obtain ⟨k, m, hc, hchain⟩ := hs
  have hl := level_unary h hc (by simp [compactionGate]) rfl
  have h0 := hk key (List.mem_cons_self ..)
  simp only [compactionGate, Gate.delay, Gate.interactive, if_true] at hl
  rw [hchain.level_of h fun x hx => hk x (List.mem_cons_of_mem _ hx), hl, h0]
  omega

end sorting

section sortBuild

variable {c : Circuit}

theorem sortIteration_grows {perm key : ℕ} (hb : Built c) (hp : Wire c.gates perm)
    (hk : Wire c.gates key) :
    Grows c (sortIteration perm key c).2 (sortGates c.nWires c.nMults c.shuffleIdx perm key) ∧
      (sortIteration perm key c).2.context = (c.ctx, c.inp, c.shuffleIdx + 1) ∧
      (sortIteration perm key c).1 = c.nWires + 6 ∧
      Wire (sortIteration perm key c).2.gates (c.nWires + 6) := by
  have hg : Grows c (sortIteration perm key c).2
      (sortGates c.nWires c.nMults c.shuffleIdx perm key) := by
    rw [sortIteration_run hb.wires]
    exact Grows.of_block hb (sortGates_block hb.pos hp hk) rfl rfl rfl rfl
  refine ⟨hg, ?_, ?_, hg.wire_new (by simp [Wire, sortGates])⟩
  · rw [sortIteration_run hb.wires]
    rfl
  · rw [sortIteration_run hb.wires]

theorem iterations_spec (f : ℕ → ℕ) (l : List ℕ) {perm : ℕ} (hb : Built c)
    (hp : Wire c.gates perm) (hk : ∀ i ∈ l, Wire c.gates (f i)) :
    ∃ L, Grows c ((l.foldlM (fun p i => sortIteration p (f i)) perm) c).2 L ∧
      ((l.foldlM (fun p i => sortIteration p (f i)) perm) c).2.context =
        (c.ctx, c.inp, c.shuffleIdx + l.length) ∧
      Wire ((l.foldlM (fun p i => sortIteration p (f i)) perm) c).2.gates
        ((l.foldlM (fun p i => sortIteration p (f i)) perm) c).1 ∧
      ∀ G, WellFormed c.nodes G → L ⊆ G →
        SortChain G perm (l.map f) ((l.foldlM (fun p i => sortIteration p (f i)) perm) c).1 ∧
          ∀ x ∈ L, Sorting G (c.shuffleIdx + l.length) x := by
  induction l generalizing c perm with
  | nil => exact ⟨[], Grows.refl hb, rfl, hp, fun G _ _ => ⟨.nil perm, by simp⟩⟩
  | cons i l ih =>
    obtain ⟨hg, hctx, hout, hw⟩ := sortIteration_grows hb hp (hk i (List.mem_cons_self ..))
    rw [foldlM_cons_run]
    rw [← hout] at hw
    obtain ⟨L, hL, hctx', hw', hG⟩ := ih hg.built hw
      fun j hj => hg.wire (hk j (List.mem_cons_of_mem _ hj))
    obtain ⟨h1, h2, h3⟩ : (sortIteration perm (f i) c).2.ctx = c.ctx ∧
        (sortIteration perm (f i) c).2.inp = c.inp ∧
        (sortIteration perm (f i) c).2.shuffleIdx = c.shuffleIdx + 1 := by
      simpa [context] using hctx
    refine ⟨_, hg.trans hL, ?_, hw', fun G hwf hsub => ?_⟩
    · rw [hctx', h1, h2, h3, List.length_cons, Nat.add_assoc, Nat.add_comm 1]
    · obtain ⟨hs, hs'⟩ := List.append_subset.mp hsub
      obtain ⟨hchain, hsort⟩ := hG G (by rwa [hg.nodes]) hs'
      refine ⟨?_, fun x hx => ?_⟩
      · rw [hout] at hchain ⊢
        exact .cons hs hchain
      · rw [List.length_cons]
        rcases List.mem_append.mp hx with hx | hx
        · exact (sortGates_sorting hwf hs x hx).mono (by omega)
        · exact (hsort x hx).mono (by omega)

theorem keys_map (key : ℕ) (keys : List ℕ) :
    (List.range' 1 keys.length).map (fun i => (key :: keys).getD i 0) = keys := by
  refine List.ext_getElem (by simp) fun i h1 h2 => ?_
  rw [List.getElem_map, List.getElem_range', Nat.one_mul, Nat.add_comm, List.getD_cons_succ,
    List.getD_eq_getElem]

theorem sort_spec {key : ℕ} {keys : List ℕ} (hb : Built c)
    (hk : ∀ x ∈ key :: keys, Wire c.gates x) :
    ∃ L, Grows c (sort (key :: keys) (keys.length + 1) c).2 L ∧
      (sort (key :: keys) (keys.length + 1) c).2.context =
        (c.ctx, c.inp, c.shuffleIdx + keys.length) ∧
      Wire (sort (key :: keys) (keys.length + 1) c).2.gates
        (sort (key :: keys) (keys.length + 1) c).1 ∧
      ∀ G, WellFormed c.nodes G → L ⊆ G →
        SortOf G key keys (sort (key :: keys) (keys.length + 1) c).1 ∧
          ∀ x ∈ L, Sorting G (c.shuffleIdx + keys.length) x := by
  have hne : c.gates ≠ [] := List.length_pos_iff.mp (hb.wires ▸ hb.pos)
  have hrun : sort (key :: keys) (keys.length + 1) c =
      (List.range' 1 keys.length).foldlM (fun p i => sortIteration p ((key :: keys).getD i 0))
        (compaction key c).1 (compaction key c).2 := rfl
  have hkey := hk key (List.mem_cons_self ..)
  have hg : Grows c (compaction key c).2 [compactionGate c.nWires c.nMults key] := by
    have hrun : (compaction key c).2 = { c with
        nWires := c.nWires + 1
        nMults := c.nMults + 1
        gates := c.gates ++ [compactionGate c.nWires c.nMults key] } := by
      simp [compaction, bind_run, map_run, get_run, addGate_run, countMult_run, compactionGate,
        hb.wires]
    rw [hrun]
    refine single_grows hb ?_ rfl rfl rfl rfl
    simp [compactionGate, admissible_iff, Gate.reads, Gate.Handled, Gate.binaryOperator,
      Gate.takesTriple, hkey, hb.pos.ne']
  have hw : Wire (compaction key c).2.gates (compaction key c).1 :=
    hg.wire_new ⟨_, List.mem_singleton_self _, rfl, by simp [compactionGate]⟩
  obtain ⟨L, hL, hctx, hw', hG⟩ := iterations_spec (fun i => (key :: keys).getD i 0)
    (List.range' 1 keys.length) hg.built hw fun i hi => by
      rw [List.mem_range'_1] at hi
      rw [List.getD_eq_getElem _ _ (by simp; omega)]
      exact hg.wire (hk _ (List.getElem_mem _))
  rw [hrun]
  refine ⟨_, hg.trans hL, ?_, hw', fun G hwf hsub => ?_⟩
  · rw [hctx, List.length_range']
    rfl
  · obtain ⟨hc, hs⟩ := List.append_subset.mp hsub
    obtain ⟨hchain, hsort⟩ := hG G (by rwa [hg.nodes]) hs
    rw [keys_map] at hchain
    rw [List.length_range'] at hsort
    refine ⟨⟨_, _, hc (List.mem_singleton_self _), hchain⟩, fun x hx => ?_⟩
    rcases List.mem_append.mp hx with hx | hx
    · rw [List.mem_singleton.mp hx]
      refine .plain ?_ ?_ ?_ ?_ <;> simp [compactionGate]
    · exact hsort x hx

theorem flagDuplicates_grows {inp : Inputs} {size perm : ℕ} (hb : Built c)
    (hp : Wire c.gates perm) (hs : Wire c.gates inp.src) (hd : Wire c.gates inp.dst) :
    Grows c (flagDuplicates size inp perm c).2
        (duplicateGates c.nWires c.nMults c.shuffleIdx size perm inp.src inp.dst) ∧
      (flagDuplicates size inp perm c).2.context = c.context ∧
      (flagDuplicates size inp perm c).1 = c.nWires + 22 ∧
      Wire (flagDuplicates size inp perm c).2.gates (c.nWires + 22) := by
  have hg : Grows c (flagDuplicates size inp perm c).2
      (duplicateGates c.nWires c.nMults c.shuffleIdx size perm inp.src inp.dst) := by
    rw [flagDuplicates_run hb.wires]
    exact Grows.of_block hb (duplicateGates_block hb.pos hp hs hd) rfl rfl rfl rfl
  refine ⟨hg, ?_, ?_, hg.wire_new (by simp [Wire, duplicateGates, equalsZeroGates])⟩
  · rw [flagDuplicates_run hb.wires]
    rfl
  · rw [flagDuplicates_run hb.wires]

end sortBuild

section orders

def flipGate (k x : ℕ) : Gate := { type := .flip, gId := k, in1Idx := x, outIdx := k }

inductive Orders (G : List Gate) (size : ℕ) (inp : Inputs) : Bool → ℕ → ℕ → ℕ → Prop where
  | plain {srcKey dstKey z src dst vtx : ℕ} {srcKeys dstKeys : List ℕ}
      (hsrc : inp.srcOrderBits = srcKey :: srcKeys) (hdst : inp.dstOrderBits = dstKey :: dstKeys)
      (hs : SortOf G srcKey srcKeys src) (hd : SortOf G dstKey dstKeys dst)
      (hz : flipGate z inp.isV ∈ G) (hv : SortChain G src [z] vtx) :
      Orders G size inp false src dst vtx
  | deduplicated {srcKey dstKey first perm k m idx z src dst vtx : ℕ} {srcKeys dstKeys : List ℕ}
      (hsrc : inp.srcOrderBits = srcKey :: srcKeys) (hdst : inp.dstOrderBits = dstKey :: dstKeys)
      (hf : SortOf G dstKey dstKeys first) (hp : SortChain G first srcKeys perm)
      (hm : duplicateGates k m idx size perm inp.src inp.dst ⊆ G)
      (hs : SortOf G srcKey (srcKeys ++ [k + 22]) src) (hd : SortChain G first [k + 22] dst)
      (hz : flipGate z inp.isV ∈ G) (hv : SortChain G src [z] vtx) :
      Orders G size inp true src dst vtx

variable {nodes : ℕ} {G : List Gate} (h : WellFormed nodes G)

theorem SortChain.split {perm key out : ℕ} {keys : List ℕ}
    (hc : SortChain G perm (keys ++ [key]) out) :
    ∃ q, SortChain G perm keys q ∧ SortChain G q [key] out := by
  generalize hl : keys ++ [key] = l at hc
  induction hc generalizing keys with
  | nil => simp at hl
  | @cons k m idx perm key' out l hs hc ih =>
    cases keys with
    | nil =>
      simp only [List.nil_append, List.cons.injEq] at hl
      obtain ⟨rfl, rfl⟩ := hl
      exact ⟨_, .nil _, .cons hs hc⟩
    | cons a keys =>
      simp only [List.cons_append, List.cons.injEq] at hl
      obtain ⟨rfl, hl⟩ := hl
      obtain ⟨q, h1, h2⟩ := ih hl
      exact ⟨q, .cons hs h1, h2⟩

include h

theorem SortChain.level_one {perm key out : ℕ} (hc : SortChain G perm [key] out) :
    level G out = max (level G perm + 4) (level G key + 3) := by
  cases hc with
  | cons hs hc =>
    cases hc
    exact (sortGates_level h hs).2

theorem Orders.level_lt {size src dst vtx : ℕ} {inp : Inputs} {dedup : Bool}
    (ho : Orders G size inp dedup src dst vtx)
    (hlen : inp.srcOrderBits.length = inp.dstOrderBits.length)
    (hsrc : ∀ x ∈ inp.srcOrderBits, level G x = 0) (hdst : ∀ x ∈ inp.dstOrderBits, level G x = 0) :
    level G src < level G vtx ∧ level G dst < level G vtx := by
  cases ho with
  | plain h1 h2 hs hd hz hv =>
    rw [h1] at hsrc hlen
    rw [h2] at hdst hlen
    have ls := hs.level_of h hsrc
    have ld := hd.level_of h hdst
    have lv := hv.level_one h
    simp only [List.length_cons] at hlen
    omega
  | deduplicated h1 h2 hf hp hm hs hd hz hv =>
    rw [h1] at hsrc
    rw [h2] at hdst
    obtain ⟨k', m', hc, hs⟩ := hs
    obtain ⟨q, -, hs⟩ := hs.split
    have lp := hp.level_of h fun x hx => hsrc x (List.mem_cons_of_mem _ hx)
    have lm := (duplicateGates_level h hm).2
    have ls := hs.level_one h
    have ld := hd.level_one h
    have lv := hv.level_one h
    omega

end orders

section ordersBuild

variable {c : Circuit}

structure Keyed (c : Circuit) : Prop where
  built : Built c
  src : ∃ key keys, c.inp.srcOrderBits = key :: keys ∧ keys.length = c.bits
  dst : ∃ key keys, c.inp.dstOrderBits = key :: keys ∧ keys.length = c.bits
  srcBits : ∀ x ∈ c.inp.srcOrderBits, Wire c.gates x
  dstBits : ∀ x ∈ c.inp.dstOrderBits, Wire c.gates x
  srcId : Wire c.gates c.inp.src
  dstId : Wire c.gates c.inp.dst
  isV : Wire c.gates c.inp.isV

theorem flip_grows {x : ℕ} (hb : Built c) (hx : Wire c.gates x) :
    Grows c (flipSIMD x c).2 [flipGate c.nWires x] ∧ (flipSIMD x c).2.context = c.context ∧
      (flipSIMD x c).1 = c.nWires ∧ Wire (flipSIMD x c).2.gates c.nWires := by
  have hrun : flipSIMD x c = (c.nWires, { c with
      nWires := c.nWires + 1
      gates := c.gates ++ [flipGate c.nWires x] }) := by
    rw [flipSIMD, addGate_run, ← hb.wires]
    rfl
  have hg : Grows c (flipSIMD x c).2 [flipGate c.nWires x] := by
    rw [hrun]
    refine single_grows hb ?_ rfl rfl rfl rfl
    simp [flipGate, admissible_iff, Gate.reads, Gate.Handled, Gate.binaryOperator,
      Gate.takesTriple, hx, hb.pos.ne']
  exact ⟨hg, by rw [hrun]; rfl, by rw [hrun],
    hg.wire_new ⟨_, List.mem_singleton_self _, rfl, by simp [flipGate]⟩⟩

structure OrdersSpec (c c' : Circuit) (L : List Gate) : Prop where
  grows : Grows c c' L
  isV : c'.inp.isV = c.inp.isV
  data : c'.inp.data = c.inp.data
  dataParallel : c'.inp.dataParallel = c.inp.dataParallel
  vtx : Wire c'.gates c'.ctx.vtxOrder
  src : Wire c'.gates c'.ctx.srcOrder
  dst : Wire c'.gates c'.ctx.dstOrder
  computed : ∀ G, WellFormed c.nodes G → L ⊆ G →
    Orders G c.size c.inp c.deduplication c'.ctx.srcOrder c'.ctx.dstOrder c'.ctx.vtxOrder ∧
      ∀ x ∈ L, Sorting G c'.shuffleIdx x

theorem context_eq (c' : Circuit) {ctx : MPContext} {inp : Inputs} {idx : ℕ}
    (h : c'.context = (ctx, inp, idx)) : c'.ctx = ctx ∧ c'.inp = inp ∧ c'.shuffleIdx = idx := by
  simpa [context] using h

theorem orders_plain (hk : Keyed c) (hd : c.deduplication = false) :
    ∃ L, OrdersSpec c (computeSorts (preMp c).2).2 L := by
  obtain ⟨srcKey, srcKeys, hsrc, hsl⟩ := hk.src
  obtain ⟨dstKey, dstKeys, hdst, hdl⟩ := hk.dst
  have hrun : (computeSorts (preMp c).2).2 = ((do
      let src ← sort (srcKey :: srcKeys) (srcKeys.length + 1)
      let dst ← sort (dstKey :: dstKeys) (dstKeys.length + 1)
      let z ← flipSIMD c.inp.isV
      let vtx ← sortIteration src z
      modify fun c => { c with ctx := { c.ctx with
        srcOrder := src, dstOrder := dst, vtxOrder := vtx } } : Build Unit) c).2 := by
    rw [preMp_false hd, hsl, hdl, ← hsrc, ← hdst]
    simp only [computeSorts, bind_run, get_run, hd]
    rfl
  rw [hrun]
  simp only [bind_run, modify_run]
  obtain ⟨L1, g1, x1, w1, G1⟩ := sort_spec hk.built (hsrc ▸ hk.srcBits)
  generalize sort (srcKey :: srcKeys) (srcKeys.length + 1) c = r1 at *
  obtain ⟨L2, g2, x2, w2, G2⟩ := sort_spec g1.built fun x hx => g1.wire (hk.dstBits x (hdst ▸ hx))
  generalize sort (dstKey :: dstKeys) (dstKeys.length + 1) r1.2 = r2 at *
  obtain ⟨g3, x3, hz, w3⟩ := flip_grows g2.built (g2.wire (g1.wire hk.isV))
  generalize flipSIMD c.inp.isV r2.2 = r3 at *
  obtain ⟨g4, x4, hv, w4⟩ := sortIteration_grows g3.built (g3.wire (g2.wire w1)) (hz ▸ w3)
  generalize sortIteration r1.1 r3.1 r3.2 = r4 at *
  obtain ⟨-, i1, s1⟩ := context_eq _ x1
  obtain ⟨-, i2, s2⟩ := context_eq _ x2
  obtain ⟨-, i3, s3⟩ := context_eq _ x3
  obtain ⟨-, i4, s4⟩ := context_eq _ x4
  have hg := ((g1.trans g2).trans g3).trans g4
  have hinp : r4.2.inp = c.inp := i4.trans (i3.trans (i2.trans i1))
  refine ⟨_, ⟨⟨hg.built.wires, hg.built.laid, hg.built.pos⟩, hg.gates, hg.params⟩,
    congrArg Inputs.isV hinp, congrArg Inputs.data hinp, congrArg Inputs.dataParallel hinp,
    hv ▸ w4, g4.wire (g3.wire (g2.wire w1)), g4.wire (g3.wire w2), fun G hwf hsub => ?_⟩
  simp only [List.append_subset] at hsub
  obtain ⟨⟨⟨h1, h2⟩, h3⟩, h4⟩ := hsub
  obtain ⟨hs, hL1⟩ := G1 G hwf h1
  obtain ⟨hd', hL2⟩ := G2 G (by rwa [g1.nodes]) h2
  constructor
  · rw [hd]
    refine .plain hsrc hdst hs hd' (h3 (List.mem_singleton_self _)) ?_
    show SortChain G r1.1 [r2.2.nWires] r4.1
    rw [hz] at h4
    rw [hv]
    exact .cons h4 (.nil _)
  · intro x hx
    show Sorting G r4.2.shuffleIdx x
    simp only [List.mem_append] at hx
    rcases hx with ((hx | hx) | hx) | hx
    · exact (hL1 x hx).mono (by omega)
    · exact (hL2 x hx).mono (by omega)
    · rw [List.mem_singleton.mp hx]
      refine .plain ?_ ?_ ?_ ?_ <;> simp [flipGate]
    · exact (sortGates_sorting hwf h4 x hx).mono (by omega)

theorem Grows.with_context {c' : Circuit} {l : List Gate} (h : Grows c c' l) (ctx : MPContext)
    (inp : Inputs) (idx : ℕ) : Grows c { c' with ctx := ctx, inp := inp, shuffleIdx := idx } l :=
  ⟨⟨h.built.wires, h.built.laid, h.built.pos⟩, h.gates, h.params⟩

theorem preMp_spec {srcKey dstKey : ℕ} {srcKeys dstKeys : List ℕ} (hk : Keyed c)
    (hd : c.deduplication = true) (hsrc : c.inp.srcOrderBits = srcKey :: srcKeys)
    (hsl : srcKeys.length = c.bits) (hdst : c.inp.dstOrderBits = dstKey :: dstKeys)
    (hdl : dstKeys.length = c.bits) :
    ∃ L msbs, Grows c (preMp c).2 L ∧ Wire (preMp c).2.gates (preMp c).2.ctx.dstOrder ∧
      Wire (preMp c).2.gates msbs ∧
      (preMp c).2.inp = { c.inp with
        srcOrderBits := c.inp.srcOrderBits ++ [msbs]
        dstOrderBits := c.inp.dstOrderBits ++ [msbs] } ∧
      ∀ G, WellFormed c.nodes G → L ⊆ G →
        SortOf G dstKey dstKeys (preMp c).2.ctx.dstOrder ∧
        (∃ perm k m idx, SortChain G (preMp c).2.ctx.dstOrder srcKeys perm ∧
          duplicateGates k m idx c.size perm c.inp.src c.inp.dst ⊆ G ∧ msbs = k + 22) ∧
        ∀ x ∈ L, Sorting G (preMp c).2.shuffleIdx x := by
  have hrun : (preMp c).2 = ((do
      let first ← sort (dstKey :: dstKeys) (dstKeys.length + 1)
      modify fun c => { c with ctx := { c.ctx with dstOrder := first } }
      let perm ← (List.range' 1 srcKeys.length).foldlM
        (fun perm i => sortIteration perm ((srcKey :: srcKeys).getD i 0)) first
      let msbs ← flagDuplicates c.size c.inp perm
      modify fun c => { c with inp := { c.inp with
        srcOrderBits := c.inp.srcOrderBits ++ [msbs],
        dstOrderBits := c.inp.dstOrderBits ++ [msbs] } }
      bumpShuffleIdx 1 : Build Unit) c).2 := by
    rw [preMp_true hd, hsl, hdl, ← hdst, ← hsrc]
  rw [hrun]
  simp only [bind_run, modify_run, bumpShuffleIdx_run]
  obtain ⟨L1, g1, x1, w1, G1⟩ := sort_spec hk.built (hdst ▸ hk.dstBits)
  generalize sort (dstKey :: dstKeys) (dstKeys.length + 1) c = r1 at *
  have g1' := g1.with_context { r1.2.ctx with dstOrder := r1.1 } r1.2.inp r1.2.shuffleIdx
  obtain ⟨L2, g2, x2, w2, G2⟩ := iterations_spec (fun i => (srcKey :: srcKeys).getD i 0)
    (List.range' 1 srcKeys.length) g1'.built w1 fun i hi => by
      rw [List.mem_range'_1] at hi
      rw [List.getD_eq_getElem _ _ (by simp; omega)]
      exact g1'.wire (hk.srcBits _ (by rw [hsrc]; exact List.getElem_mem _))
  generalize (List.range' 1 srcKeys.length).foldlM
    (fun perm i => sortIteration perm ((srcKey :: srcKeys).getD i 0)) r1.1 _ = r2 at *
  obtain ⟨g3, x3, hm, w3⟩ := @flagDuplicates_grows _ c.inp c.size _ g2.built w2
    (g2.wire (g1'.wire hk.srcId)) (g2.wire (g1'.wire hk.dstId))
  generalize flagDuplicates c.size c.inp r2.1 r2.2 = r3 at *
  obtain ⟨-, i1, s1⟩ := context_eq _ x1
  obtain ⟨c2, i2, s2⟩ := context_eq _ x2
  obtain ⟨c3, i3, s3⟩ := context_eq _ x3
  have hg := ((g1'.trans g2).trans g3).with_context r3.2.ctx { r3.2.inp with
    srcOrderBits := r3.2.inp.srcOrderBits ++ [r3.1]
    dstOrderBits := r3.2.inp.dstOrderBits ++ [r3.1] } (r3.2.shuffleIdx + 1)
  have hinp : r3.2.inp = c.inp := i3.trans (i2.trans i1)
  have hctx : r3.2.ctx.dstOrder = r1.1 := by rw [c3, c2]
  refine ⟨_, r3.1, hg, ?_, hm ▸ w3, ?_, fun G hwf hsub => ?_⟩
  · show Wire r3.2.gates r3.2.ctx.dstOrder
    rw [hctx]
    exact g3.wire (g2.wire w1)
  · show ({ r3.2.inp with
      srcOrderBits := r3.2.inp.srcOrderBits ++ [r3.1]
      dstOrderBits := r3.2.inp.dstOrderBits ++ [r3.1] } : Inputs) = _
    rw [hinp]
  · simp only [List.append_subset] at hsub
    obtain ⟨⟨h1, h2⟩, h3⟩ := hsub
    obtain ⟨hs, hL1⟩ := G1 G hwf h1
    obtain ⟨hp, hL2⟩ := G2 G (by rwa [g1'.nodes]) h2
    rw [keys_map] at hp
    refine ⟨?_, ⟨_, _, _, _, ?_, h3, hm⟩, fun x hx => ?_⟩
    · show SortOf G dstKey dstKeys r3.2.ctx.dstOrder
      rwa [hctx]
    · show SortChain G r3.2.ctx.dstOrder srcKeys r2.1
      rwa [hctx]
    · show Sorting G (r3.2.shuffleIdx + 1) x
      simp only [List.length_range'] at s2 hL2
      rw [List.mem_append, List.mem_append] at hx
      rcases hx with (hx | hx) | hx
      · exact (hL1 x hx).mono (by omega)
      · exact (hL2 x hx).mono (by omega)
      · exact (duplicateGates_sorting hwf h3 x hx).mono (by omega)

theorem orders_deduplicated (hk : Keyed c) (hd : c.deduplication = true) :
    ∃ L, OrdersSpec c (computeSorts (preMp c).2).2 L := by
  obtain ⟨srcKey, srcKeys, hsrc, hsl⟩ := hk.src
  obtain ⟨dstKey, dstKeys, hdst, hdl⟩ := hk.dst
  obtain ⟨L0, msbs, g0, w0, wm, hinp0, G0⟩ := preMp_spec hk hd hsrc hsl hdst hdl
  generalize preMp c = r0 at *
  have hp := g0.params
  simp only [params, Prod.mk.injEq] at hp
  obtain ⟨-, -, hbits, -, -, -, -, hdedup⟩ := hp
  have hsrc0 : r0.2.inp.srcOrderBits = srcKey :: (srcKeys ++ [msbs]) := by
    rw [hinp0, hsrc, List.cons_append]
  have hlast : r0.2.inp.dstOrderBits.getD (r0.2.inp.dstOrderBits.length - 1) 0 = msbs := by
    rw [hinp0]
    simp [List.getD_eq_getElem?_getD]
  have hrun : (computeSorts r0.2).2 = ((do
      let src ← sort (srcKey :: (srcKeys ++ [msbs])) ((srcKeys ++ [msbs]).length + 1)
      let dst ← sortIteration (← get).ctx.dstOrder msbs
      let z ← flipSIMD c.inp.isV
      let vtx ← sortIteration src z
      modify fun c => { c with ctx := { c.ctx with
        srcOrder := src, dstOrder := dst, vtxOrder := vtx } } : Build Unit) r0.2).2 := by
    have hlen : (srcKeys ++ [msbs]).length + 1 = r0.2.bits + 2 := by
      rw [List.length_append, hsl, hbits]
      rfl
    have hisV : c.inp.isV = r0.2.inp.isV := by rw [hinp0]
    rw [hlen, ← hsrc0, hisV]
    simp only [computeSorts, bind_run, get_run, hdedup, hd, if_true, hlast]
  rw [hrun]
  simp only [bind_run, get_run, modify_run]
  have hw0 : ∀ x ∈ srcKey :: (srcKeys ++ [msbs]), Wire r0.2.gates x := by
    intro x hx
    rw [← List.cons_append, ← hsrc, List.mem_append, List.mem_singleton] at hx
    rcases hx with hx | rfl
    · exact g0.wire (hk.srcBits x hx)
    · exact wm
  obtain ⟨L1, g1, x1, w1, G1⟩ := sort_spec g0.built hw0
  generalize sort (srcKey :: (srcKeys ++ [msbs])) ((srcKeys ++ [msbs]).length + 1) r0.2 = r1 at *
  obtain ⟨c1, i1, s1⟩ := context_eq _ x1
  rw [c1]
  obtain ⟨g2, x2, hv2, w2⟩ := sortIteration_grows g1.built (g1.wire w0) (g1.wire wm)
  generalize sortIteration r0.2.ctx.dstOrder msbs r1.2 = r2 at *
  obtain ⟨g3, x3, hz, w3⟩ := flip_grows g2.built (g2.wire (g1.wire (g0.wire hk.isV)))
  generalize flipSIMD c.inp.isV r2.2 = r3 at *
  obtain ⟨g4, x4, hv, w4⟩ := sortIteration_grows g3.built (g3.wire (g2.wire w1)) (hz ▸ w3)
  generalize sortIteration r1.1 r3.1 r3.2 = r4 at *
  obtain ⟨-, i2, s2⟩ := context_eq _ x2
  obtain ⟨-, i3, s3⟩ := context_eq _ x3
  obtain ⟨-, i4, s4⟩ := context_eq _ x4
  have hg := (((g0.trans g1).trans g2).trans g3).trans g4
  have hinp : r4.2.inp = r0.2.inp := i4.trans (i3.trans (i2.trans i1))
  rw [hinp0] at hinp
  have hisV : r4.2.inp.isV = c.inp.isV := by rw [hinp]
  have hdata : r4.2.inp.data = c.inp.data := by rw [hinp]
  have hcols : r4.2.inp.dataParallel = c.inp.dataParallel := by rw [hinp]
  refine ⟨_, hg.with_context { r4.2.ctx with srcOrder := r1.1, dstOrder := r2.1, vtxOrder := r4.1 }
    r4.2.inp r4.2.shuffleIdx, hisV, hdata, hcols, hv ▸ w4, g4.wire (g3.wire (g2.wire w1)),
    g4.wire (g3.wire (hv2 ▸ w2)), fun G hwf hsub => ?_⟩
  simp only [List.append_subset] at hsub
  obtain ⟨⟨⟨⟨h0, h1⟩, h2⟩, h3⟩, h4⟩ := hsub
  obtain ⟨hf, ⟨perm, k, m, idx, hperm, hdup, rfl⟩, hL0⟩ := G0 G hwf h0
  obtain ⟨hs, hL1⟩ := G1 G (by rwa [g0.nodes]) h1
  constructor
  · rw [hd]
    refine .deduplicated hsrc hdst hf hperm hdup hs ?_ (h3 (List.mem_singleton_self _)) ?_
    · show SortChain G r0.2.ctx.dstOrder [k + 22] r2.1
      rw [hv2]
      exact .cons h2 (.nil _)
    · show SortChain G r1.1 [r2.2.nWires] r4.1
      rw [hz] at h4
      rw [hv]
      exact .cons h4 (.nil _)
  · intro x hx
    show Sorting G r4.2.shuffleIdx x
    simp only [List.mem_append] at hx
    rcases hx with (((hx | hx) | hx) | hx) | hx
    · exact (hL0 x hx).mono (by omega)
    · exact (hL1 x hx).mono (by omega)
    · exact (sortGates_sorting hwf h2 x hx).mono (by omega)
    · rw [List.mem_singleton.mp hx]
      refine .plain ?_ ?_ ?_ ?_ <;> simp [flipGate]
    · exact (sortGates_sorting hwf h4 x hx).mono (by omega)

theorem orders_spec (hk : Keyed c) : ∃ L, OrdersSpec c (computeSorts (preMp c).2).2 L := by
  cases hd : c.deduplication
  · exact orders_plain hk hd
  · exact orders_deduplicated hk hd

end ordersBuild

end GraphMpc
