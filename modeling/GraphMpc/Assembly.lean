import GraphMpc.Construction

namespace GraphMpc

open Circuit

section discipline

def ShufflesKnown (G : List Gate) (ctx : MPContext) : Prop :=
  ∀ idx ∈ [ctx.vtxShuffleIdx, ctx.srcShuffleIdx, ctx.dstShuffleIdx], ∀ w,
    level G ctx.clearShuffledVtxOrder ≤ level G w → ShuffledBefore G idx w

structure Disciplined (G : List Gate) (ctx : MPContext) (f : Gate) : Prop where
  shuffle : f.type = .shuffle → f.shuffleIdx ≤ ctx.dstShuffleIdx
  unshuffle : f.type = .unshuffle → ShuffledBefore G f.shuffleIdx f.outIdx
  merged : f.type = .mergedShuffle →
    (f.shuffleIdx, f.piIdx, f.omegaIdx) ∈
        [(ctx.dstShuffleIdx + 1, ctx.vtxShuffleIdx, ctx.srcShuffleIdx),
          (ctx.dstShuffleIdx + 2, ctx.srcShuffleIdx, ctx.dstShuffleIdx),
          (ctx.dstShuffleIdx + 3, ctx.dstShuffleIdx, ctx.vtxShuffleIdx)] ∧
      ShuffledBefore G f.piIdx f.outIdx ∧ ShuffledBefore G f.omegaIdx f.outIdx

theorem Disciplined.plain {G : List Gate} {ctx : MPContext} {f : Gate} (h1 : f.type ≠ .shuffle)
    (h2 : f.type ≠ .unshuffle) (h3 : f.type ≠ .mergedShuffle) : Disciplined G ctx f :=
  ⟨fun h => absurd h h1, fun h => absurd h h2, fun h => absurd h h3⟩

theorem Disciplined.of_sorting {G : List Gate} {ctx : MPContext} {f : Gate} {hi : ℕ}
    (h : Sorting G hi f) (hh : hi ≤ ctx.dstShuffleIdx + 1) : Disciplined G ctx f :=
  ⟨fun ht => Nat.lt_succ_iff.mp ((h.shuffle ht).trans_le hh), h.unshuffle,
    fun ht => absurd ht h.merged⟩

theorem Disciplined.of_operation {G : List Gate} {ctx : MPContext} {f : Gate}
    (h : f.isOperation = true) : Disciplined G ctx f := by
  refine .plain ?_ ?_ ?_ <;> intro ht <;> simp [Gate.isOperation, ht] at h

variable {nodes : ℕ} {G : List Gate} (h : WellFormed nodes G) {ctx : MPContext}

include h

theorem prepareGates_known {k idx : ℕ} {ctx' : MPContext} (hs : prepareGates k idx ctx' ⊆ G)
    (hsrc : level G ctx'.srcOrder < level G ctx'.vtxOrder)
    (hdst : level G ctx'.dstOrder < level G ctx'.vtxOrder)
    (hv : ctx.vtxShuffleIdx = idx) (hs' : ctx.srcShuffleIdx = idx + 1)
    (hd : ctx.dstShuffleIdx = idx + 2) (hc : ctx.clearShuffledVtxOrder = k + 3) :
    ShufflesKnown G ctx := by
  simp only [prepareGates, List.cons_subset] at hs
  obtain ⟨h0, h1, h2, h3, -, -, -⟩ := hs
  have l0 := level_unary h h0 (by simp) rfl
  have l1 := level_unary h h1 (by simp) rfl
  have l2 := level_unary h h2 (by simp) rfl
  have l3 := level_unary h h3 (by simp) rfl
  simp only [Gate.delay, Gate.interactive, if_true] at l0 l1 l2 l3
  rw [ShufflesKnown, hv, hs', hd, hc]
  simp only [List.forall_mem_cons]
  refine ⟨fun w hw => ⟨_, h0, rfl, rfl, ?_⟩, fun w hw => ⟨_, h1, rfl, rfl, ?_⟩,
    fun w hw => ⟨_, h2, rfl, rfl, ?_⟩, by simp⟩
  all_goals
    dsimp only
    omega

omit h in
theorem prepareGates_disciplined {k idx : ℕ} {ctx' : MPContext} (hd : ctx.dstShuffleIdx = idx + 2) :
    ∀ f ∈ prepareGates k idx ctx', Disciplined G ctx f := by
  simp only [prepareGates, List.forall_mem_cons]
  and_intros
  all_goals try constructor
  all_goals simp [hd]

omit h in
theorem loadGates_disciplined {k x : ℕ} (hv : ctx.vtxShuffleIdx ≤ ctx.dstShuffleIdx) :
    ∀ f ∈ loadGates k ctx x, Disciplined G ctx f := by
  simp only [loadGates, List.forall_mem_cons]
  and_intros
  all_goals try constructor
  all_goals simp [hv]

theorem routeGates_disciplined {k x : ℕ} (hk : ShufflesKnown G ctx)
    (hs : routeGates k ctx (ctx.dstShuffleIdx + 1) (ctx.dstShuffleIdx + 2)
      (ctx.dstShuffleIdx + 3) x ⊆ G) :
    ∀ f ∈ routeGates k ctx (ctx.dstShuffleIdx + 1) (ctx.dstShuffleIdx + 2)
      (ctx.dstShuffleIdx + 3) x, Disciplined G ctx f := by
  have hlevels : ∀ i ∈ [2, 5, 9, 13],
      level G ctx.clearShuffledVtxOrder ≤ level G (k + i) := by
    simp only [routeGates, List.cons_subset] at hs
    obtain ⟨h0, h1, h2, h3, h4, h5, h6, h7, h8, h9, h10, h11, h12, h13, -⟩ := hs
    have l1 := level_out h h1 (by simp)
    have l2 := level_out h h2 (by simp)
    have l3 := level_out h h3 (by simp)
    have l4 := level_out h h4 (by simp)
    have l5 := level_out h h5 (by simp)
    have l7 := level_out h h7 (by simp)
    have l8 := level_out h h8 (by simp)
    have l9 := level_out h h9 (by simp)
    have l10 := level_out h h10 (by simp)
    have l11 := level_out h h11 (by simp)
    have l12 := level_out h h12 (by simp)
    have l13 := level_out h h13 (by simp)
    simp only [Gate.delay, Gate.interactive, if_true, Bool.false_eq_true, if_false] at *
    simp only [List.forall_mem_cons]
    refine ⟨?_, ?_, ?_, ?_, by simp⟩ <;> omega
  have hknown : ∀ i ∈ [2, 5, 9, 13],
      ∀ idx ∈ [ctx.vtxShuffleIdx, ctx.srcShuffleIdx, ctx.dstShuffleIdx],
        ShuffledBefore G idx (k + i) :=
    fun i hi idx hidx => hk idx hidx _ (hlevels i hi)
  simp only [List.forall_mem_cons] at hknown
  simp only [routeGates, List.forall_mem_cons]
  and_intros
  all_goals try constructor
  all_goals simp [hknown]

theorem outputGates_disciplined {k x nodes' : ℕ} {b : Bool} (hk : ShufflesKnown G ctx)
    (hs : outputGates k nodes' b ctx x ⊆ G) :
    ∀ f ∈ outputGates k nodes' b ctx x, Disciplined G ctx f := by
  cases b
  · simp only [outputGates, Bool.false_eq_true, if_false, List.forall_mem_cons]
    and_intros
    all_goals try constructor
    all_goals simp
  · simp only [outputGates, if_true, List.cons_subset] at hs
    obtain ⟨h0, h1, h2, -⟩ := hs
    have l1 := level_out h h1 (by simp)
    have l2 := level_out h h2 (by simp)
    simp only [Gate.delay, Gate.interactive, if_true, Bool.false_eq_true, if_false] at l1 l2
    have hbefore : ShuffledBefore G ctx.vtxShuffleIdx (k + 2) :=
      hk _ (List.mem_cons_self ..) _ (by omega)
    simp only [outputGates, if_true, List.forall_mem_cons]
    and_intros
    all_goals try constructor
    all_goals simp [hbefore]

end discipline

section columns

variable {c : Circuit} {ctx : MPContext} {alg : Algorithm}

theorem Opened.mono {gates gates' : List Gate} (h : Opened gates ctx) (hs : gates ⊆ gates') :
    Opened gates' ctx where
  vtx := h.vtx.imp fun _ hf => ⟨hs hf.1, hf.2⟩
  src := h.src.imp fun _ hf => ⟨hs hf.1, hf.2⟩
  dst := h.dst.imp fun _ hf => ⟨hs hf.1, hf.2⟩
  vtx_pos := h.vtx_pos
  src_pos := h.src_pos
  dst_pos := h.dst_pos

namespace Grows

variable {c' : Circuit} {L : List Gate}

theorem sub (h : Grows c c' L) : c.gates ⊆ c'.gates := by
  rw [h.gates]
  exact List.subset_append_left ..

theorem handle (h : Grows c c' L) {w : ℕ} (hw : Handle c.gates w) : Handle c'.gates w :=
  ⟨h.wire hw.1, hw.2⟩

end Grows

structure Passes (ctx : MPContext) (c c' : Circuit) (L : List Gate) : Prop where
  grows : Grows c c' L
  context : c'.context = c.context
  disciplined : ∀ G, WellFormed c.nodes G → L ⊆ G → ShufflesKnown G ctx →
    ∀ f ∈ L, Disciplined G ctx f

namespace Passes

theorem refl (h : Built c) : Passes ctx c c [] := ⟨Grows.refl h, rfl, by simp⟩

theorem trans {c' c'' : Circuit} {L L' : List Gate} (h : Passes ctx c c' L)
    (h' : Passes ctx c' c'' L') : Passes ctx c c'' (L ++ L') where
  grows := h.grows.trans h'.grows
  context := h'.context.trans h.context
  disciplined G hwf hs hk f hf := by
    obtain ⟨h1, h2⟩ := List.append_subset.mp hs
    rcases List.mem_append.mp hf with hf | hf
    · exact h.disciplined G hwf h1 hk f hf
    · exact h'.disciplined G (by rwa [h.grows.nodes]) h2 hk f hf

theorem of_calls (ctx : MPContext) {c' : Circuit} (hb : Built c) (h : LibraryCalls c c') :
    ∃ L, Passes ctx c c' L := by
  obtain ⟨L, hg, hc, ho⟩ := h.grows hb
  exact ⟨L, hg, hc, fun G _ _ _ f hf => .of_operation (ho f hf)⟩

end Passes

theorem load_passes {x : ℕ} (hb : Built c) (ho : Opened c.gates ctx) (hx : Wire c.gates x)
    (hv : ctx.vtxShuffleIdx ≤ ctx.dstShuffleIdx) :
    Passes ctx c (load ctx x c).2 (loadGates c.nWires ctx x) ∧
      (load ctx x c).1 = c.nWires + 1 ∧ Handle (load ctx x c).2.gates (load ctx x c).1 := by
  rw [load_run hb.wires]
  have hg : Grows c { c with
      nShuffles := c.nShuffles + 1
      nWires := c.nWires + 2
      gates := c.gates ++ loadGates c.nWires ctx x } (loadGates c.nWires ctx x) :=
    Grows.of_block hb (loadGates_block hb.pos ho hx) rfl rfl rfl rfl
  exact ⟨⟨hg, rfl, fun G _ _ _ => loadGates_disciplined hv⟩, rfl,
    hg.wire_new (by simp [Wire, loadGates]), Nat.succ_ne_zero _⟩

theorem route_passes {x : ℕ} (hb : Built c) (ho : Opened c.gates ctx) (hx : Wire c.gates x) :
    Passes ctx c (route ctx (ctx.dstShuffleIdx + 1) (ctx.dstShuffleIdx + 2)
        (ctx.dstShuffleIdx + 3) x c).2
      (routeGates c.nWires ctx (ctx.dstShuffleIdx + 1) (ctx.dstShuffleIdx + 2)
        (ctx.dstShuffleIdx + 3) x) ∧
      Handle (route ctx (ctx.dstShuffleIdx + 1) (ctx.dstShuffleIdx + 2)
        (ctx.dstShuffleIdx + 3) x c).2.gates (c.nWires + 15) := by
  have hg : Grows c (route ctx (ctx.dstShuffleIdx + 1) (ctx.dstShuffleIdx + 2)
      (ctx.dstShuffleIdx + 3) x c).2 (routeGates c.nWires ctx (ctx.dstShuffleIdx + 1)
        (ctx.dstShuffleIdx + 2) (ctx.dstShuffleIdx + 3) x) :=
    Grows.of_block hb (routeGates_block hb.pos ho hx _ _ _) rfl rfl rfl rfl
  exact ⟨⟨hg, rfl, fun G hwf hs hk => routeGates_disciplined hwf hk hs⟩,
    hg.wire_new (by simp [Wire, routeGates]), Nat.succ_ne_zero _⟩

theorem mpRound_passes (hl : alg.Lawful) {s : ℕ} (i column : ℕ) (hb : Built c) (ho : Opened c.gates ctx)
    (hs : Handle c.gates s) :
    ∃ L, Passes ctx c (mpRound alg ctx (ctx.dstShuffleIdx + 1) (ctx.dstShuffleIdx + 2)
        (ctx.dstShuffleIdx + 3) column s i c).2 L ∧
      Handle (mpRound alg ctx (ctx.dstShuffleIdx + 1) (ctx.dstShuffleIdx + 2)
        (ctx.dstShuffleIdx + 3) column s i c).2.gates
        (mpRound alg ctx (ctx.dstShuffleIdx + 1) (ctx.dstShuffleIdx + 2)
          (ctx.dstShuffleIdx + 3) column s i c).1 := by
  obtain ⟨hcalls, hm⟩ := hl.prepare c s i column hb hs
  obtain ⟨L1, p1⟩ := Passes.of_calls ctx hb hcalls
  rw [mpRound_run alg ctx _ _ _ column s i p1.grows.built.wires]
  simp only [bind_run]
  generalize alg.prepare s i column c = r1 at *
  obtain ⟨p2, hu⟩ := route_passes p1.grows.built (ho.mono p1.grows.sub) hm.1
  have hu' : (route ctx (ctx.dstShuffleIdx + 1) (ctx.dstShuffleIdx + 2) (ctx.dstShuffleIdx + 3)
      r1.1 r1.2).1 = r1.2.nWires + 15 := rfl
  rw [hu']
  generalize route ctx (ctx.dstShuffleIdx + 1) (ctx.dstShuffleIdx + 2) (ctx.dstShuffleIdx + 3)
    r1.1 r1.2 = r2 at *
  obtain ⟨hcalls, hw⟩ := hl.apply r2.2 s _ i column p2.grows.built
    (p2.grows.handle (p1.grows.handle hs)) hu
  obtain ⟨L3, p3⟩ := Passes.of_calls ctx p2.grows.built hcalls
  exact ⟨_, (p1.trans p2).trans p3, hw⟩

theorem rounds_passes (hl : alg.Lawful) {s : ℕ} (column : ℕ) (l : List ℕ) (hb : Built c)
    (ho : Opened c.gates ctx) (hs : Handle c.gates s) :
    ∃ L, Passes ctx c (l.foldlM (mpRound alg ctx (ctx.dstShuffleIdx + 1) (ctx.dstShuffleIdx + 2)
        (ctx.dstShuffleIdx + 3) column) s c).2 L ∧
      Handle (l.foldlM (mpRound alg ctx (ctx.dstShuffleIdx + 1) (ctx.dstShuffleIdx + 2)
        (ctx.dstShuffleIdx + 3) column) s c).2.gates
        (l.foldlM (mpRound alg ctx (ctx.dstShuffleIdx + 1) (ctx.dstShuffleIdx + 2)
          (ctx.dstShuffleIdx + 3) column) s c).1 := by
  induction l generalizing c s with
  | nil => exact ⟨[], Passes.refl hb, hs⟩
  | cons i l ih =>
    obtain ⟨L1, p1, h1⟩ := mpRound_passes hl i column hb ho hs
    rw [foldlM_cons_run]
    generalize mpRound alg ctx (ctx.dstShuffleIdx + 1) (ctx.dstShuffleIdx + 2)
      (ctx.dstShuffleIdx + 3) column s i c = r at *
    obtain ⟨L2, p2, h2⟩ := ih p1.grows.built (ho.mono p1.grows.sub) h1
    exact ⟨_, p1.trans p2, h2⟩

structure Passable (c : Circuit) : Prop where
  built : Built c
  opened : Opened c.gates c.ctx
  vtx_le : c.ctx.vtxShuffleIdx ≤ c.ctx.dstShuffleIdx
  idx : c.shuffleIdx = c.ctx.dstShuffleIdx

theorem Passes.passable {c' : Circuit} {L : List Gate} (h : Passes ctx c c' L)
    (hp : Passable c) : Passable c' := by
  obtain ⟨h1, -, h2⟩ := context_eq c' h.context
  refine ⟨h.grows.built, ?_, ?_, ?_⟩
  · rw [h1]
    exact hp.opened.mono h.grows.sub
  · rw [h1]
    exact hp.vtx_le
  · rw [h1, h2]
    exact hp.idx

theorem messagePassing_passes (hl : alg.Lawful) {x : ℕ} (column : ℕ) (hp : Passable c)
    (hx : Wire c.gates x) :
    ∃ L, Passes c.ctx c (messagePassing alg x column c).2 L ∧
      Handle (messagePassing alg x column c).2.gates (messagePassing alg x column c).1 := by
  rw [messagePassing_run]
  simp only [bind_run, get_run]
  obtain ⟨p1, -, h1⟩ := load_passes hp.built hp.opened hx hp.vtx_le
  generalize load c.ctx x c = r1 at *
  obtain ⟨hcalls, h2⟩ := hl.initNodes r1.2 column p1.grows.built
  obtain ⟨L2, p2⟩ := Passes.of_calls c.ctx p1.grows.built hcalls
  obtain ⟨-, -, hidx⟩ := context_eq (r1.2) p1.context
  generalize alg.initNodes column r1.2 = r2 at *
  have h3 : Handle r2.2.gates (r2.1.getD r1.1) := by
    cases hv : r2.1 with
    | none => exact p2.grows.handle h1
    | some w => exact h2 w hv
  rw [hidx, hp.idx]
  obtain ⟨L3, p3, h4⟩ := rounds_passes hl column (List.range r2.2.depth)
    p2.grows.built (hp.opened.mono (p1.trans p2).grows.sub) h3
  exact ⟨_, (p1.trans p2).trans p3, h4⟩

theorem mapM_passes (ctx : MPContext) (f : ℕ → Build ℕ) (l : List ℕ) (hb : Built c)
    (hf : ∀ i ∈ l, ∀ c', Built c' → c.gates ⊆ c'.gates → c'.context = c.context →
      ∃ L, Passes ctx c' (f i c').2 L ∧ Handle (f i c').2.gates (f i c').1) :
    ∃ L, Passes ctx c (l.mapM f c).2 L ∧ (l.mapM f c).1.length = l.length ∧
      ∀ w ∈ (l.mapM f c).1, Handle (l.mapM f c).2.gates w := by
  induction l generalizing c with
  | nil => exact ⟨[], Passes.refl hb, rfl, by simp [pure_run]⟩
  | cons i l ih =>
    obtain ⟨L1, p1, h1⟩ := hf i (List.mem_cons_self ..) c hb (List.Subset.refl _) rfl
    rw [mapM_cons_run]
    generalize f i c = r at *
    obtain ⟨L2, p2, hlen, h2⟩ := ih p1.grows.built fun j hj c' hb' hs hc =>
      hf j (List.mem_cons_of_mem _ hj) c' hb' (List.Subset.trans p1.grows.sub hs)
        (hc.trans p1.context)
    refine ⟨_, p1.trans p2, by simpa using hlen, fun w hw => ?_⟩
    rcases List.mem_cons.mp hw with rfl | hw
    · exact p2.grows.handle h1
    · exact h2 w hw

theorem outputData_passes {x : ℕ} (hb : Built c) (ho : Opened c.gates c.ctx)
    (hx : Wire c.gates x) : Passes c.ctx c (outputData x c).2
      (outputGates c.nWires c.nodes c.outputsInInputOrder c.ctx x) := by
  rw [outputData_run hb.wires]
  refine ⟨Grows.of_block hb (outputGates_block hb.pos ho hx _) ?_ ?_ rfl rfl, rfl,
    fun G hwf hs hk => outputGates_disciplined hwf hk hs⟩
  · cases c.outputsInInputOrder <;> rfl
  · cases c.outputsInInputOrder <;> rfl

theorem outputs_passes (states : List ℕ) (l : List ℕ) (hb : Built c) (ho : Opened c.gates c.ctx)
    (hx : ∀ i ∈ l, Wire c.gates (states.getD i 0)) :
    ∃ L, Passes c.ctx c (l.forM (fun i => outputData (states.getD i 0)) c).2 L := by
  induction l generalizing c with
  | nil => exact ⟨[], Passes.refl hb⟩
  | cons i l ih =>
    have p1 := outputData_passes hb ho (hx i (List.mem_cons_self ..))
    obtain ⟨hctx, -, -⟩ := context_eq ((outputData (states.getD i 0) c).2) p1.context
    rw [forM_cons_run]
    generalize outputData (states.getD i 0) c = r at *
    obtain ⟨L2, p2⟩ := ih p1.grows.built (by rw [hctx]; exact ho.mono p1.grows.sub)
      fun j hj => p1.grows.wire (hx j (List.mem_cons_of_mem _ hj))
    rw [hctx] at p2
    exact ⟨_, p1.trans p2⟩

end columns

end GraphMpc
