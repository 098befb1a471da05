import GraphMpc.Passing

namespace GraphMpc

open Circuit GraphMpc.Valuation StableOrder Tabulate

section fresh

variable {c c' : Circuit} {S X : List ℕ} {L : List Gate} {w : ℕ}

def Fresh (c : Circuit) (w : ℕ) : Prop := 0 < w ∧ w < c.nWires ∧ uses c.gates w = 0

theorem fresh_last (hb : Built c) (h : w + 1 = c.nWires) (hw : 0 < w) : Fresh c w := by
  refine ⟨hw, by omega, uses_eq_zero fun f hf hmem => ?_⟩
  obtain ⟨hwired, hlt⟩ := hb.laid.wellFormed.wired_of_mem hf
  have h1 := hwired.in1
  have h2 := hwired.in2
  have hwires := hb.wires
  simp only [Gate.counted, List.mem_cons, List.mem_ite_nil_right, List.not_mem_nil,
    or_false] at hmem
  omega

theorem Fresh.extend (h : Fresh c w) (hb : Built c) (hE : Extends S c c' L) (hS : w ∉ S) :
    Fresh c' w := by
  obtain ⟨hpos, hlt, huses⟩ := h
  refine ⟨hpos, hlt.trans_le (hE.grows.nWires_le hb), ?_⟩
  rw [hE.grows.gates, uses_append, huses, uses_eq_zero fun f hf hmem => ?_]
  rcases hE.uses f hf w hmem with h0 | hs | hle
  · omega
  · exact hS hs
  · omega

theorem clipGates_first (k m x nodes : ℕ) : ∀ f ∈ clipGates k m x nodes, f.type = .eqz →
    f.layer = 0 → f.in1Idx = x := by
  simp [clipGates, equalsZeroGates]

theorem Sealed.clip {m nodes : ℕ} (h : Sealed c X) (hb : Built c) (hw : Fresh c w) (hX : w ∉ X)
    (hE : Extends [w] c c' (clipGates c.nWires m w nodes)) : Sealed c' (w :: X) := by
  have hold : ∀ x ∈ X, x ∉ [w] := fun x hx hmem => hX (List.mem_singleton.mp hmem ▸ hx)
  have hle := hE.grows.nWires_le hb
  refine ⟨fun x hx => ?_, fun x hx => ?_, fun f hf ht h0 => ?_⟩
  · rcases List.mem_cons.mp hx with rfl | hx
    · exact ⟨hw.1, hw.2.1.trans_le hle⟩
    · exact ⟨(h.once_extend hb hE hold hx).1, (h.once_extend hb hE hold hx).2.1⟩
  · rcases List.mem_cons.mp hx with rfl | hx
    · rw [hE.grows.gates, uses_append, hw.2.2, Nat.zero_add, clipGates, uses_append,
        equalsZeroGates_uses _ _ _ _ hw.2.1, if_pos rfl, uses_eq_zero]
      simp only [List.forall_mem_cons, Gate.counted]
      have hlt := hw.2.1
      refine ⟨?_, ?_, by simp⟩
      all_goals
        simp
        omega
    · exact (h.once_extend hb hE hold hx).2.2
  · rw [hE.grows.gates] at hf
    rcases List.mem_append.mp hf with hf | hf
    · exact List.mem_cons_of_mem _ (h.first f hf ht h0)
    · exact clipGates_first _ _ _ _ f hf ht h0 ▸ List.mem_cons_self ..

end fresh

section clips

variable {arity : ℕ}

structure Program.Clips (p : Program) : Prop where
  initNodes : ∀ column, ∀ b ∈ p.initNodes column, ∃ op h, op.isClip = false ∧ b = .single op h
  apply : ∀ i column, ∃ op h, op.isClip = false ∧ p.apply i column = .single op h
  postMp : ∀ column, p.postMp column = .single (.clip 0) rfl

theorem single_last {c : Circuit} (op : Op) (h : inScope arity [op] = true)
    (hop : op.isClip = false) {args : List ℕ} (hlen : args.length = arity) :
    ((Body.single op h).exec args c).1 + 1 = ((Body.single op h).exec args c).2.nWires := by
  subst hlen
  cases op with
  | clip x => simp [Op.isClip] at hop
  | multiply x y => simp [Body.exec, Body.single, Op.exec, bind_run, map_run, pure_run, multiply,
      get_run, mulSIMD, addGate_run, countMult_run]
  | _ => simp [Body.exec, Body.single, Op.exec, bind_run, map_run, pure_run, addGate_run,
      mulConstSIMD, addSIMD, subSIMD, addConstSIMD, flipSIMD, setConstVecSIMD]

theorem round_last {p : Program} (hc : p.Clips) {c : Circuit} {ctx : MPContext} (hb : Built c)
    {s : ℕ} (hs : Handle c.gates s) (i column i1 i2 i3 : ℕ) :
    (mpRound p.algorithm ctx i1 i2 i3 column s i c).1 + 1 =
      (mpRound p.algorithm ctx i1 i2 i3 column s i c).2.nWires := by
  obtain ⟨hcalls, -⟩ := p.algorithm_lawful.prepare c s i column hb hs
  obtain ⟨L, hg, -⟩ := hcalls.grows hb
  rw [mpRound_run p.algorithm ctx i1 i2 i3 column s i hg.built.wires]
  obtain ⟨op, h, hop, he⟩ := hc.apply i column
  simp only [bind_run, Program.algorithm, he]
  exact single_last op h hop rfl

theorem rounds_last {p : Program} (hc : p.Clips) {ctx : MPContext} (column : ℕ) (l : List ℕ)
    {c : Circuit} (hb : Built c) (ho : Opened c.gates ctx) {s : ℕ} (hs : Handle c.gates s)
    (hl : s + 1 = c.nWires) :
    (l.foldlM (mpRound p.algorithm ctx (ctx.dstShuffleIdx + 1) (ctx.dstShuffleIdx + 2)
        (ctx.dstShuffleIdx + 3) column) s c).1 + 1 =
      (l.foldlM (mpRound p.algorithm ctx (ctx.dstShuffleIdx + 1) (ctx.dstShuffleIdx + 2)
        (ctx.dstShuffleIdx + 3) column) s c).2.nWires := by
  induction l generalizing c s with
  | nil => exact hl
  | cons i l ih =>
    obtain ⟨L, p1, h1⟩ := mpRound_passes p.algorithm_lawful i column hb ho hs
    rw [foldlM_cons_run]
    exact ih p1.grows.built (ho.mono p1.grows.sub) h1 (round_last hc hb hs i column _ _ _)

theorem messagePassing_last {p : Program} (hc : p.Clips) {c : Circuit} (column : ℕ)
    (hp : Passable c) {x : ℕ} (hx : Wire c.gates x) :
    (messagePassing p.algorithm x column c).1 + 1 =
      (messagePassing p.algorithm x column c).2.nWires := by
  rw [messagePassing_run]
  simp only [bind_run, get_run]
  obtain ⟨p1, hout, h1⟩ := load_passes hp.built hp.opened hx hp.vtx_le
  have hlast : (load c.ctx x c).1 + 1 = (load c.ctx x c).2.nWires := by
    rw [load_run hp.built.wires]
  generalize load c.ctx x c = r1 at *
  obtain ⟨hcalls, h2⟩ := p.algorithm_lawful.initNodes r1.2 column p1.grows.built
  obtain ⟨L2, p2⟩ := Passes.of_calls c.ctx p1.grows.built hcalls
  obtain ⟨-, -, hidx⟩ := context_eq (r1.2) p1.context
  have hlast2 : (p.algorithm.initNodes column r1.2).1.getD r1.1 + 1 =
      (p.algorithm.initNodes column r1.2).2.nWires := by
    simp only [Program.algorithm]
    cases hi : p.initNodes column with
    | none => exact hlast
    | some b =>
      obtain ⟨op, h, hop, rfl⟩ := hc.initNodes column b hi
      simp only [bind_run, pure_run, Option.getD_some]
      exact single_last op h hop rfl
  generalize p.algorithm.initNodes column r1.2 = r2 at *
  have h3 : Handle r2.2.gates (r2.1.getD r1.1) := by
    cases hv : r2.1 with
    | none => exact p2.grows.handle h1
    | some w => exact h2 w hv
  rw [hidx, hp.idx]
  exact rounds_last hc column _ p2.grows.built
    (hp.opened.mono (p1.trans p2).grows.sub) h3 hlast2

end clips

section columns

variable {conf : ProtocolConfig} {c : Circuit}

structure ColumnsDeliver (conf : ProtocolConfig) (p : Program) (data : ℕ → ℕ) (l : List ℕ)
    (c : Circuit) (r : List ℕ × Circuit) (L : List Gate) : Prop where
  adds : Extends (l.map data ++ openedOrders c.ctx) c r.2 L
  quiet : ∀ f ∈ L, f.type ≠ .output ∧ f.type ≠ .columnSumsToNodes
  plain : p.ClipFree → Plain L
  passable : Passable r.2
  context : r.2.context = c.context
  handles : ∀ w ∈ r.1, Handle r.2.gates w
  new : ∀ w ∈ r.1, c.nWires ≤ w
  length : r.1.length = l.length
  fresh : p.Clips → r.1.Nodup ∧ ∀ w ∈ r.1, Fresh r.2 w
  values : ∀ (V : Valuation conf) (A : Arrangement conf) (x : ℕ → Ring), L ⊆ V.gates →
    Arranged V c.ctx A → (∀ i ∈ l, V.Holds (data i) x) → p.Fits conf.size →
      (∀ f ∈ L, V.Good f) ∧
        List.Forall₂ V.Holds r.1 (l.map fun i => stateValue A p i x)

theorem columns_deliver (hz : conf.nodes ≤ conf.size) (h0 : 0 < conf.depth → 0 < conf.nodes)
    (p : Program) (data : ℕ → ℕ) (l : List ℕ) (hp : Passable c) (hn : c.nodes = conf.nodes)
    (hd : c.depth = conf.depth) (hx : ∀ i ∈ l, Wire c.gates (data i)) :
    ∃ L, ColumnsDeliver conf p data l c
      (l.mapM (fun i => messagePassing p.algorithm (data i) i) c) L := by
  induction l generalizing c with
  | nil =>
    exact ⟨[], .refl _ hp.built, by simp, fun _ => by simp [Plain], hp, rfl, by simp [pure_run],
      by simp [pure_run], rfl, fun _ => by simp [pure_run], fun _ _ _ _ _ _ _ => ⟨by simp, .nil⟩⟩
  | cons i l ih =>
    have hxi := hx i (List.mem_cons_self ..)
    obtain ⟨L1, e1, hnew⟩ := messagePassing_delivers hz h0 p i hp hn hd hxi
    obtain ⟨L0, p1, h1⟩ := messagePassing_passes p.algorithm_lawful i hp hxi
    have hlast := fun hc => messagePassing_last (p := p) hc i hp hxi
    have hp1 := p1.passable hp
    obtain ⟨hctx, -, -⟩ := context_eq _ p1.context
    rw [mapM_cons_run]
    generalize messagePassing p.algorithm (data i) i c = r at *
    have hd1 : r.2.depth = conf.depth := by
      have hparams := e1.adds.grows.params
      simp only [params, Prod.mk.injEq] at hparams
      exact hparams.2.2.2.1.trans hd
    obtain ⟨L2, e2⟩ := ih hp1 (e1.adds.grows.nodes.trans hn) hd1
      fun j hj => e1.adds.grows.wire (hx j (List.mem_cons_of_mem _ hj))
    generalize l.mapM (fun i => messagePassing p.algorithm (data i) i) r.2 = r' at *
    have hle := e1.adds.grows.nWires_le hp.built
    have hS : ∀ w ∈ l.map data ++ openedOrders r.2.ctx,
        w ∈ (i :: l).map data ++ openedOrders c.ctx := by
      rw [hctx]
      intro w hw
      rw [List.map_cons, List.cons_append]
      exact List.mem_cons_of_mem _ hw
    have hold : ∀ w ∈ l.map data ++ openedOrders r.2.ctx, w < c.nWires := by
      have hlt : ∀ {w}, Wire c.gates w → w < c.nWires :=
        fun hw => hp.built.wires ▸ hp.built.laid.wire_lt hw
      rw [hctx]
      intro w hw
      rcases List.mem_append.mp hw with hw | hw
      · obtain ⟨j, hj, rfl⟩ := List.mem_map.mp hw
        exact hlt (hx j (List.mem_cons_of_mem _ hj))
      · simp only [openedOrders, List.mem_cons, List.not_mem_nil, or_false] at hw
        rcases hw with rfl | rfl | rfl
        · exact hlt hp.opened.vtx
        · exact hlt hp.opened.src
        · exact hlt hp.opened.dst
    refine ⟨L1 ++ L2, (e1.adds.mono fun w hw => ?_).trans hp.built e2.adds
      (fun w hw => Or.inl (hS w hw)), fun f hf => ?_, fun hP => (e1.plain hP).append (e2.plain hP),
      e2.passable, e2.context.trans p1.context, ?_, ?_, congrArg Nat.succ e2.length,
      fun hc => ⟨?_, ?_⟩, fun V A x hsub hA hx hF => ?_⟩
    · rcases List.mem_cons.mp hw with rfl | hw
      · exact List.mem_append_left _ (List.mem_cons_self ..)
      · exact List.mem_append_right _ hw
    · exact (List.mem_append.mp hf).elim (e1.quiet f) (e2.quiet f)
    · simp only [List.forall_mem_cons]
      exact ⟨e2.adds.grows.handle h1, e2.handles⟩
    · simp only [List.forall_mem_cons]
      exact ⟨hnew, fun w hw => hle.trans (e2.new w hw)⟩
    · rw [List.nodup_cons]
      refine ⟨fun hmem => ?_, (e2.fresh hc).1⟩
      have := e2.new _ hmem
      have := hlast hc
      omega
    · simp only [List.forall_mem_cons]
      refine ⟨?_, (e2.fresh hc).2⟩
      have hpos := hp.built.pos
      refine (fresh_last p1.grows.built (hlast hc) (by omega)).extend p1.grows.built e2.adds
        fun hmem => ?_
      exact absurd (hold _ hmem) (by omega)
    · obtain ⟨hs1, hs2⟩ := List.append_subset.mp hsub
      obtain ⟨good1, hv1⟩ := e1.values V A x hs1 hA (hx i (List.mem_cons_self ..)) hF
      obtain ⟨good2, hv2⟩ := e2.values V A x hs2 (hctx ▸ hA)
        (fun j hj => hx j (List.mem_cons_of_mem _ hj)) hF
      exact ⟨fun f hf => (List.mem_append.mp hf).elim (good1 f) (good2 f), .cons hv1 hv2⟩

def Program.PostClipFree (p : Program) : Prop := ∀ column, (p.postMp column).ClipFree

theorem clip_exec (hb : Built c) (s : ℕ) :
    (Body.single (.clip 0) rfl : Body 1).exec [s] c = (c.nWires + 6, (clipSIMD s c).2) := by
  simp [Body.exec, Body.single, Op.exec, bind_run, map_run, pure_run, clipSIMD_run hb.wires]

theorem clip_extends (hb : Built c) {s : ℕ} (hs : Wire c.gates s) :
    Extends [s] c (clipSIMD s c).2 (clipGates c.nWires c.nMults s c.nodes) := by
  rw [clipSIMD_run hb.wires]
  exact .of_block (Grows.of_block hb (clipGates_block hb.pos hs) rfl rfl rfl rfl)
    (clipGates_block hb.pos (by simp))

structure PostsExtend (conf : ProtocolConfig) (p : Program) (f : ℕ → ℕ) (l : List ℕ)
    (c : Circuit) (r : List ℕ × Circuit) (L : List Gate) : Prop where
  adds : Extends (l.map f) c r.2 L
  quiet : ∀ g ∈ L, g.type ≠ .output ∧ g.type ≠ .columnSumsToNodes
  handles : ∀ w ∈ r.1, Handle r.2.gates w
  context : r.2.context = c.context
  length : r.1.length = l.length
  results : ∀ w ∈ r.1, w ∈ l.map f ∨ c.nWires ≤ w
  sealed : p.Clips ∨ p.PostClipFree → ∀ X, Sealed c X → (∀ x ∈ X, x ∉ l.map f) →
    (p.Clips → (l.map f).Nodup ∧ ∀ w ∈ l.map f, Fresh c w) →
      ∃ X', Sealed r.2 X' ∧ ∀ x ∈ X', x ∈ X ∨ p.Clips ∧ x ∈ l.map f
  fresh : p.Clips → r.1.Nodup ∧ ∀ w ∈ r.1, c.nWires ≤ w ∧ Fresh r.2 w
  values : ∀ (V : Valuation conf) (x : ℕ → ℕ → Ring), L ⊆ V.gates →
    (∀ i ∈ l, V.Holds (f i) (x i)) → p.Fits conf.size → (∀ g ∈ L, V.Good g) ∧
      List.Forall₂ V.Holds r.1 (l.map fun i => (p.postMp i).eval conf.nodes [x i])

theorem postMp_sealed {p : Program} (hmode : p.Clips ∨ p.PostClipFree) (hb : Built c) {s i : ℕ}
    {X : List ℕ} {G : List Gate} (hs : Wire c.gates s) (h : Sealed c X) (hX : s ∉ X)
    (hfresh : p.Clips → Fresh c s) (hE : Extends [s] c ((p.postMp i).exec [s] c).2 G)
    (hplain : (p.postMp i).ClipFree → Plain G) :
    ∃ X', Sealed ((p.postMp i).exec [s] c).2 X' ∧ ∀ x ∈ X', x ∈ X ∨ p.Clips ∧ x = s := by
  rcases hmode with hc | hfree
  · refine ⟨s :: X, ?_, fun x hx => (List.mem_cons.mp hx).symm.imp_right fun h => ⟨hc, h⟩⟩
    rw [hc.postMp i, clip_exec hb]
    exact h.clip hb (hfresh hc) hX (clip_extends hb hs)
  · have hold : ∀ x ∈ X, x ∉ [s] := fun x hx hmem => hX (List.mem_singleton.mp hmem ▸ hx)
    exact ⟨X, h.extend hb hE hold (hplain (hfree i)), fun x hx => Or.inl hx⟩

theorem posts_extend (hz : conf.nodes ≤ conf.size) (p : Program) (f : ℕ → ℕ) (l : List ℕ)
    (hb : Built c) (hn : c.nodes = conf.nodes) (hf : ∀ i ∈ l, Handle c.gates (f i)) :
    ∃ L, PostsExtend conf p f l c (l.mapM (fun i => p.algorithm.postMp (f i) i) c) L := by
  induction l generalizing c with
  | nil =>
    exact ⟨[], .refl _ hb, by simp, by simp [pure_run], rfl, rfl, by simp [pure_run],
      fun _ X hX _ _ => ⟨X, hX, fun x hx => Or.inl hx⟩, fun _ => by simp [pure_run],
      fun _ _ _ _ _ => ⟨by simp, .nil⟩⟩
  | cons i l ih =>
    have hfi := hf i (List.mem_cons_self ..)
    obtain ⟨hcalls, h1⟩ := p.algorithm_lawful.postMp c (f i) i hb hfi
    obtain ⟨L0, -, hctx, -⟩ := hcalls.grows hb
    obtain ⟨L1, e1⟩ := (p.postMp i).exec_computes conf hz hb hn rfl
      (List.forall_mem_singleton.mpr hfi)
    have hlast : p.Clips → c.nWires ≤ ((p.postMp i).exec [f i] c).1 ∧
        ((p.postMp i).exec [f i] c).1 + 1 = ((p.postMp i).exec [f i] c).2.nWires := by
      intro hc
      rw [hc.postMp i, clip_exec hb, clipSIMD_run hb.wires]
      exact ⟨Nat.le_add_right .., rfl⟩
    have hseal : p.Clips ∨ p.PostClipFree → ∀ X, Sealed c X → f i ∉ X → (p.Clips → Fresh c (f i)) →
        ∃ X', Sealed ((p.postMp i).exec [f i] c).2 X' ∧ ∀ x ∈ X', x ∈ X ∨ p.Clips ∧ x = f i :=
      fun hm X h hX hfr => postMp_sealed hm hb hfi.1 h hX hfr e1.adds e1.plain
    have hpost : p.algorithm.postMp (f i) i = (p.postMp i).exec [f i] := rfl
    rw [mapM_cons_run, hpost]
    rw [hpost] at h1 hctx
    generalize (p.postMp i).exec [f i] c = r at *
    have hb1 : Built r.2 := e1.adds.grows.built
    obtain ⟨L2, e2⟩ := ih hb1 (e1.adds.grows.nodes.trans hn)
      fun j hj => e1.adds.grows.handle (hf j (List.mem_cons_of_mem _ hj))
    generalize l.mapM (fun i => p.algorithm.postMp (f i) i) r.2 = r' at *
    have hle : c.nWires ≤ r.2.nWires := e1.adds.grows.nWires_le hb
    have hlt : ∀ j ∈ l, f j < c.nWires := fun j hj =>
      hb.wires ▸ hb.laid.wire_lt (hf j (List.mem_cons_of_mem _ hj)).1
    have hmap : ∀ w ∈ l.map f, w < c.nWires := by simpa using hlt
    refine ⟨L1 ++ L2, (e1.adds.mono (by simp)).trans hb e2.adds
      (fun w hw => Or.inl (List.mem_cons_of_mem _ hw)), fun g hg => ?_, ?_, e2.context.trans hctx,
      congrArg Nat.succ e2.length, ?_, fun hm X hX hXf hfr => ?_, fun hc => ⟨?_, ?_⟩,
      fun V x hsub hx hF => ?_⟩
    · exact (List.mem_append.mp hg).elim (e1.quiet g) (e2.quiet g)
    · simp only [List.forall_mem_cons]
      exact ⟨e2.adds.grows.handle h1, e2.handles⟩
    · simp only [List.forall_mem_cons]
      refine ⟨?_, fun w hw => ?_⟩
      · exact (e1.results _ (List.mem_singleton_self _)).imp_left fun h => by simp_all
      · rcases e2.results w hw with hw | hw
        · exact Or.inl (List.mem_cons_of_mem _ hw)
        · exact Or.inr (hle.trans hw)
    · have hi : f i ∉ X := fun hmem => hXf _ hmem (List.mem_cons_self ..)
      obtain ⟨X1, hX1, hsub1⟩ := hseal hm X hX hi fun hc => (hfr hc).2 _ (List.mem_cons_self ..)
      have hnot : ∀ x ∈ X1, x ∉ l.map f := by
        intro x hx hmem
        rcases hsub1 x hx with hx | ⟨hc, rfl⟩
        · exact hXf x hx (List.mem_cons_of_mem _ hmem)
        · exact (List.nodup_cons.mp (hfr hc).1).1 hmem
      obtain ⟨X2, hX2, hsub2⟩ := e2.sealed hm X1 hX1 hnot fun hc => by
        obtain ⟨hn, hfresh⟩ := hfr hc
        obtain ⟨hn1, hn2⟩ := List.nodup_cons.mp hn
        refine ⟨hn2, fun w hw => (hfresh w (List.mem_cons_of_mem _ hw)).extend hb e1.adds fun h => ?_⟩
        exact hn1 (List.mem_singleton.mp h ▸ hw)
      refine ⟨X2, hX2, fun x hx => ?_⟩
      rcases hsub2 x hx with hx | ⟨hc, hx⟩
      · exact (hsub1 x hx).imp_right fun ⟨hc, he⟩ => ⟨hc, he ▸ List.mem_cons_self ..⟩
      · exact Or.inr ⟨hc, List.mem_cons_of_mem _ hx⟩
    · rw [List.nodup_cons]
      refine ⟨fun hmem => ?_, (e2.fresh hc).1⟩
      have h2 := (e2.fresh hc).2 _ hmem
      have h3 := (hlast hc).2
      omega
    · simp only [List.forall_mem_cons]
      refine ⟨⟨(hlast hc).1, ?_⟩, fun w hw => ?_⟩
      · have hpos := hb.pos
        have hl := hlast hc
        refine (fresh_last hb1 hl.2 (by omega)).extend hb1 e2.adds fun hmem => ?_
        have := hmap _ hmem
        omega
      · obtain ⟨h2, h3⟩ := (e2.fresh hc).2 w hw
        exact ⟨hle.trans h2, h3⟩
    · obtain ⟨hs1, hs2⟩ := List.append_subset.mp hsub
      obtain ⟨good1, hv1⟩ := e1.values V hs1 _
        (.cons (hx i (List.mem_cons_self ..)) .nil) (hF.2.2 i)
      obtain ⟨good2, hv2⟩ := e2.values V x hs2 (fun j hj => hx j (List.mem_cons_of_mem _ hj)) hF
      refine ⟨fun g hg => (List.mem_append.mp hg).elim (good1 g) (good2 g), ?_⟩
      cases hv1 with
      | cons hv1 _ => exact .cons hv1 hv2

end columns

end GraphMpc
