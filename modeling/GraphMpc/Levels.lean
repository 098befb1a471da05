import GraphMpc.Columns

namespace GraphMpc

open Circuit

section gates

variable {nodes : ℕ} {G : List Gate} (h : WellFormed nodes G)

include h

theorem routeGates_level {k x i1 i2 i3 : ℕ} {ctx : MPContext}
    (hs : routeGates k ctx i1 i2 i3 x ⊆ G) :
    level G (k + 15) = max (max (max (max (level G x) (level G ctx.clearShuffledVtxOrder) + 1)
      (level G ctx.clearShuffledSrcOrder) + 1) (level G ctx.clearShuffledDstOrder) + 1)
      (level G ctx.clearShuffledVtxOrder) := by
  simp only [routeGates, List.cons_subset] at hs
  obtain ⟨h0, h1, h2, h3, h4, h5, h6, h7, h8, h9, h10, h11, h12, h13, h14, h15, -⟩ := hs
  have l0 := level_unary h h0 (by simp) rfl
  have l1 := level_out h h1 (by simp)
  have l2 := level_unary h h2 (by simp) rfl
  have l3 := level_out h h3 (by simp)
  have l4 := level_out h h4 (by simp)
  have l5 := level_unary h h5 (by simp) rfl
  have l6 := level_out h h6 (by simp)
  have l7 := level_out h h7 (by simp)
  have l8 := level_out h h8 (by simp)
  have l9 := level_unary h h9 (by simp) rfl
  have l10 := level_out h h10 (by simp)
  have l11 := level_unary h h11 (by simp) rfl
  have l12 := level_out h h12 (by simp)
  have l13 := level_unary h h13 (by simp) rfl
  have l14 := level_out h h14 (by simp)
  have l15 := level_unary h h15 (by simp) rfl
  simp only [Gate.delay, Gate.interactive, if_true, Bool.false_eq_true, if_false,
    Nat.add_zero] at *
  have m3 : level G (k + 3) = max (max (level G x) (level G ctx.clearShuffledVtxOrder) + 1)
      (level G ctx.clearShuffledSrcOrder) := by rw [l3, l2, l1, l0]
  have m6 : level G (k + 6) = level G (k + 3) := by rw [l6, l5, l4, m3]
  have m8 : level G (k + 8) = level G (k + 3) := by
    rw [l8, l7, m6, max_self, m3, max_assoc, max_self]
  have m12 : level G (k + 12) = max (level G (k + 3) + 1) (level G ctx.clearShuffledDstOrder) := by
    rw [l12, l11, l10, l9, m8, max_assoc, max_self]
  rw [l15, l14, l13, m12, m3]

theorem clipGates_level {k m x n : ℕ} (hs : clipGates k m x n ⊆ G) :
    level G (k + 6) = level G x + 6 := by
  simp only [clipGates, equalsZeroGates, List.append_subset, List.cons_subset] at hs
  obtain ⟨⟨h0, h1, h2, h3, h4, -⟩, h5, h6, -⟩ := hs
  have l0 := level_unary h h0 (by simp) rfl
  have l1 := level_unary h h1 (by simp) rfl
  have l2 := level_unary h h2 (by simp) rfl
  have l3 := level_unary h h3 (by simp) rfl
  have l4 := level_unary h h4 (by simp) rfl
  have l5 := level_unary h h5 (by simp) rfl
  have l6 := level_unary h h6 (by simp) rfl
  simp only [Gate.delay, Gate.interactive, if_true, Bool.false_eq_true, if_false] at *
  omega

end gates

structure Program.Accumulates (p : Program) : Prop where
  initNodes : ∀ column, ∃ vals, p.initNodes column = some (.single (.setConstVector vals) rfl)
  prepare : ∀ i column, p.prepare i column = .arg 0 Nat.one_pos
  apply : ∀ i column, p.apply i column = .single (.add 0 1) rfl
  postMp : ∀ column, p.postMp column = .single (.clip 0) rfl

theorem Program.Accumulates.clips {p : Program} (h : p.Accumulates) : p.Clips where
  initNodes column b hb := by
    obtain ⟨vals, hv⟩ := h.initNodes column
    exact ⟨.setConstVector vals, rfl, rfl, (Option.some.inj (hv.symm.trans hb)).symm⟩
  apply i column := ⟨.add 0 1, rfl, rfl, h.apply i column⟩
  postMp := h.postMp

section columns

variable {p : Program} {c : Circuit} {ctx : MPContext} {G : List Gate}

def roundLevel (G : List Gate) (ctx : MPContext) (l : ℕ) : ℕ :=
  max l (max (max (max (max l (level G ctx.clearShuffledVtxOrder) + 1)
    (level G ctx.clearShuffledSrcOrder) + 1) (level G ctx.clearShuffledDstOrder) + 1)
    (level G ctx.clearShuffledVtxOrder))

theorem round_level (ha : p.Accumulates) (hb : Built c) {s i column i1 i2 i3 : ℕ}
    (hwf : WellFormed c.nodes G)
    (hs : (mpRound p.algorithm ctx i1 i2 i3 column s i c).2.gates ⊆ G) :
    level G (mpRound p.algorithm ctx i1 i2 i3 column s i c).1 = roundLevel G ctx (level G s) := by
  have hprep : p.algorithm.prepare s i column c = (s, c) := by
    simp only [Program.algorithm, ha.prepare i column]
    rfl
  have happ : ∀ u c, p.algorithm.apply s u i column c = addSIMD s u c := fun u c => by
    simp only [Program.algorithm, ha.apply i column]
    rfl
  rw [mpRound_run p.algorithm ctx i1 i2 i3 column s i (by rw [hprep]; exact hb.wires)] at hs ⊢
  simp only [bind_run, hprep, happ, route, addSIMD, addGate_run, List.append_subset,
    List.cons_subset] at hs ⊢
  obtain ⟨⟨-, hroute⟩, hadd, -⟩ := hs
  have l1 := level_out hwf hadd (by simp)
  rw [routeGates_level hwf hroute] at l1
  exact l1

theorem rounds_level (ha : p.Accumulates) (column : ℕ) (l : List ℕ) (hb : Built c)
    (ho : Opened c.gates ctx) {s : ℕ} (hh : Handle c.gates s) (hwf : WellFormed c.nodes G)
    (hs : (l.foldlM (mpRound p.algorithm ctx (ctx.dstShuffleIdx + 1) (ctx.dstShuffleIdx + 2)
      (ctx.dstShuffleIdx + 3) column) s c).2.gates ⊆ G) :
    level G (l.foldlM (mpRound p.algorithm ctx (ctx.dstShuffleIdx + 1) (ctx.dstShuffleIdx + 2)
      (ctx.dstShuffleIdx + 3) column) s c).1 = (roundLevel G ctx)^[l.length] (level G s) := by
  induction l generalizing c s with
  | nil => rfl
  | cons i l ih =>
    obtain ⟨L1, p1, h1⟩ := mpRound_passes p.algorithm_lawful i column hb ho hh
    obtain ⟨L2, p2, -⟩ := rounds_passes p.algorithm_lawful column l p1.grows.built
      (ho.mono p1.grows.sub) h1
    rw [foldlM_cons_run] at hs ⊢
    have hs1 := List.Subset.trans p2.grows.sub hs
    rw [ih p1.grows.built (ho.mono p1.grows.sub) h1 (p1.grows.nodes ▸ hwf) hs,
      round_level ha hb hwf hs1]
    rfl

def constGate (k : ℕ) (vals : Vec) : Gate :=
  { type := .setConstVecSIMD, gId := k, vals := vals, outIdx := k }

theorem messagePassing_level (ha : p.Accumulates) (column : ℕ) (hp : Passable c) {x : ℕ}
    (hx : Wire c.gates x) (hwf : WellFormed c.nodes G)
    (hs : (messagePassing p.algorithm x column c).2.gates ⊆ G) :
    level G (messagePassing p.algorithm x column c).1 = (roundLevel G c.ctx)^[c.depth] 0 := by
  obtain ⟨vals, hv⟩ := ha.initNodes column
  have hinit : ∀ c, p.algorithm.initNodes column c =
      (some (setConstVecSIMD vals c).1, (setConstVecSIMD vals c).2) := fun c => by
    simp only [Program.algorithm, hv]
    rfl
  obtain ⟨p1, -, -⟩ := load_passes hp.built hp.opened hx hp.vtx_le
  obtain ⟨L2, p2⟩ := Passes.of_calls c.ctx p1.grows.built (.single (.setConstVector vals))
  rw [messagePassing_run] at hs ⊢
  simp only [bind_run, get_run, hinit, Option.getD_some] at hs ⊢
  generalize load c.ctx x c = r1 at *
  obtain ⟨-, -, hidx⟩ := context_eq (r1.2) p1.context
  have p12 := p1.trans p2
  have hb2 := p2.grows.built
  have hgate : constGate r1.2.nWires vals ∈ (setConstVecSIMD vals r1.2).2.gates := by
    simp [setConstVecSIMD, addGate_run, constGate, p1.grows.built.wires]
  have hh : Handle (setConstVecSIMD vals r1.2).2.gates r1.2.nWires :=
    p1.grows.built.handle_new hgate le_rfl (by simp [constGate])
  have hdepth : (setConstVecSIMD vals r1.2).2.depth = c.depth := by
    have hparams := p12.grows.params
    simp only [params, Prod.mk.injEq] at hparams
    exact hparams.2.2.2.1
  have hw : (setConstVecSIMD vals r1.2).1 = r1.2.nWires := rfl
  rw [hidx, hp.idx, hdepth, hw] at hs ⊢
  have ho2 := hp.opened.mono p12.grows.sub
  obtain ⟨L3, p3, -⟩ := rounds_passes p.algorithm_lawful column (List.range c.depth) hb2 ho2 hh
  have hzero : level G r1.2.nWires = 0 :=
    (level_unary hwf (hs (p3.grows.sub hgate)) (by simp [constGate]) rfl).trans (level_zero hwf)
  rw [rounds_level ha column (List.range c.depth) hb2 ho2 hh (p12.grows.nodes ▸ hwf) hs,
    List.length_range]
  exact congrArg _ hzero

theorem columns_level (ha : p.Accumulates) (data : ℕ → ℕ) (l : List ℕ) (hp : Passable c)
    (hx : ∀ i ∈ l, Wire c.gates (data i)) (hwf : WellFormed c.nodes G)
    (hs : (l.mapM (fun i => messagePassing p.algorithm (data i) i) c).2.gates ⊆ G) :
    ∀ w ∈ (l.mapM (fun i => messagePassing p.algorithm (data i) i) c).1,
      level G w = (roundLevel G c.ctx)^[c.depth] 0 := by
  induction l generalizing c with
  | nil => simp [pure_run]
  | cons i l ih =>
    have hxi := hx i (List.mem_cons_self ..)
    obtain ⟨L1, p1, -⟩ := messagePassing_passes p.algorithm_lawful i hp hxi
    have hp1 := p1.passable hp
    have hx1 : ∀ j ∈ l, Wire (messagePassing p.algorithm (data i) i c).2.gates (data j) :=
      fun j hj => p1.grows.wire (hx j (List.mem_cons_of_mem _ hj))
    rw [mapM_cons_run] at hs ⊢
    have hlevel := messagePassing_level ha i hp hxi hwf
    generalize messagePassing p.algorithm (data i) i c = r at *
    obtain ⟨hctx, -, -⟩ := context_eq _ p1.context
    have hdepth : r.2.depth = c.depth := by
      have hparams := p1.grows.params
      simp only [params, Prod.mk.injEq] at hparams
      exact hparams.2.2.2.1
    have hih := ih hp1 hx1 (p1.grows.nodes ▸ hwf) hs
    rw [hctx, hdepth] at hih
    simp only [List.forall_mem_cons]
    obtain ⟨L2, p2, -⟩ := columns_passes p.algorithm_lawful data l hp1 hx1
    exact ⟨hlevel (List.Subset.trans p2.grows.sub hs), hih⟩

theorem posts_level (ha : p.Accumulates) (f : ℕ → ℕ) (l : List ℕ) {lv : ℕ} (hb : Built c)
    (hf : ∀ i ∈ l, Handle c.gates (f i)) (hwf : WellFormed c.nodes G)
    (hlv : ∀ i ∈ l, level G (f i) = lv)
    (hs : (l.mapM (fun i => p.algorithm.postMp (f i) i) c).2.gates ⊆ G) :
    ∀ w ∈ (l.mapM (fun i => p.algorithm.postMp (f i) i) c).1, level G w = lv + 6 := by
  induction l generalizing c with
  | nil => simp [pure_run]
  | cons i l ih =>
    have hpost : p.algorithm.postMp (f i) i c = (c.nWires + 6, (clipSIMD (f i) c).2) := by
      simp only [Program.algorithm, ha.postMp i]
      exact clip_exec hb (f i)
    obtain ⟨L1, g1, -, -⟩ := (LibraryCall.clip (hf i (List.mem_cons_self ..))).grows hb
    have hclip : clipGates c.nWires c.nMults (f i) c.nodes ⊆ (clipSIMD (f i) c).2.gates := by
      rw [clipSIMD_run hb.wires]
      exact List.subset_append_right ..
    rw [mapM_cons_run, hpost] at hs ⊢
    simp only at hs ⊢
    generalize (clipSIMD (f i) c).2 = c1 at *
    have hf1 : ∀ j ∈ l, Handle c1.gates (f j) :=
      fun j hj => g1.handle (hf j (List.mem_cons_of_mem _ hj))
    obtain ⟨L2, p2, -⟩ := mapM_passes c.ctx (fun i => p.algorithm.postMp (f i) i) l g1.built
      fun j hj c' hb' hsub _ => by
        obtain ⟨hcalls, hw⟩ := p.algorithm_lawful.postMp c' (f j) j hb'
          ⟨(hf1 j hj).1.imp fun _ h => ⟨hsub h.1, h.2⟩, (hf1 j hj).2⟩
        obtain ⟨L, p⟩ := Passes.of_calls c.ctx hb' hcalls
        exact ⟨L, p, hw⟩
    have hsub := List.Subset.trans (List.Subset.trans hclip p2.grows.sub) hs
    simp only [List.forall_mem_cons]
    refine ⟨?_, ih g1.built hf1 (g1.nodes ▸ hwf) (fun j hj => hlv j (List.mem_cons_of_mem _ hj)) hs⟩
    rw [clipGates_level hwf hsub, hlv i (List.mem_cons_self ..)]

end columns

end GraphMpc
