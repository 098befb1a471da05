import GraphMpc.Construction
import GraphMpc.Valuation

namespace GraphMpc

open Tabulate Permutation StableOrder

namespace Valuation

variable {conf : ProtocolConfig} {V : Valuation conf} {x : ℕ → Ring} {k m : ℕ}

theorem symm_mul_inv (ρ π : Equiv.Perm ℕ) (i : ℕ) : (ρ * π⁻¹).symm i = π (ρ.symm i) := rfl

section sort

variable {idx perm key out : ℕ} {ρ : Equiv.Perm ℕ} {b : ℕ → Bool}

theorem sortGates_order (hs : sortGates k m idx perm key ⊆ V.gates) (hp : V.Order perm ρ)
    (hb : V.Bits key b) : (∀ f ∈ sortGates k m idx perm key, V.Good f) ∧
      V.Opens (k + 2) (ρ * (V.perm idx)⁻¹) ∧ V.Order (k + 6) (sortStep conf.size ρ b) := by
  simp only [sortGates, List.cons_subset] at hs
  obtain ⟨h0, h1, h2, h3, h4, h5, h6, -⟩ := hs
  obtain ⟨g0, w0⟩ := yields_shuffle h0 rfl hp.2
  obtain ⟨g1, w1⟩ := yields_shuffle h1 rfl hb
  obtain ⟨g2, w2⟩ := opens_reveal h2 rfl (hp.1.mul (V.keeps idx).inv) w0
  obtain ⟨g3, w3⟩ := yields_permute h3 rfl w1 w2
  have w3 : V.Bits (k + 3) fun i => b (ρ.symm i) := w3.congr fun i _ => by
    simp [symm_mul_inv]
  obtain ⟨g4, -, w4⟩ := yields_compaction h4 rfl rfl w3
  obtain ⟨g5, w5⟩ := yields_reversePermute h5 rfl w4.begins w2
  obtain ⟨g6, w6⟩ := yields_unshuffle h6 rfl w5
  refine ⟨?_, w2, sortStep_keeps hp.1 b, w6.congr fun i _ => by simp [sortStep]⟩
  simp only [sortGates, List.forall_mem_cons]
  exact ⟨g0, g1, g2, g3, g4, g5, g6, (by simp)⟩

-- the order left by a list of keys, the least significant first
noncomputable def sortKeys (n : ℕ) (ρ : Equiv.Perm ℕ) (keys : List (ℕ → Bool)) : Equiv.Perm ℕ :=
  keys.foldl (sortStep n) ρ

theorem partition_eq (n : ℕ) (b : ℕ → Bool) : partition n b = sortStep n 1 b := by
  rw [sortStep, mul_one]
  rfl

theorem compaction_order {key : ℕ} (hs : compactionGate k m key ∈ V.gates) (hb : V.Bits key b) :
    V.Good (compactionGate k m key) ∧ V.Order k (sortStep conf.size 1 b) := by
  rw [← partition_eq]
  exact yields_compaction hs rfl rfl hb

end sort

section flags

variable {n w : ℕ}

theorem equalsZero_flags (hs : equalsZeroGates k m w n ⊆ V.gates) (hk : V.kd w = .add)
    (hn : n ≤ conf.size) (hl : n ≤ (V.val w).length) :
    (∀ f ∈ equalsZeroGates k m w n, V.Good f) ∧
      V.Flags (k + 4) n fun i => decide ((V.val w).getD i 0 = 0) := by
  simp only [equalsZeroGates, List.cons_subset] at hs
  obtain ⟨h0, h1, h2, h3, h4, -⟩ := hs
  obtain ⟨g0, k0, v0⟩ := eqz_first h0 rfl rfl rfl hk hn hl
  obtain ⟨g1, k1, v1⟩ := eqz_next h1 rfl rfl (by decide) rfl k0 hn v0
  obtain ⟨g2, k2, v2⟩ := eqz_next h2 rfl rfl (by decide) rfl k1 hn v1
  obtain ⟨g3, k3, v3⟩ := eqz_next h3 rfl rfl (by decide) rfl k2 hn v2
  obtain ⟨g4, k4, v4⟩ := eqz_next h4 rfl rfl (by decide) rfl k3 hn v3
  refine ⟨?_, k4, ?_⟩
  · simp only [equalsZeroGates, List.forall_mem_cons]
    exact ⟨g0, g1, g2, g3, g4, (by simp)⟩
  · simpa only [decide_eq_true_eq] using v4

-- clip(x): 0 where x is 0, and 1 elsewhere, also beyond the nodes
def clipped (nodes : ℕ) (x : ℕ → Ring) (i : ℕ) : Ring := if i < nodes ∧ x i = 0 then 0 else 1

theorem clipGates_value (hs : clipGates k m w conf.nodes ⊆ V.gates) (hz : conf.nodes ≤ conf.size)
    (hx : V.Holds w x) : (∀ f ∈ clipGates k m w conf.nodes, V.Good f) ∧
      V.Bits (k + 5) (fun i => decide (i < conf.nodes) && decide (x i = 0)) ∧
      V.Holds (k + 6) (clipped conf.nodes x) := by
  obtain ⟨hs, hs'⟩ := List.append_subset.mp hs
  simp only [List.cons_subset] at hs'
  obtain ⟨h5, h6, -⟩ := hs'
  obtain ⟨g, hflags⟩ := equalsZero_flags hs hx.1 hz (hz.trans hx.full.2)
  obtain ⟨g5, w5⟩ := yields_bit2A h5 rfl rfl hz hflags
  have w5 : V.Bits (k + 5) fun i => decide (i < conf.nodes) && decide (x i = 0) :=
    w5.congr fun i hi => by rw [hx.getD hi]
  obtain ⟨g6, w6⟩ := yields_flip h6 rfl w5
  refine ⟨?_, w5, w6.congr fun i _ => ?_⟩
  · simp only [clipGates, List.forall_mem_append, List.forall_mem_cons]
    exact ⟨g, g5, g6, (by simp)⟩
  · simp only [clipped, Bool.and_eq_true, decide_eq_true_eq]
    split_ifs <;> rfl

end flags

section duplicates

variable {idx perm src dst : ℕ} {ρ : Equiv.Perm ℕ} {s d : ℕ → Ring}

def duplicate (ρ : Equiv.Perm ℕ) (s d : ℕ → Ring) (i : ℕ) : Bool :=
  decide (0 < ρ i) && (decide (s (ρ.symm (ρ i - 1)) = s i) && decide (d (ρ.symm (ρ i - 1)) = d i))

theorem duplicateGates_flags (hs : duplicateGates k m idx conf.size perm src dst ⊆ V.gates)
    (hn : 0 < conf.size) (hp : V.Order perm ρ) (hsrc : V.Holds src s) (hdst : V.Holds dst d) :
    (∀ f ∈ duplicateGates k m idx conf.size perm src dst, V.Good f) ∧
      V.Opens (k + 1) (ρ * (V.perm idx)⁻¹) ∧ V.Bits (k + 22) (duplicate ρ s d) := by
  simp only [duplicateGates, List.append_subset, List.cons_subset] at hs
  obtain ⟨⟨⟨⟨h0, h1, h2, h3, h4, h5, h6, h7, -⟩, hz1⟩, hz2⟩, h18, h19, h20, h21, h22, -⟩ := hs
  obtain ⟨g0, w0⟩ := yields_shuffle h0 rfl hp.2
  obtain ⟨g1, w1⟩ := opens_reveal h1 rfl (hp.1.mul (V.keeps idx).inv) w0
  obtain ⟨g2, w2⟩ := yields_shuffle h2 rfl hsrc
  obtain ⟨g3, w3⟩ := yields_shuffle h3 rfl hdst
  obtain ⟨g4, w4⟩ := yields_permute h4 rfl w2 w1
  obtain ⟨g5, w5⟩ := yields_permute h5 rfl w3 w1
  have w4 : V.Holds (k + 4) fun i => s (ρ.symm i) := w4.congr fun i _ => by simp [symm_mul_inv]
  have w5 : V.Holds (k + 5) fun i => d (ρ.symm i) := w5.congr fun i _ => by simp [symm_mul_inv]
  obtain ⟨g6, k6, v6⟩ := deduplicationSub_entries h6 rfl w4
  obtain ⟨g7, k7, v7⟩ := deduplicationSub_entries h7 rfl w5
  obtain ⟨gz1, f1⟩ := equalsZero_flags hz1 k6 (Nat.sub_le ..) (by rw [v6, tab_length])
  obtain ⟨gz2, f2⟩ := equalsZero_flags hz2 k7 (Nat.sub_le ..) (by rw [v7, tab_length])
  obtain ⟨g18, f18⟩ := flags_and h18 rfl rfl (Nat.sub_le ..) f1 f2
  obtain ⟨g19, w19⟩ := yields_bit2A h19 rfl rfl (Nat.sub_le ..) f18
  obtain ⟨g20, w20⟩ := begins_insert h20 rfl w19
  obtain ⟨g21, w21⟩ := yields_reversePermute h21 rfl w20 w1
  obtain ⟨g22, w22⟩ := yields_unshuffle h22 rfl w21
  refine ⟨?_, w1, w22.congr fun i hi => ?_⟩
  · simp only [duplicateGates, List.forall_mem_append, List.forall_mem_cons]
    exact ⟨⟨⟨⟨g0, g1, g2, g3, g4, g5, g6, g7, (by simp)⟩, gz1⟩, gz2⟩, g18, g19, g20, g21, g22,
      (by simp)⟩
  · have hlt : ρ i < conf.size := hp.1.lt hi
    have hpos : (ρ * (V.perm idx)⁻¹) (V.perm idx i) = ρ i := by simp
    simp only [hpos, duplicate, v6, v7]
    rcases Nat.eq_zero_or_pos (ρ i) with h0 | hpos
    · simp [h0]
    · have hj : ρ i - 1 < conf.size - 1 := by omega
      have hdiff : ∀ y : ℕ → Ring, (tab (conf.size - 1) fun i => y (ρ.symm (i + 1)) -
          y (ρ.symm i)).getD (ρ i - 1) 0 = 0 ↔ y (ρ.symm (ρ i - 1)) = y i := by
        intro y
        rw [tab_getD_lt _ _ hj, Nat.sub_add_cancel hpos, Equiv.symm_apply_apply, sub_eq_zero]
        exact eq_comm
      simp only [hpos.ne', hpos, hj, hdiff, if_false, decide_true]

end duplicates

structure Arrangement (conf : ProtocolConfig) where
  vtx : Equiv.Perm ℕ
  src : Equiv.Perm ℕ
  dst : Equiv.Perm ℕ
  vtx_keeps : Keeps conf.size vtx
  src_keeps : Keeps conf.size src
  dst_keeps : Keeps conf.size dst

structure Arranged (V : Valuation conf) (ctx : MPContext) (A : Arrangement conf) : Prop where
  vtx : V.Opens ctx.clearShuffledVtxOrder (A.vtx * (V.perm ctx.vtxShuffleIdx)⁻¹)
  src : V.Opens ctx.clearShuffledSrcOrder (A.src * (V.perm ctx.srcShuffleIdx)⁻¹)
  dst : V.Opens ctx.clearShuffledDstOrder (A.dst * (V.perm ctx.dstShuffleIdx)⁻¹)

section arrangement

variable {ctx : MPContext} {A : Arrangement conf} {w : ℕ}

theorem prepareGates_opened {idx : ℕ} (hs : prepareGates k idx ctx ⊆ V.gates)
    (hv : V.Order ctx.vtxOrder A.vtx) (hsrc : V.Order ctx.srcOrder A.src)
    (hdst : V.Order ctx.dstOrder A.dst) : (∀ f ∈ prepareGates k idx ctx, V.Good f) ∧
      V.Opens (k + 3) (A.vtx * (V.perm idx)⁻¹) ∧ V.Opens (k + 4) (A.src * (V.perm (idx + 1))⁻¹) ∧
      V.Opens (k + 5) (A.dst * (V.perm (idx + 2))⁻¹) := by
  simp only [prepareGates, List.cons_subset] at hs
  obtain ⟨h0, h1, h2, h3, h4, h5, -⟩ := hs
  obtain ⟨g0, w0⟩ := yields_shuffle h0 rfl hv.2
  obtain ⟨g1, w1⟩ := yields_shuffle h1 rfl hsrc.2
  obtain ⟨g2, w2⟩ := yields_shuffle h2 rfl hdst.2
  obtain ⟨g3, w3⟩ := opens_reveal h3 rfl (hv.1.mul (V.keeps _).inv) w0
  obtain ⟨g4, w4⟩ := opens_reveal h4 rfl (hsrc.1.mul (V.keeps _).inv) w1
  obtain ⟨g5, w5⟩ := opens_reveal h5 rfl (hdst.1.mul (V.keeps _).inv) w2
  refine ⟨?_, w3, w4, w5⟩
  simp only [prepareGates, List.forall_mem_cons]
  exact ⟨g0, g1, g2, g3, g4, g5, (by simp)⟩

def switch (ρ τ : Equiv.Perm ℕ) (x : ℕ → Ring) (i : ℕ) : Ring := x (ρ (τ.symm i))

theorem yields_switch {f g h : Gate} {ρ τ : Equiv.Perm ℕ} (hf : f ∈ V.gates) (hg : g ∈ V.gates)
    (hh : h ∈ V.gates) (tf : f.type = .reversePermute) (tg : g.type = .mergedShuffle)
    (th : h.type = .permute) (hx : V.Holds f.in1Idx x)
    (hρ : V.Opens f.in2Idx (ρ * (V.perm g.piIdx)⁻¹)) (hfg : g.in1Idx = f.outIdx)
    (hτ : V.Opens h.in2Idx (τ * (V.perm g.omegaIdx)⁻¹)) (hgh : h.in1Idx = g.outIdx) :
    V.Good f ∧ V.Good g ∧ V.Good h ∧ V.Holds h.outIdx (switch ρ τ x) := by
  obtain ⟨gf, wf⟩ := yields_reversePermute hf tf hx.begins hρ
  rw [← hfg] at wf
  obtain ⟨gg, wg⟩ := yields_mergedShuffle hg tg wf
  rw [← hgh] at wg
  obtain ⟨gh, wh⟩ := yields_permute hh th wg hτ
  exact ⟨gf, gg, gh, wh.congr fun i _ => by simp [switch, symm_mul_inv]⟩

theorem loadGates_value (hs : loadGates k ctx w ⊆ V.gates) (ha : V.Arranged ctx A)
    (hx : V.Holds w x) : (∀ f ∈ loadGates k ctx w, V.Good f) ∧
      V.Holds (k + 1) fun i => x (A.vtx.symm i) := by
  simp only [loadGates, List.cons_subset] at hs
  obtain ⟨h0, h1, -⟩ := hs
  obtain ⟨g0, w0⟩ := yields_shuffle h0 rfl hx
  obtain ⟨g1, w1⟩ := yields_permute h1 rfl w0 ha.vtx
  refine ⟨?_, w1.congr fun i _ => by simp [symm_mul_inv]⟩
  simp only [loadGates, List.forall_mem_cons]
  exact ⟨g0, g1, (by simp)⟩

def differences (nodes : ℕ) (x : ℕ → Ring) (i : ℕ) : Ring :=
  if 0 < i ∧ i < nodes then x i - x (i - 1) else x i

def propagated (A : Arrangement conf) (x : ℕ → Ring) (i : ℕ) : Ring :=
  prefixSum (switch A.vtx A.src (differences conf.nodes x)) (i + 1) - switch A.vtx A.src x i

def gathered (A : Arrangement conf) (x : ℕ → Ring) (i : ℕ) : Ring :=
  let sums := switch A.dst A.vtx fun i => prefixSum (switch A.src A.dst x) (i + 1)
  if i < conf.nodes then sums i - if i = 0 then 0 else sums (i - 1) else 0

theorem routeGates_value {i1 i2 i3 : ℕ} (hs : routeGates k ctx i1 i2 i3 w ⊆ V.gates)
    (ha : V.Arranged ctx A) (h0 : 0 < conf.nodes) (hz : conf.nodes ≤ conf.size)
    (hx : V.Holds w x) : (∀ f ∈ routeGates k ctx i1 i2 i3 w, V.Good f) ∧
      V.Holds (k + 15) (gathered A (propagated A x)) := by
  simp only [routeGates, List.cons_subset] at hs
  obtain ⟨h0', h1, h2, h3, h4, h5, h6, h7, h8, h9, h10, h11, h12, h13, h14, h15, -⟩ := hs
  obtain ⟨g0, w0⟩ := yields_propagate1 h0' rfl h0 hz hx
  obtain ⟨g1, g2, g3, w3⟩ := yields_switch h1 h2 h3 rfl rfl rfl w0 ha.vtx rfl ha.src rfl
  obtain ⟨g4, g5, g6, w6⟩ := yields_switch h4 h5 h6 rfl rfl rfl hx ha.vtx rfl ha.src rfl
  obtain ⟨g7, w7⟩ := yields_propagate2 h7 rfl w3 w6
  obtain ⟨g8, g9, g10, w10⟩ := yields_switch h8 h9 h10 rfl rfl rfl w7 ha.src rfl ha.dst rfl
  obtain ⟨g11, w11⟩ := yields_gather1 h11 rfl w10
  obtain ⟨g12, g13, g14, w14⟩ := yields_switch h12 h13 h14 rfl rfl rfl w11 ha.dst rfl ha.vtx rfl
  obtain ⟨g15, w15⟩ := yields_gather2 h15 rfl hz w14
  refine ⟨?_, w15⟩
  simp only [routeGates, List.forall_mem_cons]
  exact ⟨g0, g1, g2, g3, g4, g5, g6, g7, g8, g9, g10, g11, g12, g13, g14, g15, (by simp)⟩

def released (A : Arrangement conf) (inInputOrder : Bool) (x : ℕ → Ring) (i : ℕ) : Ring :=
  let p := if inInputOrder then A.vtx i else i
  if p < conf.nodes then x p else 0

theorem outputGates_value {b : Bool} (hs : outputGates k conf.nodes b ctx w ⊆ V.gates)
    (ha : V.Arranged ctx A) (hz : conf.nodes ≤ conf.size) (hx : V.Holds w x) :
    (∀ f ∈ outputGates k conf.nodes b ctx w, V.Good f) ∧
      V.Holds (k + if b then 2 else 0) (released A b x) := by
  cases b with
  | false =>
    simp only [outputGates, Bool.false_eq_true, if_false, List.cons_subset] at hs ⊢
    obtain ⟨h0, h1, -⟩ := hs
    obtain ⟨g0, w0⟩ := yields_removeEdgeData h0 rfl hz hx
    refine ⟨?_, w0⟩
    simp only [List.forall_mem_cons]
    exact ⟨g0, w0.full, (by simp)⟩
  | true =>
    simp only [outputGates, if_true, List.cons_subset] at hs ⊢
    obtain ⟨h0, h1, h2, h3, -⟩ := hs
    obtain ⟨g0, w0⟩ := yields_removeEdgeData h0 rfl hz hx
    obtain ⟨g1, w1⟩ := yields_reversePermute h1 rfl w0.begins ha.vtx
    obtain ⟨g2, w2⟩ := yields_unshuffle h2 rfl w1
    refine ⟨?_, w2.congr fun i _ => by simp [released]⟩
    simp only [List.forall_mem_cons]
    exact ⟨g0, g1, g2, w2.full, (by simp)⟩

end arrangement

end Valuation

end GraphMpc
