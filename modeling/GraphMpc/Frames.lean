import GraphMpc.Passing

namespace GraphMpc

open Circuit GraphMpc.Valuation

def Op.denote (nodes : ℕ) (env : List (ℕ → Ring)) : Op → List (ℕ → Ring)
  | clip x => env ++ [clipped nodes (env.getD x 0)]
  | op => op.eval nodes env

-- after every operation the caller's variables designate the wires they designated before
def Frames : List Op → List ℕ → Circuit → Prop
  | [], _, _ => True
  | op :: ops, env, c =>
    (op.exec env c).1.take env.length = env ∧ Frames ops (op.exec env c).1 (op.exec env c).2

structure Body.KeepsArguments {arity : ℕ} (b : Body arity) (conf : ProtocolConfig)
    (args : List ℕ) (c : Circuit) : Prop where
  frames : Frames b.ops args c
  denotes : b.Fits conf.size → ∀ V : Valuation conf,
    (b.ops.foldlM Op.exec args c).2.gates ⊆ V.gates → ∀ xs, List.Forall₂ V.Holds args xs →
      List.Forall₂ V.Holds (b.ops.foldlM Op.exec args c).1
        (b.ops.foldl (Op.denote conf.nodes) xs)

variable {c : Circuit} {env : List ℕ}

theorem Op.exec_clip (hb : Built c) (x : ℕ) :
    ((Op.clip x).exec env c).1 = env.set x (c.nWires + 5) ++ [c.nWires + 6] := by
  simp only [Op.exec, bind_run, clipSIMD_run hb.wires, pure_run]

theorem Op.exec_env (op : Op) (h : op.isClip = false) :
    (op.exec env c).1 = env ++ [c.nWires] := by
  cases op with
  | clip x => simp [Op.isClip] at h
  | _ => rfl

theorem set_ne (hb : Built c) (henv : ∀ w ∈ env, Handle c.gates w) {x w : ℕ}
    (hx : x < env.length) (hw : c.nWires ≤ w) : env.set x w ≠ env := by
  intro he
  have hget : (env.set x w)[x]? = some w := by simp [hx]
  rw [he] at hget
  have hlt := hb.laid.wire_lt (henv w (List.mem_of_getElem? hget)).1
  have hwires := hb.wires
  omega

theorem Op.exec_frame (hb : Built c) (henv : ∀ w ∈ env, Handle c.gates w) (op : Op)
    (hs : op.operands.all (· < env.length) = true) :
    (op.exec env c).1.take env.length = env ↔ op.isClip = false := by
  cases hc : op.isClip with
  | false => simp [op.exec_env hc]
  | true =>
    cases op with
    | clip x =>
      have hx : x < env.length := by simpa [operands] using hs
      rw [exec_clip hb, List.take_left' (by simp)]
      simp [set_ne hb henv hx (Nat.le_add_right ..)]
    | _ => simp [isClip] at hc

theorem frames_iff (ops : List Op) (hb : Built c) (henv : ∀ w ∈ env, Handle c.gates w)
    (hs : inScope env.length ops = true) :
    Frames ops env c ↔ ∀ op ∈ ops, op.isClip = false := by
  induction ops generalizing c env with
  | nil => simp [Frames]
  | cons op ops ih =>
    obtain ⟨h1, h2⟩ := Bool.and_eq_true_iff.mp hs
    have s1 := op.exec_scope hb henv h1
    obtain ⟨L, hg, -⟩ := s1.calls.grows hb
    rw [Frames, op.exec_frame hb henv h1, ih hg.built s1.handles (by rwa [s1.length]),
      List.forall_mem_cons]

theorem Op.eval_eq_denote (nodes : ℕ) (op : Op) (h : op.isClip = false)
    (xs : List (ℕ → Ring)) : op.eval nodes xs = op.denote nodes xs := by
  cases op with
  | clip x => simp [isClip] at h
  | _ => rfl

theorem foldl_eval_denote (nodes : ℕ) (ops : List Op) (h : ∀ op ∈ ops, op.isClip = false)
    (xs : List (ℕ → Ring)) :
    ops.foldl (Op.eval nodes) xs = ops.foldl (Op.denote nodes) xs := by
  induction ops generalizing xs with
  | nil => rfl
  | cons op ops ih =>
    obtain ⟨h1, h2⟩ := List.forall_mem_cons.mp h
    rw [List.foldl_cons, List.foldl_cons, Op.eval_eq_denote nodes op h1, ih h2]

theorem Body.keepsArguments_iff {arity : ℕ} (b : Body arity) (conf : ProtocolConfig)
    (c : Circuit) (args : List ℕ) (hz : conf.nodes ≤ conf.size) (hb : Built c)
    (hn : c.nodes = conf.nodes) (hlen : args.length = arity)
    (hargs : ∀ w ∈ args, Handle c.gates w) : b.KeepsArguments conf args c ↔ b.ClipFree := by
  have hs : inScope args.length b.ops = true := by
    rw [hlen]
    exact b.ops_scoped
  constructor
  · intro h
    exact (frames_iff b.ops hb hargs hs).mp h.frames
  · intro hclip
    refine ⟨(frames_iff b.ops hb hargs hs).mpr hclip, fun hfits V hsub xs hxs => ?_⟩
    obtain ⟨L, e⟩ := ops_compute conf hz b.ops hb hn hargs hs
    rw [e.adds.grows.gates] at hsub
    obtain ⟨-, hvals⟩ := e.values V (List.append_subset.mp hsub).2 xs hxs hfits
    rwa [foldl_eval_denote conf.nodes b.ops hclip] at hvals

theorem twoEntries_int : 2 < 2 ^ 31 := by decide

def twoEntries : ProtocolConfig := ⟨2, 1, 0, 1, twoEntries_int⟩

def bodyStart : Circuit := withInputs (start twoEntries 1 false false false)

theorem bodyStart_built : Built bodyStart := withInputs_built twoEntries 1 false false false

theorem bodyStart_data : ∀ w ∈ [5], Handle bodyStart.gates w := by
  intro w hw
  rw [List.mem_singleton.mp hw]
  exact ⟨⟨{ type := .input, gId := 5, outIdx := 5 }, by decide, rfl, by decide⟩, by decide⟩

def double : Body 1 := .single (.add 0 0) rfl

theorem keepsArguments_double : double.KeepsArguments twoEntries [5] bodyStart :=
  (double.keepsArguments_iff twoEntries bodyStart [5] (by decide) bodyStart_built (by decide) rfl
    bodyStart_data).mpr (by simp [double, Body.single, Body.ClipFree, Op.isClip])

def clipThenAdd : Body 1 := ⟨[.clip 0, .add 0 1], 2, rfl, by decide⟩

theorem clipThenAdd_eval (x : ℕ → Ring) :
    clipThenAdd.ops.foldl (Op.eval 1) [x] =
      [fun i => if i < 1 ∧ x i = 0 then 1 else 0, clipped 1 x, fun _ => 1] := by
  have hsum (i : ℕ) : (if i < 1 ∧ x i = 0 then (1 : Ring) else 0) + clipped 1 x i = 1 := by
    unfold clipped
    split_ifs <;> rfl
  simpa [clipThenAdd, Op.eval] using funext hsum

theorem clip_rebinds :
    (clipThenAdd.ops.foldlM Op.exec [5] bodyStart).1 = [12, 13, 14] ∧
      ¬ clipThenAdd.KeepsArguments twoEntries [5] bodyStart ∧
      ∀ (V : Valuation twoEntries) (x : ℕ → Ring),
        (clipThenAdd.ops.foldlM Op.exec [5] bodyStart).2.gates ⊆ V.gates → V.Holds 5 x →
          V.Holds 14 fun _ => 1 := by
  have henv : (clipThenAdd.ops.foldlM Op.exec [5] bodyStart).1 = [12, 13, 14] := by decide
  have hframes := frames_iff clipThenAdd.ops bodyStart_built bodyStart_data rfl
  refine ⟨henv, fun h => ?_, fun V x hsub hx => ?_⟩
  · exact absurd (hframes.mp h.frames (.clip 0) (List.mem_cons_self ..)) (by decide)
  · obtain ⟨L, e⟩ := ops_compute twoEntries (by decide) clipThenAdd.ops bodyStart_built (by decide)
      bodyStart_data rfl
    rw [e.adds.grows.gates] at hsub
    obtain ⟨-, hvals⟩ := e.values V (List.append_subset.mp hsub).2 [x] (.cons hx .nil)
      (by simp [clipThenAdd, Op.Fits])
    rw [henv, show twoEntries.nodes = 1 from rfl, clipThenAdd_eval] at hvals
    exact hvals.get (by decide) (by decide : 2 < 3)

end GraphMpc
