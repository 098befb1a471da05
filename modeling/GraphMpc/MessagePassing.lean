import GraphMpc.DagList
import GraphMpc.Passing

namespace GraphMpc

open Tabulate StableOrder OrderedSums GraphMpc.Valuation

theorem prefixSum_eq_sum (f : ℕ → Ring) (n : ℕ) : prefixSum f n = ∑ i ∈ Finset.range n, f i := by
  induction n with
  | zero => rfl
  | succ n ih => rw [prefixSum, ih, Finset.sum_range_succ]

namespace DagList

variable {L : DagList} {conf : ProtocolConfig} {surplus : ℕ → Bool} {A : Arrangement conf}
  {s : Ring → Ring} {x y : ℕ → Ring}

-- a vector in vertex order: the states of the nodes, by id, and zeros for the edges
structure States (L : DagList) (A : Arrangement conf) (s : Ring → Ring) (x : ℕ → Ring) :
    Prop where
  node : ∀ v < conf.size, L.isV v = true → x (A.vtx v) = s (L.src v)
  edge : ∀ p, conf.nodes ≤ p → p < conf.size → x p = 0

-- an edge is summed up at the first node at or behind its target
def Delivers (L : DagList) (size e : ℕ) (id : Ring) : Prop :=
  L.dst e ≤ id ∧ ∀ w < size, L.isV w = true → L.src w < id → L.src w < L.dst e

instance (L : DagList) (size e : ℕ) (id : Ring) : Decidable (L.Delivers size e id) := by
  unfold Delivers
  infer_instance

def delivered (L : DagList) (size : ℕ) (surplus : ℕ → Bool) (id : Ring) : Finset ℕ :=
  (Finset.range size).filter fun e =>
    L.isV e = false ∧ surplus e = false ∧ L.Delivers size e id

theorem propagated_at (A : Arrangement conf) (x : ℕ → Ring) {e : ℕ} (he : e < conf.size) :
    propagated A x (A.src e) = ∑ j ∈ (Finset.range conf.size).filter (A.src · ≤ A.src e),
      differences conf.nodes x (A.vtx j) - x (A.vtx e) := by
  simp only [propagated, prefixSum_eq_sum, switch, Equiv.symm_apply_apply]
  rw [sum_upTo A.src_keeps he fun j => differences conf.nodes x (A.vtx j)]

theorem Arranges.vtx_le (hA : L.Arranges surplus A) {u v : ℕ} (hu : u < conf.size)
    (hv : v < conf.size) (hvu : L.isV u = true) (hvv : L.isV v = true) :
    A.vtx u ≤ A.vtx v ↔ L.src u ≤ L.src v := by
  rw [← not_lt, hA.rank v hv u hu hvv hvu, BitVec.not_lt]

theorem propagated_entry (hA : L.Arranges surplus A) (hx : L.States A s x) {e u : ℕ}
    (he : e < conf.size) (hs : surplus e = false) (hu : u < conf.size) (hv : L.isV u = true)
    (heu : L.src u = L.src e) : propagated A x (A.src e) = s (L.src e) - x (A.vtx e) := by
  have hun := (hA.node u hu).mp hv
  rw [propagated_at A x he, ← heu, ← hx.node u hu hv]
  congr 1
  calc ∑ j ∈ (Finset.range conf.size).filter (A.src · ≤ A.src e),
        differences conf.nodes x (A.vtx j)
      = ∑ j ∈ (Finset.range conf.size).filter (A.vtx · ≤ A.vtx u),
        differences conf.nodes x (A.vtx j) := by
        rw [Finset.sum_filter, Finset.sum_filter]
        refine Finset.sum_congr rfl fun j hj => ?_
        have hj := Finset.mem_range.mp hj
        cases hvj : L.isV j with
        | true =>
          refine if_congr ?_ rfl rfl
          rw [hA.source j hj e he hvj hs, ← heu, hA.vtx_le hj hu hvj hv]
        | false =>
          have hle : conf.nodes ≤ A.vtx j := not_lt.mp fun hlt => by
            simp [(hA.node j hj).mpr hlt] at hvj
          have hd : differences conf.nodes x (A.vtx j) = 0 := by
            rw [differences, if_neg (by omega), hx.edge _ hle (A.vtx_keeps.lt hj)]
          rw [hd, ite_self, ite_self]
    _ = ∑ p ∈ Finset.range (A.vtx u + 1), differences conf.nodes x p := by
        rw [← sum_upTo A.vtx_keeps hu]
        simp
    _ = ∑ p ∈ Finset.range (A.vtx u + 1), (if 0 < p then x p - x (p - 1) else x p) := by
        refine Finset.sum_congr rfl fun p hp => if_congr ?_ rfl rfl
        have hp := Finset.mem_range.mp hp
        exact and_iff_left (by omega)
    _ = x (A.vtx u) := sum_differences x _

theorem gathered_at (hV : L.Valid conf) (hA : L.Arranges surplus A) (y : ℕ → Ring) {v : ℕ}
    (hv : v < conf.size) (hvv : L.isV v = true) :
    gathered A y (A.vtx v) = ∑ j ∈ (Finset.range conf.size).filter (fun j => A.dst j ≤ A.dst v ∧
      ∀ w < conf.size, L.isV w = true → L.src w < L.src v → A.dst w < A.dst j), y (A.src j) := by
  have hsum : ∀ e < conf.size, prefixSum (switch A.src A.dst y) (A.dst e + 1) =
      ∑ j ∈ (Finset.range conf.size).filter (A.dst · ≤ A.dst e), y (A.src j) := fun e he => by
    rw [prefixSum_eq_sum, ← sum_upTo A.dst_keeps he]
    rfl
  simp only [gathered, if_pos ((hA.node v hv).mp hvv), switch, Equiv.symm_apply_apply]
  rw [hsum v hv]
  split
  · rename_i h0
    rw [sub_zero]
    refine Finset.sum_congr (Finset.filter_congr fun j _ => ?_) fun _ _ => rfl
    refine (and_iff_left fun w hw hvw hlt => ?_).symm
    rw [← hA.rank w hw v hv hvw hvv, h0] at hlt
    exact absurd hlt (Nat.not_lt_zero _)
  · rename_i h0
    obtain ⟨w, hw, hwv⟩ : ∃ w < conf.size, A.vtx w = A.vtx v - 1 :=
      ⟨A.vtx.symm (A.vtx v - 1), A.vtx_keeps.symm_lt ((Nat.sub_le ..).trans_lt (A.vtx_keeps.lt hv)),
        Equiv.apply_symm_apply ..⟩
    have hvn := (hA.node v hv).mp hvv
    have hvw : L.isV w = true := (hA.node w hw).mpr (by omega)
    have hle : ∀ u < conf.size, L.isV u = true → L.src u ≤ L.src v → A.dst u ≤ A.dst v :=
      fun u hu hvu hle => by
        rwa [hA.target u hu v hv hvv (hA.kept u hu hvu), hV.loop u hu hvu, hV.loop v hv hvv]
    rw [← hwv, Equiv.symm_apply_apply, hsum w hw, sum_between]
    · refine Finset.sum_congr (Finset.filter_congr fun j hj => ?_) fun _ _ => rfl
      rw [and_comm]
      refine and_congr_right fun _ => ⟨fun h u hu hvu hlt => ?_, fun h => h w hw hvw ?_⟩
      · refine lt_of_le_of_lt ?_ h
        rw [hA.target u hu w hw hvw (hA.kept u hu hvu), hV.loop u hu hvu, hV.loop w hw hvw,
          ← hA.vtx_le hu hw hvu hvw]
        have := (hA.rank u hu v hv hvu hvv).mpr hlt
        omega
      · rw [← hA.rank w hw v hv hvw hvv]
        omega
    · refine hle w hw hvw ?_
      rw [← hA.vtx_le hw hv hvw hvv]
      omega

theorem Arranges.summed_iff (hV : L.Valid conf) (hA : L.Arranges surplus A) {e v : ℕ}
    (he : e < conf.size) (hs : surplus e = false) (hv : v < conf.size) (hvv : L.isV v = true) :
    (A.dst e ≤ A.dst v ∧
      ∀ w < conf.size, L.isV w = true → L.src w < L.src v → A.dst w < A.dst e) ↔
        L.Delivers conf.size e (L.src v) := by
  rw [Delivers, hA.target e he v hv hvv hs, hV.loop v hv hvv]
  refine and_congr_right fun _ => forall₂_congr fun w hw => forall₂_congr fun hvw _ => ?_
  rw [← not_le, hA.target e he w hw hvw hs, hV.loop w hw hvw, BitVec.not_le]

theorem gathered_node (hV : L.Valid conf) (hA : L.Arranges surplus A)
    (hsrc : L.Sourced conf.size) (hx : L.States A s x) {v : ℕ} (hv : v < conf.size)
    (hvv : L.isV v = true) : gathered A (propagated A x) (A.vtx v) =
      ∑ e ∈ L.delivered conf.size surplus (L.src v), s (L.src e) := by
  rw [gathered_at hV hA _ hv hvv, delivered, Finset.sum_filter, Finset.sum_filter]
  refine Finset.sum_congr rfl fun e he => ?_
  have he := Finset.mem_range.mp he
  cases hs : surplus e with
  | true =>
    have hbehind : ¬ A.dst e ≤ A.dst v := (hA.behind e he v hv hvv hs).not_ge
    simp [hbehind]
  | false =>
    obtain ⟨u, hu, hvu, hue⟩ := hsrc e he
    simp only [hA.summed_iff hV he hs hv hvv, true_and,
      propagated_entry hA hx he hs hu hvu hue]
    cases hve : L.isV e with
    | true => simp [hx.node e he hve]
    | false =>
      have hle : conf.nodes ≤ A.vtx e := not_lt.mp fun hlt => by
        simp [(hA.node e he).mpr hlt] at hve
      simp [hx.edge _ hle (A.vtx_keeps.lt he)]

theorem gathered_edge (A : Arrangement conf) (y : ℕ → Ring) {p : ℕ} (hp : conf.nodes ≤ p) :
    gathered A y p = 0 :=
  if_neg hp.not_gt

def rank (L : DagList) (size : ℕ) (id : Ring) : ℕ :=
  ((Finset.range size).filter fun v => L.isV v = true ∧ L.src v < id).card

theorem Arranges.vtx_eq (hA : L.Arranges surplus A) {v : ℕ} (hv : v < conf.size)
    (hvv : L.isV v = true) : A.vtx v = L.rank conf.size (L.src v) := by
  have hvn := (hA.node v hv).mp hvv
  have h := sum_positions A.vtx_keeps (A.vtx_keeps.lt hv).le fun _ => (1 : ℕ)
  simp only [Finset.sum_const, Finset.card_range, smul_eq_mul, mul_one] at h
  rw [h, DagList.rank]
  refine congrArg Finset.card (Finset.filter_congr fun u hu => ?_)
  have hu := Finset.mem_range.mp hu
  constructor
  · intro hlt
    have hvu := (hA.node u hu).mpr (hlt.trans hvn)
    exact ⟨hvu, (hA.rank u hu v hv hvu hvv).mp hlt⟩
  · exact fun ⟨hvu, hlt⟩ => (hA.rank u hu v hv hvu hvv).mpr hlt

end DagList

def Op.onNode (r : ℕ) (env : List Ring) : Op → List Ring
  | multiply x y => env ++ [env.getD x 0 * env.getD y 0]
  | multiplyByConstant x k => env ++ [env.getD x 0 * k]
  | add x y => env ++ [env.getD x 0 + env.getD y 0]
  | subtract x y => env ++ [env.getD x 0 - env.getD y 0]
  | addConstant x k => env ++ [env.getD x 0 + k]
  | flip x => env ++ [1 - env.getD x 0]
  | clip x =>
    env.set x (if env.getD x 0 = 0 then 1 else 0) ++ [if env.getD x 0 = 0 then 0 else 1]
  | setConstVector vals => env ++ [vals.getD r 0]

def Body.onNode {arity : ℕ} (b : Body arity) (r : ℕ) (args : List Ring) : Ring :=
  (b.ops.foldl (Op.onNode r) args).getD b.ret 0

theorem map_getD (env : List (ℕ → Ring)) (k r : ℕ) :
    (env.map (· r)).getD k 0 = env.getD k 0 r := by
  rw [List.getD_eq_getElem?_getD, List.getD_eq_getElem?_getD, List.getElem?_map]
  cases env[k]? <;> rfl

theorem Op.eval_node (op : Op) {nodes r : ℕ} (hr : r < nodes) (env : List (ℕ → Ring)) :
    (op.eval nodes env).map (· r) = op.onNode r (env.map (· r)) := by
  cases op <;> simp only [Op.eval, Op.onNode, List.map_append, List.map_set, List.map_cons,
    List.map_nil, map_getD, hr, if_true, true_and, clipped]

theorem Body.eval_node {arity : ℕ} (b : Body arity) {nodes r : ℕ} (hr : r < nodes)
    (args : List (ℕ → Ring)) : b.eval nodes args r = b.onNode r (args.map (· r)) := by
  have hops : ∀ (ops : List Op) (env : List (ℕ → Ring)),
      (ops.foldl (Op.eval nodes) env).map (· r) = ops.foldl (Op.onNode r) (env.map (· r)) := by
    intro ops
    induction ops with
    | nil => exact fun _ => rfl
    | cons op ops ih => exact fun env => by rw [List.foldl_cons, List.foldl_cons, ih, op.eval_node hr]
  rw [Body.eval, Body.onNode, ← hops, map_getD]

def Op.Arithmetic (nodes : ℕ) : Op → Prop
  | flip _ | clip _ => False
  | setConstVector vals => vals.length ≤ nodes
  | _ => True

def Body.Arithmetic {arity : ℕ} (b : Body arity) (nodes : ℕ) : Prop :=
  ∀ op ∈ b.ops, op.Arithmetic nodes

theorem Op.Arithmetic.eval_edge {nodes p : ℕ} (hp : nodes ≤ p) {op : Op}
    (hop : op.Arithmetic nodes) {env : List (ℕ → Ring)} (henv : ∀ x ∈ env, x p = 0) :
    ∀ x ∈ op.eval nodes env, x p = 0 := by
  have hget : ∀ k, env.getD k 0 p = 0 := fun k => by
    rw [List.getD_eq_getElem?_getD]
    cases hk : env[k]? with
    | none => rfl
    | some x => exact henv x (List.mem_of_getElem? hk)
  have hn := hp.not_gt
  cases op with
  | flip x => exact hop.elim
  | clip x => exact hop.elim
  | setConstVector vals =>
    have hlen : vals.length ≤ nodes := hop
    simp only [Op.eval, List.forall_mem_append, List.forall_mem_singleton]
    exact ⟨henv, by simp [List.getD_eq_getElem?_getD, hlen.trans hp]⟩
  | _ =>
    simp only [Op.eval, List.forall_mem_append, List.forall_mem_singleton]
    exact ⟨henv, by simp [hget, hn]⟩

theorem Body.Arithmetic.eval_edge {arity : ℕ} {b : Body arity} {nodes p : ℕ} (hp : nodes ≤ p)
    (hb : b.Arithmetic nodes) {args : List (ℕ → Ring)} (hargs : ∀ x ∈ args, x p = 0) :
    b.eval nodes args p = 0 := by
  have hops : ∀ (ops : List Op) (env : List (ℕ → Ring)), (∀ op ∈ ops, op.Arithmetic nodes) →
      (∀ x ∈ env, x p = 0) → ∀ x ∈ ops.foldl (Op.eval nodes) env, x p = 0 := by
    intro ops
    induction ops with
    | nil => exact fun _ _ henv => henv
    | cons op ops ih =>
      intro env hop henv
      obtain ⟨h1, h2⟩ := List.forall_mem_cons.mp hop
      exact ih _ h2 (h1.eval_edge hp henv)
  rw [Body.eval, List.getD_eq_getElem?_getD]
  cases hk : (b.ops.foldl (Op.eval nodes) args)[b.ret]? with
  | none => rfl
  | some x => exact hops b.ops args hb hargs x (List.mem_of_getElem? hk)

theorem Body.Arithmetic.clipFree {arity : ℕ} {b : Body arity} {nodes : ℕ}
    (hb : b.Arithmetic nodes) : b.ClipFree := by
  intro op hop
  have := hb op hop
  cases op with
  | clip x => exact this.elim
  | _ => rfl

theorem Body.Arithmetic.fits {arity : ℕ} {b : Body arity} {nodes size : ℕ} (hz : nodes ≤ size)
    (hb : b.Arithmetic nodes) : b.Fits size := by
  intro op hop
  have := hb op hop
  cases op with
  | setConstVector vals => exact le_trans this hz
  | _ => trivial

end GraphMpc
