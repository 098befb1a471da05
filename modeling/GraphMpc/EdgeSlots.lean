import GraphMpc.Shapes

namespace GraphMpc

open Circuit

section constants

-- the entry of a value at every edge slot, from the program alone
def Op.atEdges (env : List Ring) : Op → List Ring
  | multiply _ _ | setConstVector _ => env ++ [0]
  | multiplyByConstant x k => env ++ [env.getD x 0 * k]
  | add x y => env ++ [env.getD x 0 + env.getD y 0]
  | subtract x y => env ++ [env.getD x 0 - env.getD y 0]
  | addConstant x _ => env ++ [env.getD x 0]
  | flip x => env ++ [1 - env.getD x 0]
  | clip x => env.set x 0 ++ [1]

def Body.atEdges {arity : ℕ} (b : Body arity) (args : List Ring) : Ring :=
  (b.ops.foldl Op.atEdges args).getD b.ret 0

def Program.stateAtEdges (p : Program) (column : ℕ) : ℕ → Ring
  | 0 => match p.initNodes column with
    | none => 0
    | some b => b.atEdges []
  | i + 1 => (p.apply i column).atEdges [p.stateAtEdges column i, 0]

def Program.messageAtEdges (p : Program) (column i : ℕ) : Ring :=
  (p.prepare i column).atEdges [p.stateAtEdges column i]

def Gate.atEdges (f : Gate) (e e' : Ring) : Ring :=
  match f.type with
  | .mulConstSIMD => e * f.val
  | .flip => 1 - e
  | .addSIMD => e + e'
  | .subSIMD => e - e'
  | _ => e

def Gate.Clears (nodes : ℕ) (f : Gate) : Prop :=
  f.type = .gather2 ∨ f.type = .setConstVecSIMD ∧ f.vals.length ≤ nodes ∨
    (f.type = .bit2A ∨ f.type = .mulSIMD ∧ f.binary = false) ∧ f.size ≤ nodes

def Gate.Linear (f : Gate) : Prop :=
  f.type = .mulConstSIMD ∨ f.type = .addConstSIMD ∨ f.type = .flip ∨ f.type = .addSIMD ∨
    f.type = .subSIMD

end constants

-- behind the prepared circuit c0, the wire carries the constant at every edge slot
inductive AtEdges (c0 : Circuit) (gates : List Gate) : ℕ → Ring → Prop
  | loaded {k x : ℕ} (hk : c0.nWires ≤ k) (hx : x ∈ dataWires c0)
      (h : loadGates k c0.ctx x ⊆ gates) : AtEdges c0 gates (k + 1) 0
  | cleared {f : Gate} (hf : f ∈ gates) (hk : c0.nWires ≤ f.outIdx) (h : f.Clears c0.nodes) :
      AtEdges c0 gates f.outIdx 0
  | linear {f : Gate} {e : Ring} (e' : Ring) (hf : f ∈ gates) (hk : c0.nWires ≤ f.outIdx)
      (h : f.Linear) (h1 : AtEdges c0 gates f.in1Idx e)
      (h2 : f.type = .addSIMD ∨ f.type = .subSIMD → AtEdges c0 gates f.in2Idx e') :
      AtEdges c0 gates f.outIdx (f.atEdges e e')

structure AfterSorts (c0 : Circuit) (gates : List Gate) (f : Gate) : Prop where
  unsorted : f.type ≠ .compaction ∧ f.type ≠ .reveal
  order : f.type = .permute ∨ f.type = .reversePermute → f.in2Idx ∈ openedOrders c0.ctx
  tested : f.type = .eqz → f.layer = 0 → f.size = c0.nodes ∧ ∃ e, AtEdges c0 gates f.in1Idx e

-- a circuit that continues the prepared circuit c0, with the constants of its messages in order
structure Continues (c0 c : Circuit) (es : List Ring) : Prop where
  wires : c.nWires = c.gates.length
  le : c0.nWires ≤ c.nWires
  params : c.params = c0.params
  ctx : c.ctx = c0.ctx
  inp : c.inp = c0.inp
  after : ∀ f ∈ c.gates, c0.nWires ≤ f.outIdx → AfterSorts c0 c.gates f
  sent : List.Forall₂ (fun f e => AtEdges c0 c.gates f.in1Idx e)
    (c.gates.filter (·.type = .propagate1)) es

section continues

variable {c0 c c' : Circuit} {gates gates' : List Gate} {w : ℕ} {e : Ring} {es es' : List Ring}
  {L : List Gate} {f : Gate}

theorem AtEdges.mono (h : AtEdges c0 gates w e) (hs : gates ⊆ gates') : AtEdges c0 gates' w e := by
  induction h with
  | loaded hk hx h => exact .loaded hk hx (List.Subset.trans h hs)
  | cleared hf hk h => exact .cleared (hs hf) hk h
  | linear e' hf hk h _ _ ih1 ih2 => exact .linear e' (hs hf) hk h ih1 ih2

theorem AfterSorts.of_plain
    (h : f.type ∉ [.compaction, .reveal, .permute, .reversePermute, .eqz]) :
    AfterSorts c0 gates f := by
  simp only [List.mem_cons, List.not_mem_nil, or_false, not_or] at h
  obtain ⟨hcompaction, hreveal, hpermute, hreverse, heqz⟩ := h
  exact ⟨⟨hcompaction, hreveal⟩, fun ht => absurd ht (by simp [hpermute, hreverse]),
    fun ht => absurd ht heqz⟩

theorem AfterSorts.mono (h : AfterSorts c0 gates f) (hs : gates ⊆ gates') :
    AfterSorts c0 gates' f where
  unsorted := h.unsorted
  order := h.order
  tested ht hl := by
    obtain ⟨hsize, e, he⟩ := h.tested ht hl
    exact ⟨hsize, e, he.mono hs⟩

theorem Continues.nodes (h : Continues c0 c es) : c.nodes = c0.nodes := by
  have hp := h.params
  simp only [Circuit.params, Prod.mk.injEq] at hp
  exact hp.2.1

theorem Continues.append (h : Continues c0 c es) (hg : c'.gates = c.gates ++ L)
    (hw : c'.nWires = c.nWires + L.length) (hp : c'.params = c.params) (hctx : c'.ctx = c.ctx)
    (hinp : c'.inp = c.inp) (hL : ∀ f ∈ L, AfterSorts c0 c'.gates f)
    (hes : List.Forall₂ (fun f e => AtEdges c0 c'.gates f.in1Idx e)
      (L.filter (·.type = .propagate1)) es') : Continues c0 c' (es ++ es') := by
  have hsub : c.gates ⊆ c'.gates := hg ▸ List.subset_append_left ..
  refine ⟨by rw [hw, hg, List.length_append, h.wires], h.le.trans (hw ▸ Nat.le_add_right ..),
    hp.trans h.params, hctx.trans h.ctx, hinp.trans h.inp, fun f hf hk => ?_, ?_⟩
  · rw [hg] at hf
    rcases List.mem_append.mp hf with hf | hf
    · exact (h.after f hf hk).mono hsub
    · exact hL f hf
  · rw [hg, List.filter_append]
    refine List.rel_append ?_ (hg ▸ hes)
    exact h.sent.imp fun f e he => hg ▸ he.mono hsub

end continues

-- m extends every continuation of c0 whose gates meet P, and its messages carry es
def Carries {α : Type} (c0 : Circuit) (P : List Gate → Prop) (es : List Ring) (m : Build α)
    (Q : α → List Gate → Prop) : Prop :=
  ∀ c ks, Continues c0 c ks → P c.gates →
    Continues c0 (m c).2 (ks ++ es) ∧ c.gates ⊆ (m c).2.gates ∧ Q (m c).1 (m c).2.gates

namespace Carries

variable {α β : Type} {c0 : Circuit} {P : List Gate → Prop} {es es' : List Ring}

theorem pure {a : α} {Q : α → List Gate → Prop} (h : ∀ G, P G → Q a G) :
    Carries c0 P [] (Pure.pure a : Build α) Q := fun c ks hc hP => by
  rw [List.append_nil]
  exact ⟨hc, List.Subset.refl _, h _ hP⟩

theorem bind {m : Build α} {f : α → Build β} {Q : α → List Gate → Prop}
    {R : β → List Gate → Prop} (hm : Carries c0 P es m Q)
    (hf : ∀ a, Carries c0 (Q a) es' (f a) R) : Carries c0 P (es ++ es') (m >>= f) R :=
  fun c ks hc hP => by
    obtain ⟨h1, hs1, hq⟩ := hm c ks hc hP
    obtain ⟨h2, hs2, hr⟩ := hf _ _ _ h1 hq
    rw [← List.append_assoc]
    exact ⟨h2, List.Subset.trans hs1 hs2, hr⟩

theorem map {m : Build α} {f : α → β} {Q : β → List Gate → Prop}
    (hm : Carries c0 P es m fun a => Q (f a)) :
    Carries c0 P es (m >>= fun a => Pure.pure (f a)) Q := hm

theorem get {f : Circuit → Build β} {Q : β → List Gate → Prop}
    (hf : ∀ c ks, Continues c0 c ks → Carries c0 P es (f c) Q) :
    Carries c0 P es (MonadState.get >>= f) Q := fun c ks hc hP => hf c ks hc c ks hc hP

theorem keep {m : Build α} {Q : α → List Gate → Prop} {R : List Gate → Prop}
    (hR : ∀ {G G'}, R G → G ⊆ G' → R G') (h : Carries c0 P es m Q) :
    Carries c0 (fun G => P G ∧ R G) es m fun a G => Q a G ∧ R G := fun c ks hc hP => by
  obtain ⟨h1, hs, hq⟩ := h c ks hc hP.1
  exact ⟨h1, hs, hq, hR hP.2 hs⟩

theorem imp {m : Build α} {Q Q' : α → List Gate → Prop} {P' : List Gate → Prop}
    (h : Carries c0 P es m Q) (hP : ∀ G, P' G → P G) (hQ : ∀ a G, Q a G → Q' a G) :
    Carries c0 P' es m Q' := fun c ks hc hp => by
  obtain ⟨h1, hs, hq⟩ := h c ks hc (hP _ hp)
  exact ⟨h1, hs, hQ _ _ hq⟩

theorem forM {f : β → Build Unit} {l : List β}
    (hf : ∀ b, Carries c0 (fun _ => True) [] (f b) fun _ _ => True) :
    Carries c0 (fun _ => True) [] (l.forM f) fun _ _ => True := by
  induction l with
  | nil => exact pure fun _ _ => trivial
  | cons b l ih => exact (hf b).bind fun _ => ih

end Carries

section operations

variable {c0 : Circuit} {env : List ℕ} {es : List Ring}

theorem Continues.single {c c' : Circuit} {ks : List Ring} {f : Gate} (h : Continues c0 c ks)
    (hg : c'.gates = c.gates ++ [f]) (hw : c'.nWires = c.nWires + 1) (hp : c'.params = c.params)
    (hctx : c'.ctx = c.ctx) (hinp : c'.inp = c.inp) (hf : AfterSorts c0 c'.gates f)
    (ht : f.type ≠ .propagate1) : Continues c0 c' (ks ++ []) :=
  h.append hg hw hp hctx hinp (List.forall_mem_singleton.mpr hf) (by simp [ht])

theorem Carries.operation {m : Build (List ℕ)} {e : Ring} (mk : Circuit → Gate)
    (hrun : ∀ c, c.nWires = c.gates.length → (m c).1 = env ++ [(mk c).outIdx] ∧
      (m c).2.gates = c.gates ++ [mk c] ∧ (m c).2.nWires = c.nWires + 1 ∧
      (m c).2.params = c.params ∧ (m c).2.ctx = c.ctx ∧ (m c).2.inp = c.inp)
    (hout : ∀ c, (mk c).outIdx = c.nWires)
    (ht : ∀ c, (mk c).type ∉ [.compaction, .reveal, .permute, .reversePermute, .eqz])
    (hp : ∀ c, (mk c).type ≠ .propagate1)
    (he : ∀ c ks, Continues c0 c ks → ∀ G, mk c ∈ G → c0.nWires ≤ (mk c).outIdx →
      List.Forall₂ (AtEdges c0 G) env es → AtEdges c0 G (mk c).outIdx e) :
    Carries c0 (fun G => List.Forall₂ (AtEdges c0 G) env es) [] m
      fun env' G => List.Forall₂ (AtEdges c0 G) env' (es ++ [e]) := fun c ks hc henv => by
  obtain ⟨h1, h2, h3, h4, h5, h6⟩ := hrun c hc.wires
  have hs : c.gates ⊆ (m c).2.gates := h2 ▸ List.subset_append_left ..
  have henv' := henv.imp fun _ _ h => h.mono hs
  refine ⟨hc.single h2 h3 h4 h5 h6 (.of_plain (ht c)) (hp c), hs, ?_⟩
  rw [h1]
  refine List.rel_append henv' (.cons (he c ks hc _ ?_ (hout c ▸ hc.le) henv') .nil)
  rw [h2]
  exact List.mem_append_right _ (List.mem_singleton_self _)

theorem clipGates_edges {G : List Gate} {k m x n : ℕ} {e : Ring} (hn : n = c0.nodes)
    (hk : c0.nWires ≤ k) (hs : clipGates k m x n ⊆ G) (hx : AtEdges c0 G x e) :
    AtEdges c0 G (k + 5) 0 ∧ AtEdges c0 G (k + 6) 1 ∧
      ∀ f ∈ clipGates k m x n, AfterSorts c0 G f := by
  subst hn
  have hafter : ∀ f ∈ clipGates k m x c0.nodes, AfterSorts c0 G f := by
    intro f hf
    have hshape : f.type = .eqz ∧ (f.layer = 0 → f.size = c0.nodes ∧ f.in1Idx = x) ∨
        f.type = .bit2A ∨ f.type = .flip := by
      simp only [clipGates, equalsZeroGates, List.cons_append, List.nil_append, List.mem_cons,
        List.not_mem_nil, or_false] at hf
      rcases hf with rfl | rfl | rfl | rfl | rfl | rfl | rfl <;> simp
    rcases hshape with ⟨ht, hf⟩ | ht | ht
    · refine ⟨by simp [ht], by simp [ht], fun _ hl => ?_⟩
      obtain ⟨hsize, hin⟩ := hf hl
      exact ⟨hsize, e, hin ▸ hx⟩
    · exact .of_plain (by simp [ht])
    · exact .of_plain (by simp [ht])
  simp only [clipGates, List.append_subset, List.cons_subset] at hs
  obtain ⟨-, hbit, hflip, -⟩ := hs
  have h5 : AtEdges c0 G (k + 5) 0 :=
    .cleared hbit (hk.trans (Nat.le_add_right ..)) (Or.inr (Or.inr ⟨Or.inl rfl, le_rfl⟩))
  have h6 : AtEdges c0 G (k + 6) (1 - 0) :=
    .linear 0 hflip (hk.trans (Nat.le_add_right ..)) (by simp [Gate.Linear]) h5 (by simp)
  rw [sub_zero] at h6
  exact ⟨h5, h6, hafter⟩

theorem Op.exec_carries (op : Op) (hs : op.operands.all (· < env.length) = true)
    (hf : op.Fits c0.nodes) : Carries c0 (fun G => List.Forall₂ (AtEdges c0 G) env es) []
      (op.exec env) fun env' G => List.Forall₂ (AtEdges c0 G) env' (op.atEdges es) := by
  have harg : ∀ k ∈ op.operands, ∀ {G}, List.Forall₂ (AtEdges c0 G) env es →
      AtEdges c0 G (env.getD k 0) (es.getD k 0) := fun k hk _ h =>
    forall₂_getD h 0 0 (of_decide_eq_true (List.all_eq_true.mp hs k hk))
  cases op with
  | multiply x y =>
    refine .operation (fun c =>
        { type := .mulSIMD, gId := c.gates.length, in1Idx := env.getD x 0, in2Idx := env.getD y 0,
          outIdx := c.nWires, size := c.nodes, multIdx := c.nMults })
      (fun c _ => ⟨rfl, rfl, rfl, rfl, rfl, rfl⟩) (fun _ => rfl)
      (fun _ => by simp) (fun _ => by simp)
      fun c ks hc G hm hk h => .cleared hm hk (Or.inr (Or.inr ⟨Or.inr ⟨rfl, rfl⟩, hc.nodes.le⟩))
  | multiplyByConstant x k =>
    refine .operation (fun c =>
        { type := .mulConstSIMD, gId := c.gates.length, in1Idx := env.getD x 0, val := k,
          outIdx := c.nWires })
      (fun c _ => ⟨rfl, rfl, rfl, rfl, rfl, rfl⟩) (fun _ => rfl)
      (fun _ => by simp) (fun _ => by simp)
      fun c ks hc G hm hk h => .linear 0 hm hk (by simp [Gate.Linear])
        (harg x (by simp [operands]) h) (by simp)
  | add x y =>
    refine .operation (fun c =>
        { type := .addSIMD, gId := c.gates.length, in1Idx := env.getD x 0, in2Idx := env.getD y 0,
          outIdx := c.nWires })
      (fun c _ => ⟨rfl, rfl, rfl, rfl, rfl, rfl⟩) (fun _ => rfl)
      (fun _ => by simp) (fun _ => by simp)
      fun c ks hc G hm hk h => .linear _ hm hk (by simp [Gate.Linear])
        (harg x (by simp [operands]) h) fun _ => harg y (by simp [operands]) h
  | subtract x y =>
    refine .operation (fun c =>
        { type := .subSIMD, gId := c.gates.length, in1Idx := env.getD x 0, in2Idx := env.getD y 0,
          outIdx := c.nWires })
      (fun c _ => ⟨rfl, rfl, rfl, rfl, rfl, rfl⟩) (fun _ => rfl)
      (fun _ => by simp) (fun _ => by simp)
      fun c ks hc G hm hk h => .linear _ hm hk (by simp [Gate.Linear])
        (harg x (by simp [operands]) h) fun _ => harg y (by simp [operands]) h
  | addConstant x k =>
    refine .operation (fun c =>
        { type := .addConstSIMD, gId := c.gates.length, in1Idx := env.getD x 0, val := k,
          outIdx := c.nWires })
      (fun c _ => ⟨rfl, rfl, rfl, rfl, rfl, rfl⟩) (fun _ => rfl)
      (fun _ => by simp) (fun _ => by simp)
      fun c ks hc G hm hk h => .linear 0 hm hk (by simp [Gate.Linear])
        (harg x (by simp [operands]) h) (by simp)
  | flip x =>
    refine .operation (fun c =>
        { type := .flip, gId := c.gates.length, in1Idx := env.getD x 0, outIdx := c.nWires })
      (fun c _ => ⟨rfl, rfl, rfl, rfl, rfl, rfl⟩) (fun _ => rfl)
      (fun _ => by simp) (fun _ => by simp)
      fun c ks hc G hm hk h => .linear 0 hm hk (by simp [Gate.Linear])
        (harg x (by simp [operands]) h) (by simp)
  | setConstVector vals =>
    refine .operation (fun c =>
        { type := .setConstVecSIMD, gId := c.gates.length, vals := vals, outIdx := c.nWires })
      (fun c _ => ⟨rfl, rfl, rfl, rfl, rfl, rfl⟩) (fun _ => rfl)
      (fun _ => by simp) (fun _ => by simp)
      fun c ks hc G hm hk h => .cleared hm hk (Or.inr (Or.inl ⟨rfl, hf⟩))
  | clip x =>
    intro c ks hc henv
    have hexec : (Op.clip x).exec env c = (env.set x (c.nWires + 5) ++ [c.nWires + 6],
        (clipSIMD (env.getD x 0) c).2) := by
      simp only [Op.exec, bind_run, clipSIMD_run hc.wires, pure_run]
    rw [hexec, clipSIMD_run hc.wires]
    have hsub := List.subset_append_left c.gates
      (clipGates c.nWires c.nMults (env.getD x 0) c.nodes)
    have henv' := henv.imp fun _ _ h => h.mono hsub
    obtain ⟨hbit, hflip, hafter⟩ := clipGates_edges hc.nodes hc.le
      (List.subset_append_right c.gates _) (harg x (by simp [operands]) henv')
    refine ⟨hc.append rfl (by simp [clipGates, equalsZeroGates]) rfl rfl rfl hafter ?_, hsub, ?_⟩
    · simp [clipGates, equalsZeroGates]
    · exact List.rel_append (forall₂_set henv' x hbit) (.cons hflip .nil)

theorem Op.exec_length (op : Op) (env : List ℕ) (c : Circuit) :
    (op.exec env c).1.length = env.length + 1 := by
  cases op <;> simp [Op.exec, bind_run, pure_run]

theorem ops_carry (ops : List Op) (hs : inScope env.length ops = true)
    (hf : ∀ op ∈ ops, op.Fits c0.nodes) :
    Carries c0 (fun G => List.Forall₂ (AtEdges c0 G) env es) [] (ops.foldlM Op.exec env)
      fun env' G => List.Forall₂ (AtEdges c0 G) env' (ops.foldl Op.atEdges es) := by
  induction ops generalizing env es with
  | nil => exact .pure fun _ h => h
  | cons op ops ih =>
    obtain ⟨h1, h2⟩ := Bool.and_eq_true_iff.mp hs
    obtain ⟨f1, f2⟩ := List.forall_mem_cons.mp hf
    intro c ks hc hP
    obtain ⟨k1, s1, q1⟩ := op.exec_carries h1 f1 c ks hc hP
    rw [List.append_nil] at k1
    rw [foldlM_cons_run]
    have hlen := op.exec_length env c
    obtain ⟨k2, s2, q2⟩ := ih (by rwa [hlen]) f2 _ _ k1 q1
    exact ⟨k2, List.Subset.trans s1 s2, q2⟩

theorem Body.exec_carries {arity : ℕ} (b : Body arity) (env : List ℕ) (es : List Ring)
    (hl : env.length = arity) (hf : b.Fits c0.nodes) :
    Carries c0 (fun G => List.Forall₂ (AtEdges c0 G) env es) [] (b.exec env)
      fun w G => AtEdges c0 G w (b.atEdges es) := by
  have hops := @ops_carry c0 env es b.ops (by rw [hl]; exact b.ops_scoped) hf
  intro c ks hc hP
  obtain ⟨k1, s1, q1⟩ := hops c ks hc hP
  refine ⟨k1, s1, forall₂_getD q1 0 0 ?_⟩
  have hlen : ∀ (ops : List Op) (env : List ℕ) (c : Circuit),
      (ops.foldlM Op.exec env c).1.length = env.length + ops.length := by
    intro ops
    induction ops with
    | nil => exact fun _ _ => rfl
    | cons op ops ih =>
      intro env c
      rw [foldlM_cons_run, ih, op.exec_length, List.length_cons]
      omega
  rw [hlen, hl]
  exact b.ret_lt

end operations

section rounds

variable {c0 : Circuit} {p : Program} {column : ℕ}

theorem routeGates_after (k i1 i2 i3 x : ℕ) (G : List Gate) :
    ∀ f ∈ routeGates k c0.ctx i1 i2 i3 x, AfterSorts c0 G f := by
  simp only [routeGates, List.forall_mem_cons]
  and_intros
  all_goals
    first
      | exact ⟨by simp, by simp [openedOrders], by simp⟩
      | simp

theorem route_carries (i1 i2 i3 x : ℕ) {e : Ring} :
    Carries c0 (fun G => AtEdges c0 G x e) [e] (route c0.ctx i1 i2 i3 x)
      fun w G => AtEdges c0 G w 0 := by
  intro c ks hc hP
  have hs := List.subset_append_left c.gates (routeGates c.nWires c0.ctx i1 i2 i3 x)
  have hs' := List.subset_append_right c.gates (routeGates c.nWires c0.ctx i1 i2 i3 x)
  refine ⟨hc.append (L := routeGates c.nWires c0.ctx i1 i2 i3 x) rfl rfl rfl rfl rfl
    (routeGates_after _ _ _ _ _ _) ?_, hs, ?_⟩
  · have hfilter : (routeGates c.nWires c0.ctx i1 i2 i3 x).filter (·.type = .propagate1) =
        [{ type := .propagate1, gId := c.nWires, in1Idx := x, outIdx := c.nWires }] := rfl
    rw [hfilter]
    exact .cons (hP.mono hs) .nil
  · simp only [routeGates, List.cons_subset] at hs'
    obtain ⟨-, -, -, -, -, -, -, -, -, -, -, -, -, -, -, hgather, -⟩ := hs'
    exact .cleared hgather (hc.le.trans (Nat.le_add_right ..)) (Or.inl rfl)

theorem round_carries (hp : p.Fits c0.nodes) (i1 i2 i3 w i : ℕ) :
    Carries c0 (fun G => AtEdges c0 G w (p.stateAtEdges column i)) [p.messageAtEdges column i]
      (mpRound p.algorithm c0.ctx i1 i2 i3 column w i)
      fun v G => AtEdges c0 G v (p.stateAtEdges column (i + 1)) := by
  intro c ks hc hP
  have hprep : Carries c0 (fun G => AtEdges c0 G w (p.stateAtEdges column i)) []
      (p.algorithm.prepare w i column) fun m G => AtEdges c0 G m (p.messageAtEdges column i) :=
    ((p.prepare i column).exec_carries [w] [_] rfl (hp.2.1 i column).1).imp
      (fun G h => .cons h .nil) fun _ _ h => h
  have happ : ∀ u, Carries c0
      (fun G => AtEdges c0 G u 0 ∧ AtEdges c0 G w (p.stateAtEdges column i)) []
      (p.algorithm.apply w u i column) fun v G => AtEdges c0 G v (p.stateAtEdges column (i + 1)) :=
    fun u => ((p.apply i column).exec_carries [w, u] [_, _] rfl (hp.2.1 i column).2).imp
      (fun G h => .cons h.2 (.cons h.1 .nil)) fun _ _ h => h
  have h1 : (p.algorithm.prepare w i column c).2.nWires =
      (p.algorithm.prepare w i column c).2.gates.length := (hprep c ks hc hP).1.wires
  rw [mpRound_run p.algorithm c0.ctx i1 i2 i3 column w i h1]
  have hround := ((hprep.keep (R := fun G => AtEdges c0 G w (p.stateAtEdges column i))
    fun h hs => h.mono hs).bind fun m => ((@route_carries c0 i1 i2 i3 m _).keep
      (R := fun G => AtEdges c0 G w (p.stateAtEdges column i)) fun h hs => h.mono hs).bind happ)
  exact hround c ks hc ⟨hP, hP⟩

theorem rounds_carry (hp : p.Fits c0.nodes) (i1 i2 i3 w n : ℕ) :
    Carries c0 (fun G => AtEdges c0 G w (p.stateAtEdges column 0))
      ((List.range n).map (p.messageAtEdges column))
      ((List.range n).foldlM (mpRound p.algorithm c0.ctx i1 i2 i3 column) w)
      fun v G => AtEdges c0 G v (p.stateAtEdges column n) := by
  induction n with
  | zero => exact .pure fun _ h => h
  | succ n ih =>
    rw [List.range_succ, List.foldlM_append, List.map_append]
    refine ih.bind fun v => ?_
    rw [List.foldlM_cons]
    exact (round_carries hp i1 i2 i3 v n).bind fun _ => .pure fun _ h => h

theorem load_carries {x : ℕ} (hx : x ∈ dataWires c0) :
    Carries c0 (fun _ => True) [] (load c0.ctx x) fun w G => AtEdges c0 G w 0 := by
  intro c ks hc _
  rw [load_run hc.wires]
  refine ⟨hc.append (L := loadGates c.nWires c0.ctx x) rfl rfl rfl rfl rfl ?_ (by simp [loadGates]),
    List.subset_append_left .., .loaded hc.le hx (List.subset_append_right ..)⟩
  simp only [loadGates, List.forall_mem_cons]
  exact ⟨⟨by simp, by simp, by simp⟩, ⟨by simp, by simp [openedOrders], by simp⟩, by simp⟩

theorem initNodes_carries (hp : p.Fits c0.nodes) (w : ℕ) :
    Carries c0 (fun G => AtEdges c0 G w 0) [] (p.algorithm.initNodes column)
      fun o G => AtEdges c0 G (o.getD w) (p.stateAtEdges column 0) := by
  have hfits := hp.1 column
  simp only [Program.algorithm, Program.stateAtEdges]
  cases hb : p.initNodes column with
  | none => exact .pure fun _ h => h
  | some b =>
    exact (((b.exec_carries [] [] rfl (hfits b hb)).imp (fun _ _ => .nil)
      fun _ _ h => h).map (f := some) (Q := fun o G => AtEdges c0 G (o.getD w) (b.atEdges [])))

theorem messagePassing_carries (hp : p.Fits c0.nodes) {x : ℕ} (hx : x ∈ dataWires c0) :
    Carries c0 (fun _ => True) ((List.range c0.depth).map (p.messageAtEdges column))
      (messagePassing p.algorithm x column)
      fun v G => AtEdges c0 G v (p.stateAtEdges column c0.depth) := by
  intro c ks hc hP
  have hrounds : ∀ idx w, Carries c0 (fun G => AtEdges c0 G w (p.stateAtEdges column 0))
      ((List.range c0.depth).map (p.messageAtEdges column)) (do
        (List.range (← get).depth).foldlM
          (mpRound p.algorithm c0.ctx (idx + 1) (idx + 2) (idx + 3) column) w)
      fun v G => AtEdges c0 G v (p.stateAtEdges column c0.depth) := fun idx w =>
    .get fun c2 ks2 h2 => by
      have hparams := h2.params
      simp only [params, Prod.mk.injEq] at hparams
      rw [hparams.2.2.2.1]
      exact rounds_carry hp _ _ _ _ _
  have hall : Carries c0 (fun _ => True) ((List.range c0.depth).map (p.messageAtEdges column)) (do
      let v ← load c0.ctx x
      let idx := (← get).shuffleIdx
      let v := (← p.algorithm.initNodes column).getD v
      (List.range (← get).depth).foldlM
        (mpRound p.algorithm c0.ctx (idx + 1) (idx + 2) (idx + 3) column) v)
      fun v G => AtEdges c0 G v (p.stateAtEdges column c0.depth) :=
    (load_carries hx).bind fun w => .get fun c1 _ _ => (initNodes_carries hp w).bind fun o =>
      hrounds c1.shuffleIdx (o.getD w)
  rw [messagePassing_run, hc.ctx]
  exact hall c ks hc hP

end rounds

section columns

variable {c0 : Circuit} {p : Program} (hp : p.Fits c0.nodes)

include hp

theorem columns_carry (data : ℕ → ℕ) (l : List ℕ) (hx : ∀ i ∈ l, data i ∈ dataWires c0) :
    Carries c0 (fun _ => True)
      (l.flatMap fun column => (List.range c0.depth).map (p.messageAtEdges column))
      (l.mapM fun i => messagePassing p.algorithm (data i) i)
      fun ws G => List.Forall₂ (fun w i => AtEdges c0 G w (p.stateAtEdges i c0.depth)) ws l := by
  induction l with
  | nil => exact .pure fun _ _ => .nil
  | cons i l ih =>
    obtain ⟨hi, hl⟩ := List.forall_mem_cons.mp hx
    rw [List.mapM_cons, List.flatMap_cons]
    refine (messagePassing_carries hp hi).bind fun w => ?_
    have hrest := ((ih hl).keep (R := fun G => AtEdges c0 G w (p.stateAtEdges i c0.depth))
      fun h hs => h.mono hs).imp
        (fun G (h : AtEdges c0 G w (p.stateAtEdges i c0.depth)) => ⟨trivial, h⟩)
        fun ws G (h : List.Forall₂ (fun w i => AtEdges c0 G w (p.stateAtEdges i c0.depth)) ws l ∧ _) =>
          (List.Forall₂.cons h.2 h.1 : List.Forall₂
            (fun w i => AtEdges c0 G w (p.stateAtEdges i c0.depth)) (w :: ws) (i :: l))
    exact hrest.map (f := (w :: ·)) (Q := fun ws G =>
      List.Forall₂ (fun w i => AtEdges c0 G w (p.stateAtEdges i c0.depth)) ws (i :: l))

theorem posts_carry (f : ℕ → ℕ) (l : List ℕ) :
    Carries c0 (fun G => ∀ i ∈ l, AtEdges c0 G (f i) (p.stateAtEdges i c0.depth)) []
      (l.mapM fun i => p.algorithm.postMp (f i) i) fun _ _ => True := by
  induction l with
  | nil => exact .pure fun _ _ => trivial
  | cons i l ih =>
    rw [List.mapM_cons]
    have hpost : Carries c0 (fun G => AtEdges c0 G (f i) (p.stateAtEdges i c0.depth)) []
        (p.algorithm.postMp (f i) i) fun _ _ => True :=
      ((p.postMp i).exec_carries [f i] [_] rfl (hp.2.2 i)).imp (fun _ h => .cons h .nil)
        fun _ _ _ => trivial
    have hfirst := (hpost.keep
      (R := fun G => ∀ j ∈ l, AtEdges c0 G (f j) (p.stateAtEdges j c0.depth))
      fun h hs j hj => (h j hj).mono hs).imp
      (fun G (h : ∀ j ∈ i :: l, AtEdges c0 G (f j) (p.stateAtEdges j c0.depth)) =>
        ⟨h i (List.mem_cons_self ..), fun j hj => h j (List.mem_cons_of_mem _ hj)⟩) fun _ _ h => h.2
    exact hfirst.bind fun _ => ih.map

omit hp in
theorem outputData_carries (x : ℕ) :
    Carries c0 (fun _ => True) [] (outputData x) fun _ _ => True := by
  intro c ks hc _
  rw [outputData_run hc.wires]
  refine ⟨hc.append (L := outputGates c.nWires c.nodes c.outputsInInputOrder c.ctx x) rfl ?_ rfl rfl
    rfl (fun f hf => ?_) ?_, List.subset_append_left .., trivial⟩
  · cases c.outputsInInputOrder <;> simp [outputGates]
  · rw [hc.ctx] at hf
    cases hb : c.outputsInInputOrder <;> simp only [hb, outputGates, if_true, Bool.false_eq_true,
      if_false, List.mem_cons, List.not_mem_nil, or_false] at hf
    · rcases hf with rfl | rfl <;> exact .of_plain (by simp)
    · rcases hf with rfl | rfl | rfl | rfl <;> exact ⟨by simp, by simp [openedOrders], by simp⟩
  · cases c.outputsInInputOrder <;> simp [outputGates]

theorem states_carry (data : ℕ → ℕ) (n : ℕ) (hx : ∀ i < n, data i ∈ dataWires c0) :
    Carries c0 (fun _ => True)
      ((List.range n).flatMap fun column => (List.range c0.depth).map (p.messageAtEdges column))
      (states p.algorithm data (List.range n)) fun _ _ => True := by
  have hcols := columns_carry hp data (List.range n) fun i hi => hx i (List.mem_range.mp hi)
  refine List.append_nil (List.flatMap _ (List.range n)) ▸ hcols.bind fun ws => ?_
  intro c ks hc hP
  have hbump : Continues c0 (bumpShuffleIdx 3 c).2 (ks ++ []) := by
    rw [List.append_nil]
    exact ⟨hc.wires, hc.le, hc.params, hc.ctx, hc.inp, hc.after, hc.sent⟩
  have hlen := hP.length_eq
  obtain ⟨k, s, -⟩ := posts_carry hp (fun i => ws.getD i 0) (List.range n) _ _ hbump
    fun i hi => by
      have hi' : i < ws.length := by rwa [hlen, List.length_range, ← List.mem_range]
      have hget := hP.get hi' (hlen ▸ hi')
      rw [List.get_eq_getElem, List.get_eq_getElem, List.getElem_range] at hget
      rwa [List.getD_eq_getElem _ _ hi']
  rw [List.append_nil] at k
  exact ⟨k, s, trivial⟩

omit hp in
theorem columnSums_carries (l : List ℕ) :
    Carries c0 (fun _ => True) [] (columnSumsToNodes l) fun _ _ => True := by
  intro c ks hc _
  have hg : (columnSumsToNodes l c).2.gates = c.gates ++ [columnSumsGate c.nWires l] := by
    simp [columnSumsToNodes, addGate_run, columnSumsGate, hc.wires]
  refine ⟨hc.single hg rfl rfl rfl rfl ?_ (by simp [columnSumsGate]), ?_, trivial⟩
  · exact .of_plain (by simp [columnSumsGate])
  · exact hg ▸ List.subset_append_left ..

theorem pass_continues (h0 : Continues c0 c0 []) :
    Continues c0 (pass p.algorithm c0).2 ((visited c0.columns).flatMap fun column =>
      (List.range c0.depth).map (p.messageAtEdges column)) := by
  have hout := fun (data : ℕ → ℕ) n (hx : ∀ i < n, data i ∈ dataWires c0) =>
    ((states_carry hp data n hx).bind fun s => Carries.forM (l := List.range n) fun i =>
      outputData_carries (s.getD i 0)) c0 [] h0 trivial
  by_cases hc : c0.columns > 1
  · have hx : ∀ i < c0.columns, c0.inp.dataParallel.getD i 0 ∈ dataWires c0 := fun i hi => by
      rw [dataWires, if_pos hc]
      exact List.mem_map_of_mem (List.mem_range.mpr hi)
    cases hs : p.columnSums
    · rw [pass_states_many p hc hs]
      simpa [visited, hc] using (hout _ c0.columns hx).1
    · rw [pass_states_sum p hc hs]
      have h := ((states_carry hp _ c0.columns hx).bind fun s => (columnSums_carries s).bind fun w =>
        outputData_carries w) c0 [] h0 trivial
      simpa [visited, hc] using h.1
  · rw [pass_states_one p hc]
    have h := (hout (fun _ => c0.inp.data) 1 fun i hi => by
      rw [dataWires, if_neg hc]
      exact List.mem_singleton_self _).1
    simpa [visited, hc] using h

end columns

end GraphMpc
