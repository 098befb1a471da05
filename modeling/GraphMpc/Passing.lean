import GraphMpc.Evaluation

namespace GraphMpc

open Circuit GraphMpc.Valuation StableOrder Tabulate

section operations

def Op.eval (nodes : ℕ) (env : List (ℕ → Ring)) : Op → List (ℕ → Ring)
  | multiply x y => env ++ [fun i => if i < nodes then env.getD x 0 i * env.getD y 0 i else 0]
  | multiplyByConstant x k => env ++ [fun i => env.getD x 0 i * k]
  | add x y => env ++ [fun i => env.getD x 0 i + env.getD y 0 i]
  | subtract x y => env ++ [fun i => env.getD x 0 i - env.getD y 0 i]
  | addConstant x k =>
    env ++ [fun i => if i < nodes then env.getD x 0 i + k else env.getD x 0 i]
  | flip x => env ++ [fun i => 1 - env.getD x 0 i]
  | clip x =>
    env.set x (fun i => if i < nodes ∧ env.getD x 0 i = 0 then 1 else 0) ++
      [clipped nodes (env.getD x 0)]
  | setConstVector vals => env ++ [fun i => vals.getD i 0]

def Body.eval {arity : ℕ} (b : Body arity) (nodes : ℕ) (args : List (ℕ → Ring)) : ℕ → Ring :=
  (b.ops.foldl (Op.eval nodes) args).getD b.ret 0

def Op.Fits (size : ℕ) : Op → Prop
  | setConstVector vals => vals.length ≤ size
  | _ => True

def Op.isClip : Op → Bool
  | clip _ => true
  | _ => false

variable {conf : ProtocolConfig} {V : Valuation conf} {c : Circuit}

theorem forall₂_getD {α β : Type} {R : α → β → Prop} {l : List α} {l' : List β}
    (h : List.Forall₂ R l l') (a : α) (b : β) {k : ℕ} (hk : k < l.length) :
    R (l.getD k a) (l'.getD k b) := by
  have hk' : k < l'.length := h.length_eq ▸ hk
  rw [List.getD_eq_getElem _ _ hk, List.getD_eq_getElem _ _ hk']
  exact h.get hk hk'

theorem forall₂_set {α β : Type} {R : α → β → Prop} {l : List α} {l' : List β}
    (h : List.Forall₂ R l l') (k : ℕ) {a : α} {b : β} (hab : R a b) :
    List.Forall₂ R (l.set k a) (l'.set k b) := by
  induction h generalizing k with
  | nil => exact .nil
  | cons ha h ih =>
    cases k with
    | zero => exact .cons hab h
    | succ k => exact .cons ha (ih k)

theorem holds_snoc {env : List ℕ} {xs : List (ℕ → Ring)} {w : ℕ} {x : ℕ → Ring}
    (h : List.Forall₂ V.Holds env xs) (hx : V.Holds w x) :
    List.Forall₂ V.Holds (env ++ [w]) (xs ++ [x]) :=
  List.rel_append h (.cons hx .nil)

structure Computes (conf : ProtocolConfig) (P F : Prop) (eval : List (ℕ → Ring) → List (ℕ → Ring))
    (env : List ℕ) (c : Circuit) (r : List ℕ × Circuit) (L : List Gate) : Prop where
  adds : Extends env c r.2 L
  quiet : ∀ f ∈ L, f.type ≠ .output ∧ f.type ≠ .columnSumsToNodes
  plain : P → Plain L
  results : ∀ w ∈ r.1, w ∈ env ∨ c.nWires ≤ w
  values : ∀ V : Valuation conf, L ⊆ V.gates → ∀ xs, List.Forall₂ V.Holds env xs → F →
    (∀ f ∈ L, V.Good f) ∧ List.Forall₂ V.Holds r.1 (eval xs)

namespace Computes

variable {P P' F F' : Prop} {eval eval' : List (ℕ → Ring) → List (ℕ → Ring)} {env : List ℕ}
  {r r' : List ℕ × Circuit} {L L' : List Gate}

theorem refl (conf : ProtocolConfig) (hb : Built c) (env : List ℕ) :
    Computes conf P F id env c (env, c) [] :=
  ⟨.refl _ hb, by simp, fun _ => by simp [Plain], fun _ hw => Or.inl hw,
    fun _ _ _ h _ => ⟨by simp, h⟩⟩

theorem trans (hb : Built c) (h : Computes conf P F eval env c r L)
    (h' : Computes conf P' F' eval' r.1 r.2 r' L') :
    Computes conf (P ∧ P') (F ∧ F') (eval' ∘ eval) env c r' (L ++ L') where
  adds := h.adds.trans hb h'.adds h.results
  quiet f hf := (List.mem_append.mp hf).elim (h.quiet f) (h'.quiet f)
  plain hP := (h.plain hP.1).append (h'.plain hP.2)
  results w hw := by
    rcases h'.results w hw with hw | hle
    · exact h.results w hw
    · exact Or.inr ((h.adds.grows.nWires_le hb).trans hle)
  values V hsub xs hxs hF := by
    obtain ⟨hs, hs'⟩ := List.append_subset.mp hsub
    obtain ⟨good, hx⟩ := h.values V hs xs hxs hF.1
    obtain ⟨good', hx'⟩ := h'.values V hs' _ hx hF.2
    exact ⟨fun f hf => (List.mem_append.mp hf).elim (good f) (good' f), hx'⟩

theorem imp (h : Computes conf P F eval env c r L) (hP : P' → P) (hF : F' → F) :
    Computes conf P' F' eval env c r L :=
  ⟨h.adds, h.quiet, fun hp => h.plain (hP hp), h.results,
    fun V hs xs hx hf => h.values V hs xs hx (hF hf)⟩

end Computes

theorem Admissible.mono {nodes m k : ℕ} {W W' : ℕ → Prop} {f : Gate} (hW : ∀ w, W w → W' w)
    (h : Admissible nodes m k W f) : Admissible nodes m k W' f :=
  ⟨h.gId, h.outIdx, h.in1.imp_right (hW _), h.in2.imp_right (hW _), fun r hr => hW r (h.reads r hr),
    h.handled, h.first, h.mult⟩

theorem Computes.single {P F : Prop} {eval : List (ℕ → Ring) → List (ℕ → Ring)} {env : List ℕ}
    {r : List ℕ × Circuit} {f : Gate} (hb : Built c)
    (henv : ∀ w ∈ env, Handle c.gates w)
    (hf : Admissible c.nodes c.nMults c.nWires (· ∈ env) f) (hw : r.2.nWires = c.nWires + 1)
    (hm : r.2.nMults = if f.takesTriple then c.nMults + 1 else c.nMults)
    (hg : r.2.gates = c.gates ++ [f]) (hp : r.2.params = c.params) (hr : r.1 = env ++ [f.outIdx])
    (hq : f.type ≠ .output ∧ f.type ≠ .eqz ∧ f.type ≠ .columnSumsToNodes)
    (hV : ∀ V : Valuation conf, f ∈ V.gates → ∀ xs, List.Forall₂ V.Holds env xs →
      F → ∃ x, V.Yields f x ∧ eval xs = xs ++ [x]) : Computes conf P F eval env c r [f] where
  adds := .of_block (single_grows hb (hf.mono fun w hw => (henv w hw).1) hw hm hg hp) ⟨hf, trivial⟩
  quiet g hg := List.mem_singleton.mp hg ▸ ⟨hq.1, hq.2.2⟩
  plain _ g hg := List.mem_singleton.mp hg ▸ hq
  results w hw := by
    rw [hr] at hw
    rcases List.mem_append.mp hw with hw | hw
    · exact Or.inl hw
    · exact Or.inr (List.mem_singleton.mp hw ▸ hf.outIdx.ge)
  values V hsub xs hxs hfit := by
    obtain ⟨x, ⟨good, hx⟩, he⟩ := hV V (hsub (List.mem_singleton_self f)) xs hxs hfit
    refine ⟨fun g hg => List.mem_singleton.mp hg ▸ good, ?_⟩
    rw [he, hr]
    exact holds_snoc hxs hx

theorem Op.exec_computes (conf : ProtocolConfig) (hb : Built c) (hn : c.nodes = conf.nodes)
    (hz : conf.nodes ≤ conf.size) {env : List ℕ} (henv : ∀ w ∈ env, Handle c.gates w) (op : Op)
    (hs : op.operands.all (· < env.length) = true) :
    ∃ L, Computes conf (op.isClip = false) (op.Fits conf.size) (op.eval conf.nodes) env c
      (op.exec env c) L := by
  have hlt : ∀ k ∈ op.operands, k < env.length := fun k hk =>
    of_decide_eq_true (List.all_eq_true.mp hs k hk)
  have hmem : ∀ k ∈ op.operands, env.getD k 0 ∈ env := fun k hk => by
    rw [List.getD_eq_getElem _ _ (hlt k hk)]
    exact List.getElem_mem _
  have hne : c.gates ≠ [] := List.length_pos_iff.mp (hb.wires ▸ hb.pos)
  have hw := hb.wires
  have hval : ∀ {V : Valuation conf} {xs}, List.Forall₂ V.Holds env xs → ∀ k ∈ op.operands,
      V.Holds (env.getD k 0) (xs.getD k 0) := fun hxs k hk => forall₂_getD hxs 0 0 (hlt k hk)
  cases op with
  | multiply x y =>
    have hx := hmem x (by simp [operands])
    have hy := hmem y (by simp [operands])
    refine ⟨_, .single hb henv ?_ rfl rfl rfl rfl rfl ?_ fun V hf xs hxs hfit =>
      ⟨_, yields_mulSIMD hf rfl rfl (hn.trans_le hz) (hval hxs x (by simp [operands]))
        (hval hxs y (by simp [operands])), ?_⟩⟩
    · simp [admissible_iff, Gate.reads, Gate.Handled, Gate.binaryOperator, Gate.takesTriple,
        hx, hy, (henv _ hy).2, hne, hw, -List.getD_eq_getElem?_getD]
    · simp
    · rw [← hn]
      rfl
  | multiplyByConstant x k =>
    have hx := hmem x (by simp [operands])
    refine ⟨_, .single hb henv ?_ rfl rfl rfl rfl rfl ?_ fun V hf xs hxs hfit =>
      ⟨_, yields_mulConstSIMD hf rfl (hval hxs x (by simp [operands])), rfl⟩⟩
    · simp [admissible_iff, Gate.reads, Gate.Handled, Gate.binaryOperator, Gate.takesTriple,
        hx, hne, hw, -List.getD_eq_getElem?_getD]
    · simp
  | add x y =>
    have hx := hmem x (by simp [operands])
    have hy := hmem y (by simp [operands])
    refine ⟨_, .single hb henv ?_ rfl rfl rfl rfl rfl ?_ fun V hf xs hxs hfit =>
      ⟨_, yields_addSIMD hf rfl (hval hxs x (by simp [operands]))
        (hval hxs y (by simp [operands])), rfl⟩⟩
    · simp [admissible_iff, Gate.reads, Gate.Handled, Gate.binaryOperator, Gate.takesTriple,
        hx, hy, (henv _ hy).2, hne, hw, -List.getD_eq_getElem?_getD]
    · simp
  | subtract x y =>
    have hx := hmem x (by simp [operands])
    have hy := hmem y (by simp [operands])
    refine ⟨_, .single hb henv ?_ rfl rfl rfl rfl rfl ?_ fun V hf xs hxs hfit =>
      ⟨_, yields_subSIMD hf rfl (hval hxs x (by simp [operands]))
        (hval hxs y (by simp [operands])), rfl⟩⟩
    · simp [admissible_iff, Gate.reads, Gate.Handled, Gate.binaryOperator, Gate.takesTriple,
        hx, hy, (henv _ hy).2, hne, hw, -List.getD_eq_getElem?_getD]
    · simp
  | addConstant x k =>
    have hx := hmem x (by simp [operands])
    refine ⟨_, .single hb henv ?_ rfl rfl rfl rfl rfl ?_ fun V hf xs hxs hfit =>
      ⟨_, yields_addConstSIMD hf rfl (hval hxs x (by simp [operands])), rfl⟩⟩
    · simp [admissible_iff, Gate.reads, Gate.Handled, Gate.binaryOperator, Gate.takesTriple,
        hx, hne, hw, -List.getD_eq_getElem?_getD]
    · simp
  | flip x =>
    have hx := hmem x (by simp [operands])
    refine ⟨_, .single hb henv ?_ rfl rfl rfl rfl rfl ?_ fun V hf xs hxs hfit =>
      ⟨_, yields_flip hf rfl (hval hxs x (by simp [operands])), rfl⟩⟩
    · simp [admissible_iff, Gate.reads, Gate.Handled, Gate.binaryOperator, Gate.takesTriple,
        hx, hne, hw, -List.getD_eq_getElem?_getD]
    · simp
  | setConstVector vals =>
    refine ⟨_, .single hb henv ?_ rfl rfl rfl rfl rfl ?_ fun V hf xs hxs hfit =>
      ⟨_, yields_setConstVecSIMD hf rfl hfit, rfl⟩⟩
    · simp [admissible_iff, Gate.reads, Gate.Handled, Gate.binaryOperator, Gate.takesTriple,
        hne, hw]
    · simp
  | clip x =>
    have hx := hmem x (by simp [operands])
    have hexec : (Op.clip x).exec env c = (env.set x (c.nWires + 5) ++ [c.nWires + 6],
        (clipSIMD (env.getD x 0) c).2) := by
      simp only [Op.exec, bind_run, clipSIMD_run hb.wires, pure_run]
    rw [hexec, clipSIMD_run hb.wires]
    refine ⟨_, ⟨.of_block (Grows.of_block hb (clipGates_block hb.pos (henv _ hx).1) rfl rfl rfl rfl)
      (clipGates_block hb.pos hx), by simp [clipGates, equalsZeroGates], by simp [isClip],
      fun w hw => ?_, fun V hsub xs hxs _ => ?_⟩⟩
    · rcases List.mem_append.mp hw with hw | hw
      · rcases List.mem_or_eq_of_mem_set hw with hw | rfl
        · exact Or.inl hw
        · exact Or.inr (Nat.le_add_right ..)
      · exact Or.inr (List.mem_singleton.mp hw ▸ Nat.le_add_right ..)
    · rw [hn] at hsub ⊢
      obtain ⟨good, hbit, hflip⟩ := clipGates_value hsub hz
        (hval hxs x (by simp [operands]))
      refine ⟨good, holds_snoc (forall₂_set hxs x (Holds.congr hbit fun i _ => ?_)) hflip⟩
      simp only [Bool.and_eq_true, decide_eq_true_eq]

theorem ops_compute (conf : ProtocolConfig) (hz : conf.nodes ≤ conf.size) (ops : List Op)
    (hb : Built c) (hn : c.nodes = conf.nodes) {env : List ℕ} (henv : ∀ w ∈ env, Handle c.gates w)
    (hs : inScope env.length ops = true) :
    ∃ L, Computes conf (∀ op ∈ ops, op.isClip = false) (∀ op ∈ ops, op.Fits conf.size)
      (fun xs => ops.foldl (Op.eval conf.nodes) xs) env c (ops.foldlM Op.exec env c) L := by
  induction ops generalizing c env with
  | nil => exact ⟨[], .refl conf hb env⟩
  | cons op ops ih =>
    obtain ⟨h1, h2⟩ := Bool.and_eq_true_iff.mp hs
    have s1 := op.exec_scope hb henv h1
    obtain ⟨L1, e1⟩ := op.exec_computes conf hb hn hz henv h1
    rw [foldlM_cons_run]
    generalize op.exec env c = r at *
    obtain ⟨L2, e2⟩ := ih e1.adds.grows.built (e1.adds.grows.nodes.trans hn) s1.handles
      (by rwa [s1.length])
    exact ⟨_, (e1.trans hb e2).imp List.forall_mem_cons.mp List.forall_mem_cons.mp⟩

namespace Body

variable {arity : ℕ}

def ClipFree (b : Body arity) : Prop := ∀ op ∈ b.ops, op.isClip = false

def Fits (b : Body arity) (size : ℕ) : Prop := ∀ op ∈ b.ops, op.Fits size

theorem exec_computes (b : Body arity) (conf : ProtocolConfig) (hz : conf.nodes ≤ conf.size)
    (hb : Built c) (hn : c.nodes = conf.nodes) {args : List ℕ} (hlen : args.length = arity)
    (hargs : ∀ w ∈ args, Handle c.gates w) :
    ∃ L, Computes conf b.ClipFree (b.Fits conf.size) (fun xs => [b.eval conf.nodes xs]) args c
      ([(b.exec args c).1], (b.exec args c).2) L := by
  have hs : inScope args.length b.ops = true := by
    rw [hlen]
    exact b.ops_scoped
  have s := ops_scope b.ops hb hargs hs
  obtain ⟨L, e⟩ := ops_compute conf hz b.ops hb hn hargs hs
  have hret : b.ret < (b.ops.foldlM Op.exec args c).1.length := by
    rw [s.length, hlen]
    exact b.ret_lt
  rw [Body.exec, bind_run, pure_run]
  refine ⟨L, e.adds, e.quiet, e.plain, fun w hw => ?_, fun V hsub xs hxs hF => ?_⟩
  · rw [List.mem_singleton.mp hw, List.getD_eq_getElem _ _ hret]
    exact e.results _ (List.getElem_mem _)
  · obtain ⟨good, hx⟩ := e.values V hsub xs hxs hF
    exact ⟨good, .cons (forall₂_getD hx 0 0 hret) .nil⟩

end Body

end operations

section rounds

variable {conf : ProtocolConfig} {c : Circuit} {ctx : MPContext} {A : Arrangement conf}

theorem routeGates_uses (k : ℕ) (ctx : MPContext) (i1 i2 i3 x : ℕ) :
    ∀ f ∈ routeGates k ctx i1 i2 i3 x, ∀ w ∈ f.counted,
      w = 0 ∨ w ∈ x :: openedOrders ctx ∨ k ≤ w := by
  simp only [routeGates, List.forall_mem_cons]
  and_intros
  all_goals
    simp only [Gate.counted, openedOrders, List.mem_cons, List.mem_ite_nil_right,
      List.not_mem_nil, or_false]
    try omega
  simp

theorem routeGates_plain (k : ℕ) (ctx : MPContext) (i1 i2 i3 x : ℕ) :
    Plain (routeGates k ctx i1 i2 i3 x) := by
  simp [Plain, routeGates]

structure Delivers (conf : ProtocolConfig) (ctx : MPContext) (P F : Prop)
    (eval : Arrangement conf → (ℕ → Ring) → ℕ → Ring) (w : ℕ) (c : Circuit) (r : ℕ × Circuit)
    (L : List Gate) : Prop where
  adds : Extends (w :: openedOrders ctx) c r.2 L
  quiet : ∀ f ∈ L, f.type ≠ .output ∧ f.type ≠ .columnSumsToNodes
  plain : P → Plain L
  result : r.1 = w ∨ c.nWires ≤ r.1
  values : ∀ (V : Valuation conf) (A : Arrangement conf) (x : ℕ → Ring), L ⊆ V.gates →
    Arranged V ctx A → V.Holds w x → F → (∀ f ∈ L, V.Good f) ∧ V.Holds r.1 (eval A x)

namespace Delivers

variable {P P' F F' : Prop} {eval eval' : Arrangement conf → (ℕ → Ring) → ℕ → Ring} {w : ℕ}
  {r r' : ℕ × Circuit} {L L' : List Gate}

theorem refl (conf : ProtocolConfig) (ctx : MPContext) (hb : Built c) (w : ℕ) :
    Delivers conf ctx P F (fun _ x => x) w c (w, c) [] :=
  ⟨.refl _ hb, by simp, fun _ => by simp [Plain], Or.inl rfl, fun _ _ _ _ _ h _ => ⟨by simp, h⟩⟩

theorem trans (hb : Built c) (h : Delivers conf ctx P F eval w c r L)
    (h' : Delivers conf ctx P' F' eval' r.1 r.2 r' L') :
    Delivers conf ctx (P ∧ P') (F ∧ F') (fun A x => eval' A (eval A x)) w c r' (L ++ L') where
  adds := h.adds.trans hb h'.adds fun v hv => by
    rcases List.mem_cons.mp hv with rfl | hv
    · exact h.result.imp_left fun he => by simp [he]
    · exact Or.inl (List.mem_cons_of_mem _ hv)
  quiet f hf := (List.mem_append.mp hf).elim (h.quiet f) (h'.quiet f)
  plain hP := (h.plain hP.1).append (h'.plain hP.2)
  result := by
    rcases h'.result with he | hle
    · exact he ▸ h.result
    · exact Or.inr ((h.adds.grows.nWires_le hb).trans hle)
  values V A x hsub hA hx hF := by
    obtain ⟨hs, hs'⟩ := List.append_subset.mp hsub
    obtain ⟨good, hy⟩ := h.values V A x hs hA hx hF.1
    obtain ⟨good', hz⟩ := h'.values V A _ hs' hA hy hF.2
    exact ⟨fun f hf => (List.mem_append.mp hf).elim (good f) (good' f), hz⟩

theorem imp (h : Delivers conf ctx P F eval w c r L) (hP : P' → P) (hF : F' → F) :
    Delivers conf ctx P' F' eval w c r L :=
  ⟨h.adds, h.quiet, fun hp => h.plain (hP hp), h.result,
    fun V A x hs hA hx hf => h.values V A x hs hA hx (hF hf)⟩

end Delivers

def roundValue (A : Arrangement conf) (p : Program) (column : ℕ) (x : ℕ → Ring) (i : ℕ) :
    ℕ → Ring :=
  (p.apply i column).eval conf.nodes
    [x, gathered A (propagated A ((p.prepare i column).eval conf.nodes [x]))]

theorem round_delivers (hz : conf.nodes ≤ conf.size) (h0 : 0 < conf.nodes) (p : Program)
    (hb : Built c) (hn : c.nodes = conf.nodes) (ho : Opened c.gates ctx) {s : ℕ}
    (hs : Handle c.gates s) (i column : ℕ) :
    ∃ L, Delivers conf ctx
      ((p.prepare i column).ClipFree ∧ (p.apply i column).ClipFree)
      ((p.prepare i column).Fits conf.size ∧ (p.apply i column).Fits conf.size)
      (fun A x => roundValue A p column x i) s c
      (mpRound p.algorithm ctx (ctx.dstShuffleIdx + 1) (ctx.dstShuffleIdx + 2)
        (ctx.dstShuffleIdx + 3) column s i c) L := by
  obtain ⟨hcalls, hm⟩ := p.algorithm_lawful.prepare c s i column hb hs
  obtain ⟨L1, e1⟩ := (p.prepare i column).exec_computes conf hz hb hn rfl
    (List.forall_mem_singleton.mpr hs)
  have hb1 := e1.adds.grows.built
  rw [mpRound_run p.algorithm ctx _ _ _ column s i hb1.wires]
  have hprep : p.algorithm.prepare s i column = (p.prepare i column).exec [s] := rfl
  have happ : ∀ u, p.algorithm.apply s u i column = (p.apply i column).exec [s, u] := fun _ => rfl
  simp only [bind_run, hprep, happ] at hm ⊢
  generalize (p.prepare i column).exec [s] c = r1 at *
  obtain ⟨p2, hu⟩ := route_passes hb1 (ho.mono e1.adds.grows.sub) hm.1
  have hu' : (route ctx (ctx.dstShuffleIdx + 1) (ctx.dstShuffleIdx + 2) (ctx.dstShuffleIdx + 3)
      r1.1 r1.2).1 = r1.2.nWires + 15 := rfl
  rw [hu']
  have e2 : Extends (r1.1 :: openedOrders ctx) r1.2 _ _ :=
    ⟨p2.grows, routeGates_uses r1.2.nWires ctx (ctx.dstShuffleIdx + 1) (ctx.dstShuffleIdx + 2)
      (ctx.dstShuffleIdx + 3) r1.1⟩
  generalize route ctx (ctx.dstShuffleIdx + 1) (ctx.dstShuffleIdx + 2) (ctx.dstShuffleIdx + 3)
    r1.1 r1.2 = r2 at *
  have hs2 := e2.grows.handle (e1.adds.grows.handle hs)
  have hargs : ∀ w ∈ [s, r1.2.nWires + 15], Handle r2.2.gates w := by simp [hs2, hu]
  obtain ⟨L3, e3⟩ := (p.apply i column).exec_computes conf hz e2.grows.built
    ((e2.grows.nodes.trans e1.adds.grows.nodes).trans hn) rfl hargs
  have n1 : c.nWires ≤ r1.2.nWires := e1.adds.grows.nWires_le hb
  have n2 := e2.grows.nWires_le hb1
  have hr1 := e1.results r1.1 (List.mem_singleton_self _)
  have plain2 := routeGates_plain r1.2.nWires ctx (ctx.dstShuffleIdx + 1) (ctx.dstShuffleIdx + 2)
    (ctx.dstShuffleIdx + 3) r1.1
  have e12 : Extends (s :: openedOrders ctx) c r2.2 _ :=
    (e1.adds.mono (by simp)).trans hb e2 fun v hv => by
      rcases List.mem_cons.mp hv with rfl | hv
      · exact hr1.imp_left fun h => by simp_all
      · exact Or.inl (List.mem_cons_of_mem _ hv)
  refine ⟨_, e12.trans hb e3.adds ?_, fun f hf => ?_, fun hP => ?_, ?_,
    fun V A x hsub hA hx hF => ?_⟩
  · simp only [List.forall_mem_cons]
    exact ⟨Or.inl (by simp), Or.inr (by omega), by simp⟩
  · simp only [List.mem_append] at hf
    rcases hf with (hf | hf) | hf
    · exact e1.quiet f hf
    · exact ⟨(plain2 f hf).1, (plain2 f hf).2.2⟩
    · exact e3.quiet f hf
  · exact ((e1.plain hP.1).append plain2).append (e3.plain hP.2)
  · have hr3 := e3.results _ (List.mem_singleton_self _)
    simp only [List.mem_cons, List.not_mem_nil, or_false] at hr3
    omega
  · simp only [List.append_subset] at hsub
    obtain ⟨⟨hs1, hs2⟩, hs3⟩ := hsub
    obtain ⟨good1, hm⟩ := e1.values V hs1 _ (.cons hx .nil) hF.1
    cases hm with
    | cons hm _ =>
      obtain ⟨good2, hu⟩ := routeGates_value hs2 hA h0 hz hm
      obtain ⟨good3, hv⟩ := e3.values V hs3 _ (.cons hx (.cons hu .nil)) hF.2
      cases hv with
      | cons hv _ =>
        refine ⟨?_, hv⟩
        simp only [List.forall_mem_append]
        exact ⟨⟨good1, good2⟩, good3⟩

def roundsValue (A : Arrangement conf) (p : Program) (column : ℕ) (l : List ℕ) (x : ℕ → Ring) :
    ℕ → Ring :=
  l.foldl (roundValue A p column) x

theorem rounds_deliver (hz : conf.nodes ≤ conf.size) (p : Program) (column : ℕ) (l : List ℕ)
    (h0 : 0 < l.length → 0 < conf.nodes) (hb : Built c) (hn : c.nodes = conf.nodes)
    (ho : Opened c.gates ctx)
    {s : ℕ} (hs : Handle c.gates s) :
    ∃ L, Delivers conf ctx
      (∀ i ∈ l, (p.prepare i column).ClipFree ∧ (p.apply i column).ClipFree)
      (∀ i ∈ l, (p.prepare i column).Fits conf.size ∧ (p.apply i column).Fits conf.size)
      (fun A x => roundsValue A p column l x) s c
      (l.foldlM (mpRound p.algorithm ctx (ctx.dstShuffleIdx + 1) (ctx.dstShuffleIdx + 2)
        (ctx.dstShuffleIdx + 3) column) s c) L := by
  induction l generalizing c s with
  | nil => exact ⟨[], .refl conf ctx hb s⟩
  | cons i l ih =>
    have hpos : 0 < conf.nodes := h0 (Nat.succ_pos _)
    obtain ⟨L1, e1⟩ := round_delivers hz hpos p hb hn ho hs i column
    obtain ⟨-, -, hs1⟩ := mpRound_passes p.algorithm_lawful i column hb ho hs
    rw [foldlM_cons_run]
    generalize mpRound p.algorithm ctx (ctx.dstShuffleIdx + 1) (ctx.dstShuffleIdx + 2)
      (ctx.dstShuffleIdx + 3) column s i c = r at *
    obtain ⟨L2, e2⟩ := ih (fun _ => hpos) e1.adds.grows.built (e1.adds.grows.nodes.trans hn)
      (ho.mono e1.adds.grows.sub) hs1
    exact ⟨_, (e1.trans hb e2).imp List.forall_mem_cons.mp List.forall_mem_cons.mp⟩

def initValue (nodes : ℕ) (p : Program) (column : ℕ) (x : ℕ → Ring) : ℕ → Ring :=
  match p.initNodes column with
  | none => x
  | some b => b.eval nodes []

def stateValue (A : Arrangement conf) (p : Program) (column : ℕ) (x : ℕ → Ring) : ℕ → Ring :=
  roundsValue A p column (List.range conf.depth)
    (initValue conf.nodes p column fun i => x (A.vtx.symm i))

def Program.ClipFree (p : Program) : Prop :=
  (∀ column, ∀ b ∈ p.initNodes column, b.ClipFree) ∧
    ∀ i column, (p.prepare i column).ClipFree ∧ (p.apply i column).ClipFree

def Program.Fits (p : Program) (size : ℕ) : Prop :=
  (∀ column, ∀ b ∈ p.initNodes column, b.Fits size) ∧
    (∀ i column, (p.prepare i column).Fits size ∧ (p.apply i column).Fits size) ∧
      ∀ column, (p.postMp column).Fits size

theorem load_delivers (hb : Built c) (ho : Opened c.gates ctx) {x : ℕ} (hx : Wire c.gates x)
    (hv : ctx.vtxShuffleIdx ≤ ctx.dstShuffleIdx) :
    Delivers conf ctx True True (fun A x i => x (A.vtx.symm i)) x c (load ctx x c)
      (loadGates c.nWires ctx x) := by
  obtain ⟨p1, hout, -⟩ := load_passes hb ho hx hv
  refine ⟨⟨p1.grows, ?_⟩, by simp [loadGates], fun _ => by simp [Plain, loadGates],
    Or.inr (by omega), fun V A y hsub hA hy _ => ?_⟩
  · simp only [loadGates, List.forall_mem_cons]
    refine ⟨?_, ?_, by simp⟩
    all_goals
      simp only [Gate.counted, openedOrders, List.mem_cons, List.mem_ite_nil_right,
        List.not_mem_nil, or_false]
      omega
  · rw [hout]
    exact loadGates_value hsub hA hy

theorem initNodes_delivers (hz : conf.nodes ≤ conf.size) (p : Program) (column : ℕ) (hb : Built c)
    (hn : c.nodes = conf.nodes) (s : ℕ) :
    ∃ L, Delivers conf ctx (∀ b ∈ p.initNodes column, b.ClipFree)
      (∀ b ∈ p.initNodes column, b.Fits conf.size)
      (fun _ x => initValue conf.nodes p column x) s c
      ((p.algorithm.initNodes column c).1.getD s, (p.algorithm.initNodes column c).2) L := by
  simp only [Program.algorithm, initValue]
  cases p.initNodes column with
  | none => exact ⟨[], .refl conf ctx hb s⟩
  | some b =>
    have hargs : ∀ w ∈ ([] : List ℕ), Handle c.gates w := by simp
    obtain ⟨L, e⟩ := b.exec_computes conf hz hb hn rfl hargs
    simp only [bind_run, pure_run, Option.getD_some]
    refine ⟨L, e.adds.mono (by simp), e.quiet, fun hP => e.plain (hP b rfl), Or.inr ?_,
      fun V A x hsub _ _ hF => ?_⟩
    · simpa using e.results _ (List.mem_singleton_self _)
    · obtain ⟨good, hv⟩ := e.values V hsub [] .nil (hF b rfl)
      cases hv with
      | cons hv _ => exact ⟨good, hv⟩

theorem messagePassing_delivers (hz : conf.nodes ≤ conf.size)
    (h0 : 0 < conf.depth → 0 < conf.nodes) (p : Program) (column : ℕ) (hp : Passable c)
    (hn : c.nodes = conf.nodes) (hd : c.depth = conf.depth) {x : ℕ} (hx : Wire c.gates x) :
    ∃ L, Delivers conf c.ctx p.ClipFree (p.Fits conf.size)
      (fun A x => stateValue A p column x) x c (messagePassing p.algorithm x column c) L ∧
      c.nWires ≤ (messagePassing p.algorithm x column c).1 := by
  rw [messagePassing_run]
  simp only [bind_run, get_run]
  obtain ⟨p1, hout, h1⟩ := load_passes hp.built hp.opened hx hp.vtx_le
  have e1 : Delivers conf c.ctx _ _ _ x c _ _ := load_delivers hp.built hp.opened hx hp.vtx_le
  generalize load c.ctx x c = r1 at *
  obtain ⟨hcalls, h2⟩ := p.algorithm_lawful.initNodes r1.2 column p1.grows.built
  obtain ⟨-, -, hidx⟩ := context_eq (r1.2) p1.context
  obtain ⟨L2, e2⟩ : ∃ L, Delivers conf c.ctx _ _ _ r1.1 r1.2 _ L :=
    initNodes_delivers hz p column p1.grows.built (p1.grows.nodes.trans hn) r1.1
  generalize p.algorithm.initNodes column r1.2 = r2 at *
  have h3 : Handle r2.2.gates (r2.1.getD r1.1) := by
    cases hv : r2.1 with
    | none => exact e2.adds.grows.handle h1
    | some w => exact h2 w hv
  have e12 := e1.trans hp.built e2
  have hdepth : r2.2.depth = conf.depth := by
    have hparams := e12.adds.grows.params
    simp only [params, Prod.mk.injEq] at hparams
    exact hparams.2.2.2.1.trans hd
  rw [hidx, hp.idx, hdepth]
  obtain ⟨L3, e3⟩ := rounds_deliver hz p column (List.range conf.depth)
    (fun hl => h0 (by rwa [List.length_range] at hl)) e12.adds.grows.built
    (e12.adds.grows.nodes.trans hn) (hp.opened.mono e12.adds.grows.sub) h3
  refine ⟨_, (e12.trans hp.built e3).imp (fun h => ⟨⟨trivial, h.1 column⟩, fun i _ => h.2 i column⟩)
    fun h => ⟨⟨trivial, h.1 column⟩, fun i _ => h.2.1 i column⟩, ?_⟩
  have n1 := e1.adds.grows.nWires_le hp.built
  have n2 := e2.adds.grows.nWires_le e1.adds.grows.built
  have h4 := e2.result
  have h5 := e3.result
  simp only at n1 n2 h4 h5
  omega

end rounds

end GraphMpc
