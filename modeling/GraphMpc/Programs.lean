import GraphMpc.Complete

namespace GraphMpc

open Circuit

section exec

variable {c : Circuit}

theorem Built.handle_new (hb : Built c) {gates : List Gate} {f : Gate} (hf : f ∈ gates)
    (hw : c.nWires ≤ f.outIdx) (ho : f.type ≠ .output) : Handle gates f.outIdx :=
  ⟨⟨f, hf, rfl, ho⟩, (hb.pos.trans_le hw).ne'⟩

structure Scope (c c' : Circuit) (env env' : List ℕ) (n : ℕ) : Prop where
  calls : LibraryCalls c c'
  length : env'.length = env.length + n
  handles : ∀ w ∈ env', Handle c'.gates w

theorem Scope.of_call {c' : Circuit} {env : List ℕ} (hb : Built c)
    (henv : ∀ w ∈ env, Handle c.gates w) (h : LibraryCall c c') {f : Gate} (hf : f ∈ c'.gates)
    (hw : c.nWires ≤ f.outIdx) (ho : f.type ≠ .output) : Scope c c' env (env ++ [f.outIdx]) 1 := by
  obtain ⟨L, hg, -⟩ := h.grows hb
  refine ⟨.single h, by simp, fun w hmem => ?_⟩
  rcases List.mem_append.mp hmem with hmem | hmem
  · exact hg.handle (henv w hmem)
  · rw [List.mem_singleton.mp hmem]
    exact hb.handle_new hf hw ho

theorem Op.exec_scope (hb : Built c) {env : List ℕ} (henv : ∀ w ∈ env, Handle c.gates w) (op : Op)
    (hs : op.operands.all (· < env.length) = true) :
    Scope c (op.exec env c).2 env (op.exec env c).1 1 := by
  have harg : ∀ k ∈ op.operands, Handle c.gates (env.getD k 0) := fun k hk =>
    handle_getD henv (of_decide_eq_true (List.all_eq_true.mp hs k hk))
  cases op with
  | multiply x y =>
    exact .of_call hb henv (.multiply (harg x (by simp [operands])) (harg y (by simp [operands])))
      (List.mem_append_right _ (List.mem_singleton_self _)) le_rfl (by simp)
  | multiplyByConstant x k =>
    exact .of_call hb henv (.multiplyByConstant (harg x (by simp [operands])) k)
      (List.mem_append_right _ (List.mem_singleton_self _)) le_rfl (by simp)
  | add x y =>
    exact .of_call hb henv (.add (harg x (by simp [operands])) (harg y (by simp [operands])))
      (List.mem_append_right _ (List.mem_singleton_self _)) le_rfl (by simp)
  | subtract x y =>
    exact .of_call hb henv (.subtract (harg x (by simp [operands])) (harg y (by simp [operands])))
      (List.mem_append_right _ (List.mem_singleton_self _)) le_rfl (by simp)
  | addConstant x k =>
    exact .of_call hb henv (.addConstant (harg x (by simp [operands])) k)
      (List.mem_append_right _ (List.mem_singleton_self _)) le_rfl (by simp)
  | flip x =>
    exact .of_call hb henv (.flip (harg x (by simp [operands])))
      (List.mem_append_right _ (List.mem_singleton_self _)) le_rfl (by simp)
  | setConstVector vals =>
    exact .of_call hb henv (.setConstVector vals)
      (List.mem_append_right _ (List.mem_singleton_self _)) le_rfl (by simp)
  | clip x =>
    have hcall := LibraryCall.clip (harg x (by simp [operands]))
    have hexec : (Op.clip x).exec env c = (env.set x (c.nWires + 5) ++ [c.nWires + 6],
        (clipSIMD (env.getD x 0) c).2) := by
      simp only [Op.exec, bind_run, clipSIMD_run hb.wires, pure_run]
    rw [hexec]
    obtain ⟨L, hg, -⟩ := hcall.grows hb
    have hnew : ∀ f ∈ clipGates c.nWires c.nMults (env.getD x 0) c.nodes, c.nWires ≤ f.outIdx →
        f.type ≠ .output → Handle (clipSIMD (env.getD x 0) c).2.gates f.outIdx := by
      rw [clipSIMD_run hb.wires]
      exact fun f hf => hb.handle_new (List.mem_append_right _ hf)
    have hbit := hnew _ (List.mem_append_right _ (List.mem_cons_self ..)) (Nat.le_add_right _ 5)
      (by simp)
    have hflip := hnew _ (List.mem_append_right _ (List.mem_cons_of_mem _ (List.mem_singleton_self _)))
      (Nat.le_add_right _ 6) (by simp)
    refine ⟨.single hcall, by simp, fun w hw => ?_⟩
    rcases List.mem_append.mp hw with hw | hw
    · rcases List.mem_or_eq_of_mem_set hw with hw | rfl
      · exact hg.handle (henv w hw)
      · exact hbit
    · rw [List.mem_singleton.mp hw]
      exact hflip

theorem ops_scope (ops : List Op) (hb : Built c) {env : List ℕ}
    (henv : ∀ w ∈ env, Handle c.gates w) (hs : inScope env.length ops = true) :
    Scope c (ops.foldlM Op.exec env c).2 env (ops.foldlM Op.exec env c).1 ops.length := by
  induction ops generalizing c env with
  | nil => exact ⟨.refl, rfl, henv⟩
  | cons op ops ih =>
    obtain ⟨h1, h2⟩ := Bool.and_eq_true_iff.mp hs
    have s1 := op.exec_scope hb henv h1
    rw [foldlM_cons_run]
    generalize op.exec env c = r at *
    obtain ⟨L, hg, -⟩ := s1.calls.grows hb
    have s2 := ih hg.built s1.handles (by rwa [s1.length])
    exact ⟨s1.calls.trans s2.calls, by rw [s2.length, s1.length, List.length_cons]; omega,
      s2.handles⟩

theorem Body.exec_calls {arity : ℕ} (b : Body arity) (hb : Built c) (args : List ℕ)
    (hlen : args.length = arity) (hargs : ∀ w ∈ args, Handle c.gates w) :
    LibraryCalls c (b.exec args c).2 ∧ Handle (b.exec args c).2.gates (b.exec args c).1 := by
  have s := ops_scope b.ops hb hargs (by rw [hlen]; exact b.ops_scoped)
  rw [Body.exec, bind_run, pure_run]
  exact ⟨s.calls, handle_getD s.handles (by rw [s.length, hlen]; exact b.ret_lt)⟩

theorem Program.algorithm_lawful (p : Program) : p.algorithm.Lawful where
  initNodes c column hb := by
    simp only [algorithm]
    cases p.initNodes column with
    | none => exact ⟨.refl, by simp [pure_run]⟩
    | some b =>
      obtain ⟨h1, h2⟩ := b.exec_calls hb [] rfl (by simp)
      simp only [bind_run, pure_run]
      exact ⟨h1, fun w hw => Option.mem_some.mp hw ▸ h2⟩
  prepare c state i column hb hs := (p.prepare i column).exec_calls hb [state] rfl (by simpa using hs)
  apply c state update i column hb hs hu :=
    (p.apply i column).exec_calls hb [state, update] rfl (by simpa using ⟨hs, hu⟩)
  postMp c state column hb hs := (p.postMp column).exec_calls hb [state] rfl (by simpa using hs)
  postMpAggregate c states hb hne hs := by
    simp only [algorithm]
    cases p.columnSums with
    | false => exact ⟨.refl, by simp [pure_run], rfl, hs⟩
    | true =>
      have hcall := LibraryCall.columnSumsToNodes hne hs
      obtain ⟨L, hg, -⟩ := hcall.grows hb
      refine ⟨.single hcall, fun w hw => ?_, rfl, fun w hw => hg.handle (hs w hw)⟩
      rw [← Option.mem_some.mp hw]
      exact hb.handle_new (List.mem_append_right _ (List.mem_singleton_self _)) le_rfl (by simp)

end exec

end GraphMpc
