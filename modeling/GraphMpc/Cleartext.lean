import GraphMpc.Evaluator
import GraphMpc.Layering
import GraphMpc.Library.StraightLine
import GraphMpc.Library.StableOrder

namespace GraphMpc

open Tabulate Permutation StraightLine

-- the stable destinations of the entries of a 0/1 vector, zeros first
def destinations (size : ℕ) (x : Vec) : Vec :=
  tab size fun i => BitVec.ofNat 32 (StableOrder.dest size (fun j => x.getD j 0 != 0) i)

def clearGate (conf : ProtocolConfig) (perm : ℕ → Permutation) (inputToVal : ℕ → Vec) (f : Gate)
    (wires : ℕ → Vec) : Vec :=
  let size := conf.size
  let x := wires f.in1Idx
  let y := wires f.in2Idx
  match f.type with
  | .input => inputToVal f.outIdx
  | .output => []
  | .shuffle => (perm f.shuffleIdx).apply x
  | .unshuffle => (perm f.shuffleIdx).inverse.apply x
  | .mergedShuffle => ((perm f.omegaIdx).mul (perm f.piIdx).inverse).apply x
  | .compaction => destinations size x
  | .reveal => x
  | .setConstVecSIMD => Storage.constVals size f
  | .mul => tab 1 fun i =>
      if f.binary then x.getD i 0 &&& y.getD i 0 else x.getD i 0 * y.getD i 0
  | .mulSIMD => tab size fun i => if i < f.size then
      if f.binary then x.getD i 0 &&& y.getD i 0 else x.getD i 0 * y.getD i 0 else 0
  | .eqz => tab size fun i => if i < f.size then
      if f.layer = 0 then if x.getD i 0 = 0 then 1 else 0 else x.getD i 0 else 0
  | .bit2A => tab size fun i => if i < f.size then x.getD i 0 else 0
  | .and | .andSIMD | .xor | .xorSIMD => []
  | _ => (localGate conf .p0 f wires).getD []

structure Clear where
  wires : ℕ → Vec := fun _ => []
  output : Vec := []

namespace Clear

section run

variable (conf : ProtocolConfig) (perm : ℕ → Permutation) (inputToVal : ℕ → Vec)

def step (s : Clear) (f : Gate) : Clear where
  wires := Function.update s.wires f.outIdx (clearGate conf perm inputToVal f s.wires)
  output := if f.type = .output then s.output ++ (s.wires f.in1Idx).take conf.size else s.output

def run (gates : List Gate) : Clear := gates.foldl (step conf perm inputToVal) {}

theorem columnSums_congr {f : Gate} {e e' : ℕ → Vec} {nodes : ℕ}
    (hn : nodes ≤ f.dataParallel.length) (h : ∀ r ∈ f.dataParallel.take nodes, e r = e' r)
    {i : ℕ} (hi : i < nodes) :
    e (f.dataParallel.getD i 0) = e' (f.dataParallel.getD i 0) := by
  have hlt : i < f.dataParallel.length := hi.trans_le hn
  apply h
  rw [List.getD_eq_getElem _ _ hlt]
  exact List.mem_take_iff_getElem.mpr ⟨i, by omega, rfl⟩

theorem localGate_congr (id : Party) (f : Gate) {e e' : ℕ → Vec}
    (h : ∀ r ∈ f.reads conf.nodes, e r = e' r) : localGate conf id f e = localGate conf id f e' := by
  unfold localGate
  split
  case h_19 ht =>
    simp only [Gate.reads, ht] at h
    have hall : (∀ w ∈ f.dataParallel.take conf.nodes, conf.nodes ≤ (e w).length) ↔
        ∀ w ∈ f.dataParallel.take conf.nodes, conf.nodes ≤ (e' w).length :=
      forall₂_congr fun w hw => by rw [h w hw]
    simp only [hall]
    split
    · rename_i hc
      refine congrArg some (tab_congr fun i _ => ?_)
      by_cases hi : i < conf.nodes
      · simp only [if_pos hi, columnSums_congr hc.1 h hi]
      · simp only [if_neg hi]
    · rfl
  all_goals first
    | rfl
    | (rename_i ht
       simp only [Gate.reads, ht, List.mem_cons, List.not_mem_nil, or_false, forall_eq_or_imp,
         forall_eq] at h
       simp only [h])

theorem clearGate_congr (f : Gate) {e e' : ℕ → Vec} (h : ∀ r ∈ f.reads conf.nodes, e r = e' r) :
    clearGate conf perm inputToVal f e = clearGate conf perm inputToVal f e' := by
  have hl := localGate_congr conf .p0 f h
  unfold clearGate
  split
  all_goals first
    | rfl
    | rw [hl]
    | (rename_i ht
       simp only [Gate.reads, ht, List.mem_cons, List.not_mem_nil, or_false, forall_eq_or_imp,
         forall_eq] at h
       simp only [h])

def language : Language Gate Vec where
  out := Gate.outIdx
  reads := Gate.reads conf.nodes
  fn := clearGate conf perm inputToVal
  congr f _ _ h := clearGate_congr conf perm inputToVal f h

theorem run_wires (gates : List Gate) (s : Clear) :
    (gates.foldl (step conf perm inputToVal) s).wires =
      (language conf perm inputToVal).exec s.wires gates := by
  induction gates generalizing s with
  | nil => rfl
  | cons f gates ih => exact ih _

theorem run_output {gates : List Gate} (h : (language conf perm inputToVal).Ordered gates)
    (s : Clear) : (gates.foldl (step conf perm inputToVal) s).output = s.output ++
      (gates.filter (·.type = .output)).flatMap fun f =>
        ((gates.foldl (step conf perm inputToVal) s).wires f.in1Idx).take conf.size := by
  induction gates generalizing s with
  | nil => simp
  | cons f gates ih =>
    obtain ⟨hp, hself⟩ := h
    obtain ⟨hf, hp⟩ := List.pairwise_cons.mp hp
    rw [List.foldl_cons, ih ⟨hp, fun g hg => hself g (List.mem_cons_of_mem _ hg)⟩, step]
    by_cases ho : f.type = .output
    · have hr : f.in1Idx ∈ f.reads conf.nodes := by simp [Gate.reads, ho]
      have hkeep : ((gates.foldl (step conf perm inputToVal)
          (step conf perm inputToVal s f)).wires f.in1Idx) = s.wires f.in1Idx := by
        rw [run_wires, Language.exec_of_not_out fun g hg he => (hf g hg).2 (he ▸ hr)]
        have hne : f.in1Idx ≠ f.outIdx := fun he => hself f (List.mem_cons_self ..) (by
          rw [he] at hr
          exact hr)
        exact Function.update_of_ne hne _ _
      have hs : step conf perm inputToVal s f = ⟨Function.update s.wires f.outIdx
          (clearGate conf perm inputToVal f s.wires),
            s.output ++ (s.wires f.in1Idx).take conf.size⟩ := by
        rw [step, if_pos ho]
      rw [hs] at hkeep
      simp only [List.filter_cons, ho, decide_true, if_true, List.flatMap_cons,
        List.append_assoc, hkeep]
    · simp only [List.filter_cons, ho, decide_false, Bool.false_eq_true, if_false]

def permIdxs (f : Gate) : List ℕ :=
  match f.type with
  | .shuffle | .unshuffle => [f.shuffleIdx]
  | .mergedShuffle => [f.piIdx, f.omegaIdx]
  | _ => []

theorem run_perm_congr {perm' : ℕ → Permutation} {gates : List Gate}
    (h : ∀ f ∈ gates, ∀ idx ∈ permIdxs f, perm idx = perm' idx) :
    run conf perm inputToVal gates = run conf perm' inputToVal gates := by
  refine List.foldl_ext _ _ _ fun s f hf => ?_
  have hg : clearGate conf perm inputToVal f s.wires =
      clearGate conf perm' inputToVal f s.wires := by
    have hf := h f hf
    unfold clearGate
    split
    all_goals first
      | rfl
      | (rename_i ht
         simp only [permIdxs, ht, List.mem_cons, List.not_mem_nil, or_false, forall_eq_or_imp,
           forall_eq] at hf
         simp only [hf])
  simp only [step, hg]

theorem ordered_layers {gates : List Gate} (h : WellFormed conf.nodes gates)
    (hc : Circuit.ColumnsLevelled conf.nodes gates) (hs : Circuit.Sourced conf.nodes gates) :
    (language conf perm inputToVal).Ordered (Circuit.layersOf gates).flatten := by
  constructor
  · refine (Circuit.pairwise_layersOf h).imp_of_mem fun {f g} hf hg he => ⟨?_, ?_⟩
    · intro heq
      obtain rfl := h.eq_of_outIdx ((Circuit.mem_layersOf h).mp hg)
        ((Circuit.mem_layersOf h).mp hf) heq
      rcases he with he | ⟨-, he⟩ <;> exact absurd he (lt_irrefl _)
    · intro hr
      obtain ⟨hl, hlt⟩ := Circuit.source_earlier h hc hs ((Circuit.mem_layersOf h).mp hf)
        ((Circuit.mem_layersOf h).mp hg) hr
      rcases he with he | ⟨-, he⟩
      · omega
      · exact absurd hlt he.asymm
  · intro f hf hr
    exact absurd ((h.wired_of_mem ((Circuit.mem_layersOf h).mp hf)).1.reads _ hr) (lt_irrefl _)

theorem run_solves {gates : List Gate} (h : WellFormed conf.nodes gates)
    (hc : Circuit.ColumnsLevelled conf.nodes gates) (hs : Circuit.Sourced conf.nodes gates)
    {f : Gate} (hf : f ∈ gates) :
    (run conf perm inputToVal (Circuit.layersOf gates).flatten).wires f.outIdx =
      clearGate conf perm inputToVal f
        (run conf perm inputToVal (Circuit.layersOf gates).flatten).wires := by
  rw [run, run_wires]
  exact Language.exec_solves (ordered_layers conf perm inputToVal h hc hs) _
    ((Circuit.mem_layersOf h).mpr hf)

end run

end Clear

end GraphMpc
