import GraphMpc.SessionRun
import GraphMpc.ParallelSearch

namespace GraphMpc

open Refinement Backend Circuit Observed

namespace Shipped

variable {conf : ProtocolConfig} {inInputOrder : Bool} {circ : Circuit} {alg : Shipped}
  {graphs : Party → Graph} {g : Streams} {generator : GraphGenerator}

theorem provisioned (hc : alg.circuit conf inInputOrder = .ok circ) : Provisioned conf circ := by
  rw [circuit_eq hc]
  exact build_provisioned conf _ _ _ _ _

theorem dealable (hc : alg.circuit conf inInputOrder = .ok circ) :
    Dealable conf circ.circ.flatten := by
  rw [circuit_eq hc]
  exact build_dealable conf _ _ _ _ _

theorem simd (hc : alg.circuit conf inInputOrder = .ok circ) :
    ∀ f ∈ circ.circ.flatten, f.type ≠ .mul := by
  rw [circuit_eq hc]
  exact build_simd _ _ _ _ _ _

section shared

variable (hz : conf.nodes ≤ conf.size) (h0 : 0 < conf.nodes)
  (hc : alg.circuit conf inInputOrder = .ok circ) {E : Listing} {x : ℕ → Ring}
  (hin : SharedList conf (graphs .p0) (graphs .p1) E x)

include hz h0 hc hin

theorem shared_round (blockSize : ℕ) (g : Streams) (rngs : Party → RandomGenerators) :
    ∃ shown, view (round blockSize conf circ graphs g) (fun id => Storage.init (rngs id)) =
      some shown := by
  obtain ⟨X, -⟩ := Program.exists_execution hz (h0.trans_le hz) (fun _ => h0) (evaluable hz alg)
    (circuit_eq hc) g hin
  obtain ⟨o, ho, -⟩ := round_follows (memory_observed conf _) (simd hc) blockSize _
    (fun id => .start (Storage.init (rngs id))) (fun id => ⟨rfl, rfl⟩) _ _
    (round_memory blockSize rngs X.secureRun_eq)
  exact ⟨_, by rw [Observed.view, ho]; rfl⟩

theorem shared_session (blockSize : ℕ) {rng : PRG}
    (hgen : generator g.rng01 g.rng01 = some (graphs, rng, rng)) (rngs : Party → RandomGenerators) :
    ∃ shown, view (session blockSize conf circ generator g) (fun id => Storage.init (rngs id)) =
      some shown := by
  obtain ⟨X, -⟩ := Program.exists_execution hz (h0.trans_le hz) (fun _ => h0) (evaluable hz alg)
    (circuit_eq hc) (g.with01 rng) hin
  obtain ⟨o, ho, -⟩ := session_follows (memory_observed conf _) (simd hc) blockSize generator g _
    (fun id => .start (Storage.init (rngs id))) (fun id => ⟨rfl, rfl⟩) _ _
    (session_memory rngs hgen X.secureRun_eq)
  exact ⟨_, by rw [Observed.view, ho]; rfl⟩

end shared

theorem ssd_agrees (hz : conf.nodes ≤ conf.size) (h0 : 0 < conf.nodes)
    (hc : alg.circuit conf inInputOrder = .ok circ) (blockSize : ℕ) (g : Streams)
    (graphs : Party → Graph) (rngs rngs' : Party → RandomGenerators) :
    view (round blockSize conf circ graphs g) (fun id => DiskStorage.init (rngs' id)) =
      view (round blockSize conf circ graphs g) (fun id => Storage.init (rngs id)) ∧
    ∀ E x, SharedList conf (graphs .p0) (graphs .p1) E x → ∃ shown,
      view (round blockSize conf circ graphs g) (fun id => DiskStorage.init (rngs' id)) =
        some shown := by
  have hagree := round_agrees (disk_mirrors (dealable hc)) (simd hc) (provisioned hc) blockSize
    graphs g fun id => DiskIdle.init (rngs id) (rngs' id)
  exact ⟨hagree.symm, fun E x hin => hagree ▸ shared_round hz h0 hc hin blockSize g rngs⟩

def triangleColumns : Circuit :=
  (build (bfs3Parallel.program triangleConfig).algorithm
    (start triangleConfig 3 false false false)).2

theorem triangleColumns_eq : bfs3Parallel.circuit triangleConfig false = .ok triangleColumns := rfl

def triangleGraphs : Party → Graph
  | .p0 => triangle.graph triangleConfig fun _ => 7
  | _ => DagList.blank triangleConfig

theorem ssd_agrees_triangle : ∃ shown,
    view (round 3 triangleConfig triangleColumns triangleGraphs countingStreams)
      (fun id => DiskStorage.init (countingStreams.generators id)) = some shown ∧
    view (round 3 triangleConfig triangleColumns triangleGraphs countingStreams)
      (fun id => Storage.init (countingStreams.generators id)) = some shown := by
  obtain ⟨hagree, hshows⟩ := ssd_agrees (by decide) (by decide) triangleColumns_eq 3 countingStreams
    triangleGraphs countingStreams.generators countingStreams.generators
  obtain ⟨shown, hdisk⟩ := hshows _ _ (triangle.shared_graph triangleConfig fun _ => 7)
  exact ⟨shown, hdisk, hagree ▸ hdisk⟩

theorem rounds_independent (hz : conf.nodes ≤ conf.size) (h0 : 0 < conf.nodes)
    (hc : alg.circuit conf inInputOrder = .ok circ) (blockSize : ℕ) (generator : GraphGenerator)
    (gs : List Streams) (rngs rngs' : Party → RandomGenerators) :
    view (benchmark blockSize conf generator circ gs) (fun id => Storage.init (rngs id)) =
      (gs.mapM fun g => view (session blockSize conf circ generator g)
        (fun id => Storage.init (rngs' id))).map (joined fun _ => []) ∧
    view (benchmark blockSize conf generator circ gs) (fun id => DiskStorage.init (rngs id)) =
      (gs.mapM fun g => view (session blockSize conf circ generator g)
        (fun id => DiskStorage.init (rngs' id))).map (joined fun _ => []) ∧
    ∀ g ∈ gs, ∀ graphs rng E x, generator g.rng01 g.rng01 = some (graphs, rng, rng) →
      SharedList conf (graphs .p0) (graphs .p1) E x → ∃ shown,
        view (session blockSize conf circ generator g) (fun id => Storage.init (rngs' id)) =
            some shown ∧
          view (session blockSize conf circ generator g) (fun id => DiskStorage.init (rngs' id)) =
            some shown := by
  have hdisk : ∀ g : Streams, view (session blockSize conf circ generator g)
      (fun id => Storage.init (rngs' id)) = view (session blockSize conf circ generator g)
        (fun id => DiskStorage.init (rngs' id)) := fun g =>
    session_agrees _ _ (disk_mirrors (dealable hc)) (simd hc) (provisioned hc) blockSize
      fun id => DiskIdle.init (rngs' id) (rngs' id)
  refine ⟨?_, ?_, fun g _ graphs rng E x hgen hin => ?_⟩
  · exact benchmark_agrees _ _ (fun id => reused_mirrors conf _ id) (simd hc) (provisioned hc)
      blockSize (fun id _ s h hr => ⟨s.reset id, rfl, h.reset hr⟩) gs
      (fun id => .start (Storage.init (rngs id)))
      fun id => ⟨fun rngs' => Cleared.init id rngs' (rngs id), rfl⟩
  · rw [← funext hdisk]
    exact benchmark_agrees _ _ (disk_mirrors (dealable hc)) (simd hc) (provisioned hc) blockSize
      (fun id _ d h _ => ⟨d.reset id, rfl, h.reset⟩) gs
      (fun id => .start (DiskStorage.init (rngs id)))
      fun id => ⟨fun rngs' => DiskIdle.init rngs' (rngs id), rfl⟩
  · obtain ⟨shown, hs⟩ := shared_session hz h0 hc hin blockSize hgen rngs'
    exact ⟨shown, hs, hdisk g ▸ hs⟩

def triangleGenerator : GraphGenerator := fun rng0 rng1 => some (triangleGraphs, rng0, rng1)

theorem rounds_independent_triangle : ∃ shown : Transcript × Reads,
    view (session 3 triangleConfig triangleColumns triangleGenerator countingStreams)
      (fun id => Storage.init (countingStreams.generators id)) = some shown ∧
    view (session 3 triangleConfig triangleColumns triangleGenerator countingStreams)
      (fun id => DiskStorage.init (countingStreams.generators id)) = some shown ∧
    view (benchmark 3 triangleConfig triangleGenerator triangleColumns
      [countingStreams, countingStreams])
      (fun id => Storage.init (countingStreams.generators id)) =
        some ([shown.1, shown.1], fun id => shown.2 id ++ shown.2 id) ∧
    view (benchmark 3 triangleConfig triangleGenerator triangleColumns
      [countingStreams, countingStreams])
      (fun id => DiskStorage.init (countingStreams.generators id)) =
        some ([shown.1, shown.1], fun id => shown.2 id ++ shown.2 id) := by
  obtain ⟨hmem, hdisk, hshows⟩ := rounds_independent (by decide) (by decide) triangleColumns_eq 3
    triangleGenerator [countingStreams, countingStreams] countingStreams.generators
    countingStreams.generators
  obtain ⟨shown, hm, hd⟩ := hshows countingStreams (List.mem_cons_self ..) triangleGraphs
    countingStreams.rng01 _ _ rfl (triangle.shared_graph triangleConfig fun _ => 7)
  have hjoined : joined (fun _ => []) [shown, shown] =
      ([shown.1, shown.1], fun id => shown.2 id ++ shown.2 id) := by
    refine Prod.ext rfl (funext fun id => ?_)
    simp [joined]
  refine ⟨shown, hm, hd, hmem.trans ?_, hdisk.trans ?_⟩
  · rw [List.mapM_cons, List.mapM_cons, hm, ← hjoined]
    rfl
  · rw [List.mapM_cons, List.mapM_cons, hd, ← hjoined]
    rfl

end Shipped

end GraphMpc
