import GraphMpc.Observed
import GraphMpc.MemoryBackend
import GraphMpc.Disk
import GraphMpc.SecureRun
import GraphMpc.Shapes

namespace GraphMpc

open Circuit Refinement Backend

def Result.transcript (r : Result) : Transcript where
  toP0 := Preprocessor.dealt r.dealer .p0
  toP1 := Preprocessor.dealt r.dealer .p1
  result0 := r.servers.e0.online.output
  result1 := r.servers.e1.online.output

section disk

variable (conf : ProtocolConfig) (p : Program) (columns : ℕ) (inInputOrder reverse dedup : Bool)

theorem build_dealable : Dealable conf
    (build p.algorithm (start conf columns inInputOrder reverse dedup)).2.circ.flatten := by
  obtain ⟨ctx, hc⟩ := construct_spec conf columns inInputOrder reverse dedup p.algorithm_lawful
  rw [build_circ]
  exact dealable_layers conf hc.built.laid hc.disciplined

theorem disk_reads_memory (graphs : Party → Graph) (g : Streams) (blockSize : ℕ)
    (rngs rngs' : Party → RandomGenerators) {r : Result}
    (hr : secureRun conf (build p.algorithm (start conf columns inInputOrder reverse dedup)).2
      (graphs .p0) (graphs .p1) g = some r) :
    ∃ (m : Party → Observed Storage) (d : Party → Observed DiskStorage),
      round blockSize conf (build p.algorithm (start conf columns inInputOrder reverse dedup)).2
        graphs g (fun id => .start (Storage.init (rngs id))) = some (r.transcript, m) ∧
      round blockSize conf (build p.algorithm (start conf columns inInputOrder reverse dedup)).2
        graphs g (fun id => .start (DiskStorage.init (rngs' id))) = some (r.transcript, d) ∧
      ∀ id, (d id).reads = (m id).reads := by
  have hsimd := build_simd p conf columns inInputOrder reverse dedup
  have hdeal := build_dealable conf p columns inInputOrder reverse dedup
  obtain ⟨m, hm, -⟩ := round_follows (memory_observed conf _) hsimd blockSize _
    (fun id => .start (Storage.init (rngs id))) (fun id => ⟨rfl, rfl⟩) _ _
    (round_memory blockSize rngs hr)
  obtain ⟨d, hd, hmd⟩ := round_follows (fun id => (disk_mirrors hdeal id).observed []) hsimd
    blockSize _ (fun id => .start (DiskStorage.init (rngs' id)))
    (fun id => ⟨DiskIdle.init (rngs id) (rngs' id), rfl, rfl⟩) _ _ hm
  exact ⟨m, d, hm, hd, fun id => (hmd id).2.1⟩

end disk

theorem Shipped.pair_execution : Nonempty (Execution Shipped.pairConfig Shipped.pairCircuit
    countingStreams (Shipped.pairGraph [1, 0]) (Shipped.pairGraph [0, 0])) := by
  have hz : Shipped.pairConfig.nodes ≤ Shipped.pairConfig.size := by decide
  have h0 : 0 < Shipped.pairConfig.nodes := by decide
  obtain ⟨X, -⟩ := Program.exists_execution hz (h0.trans_le hz) (fun _ => h0)
    (Shipped.evaluable hz .bfs) (Shipped.circuit_eq Shipped.pairCircuit_eq) countingStreams
    Shipped.pairGraph_shared
  exact ⟨X⟩

theorem disk_reads_memory_pair : ∃ r,
    secureRun Shipped.pairConfig Shipped.pairCircuit (Shipped.pairGraph [1, 0])
      (Shipped.pairGraph [0, 0]) countingStreams = some r ∧
    ∃ (m : Party → Observed Storage) (d : Party → Observed DiskStorage),
      round 3 Shipped.pairConfig Shipped.pairCircuit
        (fun id => Shipped.pairGraph [if id = .p0 then 1 else 0, 0]) countingStreams
        (fun id => .start (Storage.init (countingStreams.generators id))) =
          some (r.transcript, m) ∧
      round 3 Shipped.pairConfig Shipped.pairCircuit
        (fun id => Shipped.pairGraph [if id = .p0 then 1 else 0, 0]) countingStreams
        (fun id => .start (DiskStorage.init (countingStreams.generators id))) =
          some (r.transcript, d) ∧
      ∀ id, (d id).reads = (m id).reads := by
  obtain ⟨X⟩ := Shipped.pair_execution
  exact ⟨_, X.secureRun_eq, disk_reads_memory Shipped.pairConfig (Shipped.bfs.program _) 1 true
    false false (fun id => Shipped.pairGraph [if id = .p0 then 1 else 0, 0]) countingStreams 3
    countingStreams.generators countingStreams.generators X.secureRun_eq⟩

end GraphMpc
