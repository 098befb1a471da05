import GraphMpc.SortedOrders
import GraphMpc.Katz

namespace GraphMpc

open Tabulate Circuit

namespace DagList

variable {L : DagList} {conf : ProtocolConfig}

-- a vector that flags every edge but one of each set of parallel edges, and no node
structure FlagsSurplus (L : DagList) (size : ℕ) (v : Vec) : Prop where
  length : v.length = size
  bits : ∀ e < size, v.getD e 0 = 0 ∨ v.getD e 0 = 1
  nodes : ∀ e < size, L.isV e = true → v.getD e 0 = 0
  kept : ∀ p ∈ L.pairs size,
    ∃! e, e < size ∧ L.isV e = false ∧ (L.src e, L.dst e) = p ∧ v.getD e 0 = 0

theorem surplus_directed (hV : L.Valid conf) (reverse : Bool) {e : ℕ} (he : e < conf.size) :
    (L.directed reverse).surplus conf true e = L.surplus conf true e := by
  cases reverse with
  | false => rfl
  | true => exact surplus_reversed hV he

theorem Valid.loop_flagged (hV : L.Valid conf) {u e : ℕ} (hu : u < conf.size)
    (huv : L.isV u = true) (he : e < conf.size) (hev : L.isV e = false) (hue : L.src u = L.src e)
    (hloop : L.src e = L.dst e) : L.surplus conf true u = true := by
  rw [hV.surplus_iff hu]
  exact ⟨e, he, hev, hue.symm, by rw [← hloop, hV.loop u hu huv, hue], Or.inl huv⟩

theorem Valid.flagsSurplus_iff (hV : L.Valid conf) (hc : L.Closed conf.size) :
    L.FlagsSurplus conf.size (tab conf.size fun e => if L.surplus conf true e then 1 else 0) ↔
      L.LoopFree conf.size := by
  have hzero : ∀ e < conf.size,
      (tab conf.size fun e => if L.surplus conf true e then (1 : Ring) else 0).getD e 0 = 0 ↔
        L.surplus conf true e = false := fun e he => by
    rw [tab_getD_lt _ _ he]
    cases L.surplus conf true e <;> simp
  constructor
  · intro h e he hev hloop
    obtain ⟨u, hu, huv, hue⟩ := (hc e he).1
    have hkept := (hzero u hu).mp (h.nodes u hu huv)
    rw [hV.loop_flagged hu huv he hev hue hloop] at hkept
    cases hkept
  · intro hl
    refine ⟨tab_length .., fun e he => ?_, fun e he hev => (hzero e he).mpr (hV.kept hl he hev),
      fun p hp => ?_⟩
    · rw [tab_getD_lt _ _ he]
      split
      · exact Or.inr rfl
      · exact Or.inl rfl
    · obtain ⟨e, ⟨he, hev, hs, hpe⟩, huniq⟩ := hV.pairs_kept hp
      refine ⟨e, ⟨he, hev, hpe, (hzero e he).mpr hs⟩, fun e' ⟨he', hev', hpe', hz⟩ => ?_⟩
      exact huniq e' ⟨he', hev', (hzero e' he').mp hz, hpe'⟩

end DagList

-- in the run of a circuit pre_mp appends a wire to both lists of sort keys that flags the surplus edges
def Deduplicates (conf : ProtocolConfig) (p : Program) (columns : ℕ) (inInputOrder reverse : Bool)
    (L : DagList) (g0 g1 : Graph) (g : Streams) : Prop :=
  ∃ msbs v,
    (flaggedInputs conf columns inInputOrder reverse true).srcOrderBits.getLast? = some msbs ∧
    (flaggedInputs conf columns inInputOrder reverse true).dstOrderBits.getLast? = some msbs ∧
    Reconstructs conf (build p.algorithm (start conf columns inInputOrder reverse true)).2 g0 g1 g
      msbs v ∧ L.FlagsSurplus conf.size v

section runs

variable {conf : ProtocolConfig} {columns : ℕ} {L : DagList} {g0 g1 : Graph} {x : ℕ → Ring}

theorem Program.deduplicates_iff {p : Program} (he : p.Evaluable conf columns)
    (inInputOrder reverse : Bool) (hs : 0 < conf.size) (hV : L.Valid conf)
    (hc : L.Closed conf.size) (hin : SharedList conf g0 g1 (L.listing conf.bits) x) (g : Streams) :
    Deduplicates conf p columns inInputOrder reverse L g0 g1 g ↔ L.LoopFree conf.size := by
  have hcirc : _ = (build p.algorithm (start conf columns inInputOrder reverse true)).2 := rfl
  obtain ⟨msbs, hsrc, hdst, hflags⟩ := Program.flags_reconstruct hs
    (fun _ => hV.nodes_pos hc.sourced hs) he hV hin g hcirc
  rw [tab_congr fun e he => by rw [DagList.surplus_directed hV reverse he]] at hflags
  rw [← hV.flagsSurplus_iff hc]
  constructor
  · rintro ⟨msbs', v, hsrc', -, hv, h⟩
    obtain rfl := Option.some.inj (hsrc.symm.trans hsrc')
    rwa [hv.unique hflags] at h
  · exact fun h => ⟨msbs, _, hsrc, hdst, hflags, h⟩

theorem deduplicates_iff_loopFree (alg : Shipped) (hc : alg = .piR → conf.nodes ≤ columns)
    (inInputOrder reverse : Bool) (hs : 0 < conf.size) (hV : L.Valid conf)
    (hL : L.Closed conf.size) (hin : SharedList conf g0 g1 (L.listing conf.bits) x) (g : Streams) :
    Deduplicates conf (alg.program conf) columns inInputOrder reverse L g0 g1 g ↔
      L.LoopFree conf.size :=
  Program.deduplicates_iff (alg.evaluable_of hV.nodes_le columns hc) inInputOrder reverse hs hV hL
    hin g

theorem deduplicates_iff_loopFree_parallel :
    Deduplicates Shipped.parallelConfig (Shipped.bfs.program Shipped.parallelConfig) 1 true false
        Shipped.parallel (Shipped.parallel.graph Shipped.parallelConfig fun _ => 7)
        (DagList.blank Shipped.parallelConfig) countingStreams ↔
      Shipped.parallel.LoopFree Shipped.parallelConfig.size :=
  deduplicates_iff_loopFree .bfs (by simp) true false (by decide) Shipped.parallel_valid
    Shipped.parallel_closed (Shipped.parallel.shared_graph _ _) countingStreams

theorem not_deduplicates_loop :
    ¬ Deduplicates Shipped.pairConfig (Shipped.bfs.program Shipped.pairConfig) 1 true false
      Program.loop (Program.loop.graph Shipped.pairConfig fun _ => 7)
      (DagList.blank Shipped.pairConfig) countingStreams := by
  rw [Program.deduplicates_iff (Shipped.bfs.evaluable_of (by decide) 1 (by simp)) true false
    (by decide) Program.loop_valid Program.loop_closed (Program.loop.shared_graph _ _)]
  exact fun h => h 1 (by decide) rfl rfl

end runs

end GraphMpc
