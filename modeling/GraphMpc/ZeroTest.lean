import GraphMpc.Reconstruction
import GraphMpc.Consistency

namespace GraphMpc

open Tabulate Circuit Online GraphMpc.Valuation

-- clip on an input vector, and the result put out; wire 0 also stands for no operand
def clipCircuit (conf : ProtocolConfig) : Circuit :=
  ((do
    let _ ← input
    let x ← input
    let (out, _) ← clipSIMD x
    output out
    levelOrder : Build Unit) (init conf 1)).2

def zeroCircuit (conf : ProtocolConfig) (n : ℕ) : Circuit :=
  ((do
    let _ ← input
    let x ← input
    let x ← equalsZero x n
    let x ← bit2A x n
    output x
    levelOrder : Build Unit) (init conf 1)).2

def inputGate (k : ℕ) : Gate := { type := .input, gId := k, outIdx := k }

def zeroGates (n : ℕ) : List Gate :=
  [inputGate 0, inputGate 1] ++ equalsZeroGates 2 0 1 n ++
    [ { type := .bit2A, gId := 7, in1Idx := 6, outIdx := 7, size := n, multIdx := 5 } ]

def outputGate (k x : ℕ) : Gate := { type := .output, gId := k, in1Idx := x, outIdx := k }

def testGates (n : ℕ) : List Gate := zeroGates n ++ [outputGate 8 7]

def clippingGates (n : ℕ) : List Gate := zeroGates n ++ [flipGate 8 7, outputGate 9 8]

theorem clipCircuit_circ (conf : ProtocolConfig) :
    (clipCircuit conf).circ = layersOf (clippingGates conf.nodes) := by
  simp only [clipCircuit, bind_run, Circuit.input, addGate_run, levelOrder, modify_run]
  rw [clipSIMD_run (by rfl)]
  simp only [Circuit.output, bind_run, pure_run, addGate_run]
  rfl

theorem zeroCircuit_circ (conf : ProtocolConfig) (n : ℕ) :
    (zeroCircuit conf n).circ = layersOf (testGates n) := by
  simp only [zeroCircuit, bind_run, Circuit.input, addGate_run, levelOrder, modify_run]
  rw [equalsZero_run (by rfl)]
  simp only [Circuit.output, Circuit.bit2A, bind_run, pure_run, addGate_run, get_run, countMult_run]
  rfl

theorem zeroGates_block (nodes n : ℕ) (W : ℕ → Prop) :
    Block nodes 0 0 W (clippingGates n) ∧ Block nodes 0 0 W (testGates n) := by
  constructor <;>
    simp [clippingGates, testGates, zeroGates, inputGate, equalsZeroGates, outputGate, flipGate,
      Block, admissible_iff, Gate.reads, Gate.Handled, Gate.binaryOperator, Gate.takesTriple]

def isTest (f : Gate) : Prop :=
  f.type = .input ∨ f.type = .eqz ∨ f.type = .bit2A ∨ f.type = .flip ∨ f.type = .output

def Tripled (gates : List Gate) (s0 s1 : Storage) : Prop :=
  ∀ f ∈ gates, f.type = .eqz ∨ f.type = .bit2A →
    TripleDealt f.binary f.size (s0.triples f) (s1.triples f)

def storedTriples (f : Gate) (s : Storage) : Correlation :=
  if f.type = .eqz ∨ f.type = .bit2A then s.triples f else {}

theorem sendCorrelation_test {f : Gate} (hf : isTest f) (size : ℕ) (id : Party) (s : Storage) :
    s.sendCorrelation size id f = (storedTriples f s, s) ∧
      s.recvCorrelation size id f = some (storedTriples f s, s) := by
  rcases hf with ht | ht | ht | ht | ht <;>
    simp [Storage.sendCorrelation, Storage.recvCorrelation, storedTriples, ht]

def storedSupply (conf : ProtocolConfig) (perm : ℕ → Equiv.Perm ℕ) (order : List Gate)
    (s0 s1 : Storage) (hk : ∀ f ∈ order, isTest f) (ht : Tripled order s0 s1) :
    Supply conf perm order where
  corr f := ⟨storedTriples f s0, storedTriples f s1, storedTriples f s0, storedTriples f s1⟩
  correlated f hf := by
    have htriple := ht f hf
    rcases hk f hf with h | h | h | h | h <;>
      simp [Correlated, TriplesDealt, storedTriples, h] at htriple ⊢
    all_goals exact htriple
  Stocked _ _ d0 d1 := d0 = s0 ∧ d1 = s1
  send := by
    rintro sent recvd rest f d0 d1 ho ⟨rfl, rfl⟩ -
    have hf := hk f (by simp [ho])
    exact ⟨d0, d1, (sendCorrelation_test hf _ _ _).1, (sendCorrelation_test hf _ _ _).1, rfl, rfl⟩
  recv := by
    rintro sent recvd rest f d0 d1 ho - ⟨rfl, rfl⟩
    have hf := hk f (by simp [ho])
    exact ⟨d0, d1, (sendCorrelation_test hf _ _ _).2, (sendCorrelation_test hf _ _ _).2, rfl, rfl⟩

def testServers (gates : List Gate) (s0 s1 : Storage) (x0 x1 : Vec) : Servers :=
  ⟨⟨Online.initWaiting {} (layersOf gates), s0, fun _ => x0⟩,
    ⟨Online.initWaiting {} (layersOf gates), s1, fun _ => x1⟩⟩

theorem run_test {conf : ProtocolConfig} {gates : List Gate} {s0 s1 : Storage} {x0 x1 : Vec}
    (hb : Block conf.nodes 0 0 (fun _ => False) gates) (hk : ∀ f ∈ gates, isTest f)
    (hu : ∀ f ∈ gates, f.type = .eqz → f.layer = 0 → uses gates f.in1Idx = 1)
    (hx : x0.length = x1.length) (ht : Tripled (layersOf gates).flatten s0 s1) {out : Vec}
    (hout : out.length = conf.size)
    (hg : ∀ V : Valuation conf, V.gates = gates →
      (∀ w, V.inp w = List.zipWith (· + ·) x0 x1) →
        (∀ f ∈ gates, V.Good f) ∧ outputsOf V gates = [out]) :
    ∃ s', Servers.run conf (testServers gates s0 s1 x0 x1) (Servers.schedule (layersOf gates)) =
      some s' ∧ Shares s'.e0.online.output s'.e1.online.output out := by
  have hl : Laid conf.nodes (0 + gates.countP Gate.takesTriple) ([] ++ gates) :=
    (Laid.nil conf.nodes 0).append (hb.congr fun w h => h.elim)
  rw [List.nil_append] at hl
  have hcols : ∀ f ∈ gates, f.type ≠ .columnSumsToNodes := by
    intro f hf h
    rcases hk f hf with h' | h' | h' | h' | h' <;> simp [h'] at h
  have hlev : ColumnsLevelled conf.nodes gates := fun f hf h => absurd h (hcols f hf)
  have hone : ∀ idx : ℕ, Keeps conf.size ((fun _ => 1 : ℕ → Equiv.Perm ℕ) idx) := fun _ => .one _
  let V : Valuation conf := evaluation gates (fun _ => List.zipWith (· + ·) x0 x1) hone
    hl.wellFormed hlev hl.sourced
  obtain ⟨good, houts⟩ := hg V rfl fun _ => rfl
  have he : Evaluates V := by
    refine ⟨⟨hl.wellFormed, hl.sourced, hlev, hl.handled, good,
      fun f hf h => absurd h (hcols f hf), fun f hf h => ?_⟩, hu⟩
    rcases hk f hf with h' | h' | h' | h' | h' <;> simp [h'] at h
  have hlayers : ∀ f ∈ (layersOf gates).flatten, f ∈ gates := fun f hf =>
    (mem_layersOf hl.wellFormed).mp hf
  let S : Supply conf he.plan.perm (layersOf he.plan.gates).flatten :=
    storedSupply conf _ _ s0 s1 (fun f hf => hk f (hlayers f hf)) ht
  have hstock : S.Stocked [] [] s0 s1 := ⟨rfl, rfl⟩
  obtain ⟨s', hs', _, hout', hshares⟩ := @run_plan conf he.plan S (fun _ => x0) (fun _ => x1)
    (fun _ _ _ => shares_zipWith hx) s0 s1 hstock
  refine ⟨s', hs'.run, ?_⟩
  have hlen : ∀ v ∈ outputsOf V V.gates, v.length = conf.size := by
    intro v hv
    have hv' : v ∈ outputsOf V gates := hv
    rw [houts, List.mem_singleton] at hv'
    rw [hv', hout]
  have heq := Evaluates.plan_outputs hlen
  have houts' : outputsOf V V.gates = [out] := houts
  rw [houts', List.flatten_singleton] at heq
  rw [he.outputs_eq hout'] at hshares
  exact heq ▸ hshares

section chains

variable {conf : ProtocolConfig} {n : ℕ} {x0 x1 : Vec}

theorem sum_getD (hx : x0.length = x1.length) (i : ℕ) :
    (List.zipWith (· + ·) x0 x1).getD i 0 = x0.getD i 0 + x1.getD i 0 :=
  ((shares_zipWith hx).sum i).symm

def isZero (n : ℕ) (x0 x1 : Vec) (i : ℕ) : Bool :=
  decide (i < n) && decide (x0.getD i 0 + x1.getD i 0 = 0)

theorem zeroGates_good {V : Valuation conf} (hs : zeroGates n ⊆ V.gates)
    (hi : ∀ w, V.inp w = List.zipWith (· + ·) x0 x1) (hx : x0.length = x1.length)
    (hn : n ≤ conf.size) (hl : n ≤ x0.length) :
    (∀ f ∈ zeroGates n, V.Good f) ∧ V.Bits 7 (isZero n x0 x1) := by
  obtain ⟨hs1, hbit⟩ := List.append_subset.mp hs
  obtain ⟨hin, heqz⟩ := List.append_subset.mp hs1
  have h1 : ({ type := .input, gId := 1, outIdx := 1 } : Gate) ∈ V.gates :=
    hin (by simp [inputGate])
  have hk0 : V.kd 1 = .add := V.kind _ h1 (by simp)
  have hv0 : V.val 1 = List.zipWith (· + ·) x0 x1 := (V.solves _ h1 (by simp)).trans (hi 1)
  have hlen : n ≤ (V.val 1).length := by
    rw [hv0, List.length_zipWith, ← hx, Nat.min_self]
    exact hl
  obtain ⟨good, hflags⟩ := equalsZero_flags heqz hk0 hn hlen
  obtain ⟨gb, hbits⟩ := yields_bit2A (hbit (List.mem_singleton_self _)) rfl rfl hn hflags
  refine ⟨?_, hbits.congr fun i _ => by rw [hv0, sum_getD hx, isZero]⟩
  simp only [zeroGates, List.forall_mem_append]
  refine ⟨⟨fun f hf => ?_, good⟩, List.forall_mem_singleton.mpr gb⟩
  have hkind := V.kind f (hin hf)
  simp only [List.mem_cons, List.not_mem_nil, or_false] at hf
  rcases hf with rfl | rfl
  · exact hkind (by simp [inputGate])
  · exact hkind (by simp [inputGate])

theorem test_types (n : ℕ) :
    (∀ f ∈ testGates n, isTest f) ∧ ∀ f ∈ clippingGates n, isTest f := by
  simp [testGates, clippingGates, zeroGates, inputGate, equalsZeroGates, isTest, outputGate,
    flipGate]

theorem test_uses (n : ℕ) :
    (∀ f ∈ testGates n, f.type = .eqz → f.layer = 0 → uses (testGates n) f.in1Idx = 1) ∧
      ∀ f ∈ clippingGates n, f.type = .eqz → f.layer = 0 →
        uses (clippingGates n) f.in1Idx = 1 := by
  have h1 : uses (testGates n) 1 = 1 ∧ uses (clippingGates n) 1 = 1 := ⟨rfl, rfl⟩
  simp [testGates, clippingGates, zeroGates, inputGate, equalsZeroGates, outputGate, flipGate]
    at h1 ⊢
  exact h1

theorem output_good {V : Valuation conf} {k x : ℕ} {y : ℕ → Ring} (hx : V.Holds x y) :
    V.Good (outputGate k x) := hx.full

theorem testGates_good {V : Valuation conf} (hV : V.gates = testGates n)
    (hi : ∀ w, V.inp w = List.zipWith (· + ·) x0 x1) (hx : x0.length = x1.length)
    (hn : n ≤ conf.size) (hl : n ≤ x0.length) :
    (∀ f ∈ testGates n, V.Good f) ∧
      outputsOf V (testGates n) = [tab conf.size fun i => if isZero n x0 x1 i then 1 else 0] := by
  have hs : zeroGates n ⊆ V.gates := hV ▸ List.subset_append_left ..
  obtain ⟨good, h7⟩ := zeroGates_good hs hi hx hn hl
  refine ⟨?_, ?_⟩
  · simp only [testGates, List.forall_mem_append, List.forall_mem_singleton]
    exact ⟨good, output_good h7⟩
  · rw [← h7.2]
    rfl

theorem clippingGates_good {V : Valuation conf} (hV : V.gates = clippingGates n)
    (hi : ∀ w, V.inp w = List.zipWith (· + ·) x0 x1) (hx : x0.length = x1.length)
    (hn : n ≤ conf.size) (hl : n ≤ x0.length) :
    (∀ f ∈ clippingGates n, V.Good f) ∧ outputsOf V (clippingGates n) =
      [tab conf.size fun i => 1 - if isZero n x0 x1 i then 1 else 0] := by
  have hs : zeroGates n ⊆ V.gates := hV ▸ List.subset_append_left ..
  obtain ⟨good, h7⟩ := zeroGates_good hs hi hx hn hl
  have hflip : flipGate 8 7 ∈ V.gates := by rw [hV]; simp [clippingGates]
  obtain ⟨gf, h8⟩ := yields_flip hflip rfl h7
  refine ⟨?_, ?_⟩
  · simp only [clippingGates, List.forall_mem_append, List.forall_mem_cons]
    exact ⟨good, gf, output_good h8, by simp⟩
  · have h8' : V.val 8 = _ := h8.2
    rw [← h8']
    rfl

end chains

def evaluateChain (conf : ProtocolConfig) (circ : Circuit) (s0 s1 : Storage) (x0 x1 : Vec) :
    Option Servers :=
  Servers.run conf ⟨⟨Online.initWaiting {} circ.circ, s0, fun _ => x0⟩,
    ⟨Online.initWaiting {} circ.circ, s1, fun _ => x1⟩⟩ (Servers.schedule circ.circ)

def EndsWith (r : Option Servers) (n : ℕ) (y : ℕ → Ring) : Prop :=
  ∃ s, r = some s ∧ ∀ i < n, s.e0.online.output.getD i 0 + s.e1.online.output.getD i 0 = y i

theorem zero_tests_exact (conf : ProtocolConfig) (s0 s1 : Storage) (x0 x1 : Vec)
    (hx : x0.length = x1.length) :
    (conf.nodes ≤ conf.size → conf.nodes ≤ x0.length →
      Tripled (clipCircuit conf).circ.flatten s0 s1 →
        EndsWith (evaluateChain conf (clipCircuit conf) s0 s1 x0 x1) conf.nodes
          fun i => if x0.getD i 0 + x1.getD i 0 = 0 then 0 else 1) ∧
    ∀ n ≤ conf.size, n ≤ x0.length → Tripled (zeroCircuit conf n).circ.flatten s0 s1 →
      EndsWith (evaluateChain conf (zeroCircuit conf n) s0 s1 x0 x1) n
        fun i => if x0.getD i 0 + x1.getD i 0 = 0 then 1 else 0 := by
  constructor
  · intro hn hl ht
    rw [clipCircuit_circ] at ht
    obtain ⟨s, hs, hout⟩ := run_test (zeroGates_block conf.nodes conf.nodes _).1 (test_types _).2
      (test_uses _).2 hx ht (tab_length ..) fun V hV hi => clippingGates_good hV hi hx hn hl
    refine ⟨s, ?_, fun i hi => ?_⟩
    · rw [evaluateChain, clipCircuit_circ]
      exact hs
    · rw [hout.sum, tab_getD_lt _ _ (hi.trans_le hn)]
      simp only [isZero, hi, decide_true, Bool.true_and, decide_eq_true_eq]
      split <;> rfl
  · intro n hn hl ht
    rw [zeroCircuit_circ] at ht
    obtain ⟨s, hs, hout⟩ := run_test (zeroGates_block conf.nodes n _).2 (test_types _).1
      (test_uses _).1 hx ht (tab_length ..) fun V hV hi => testGates_good hV hi hx hn hl
    refine ⟨s, ?_, fun i hi => ?_⟩
    · rw [evaluateChain, zeroCircuit_circ]
      exact hs
    · rw [hout.sum, tab_getD_lt _ _ (hi.trans_le hn)]
      simp [isZero, hi]

theorem fourEntries_int : 4 < 2 ^ 31 := by decide

def fourEntries : ProtocolConfig := ⟨4, 3, 0, 1, fourEntries_int⟩

def zeroWords : PRG := ⟨fun _ => 0, 0⟩

def constantTriples (x : Ring) : Storage :=
  { Storage.init ⟨zeroWords, zeroWords, zeroWords, zeroWords, zeroWords, zeroWords, zeroWords,
      zeroWords, zeroWords, zeroWords, zeroWords⟩ with
    triplesA := fun _ => List.replicate 4 x
    triplesB := fun _ => List.replicate 4 x
    triplesC := fun _ => List.replicate 4 x }

theorem constantTriples_dealt (f : Gate) (hf : f.size ≤ 4) :
    TripleDealt f.binary f.size ((constantTriples 1).triples f) ((constantTriples 0).triples f) where
  length0 := ⟨hf, hf, hf⟩
  length1 := ⟨hf, hf, hf⟩
  product i hi := by
    have hget : ∀ x : Ring, (List.replicate 4 x).getD i 0 = x := fun x =>
      List.getD_replicate _ (hi.trans_le hf)
    simp only [Storage.triples, constantTriples, hget]
    split <;> decide

theorem constantTriples_tripled {l : List Gate} (h : ∀ f ∈ l, f.size ≤ 4) :
    Tripled l (constantTriples 1) (constantTriples 0) :=
  fun f hf _ => constantTriples_dealt f (h f hf)

theorem fourEntries_sizes : (∀ f ∈ (clipCircuit fourEntries).circ.flatten, f.size ≤ 4) ∧
    ∀ f ∈ (zeroCircuit fourEntries 4).circ.flatten, f.size ≤ 4 := by
  decide +kernel

theorem zero_tests_exact_four : let x0 : Vec := [5, 0, 3, 2147483648]
    let x1 : Vec := [-5, 0, 4, 2147483648]
    EndsWith (evaluateChain fourEntries (clipCircuit fourEntries) (constantTriples 1)
        (constantTriples 0) x0 x1) 3
      (fun i => if x0.getD i 0 + x1.getD i 0 = 0 then 0 else 1) ∧
    EndsWith (evaluateChain fourEntries (zeroCircuit fourEntries 4) (constantTriples 1)
        (constantTriples 0) x0 x1) 4
      (fun i => if x0.getD i 0 + x1.getD i 0 = 0 then 1 else 0) := by
  have h := zero_tests_exact fourEntries (constantTriples 1) (constantTriples 0)
    [5, 0, 3, 2147483648] [-5, 0, 4, 2147483648] rfl
  exact ⟨h.1 (by decide) (by decide) (constantTriples_tripled fourEntries_sizes.1),
    h.2 4 le_rfl le_rfl (constantTriples_tripled fourEntries_sizes.2)⟩

end GraphMpc
