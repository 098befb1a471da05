import GraphMpc.Agreement
import GraphMpc.PartySharing

namespace GraphMpc

open Refinement Backend Circuit

section common

def Storage.with01 (s : Storage) (rng : PRG) : Storage :=
  { s with rngs := { s.rngs with rng01 := rng } }

def Streams.with01 (g : Streams) (rng : PRG) : Streams := { g with rng01 := rng }

variable {size n : ℕ} {id recv : Party} {f : Gate} {s : Storage} (rng : PRG)

theorem readPreproc_with01 : (s.with01 rng).readPreproc id n =
    (s.readPreproc id n).map fun p => (p.1, p.2.with01 rng) := by
  have hb : (s.with01 rng).preproc = s.preproc ∧ (s.with01 rng).readIdx = s.readIdx := ⟨rfl, rfl⟩
  rw [Storage.readPreproc, Storage.readPreproc, hb.1, hb.2]
  cases readChunk (s.preproc id) n s.readIdx <;> rfl

theorem shareSecret_with01 (hid : id ≠ .d) (secret : Vec) (binary : Bool) :
    (s.with01 rng).randomShareSecretVec3P id recv secret binary =
      (s.randomShareSecretVec3P id recv secret binary).map fun p => (p.1, p.2.with01 rng) := by
  simp only [Storage.randomShareSecretVec3P, if_neg hid]
  split
  · exact readPreproc_with01 rng
  · rfl

theorem dealTriples_with01 (hid : id ≠ .d) : (s.with01 rng).dealTriples id recv n f =
    (s.dealTriples id recv n f).map (·.with01 rng) := by
  let a := randomShareVec3P id s.rngs n f.binary
  let b := randomShareVec3P id a.2 n f.binary
  let c := Tabulate.tab n fun i =>
    if f.binary then a.1.getD i 0 &&& b.1.getD i 0 else a.1.getD i 0 * b.1.getD i 0
  let store := fun p : Vec × Storage => some (p.2.storeTriples a.1 b.1 p.1 f.multIdx)
  have hdeal : s.dealTriples id recv n f =
      (({ s with rngs := b.2 } : Storage).randomShareSecretVec3P id recv c
        f.binary).bind store := by
    simp only [Storage.dealTriples, if_neg hid]
    rfl
  have hdeal01 : (s.with01 rng).dealTriples id recv n f =
      ((({ s with rngs := b.2 } : Storage).with01 rng).randomShareSecretVec3P id recv c
        f.binary).bind store := by
    simp only [Storage.dealTriples, randomShareVec3P, if_neg hid, a, b, c, store]
    rfl
  rw [hdeal01, hdeal, shareSecret_with01 rng hid, Option.bind_map, Option.map_bind]
  rfl

theorem preprocessGate_with01 (hid : id ≠ .d) (p : Preprocessor) :
    Preprocessor.preprocessGate size id { p with data := p.data.with01 rng } f =
      (Preprocessor.preprocessGate size id p f).map fun q =>
        { q with data := q.data.with01 rng } := by
  have hread : ∀ id, (p.data.with01 rng).readPreproc id size =
      (p.data.readPreproc id size).map fun q => (q.1, q.2.with01 rng) :=
    fun _ => readPreproc_with01 rng
  have htriples : ∀ n, (p.data.with01 rng).dealTriples id p.recv n f =
      (p.data.dealTriples id p.recv n f).map (·.with01 rng) :=
    fun _ => dealTriples_with01 rng hid
  unfold Preprocessor.preprocessGate
  cases ht : f.type with
  | shuffle | mergedShuffle =>
    have hp : (p.data.with01 rng).preprocessed = p.data.preprocessed := rfl
    cases id with
    | d => exact absurd rfl hid
    | p0 | p1 =>
      simp only [hp, hread]
      split
      · cases p.data.readPreproc _ size <;> rfl
      · rfl
  | unshuffle =>
    simp only [if_neg hid]
    rfl
  | compaction | mulSIMD | eqz | bit2A =>
    simp only [htriples]
    cases p.data.dealTriples id p.recv _ f <;> rfl
  | _ => rfl

theorem preprocess_with01 (hid : id ≠ .d) (l : List Gate) (p : Preprocessor) :
    l.foldlM (Preprocessor.preprocessGate size id) { p with data := p.data.with01 rng } =
      (l.foldlM (Preprocessor.preprocessGate size id) p).map fun q =>
        { q with data := q.data.with01 rng } := by
  induction l generalizing p with
  | nil => rfl
  | cons f l ih =>
    rw [List.foldlM_cons, List.foldlM_cons, preprocessGate_with01 rng hid]
    cases Preprocessor.preprocessGate size id p f with
    | none => rfl
    | some q => exact ih q

theorem runParty_with01 (conf : ProtocolConfig) (circ : List (List Gate)) (g : Streams)
    (dealer : Storage) (hid : id ≠ .d) :
    Preprocessor.runParty conf circ (g.with01 rng) dealer id =
      (Preprocessor.runParty conf circ g dealer id).map (·.with01 rng) := by
  have hstart : partyStart (g.with01 rng) dealer id =
      { partyStart g dealer id with data := (partyStart g dealer id).data.with01 rng } := by
    cases id with
    | d => exact absurd rfl hid
    | p0 | p1 => rfl
  rw [runParty_eq, runParty_eq, hstart, preprocess_with01 rng hid, Option.map_map, Option.map_map]
  rfl

theorem runParty_rng01 {conf : ProtocolConfig} {circ : List (List Gate)} {g : Streams}
    {dealer : Storage} (hid : id ≠ .d) (h : Preprocessor.runParty conf circ g dealer id = some s) :
    s.rngs.rng01 = g.rng01 := by
  have hsame := runParty_with01 g.rng01 conf circ g dealer hid
  rw [show g.with01 g.rng01 = g from rfl, h] at hsame
  exact congrArg (fun s : Storage => s.rngs.rng01) (Option.some.inj hsame)

end common

section sessions

variable {conf : ProtocolConfig} {circ : Circuit} {g : Streams} {generator : GraphGenerator}
  {graphs : Party → Graph} {rng : PRG} {blockSize : ℕ} {r : Result}

theorem createGraph_memory {dealer s0 s1 : Storage} (h0 : s0.rngs.rng01 = g.rng01)
    (h1 : s1.rngs.rng01 = g.rng01)
    (hgen : generator g.rng01 g.rng01 = some (graphs, rng, rng)) :
    createGraph generator (seats dealer s0 s1) =
      some (graphs, seats dealer (s0.with01 rng) (s1.with01 rng)) := by
  have hget : ∀ s : Storage, (onRegs Storage.getRng01 : Prog Storage PRG) s =
      some (s.rngs.rng01, s) := fun s => onRegs_memory (fun _ => rfl) s
  have hset : ∀ s : Storage, (onRegs (·.setRng01 rng) : Prog Storage Unit) s =
      some ((), s.with01 rng) := fun s => onRegs_memory (fun _ => rfl) s
  rw [createGraph, bind_apply, onPart_p0 (hget s0), Option.bind_some, bind_apply,
    onPart_p1 (hget s1), Option.bind_some, h0, h1, hgen, bind_apply, ofOption, Option.map_some,
    Option.bind_some, bind_apply, onPart_p0 (hset s0), Option.bind_some, bind_apply,
    onPart_p1 (hset s1)]
  rfl

theorem session_memory (rngs : Party → RandomGenerators)
    (hgen : generator g.rng01 g.rng01 = some (graphs, rng, rng))
    (hr : secureRun conf circ (graphs .p0) (graphs .p1) (g.with01 rng) = some r) :
    session blockSize conf circ generator g (fun id => Storage.init (rngs id)) =
      some (r.transcript,
        seats ((r.dealer.sentTo .p0).sentTo .p1) r.servers.e0.data r.servers.e1.data) := by
  obtain ⟨dealer, hd, hr⟩ := Option.bind_eq_some_iff.mp hr
  obtain ⟨t0, h0, hr⟩ := Option.bind_eq_some_iff.mp hr
  obtain ⟨t1, h1, hr⟩ := Option.bind_eq_some_iff.mp hr
  obtain ⟨t, ht, hr⟩ := Option.bind_eq_some_iff.mp hr
  cases hr
  have hd : Preprocessor.runDealer conf circ.circ g = some dealer := hd
  rw [runParty_with01 rng conf circ.circ g dealer (by decide)] at h0 h1
  obtain ⟨s0, hs0, rfl⟩ := Option.map_eq_some_iff.mp h0
  obtain ⟨s1, hs1, rfl⟩ := Option.map_eq_some_iff.mp h1
  rw [session, bind_apply, prepare_memory blockSize rngs hd hs0 hs1, Option.bind_some, bind_apply,
    createGraph_memory (runParty_rng01 (by decide) hs0) (runParty_rng01 (by decide) hs1) hgen,
    Option.bind_some, bind_apply, evaluate_memory ht]
  rfl

end sessions

section built

variable (conf : ProtocolConfig) (p : Program) (columns : ℕ) (inInputOrder reverse dedup : Bool)

theorem session_shows {generator : GraphGenerator} {g : Streams} {graphs : Party → Graph}
    {rng : PRG} {r : Result} (blockSize : ℕ) (rngs : Party → RandomGenerators)
    (hgen : generator g.rng01 g.rng01 = some (graphs, rng, rng))
    (hr : secureRun conf (build p.algorithm (start conf columns inInputOrder reverse dedup)).2
      (graphs .p0) (graphs .p1) (g.with01 rng) = some r) :
    ∃ shown, shown.1 = r.transcript ∧ Shows blockSize conf
      (build p.algorithm (start conf columns inInputOrder reverse dedup)).2 generator rngs g
      shown := by
  obtain ⟨m, hm, -⟩ := session_follows (memory_observed conf _)
    (build_simd p conf columns inInputOrder reverse dedup) blockSize generator g _
    (fun id => Observed.start (Storage.init (rngs id))) (fun id => ⟨rfl, rfl⟩) _ _
    (session_memory rngs hgen hr)
  exact ⟨(r.transcript, m), rfl, hm⟩

theorem sessions_show {generator : GraphGenerator} {T : Transcript → Prop} (blockSize : ℕ)
    {gs : List Streams}
    (hgs : ∀ g ∈ gs, ∃ graphs rng r, generator g.rng01 g.rng01 = some (graphs, rng, rng) ∧
      secureRun conf (build p.algorithm (start conf columns inInputOrder reverse dedup)).2
        (graphs .p0) (graphs .p1) (g.with01 rng) = some r ∧ T r.transcript)
    (rngs : Party → RandomGenerators) :
    ∃ shown, List.Forall₂ (Shows blockSize conf
        (build p.algorithm (start conf columns inInputOrder reverse dedup)).2 generator rngs)
        gs shown ∧ ∀ q ∈ shown, T q.1 := by
  induction gs with
  | nil => exact ⟨[], .nil, fun q hq => by cases hq⟩
  | cons g gs ih =>
    obtain ⟨graphs, rng, r, hgen, hr, ht⟩ := hgs g (List.mem_cons_self ..)
    obtain ⟨q, hq, hshows⟩ :=
      session_shows conf p columns inInputOrder reverse dedup blockSize rngs hgen hr
    obtain ⟨shown, hshown, hall⟩ := ih fun g hg => hgs g (List.mem_cons_of_mem _ hg)
    refine ⟨q :: shown, .cons hshows hshown, fun x hx => ?_⟩
    rcases List.mem_cons.mp hx with rfl | hx
    · exact hq ▸ ht
    · exact hall x hx

theorem benchmark_shows {generator : GraphGenerator} {blockSize : ℕ} {gs : List Streams}
    {rngs : Party → RandomGenerators} {shown : List (Transcript × (Party → Observed Storage))}
    (hshown : List.Forall₂ (Shows blockSize conf
      (build p.algorithm (start conf columns inInputOrder reverse dedup)).2 generator rngs)
      gs shown) :
    (∃ m : Party → Observed Storage, benchmark blockSize conf generator
      (build p.algorithm (start conf columns inInputOrder reverse dedup)).2 gs
      (fun id => .start (Storage.init (rngs id))) = some (shown.map Prod.fst, m) ∧
        ∀ id, (m id).reads = (shown.map fun q => (q.2 id).reads).flatten) ∧
    ∃ d : Party → Observed DiskStorage, benchmark blockSize conf generator
      (build p.algorithm (start conf columns inInputOrder reverse dedup)).2 gs
      (fun id => .start (DiskStorage.init (rngs id))) = some (shown.map Prod.fst, d) ∧
        ∀ id, (d id).reads = (shown.map fun q => (q.2 id).reads).flatten := by
  have hsimd := build_simd p conf columns inInputOrder reverse dedup
  have hdeal := build_dealable conf p columns inInputOrder reverse dedup
  have hprov := build_provisioned conf p columns inInputOrder reverse dedup
  constructor
  · exact benchmark_shown _ _ (fun id => reused_mirrors conf _ id) hsimd hprov blockSize
      (fun id _ s h hr => ⟨s.reset id, rfl, h.reset hr⟩) hshown
      fun id rngs' => Cleared.init id rngs' (rngs id)
  · exact benchmark_shown _ _ (fun id => disk_mirrors hdeal id) hsimd hprov blockSize
      (fun id _ d h _ => ⟨d.reset id, rfl, h.reset⟩) hshown
      fun id rngs' => DiskIdle.init rngs' (rngs id)

theorem benchmark_repeats (generator : GraphGenerator) (blockSize : ℕ) (gs : List Streams)
    (hgs : ∀ g ∈ gs, ∃ graphs rng r, generator g.rng01 g.rng01 = some (graphs, rng, rng) ∧
      secureRun conf (build p.algorithm (start conf columns inInputOrder reverse dedup)).2
        (graphs .p0) (graphs .p1) (g.with01 rng) = some r)
    (rngs : Party → RandomGenerators) :
    ∃ shown : List (Transcript × (Party → Observed Storage)),
      List.Forall₂ (fun g q => session blockSize conf
        (build p.algorithm (start conf columns inInputOrder reverse dedup)).2 generator g
        (fun id => .start (Storage.init (rngs id))) = some q) gs shown ∧
      (∃ m : Party → Observed Storage, benchmark blockSize conf generator
        (build p.algorithm (start conf columns inInputOrder reverse dedup)).2 gs
        (fun id => .start (Storage.init (rngs id))) = some (shown.map Prod.fst, m) ∧
          ∀ id, (m id).reads = (shown.map fun q => (q.2 id).reads).flatten) ∧
      ∃ d : Party → Observed DiskStorage, benchmark blockSize conf generator
        (build p.algorithm (start conf columns inInputOrder reverse dedup)).2 gs
        (fun id => .start (DiskStorage.init (rngs id))) = some (shown.map Prod.fst, d) ∧
          ∀ id, (d id).reads = (shown.map fun q => (q.2 id).reads).flatten := by
  obtain ⟨shown, hshown, -⟩ := @sessions_show conf p columns inInputOrder reverse dedup generator
    (fun _ => True) blockSize gs (fun g hg => by
      obtain ⟨graphs, rng, r, hgen, hr⟩ := hgs g hg
      exact ⟨graphs, rng, r, hgen, hr, trivial⟩) rngs
  exact ⟨shown, hshown, benchmark_shows conf p columns inInputOrder reverse dedup hshown⟩

end built

def pairGenerator : GraphGenerator := fun rng0 rng1 =>
  some (fun id => Shipped.pairGraph [if id = .p0 then 1 else 0, 0], rng0, rng1)

theorem benchmark_repeats_pair : ∃ shown : List (Transcript × (Party → Observed Storage)),
    List.Forall₂ (fun g q => session 3 Shipped.pairConfig Shipped.pairCircuit pairGenerator g
      (fun id => .start (Storage.init (countingStreams.generators id))) = some q)
      [countingStreams, countingStreams] shown ∧
    (∃ m : Party → Observed Storage, benchmark 3 Shipped.pairConfig pairGenerator
      Shipped.pairCircuit [countingStreams, countingStreams]
      (fun id => .start (Storage.init (countingStreams.generators id))) =
        some (shown.map Prod.fst, m) ∧
          ∀ id, (m id).reads = (shown.map fun q => (q.2 id).reads).flatten) ∧
    ∃ d : Party → Observed DiskStorage, benchmark 3 Shipped.pairConfig pairGenerator
      Shipped.pairCircuit [countingStreams, countingStreams]
      (fun id => .start (DiskStorage.init (countingStreams.generators id))) =
        some (shown.map Prod.fst, d) ∧
          ∀ id, (d id).reads = (shown.map fun q => (q.2 id).reads).flatten := by
  obtain ⟨X⟩ := Shipped.pair_execution
  refine benchmark_repeats Shipped.pairConfig (Shipped.bfs.program _) 1 true false false
    pairGenerator 3 [countingStreams, countingStreams] (fun g hg => ?_) countingStreams.generators
  obtain rfl : g = countingStreams := by simpa using hg
  exact ⟨_, _, _, rfl, X.secureRun_eq⟩

end GraphMpc
