import GraphMpc.Dealer

namespace GraphMpc

open Tabulate Permutation Preprocessor

section chunks

variable (conf : ProtocolConfig) (g : Streams) (order : List Gate)

def recvAt (l : List Gate) : Party := (dealRun conf.size g l).recv

def dealerAt (l : List Gate) : Storage := (dealRun conf.size g l).data

def triplesAt (l : List Gate) (f : Gate) : Correlation × Correlation :=
  tripleShares (f.tripleLen conf) f.binary (recvAt conf g l) (dealerAt conf g l).rngs

def nextRecv (f : Gate) (recv : Party) : Party :=
  if f.type = .shuffle ∨ f.takesTriple = true then recv.other else recv

noncomputable def permChunk (id : Party) (idx : ℕ) : Vec :=
  match dealKind conf g order idx, id with
  | .toP1, .p1 => (ofPerm conf.size (deal conf g order idx).pi1p).permVec
  | .toP0, .p0 | .merged, .p0 => (ofPerm conf.size (deal conf g order idx).pi0p).permVec
  | .merged, .p1 => (ofPerm conf.size (deal conf g order idx).pi1).permVec
  | _, _ => []

def tripleChunk (id : Party) (l : List Gate) (f : Gate) : Vec :=
  if recvAt conf g l = id then
    if id = .p1 then (triplesAt conf g l f).2.c else (triplesAt conf g l f).1.c
  else []

noncomputable def prepChunk (id : Party) (l : List Gate) (f : Gate) : Vec :=
  if f.type = .shuffle ∨ f.type = .mergedShuffle then
    if dealt l f.shuffleIdx then [] else permChunk conf g order id f.shuffleIdx
  else if f.takesTriple then tripleChunk conf g id l f else []

def correctionAt (id : Party) (l : List Gate) (pi : Permutation) : Vec :=
  let s := dealerAt conf g l
  if id = .p0 then correctionB0 pi (s.rngs.withP1Send.vec conf.size) s.rngs.self.nextRing.1
  else correctionB1 pi (s.rngs.withP0Send.vec conf.size) s.rngs.self.nextRing.1

noncomputable def bChunk (id : Party) (l : List Gate) (f : Gate) : Vec :=
  if f.type = .shuffle ∨ f.type = .mergedShuffle then
    correctionAt conf g id l (ofPerm conf.size (deal conf g order f.shuffleIdx).pi)
  else if f.type = .unshuffle then
    correctionAt conf g id l (ofPerm conf.size (deal conf g order f.shuffleIdx).pi⁻¹)
  else []

variable {conf g order} {l r : List Gate} {f : Gate} {idx : ℕ} (h : Dealable conf order)
  (ho : order = l ++ f :: r)

theorem recvAt_snoc (l : List Gate) (f : Gate) :
    recvAt conf g (l ++ [f]) = nextRecv f (recvAt conf g l) := by
  rw [recvAt, dealRun_snoc]
  by_cases ht : f.takesTriple = true
  · rw [dealGate_triple ht, nextRecv, if_pos (Or.inr ht)]
    rfl
  · cases hf : f.type <;> simp_all [nextRecv, Gate.takesTriple, dealGate, preprocessGate, recvAt]

variable (conf g) in
theorem recvAt_cases (l : List Gate) : recvAt conf g l = .p0 ∨ recvAt conf g l = .p1 := by
  induction l using List.reverseRecOn with
  | nil => exact Or.inl rfl
  | append_singleton l f ih =>
    rw [recvAt_snoc, nextRecv]
    split
    · rcases ih with h | h <;> simp [h, Party.other]
    · exact ih

inductive Gate.Dealt (f : Gate) : Prop where
  | perm (hd : f.deals f.shuffleIdx = true)
  | unshuffle (ht : f.type = .unshuffle)
  | triple (ht : f.takesTriple = true)
  | silent (hs : ∀ size p, dealGate size p f = p) (ht : f.type ≠ .shuffle ∧
      f.type ≠ .mergedShuffle ∧ f.type ≠ .unshuffle ∧ f.takesTriple = false)

theorem Gate.dealt_cases (f : Gate) : f.Dealt := by
  cases ht : f.type
  case shuffle => exact .perm (by simp [Gate.deals, ht])
  case mergedShuffle => exact .perm (by simp [Gate.deals, ht])
  case unshuffle => exact .unshuffle ht
  case compaction | mulSIMD | eqz | bit2A => exact .triple (by simp [Gate.takesTriple, ht])
  all_goals
    refine .silent (fun size p => ?_) ?_
    · simp [dealGate, preprocessGate, ht]
    · simp [Gate.takesTriple, ht]

theorem takesTriple_types (ht : f.takesTriple = true) :
    f.type ≠ .shuffle ∧ f.type ≠ .mergedShuffle ∧ f.type ≠ .unshuffle := by
  refine ⟨?_, ?_, ?_⟩ <;> intro h <;> simp [Gate.takesTriple, h] at ht

def sendAdvance (n : ℕ) (fresh : Bool) (s : PRG) : PRG :=
  if fresh then (random n (s.skip n)).2 else s.skip n

def recvAdvance (n : ℕ) (fresh : Bool) (s : PRG) : PRG := if fresh then (random n s).2 else s

structure DealerStep (conf : ProtocolConfig) (g : Streams) (order l : List Gate) (f : Gate)
    (send0 send1 recv0 recv1 : PRG → PRG) : Prop where
  p0Send : (dealerAt conf g (l ++ [f])).rngs.withP0Send =
    send0 (dealerAt conf g l).rngs.withP0Send
  p1Send : (dealerAt conf g (l ++ [f])).rngs.withP1Send =
    send1 (dealerAt conf g l).rngs.withP1Send
  p0Recv : (dealerAt conf g (l ++ [f])).rngs.withP0Recv =
    recv0 (dealerAt conf g l).rngs.withP0Recv
  p1Recv : (dealerAt conf g (l ++ [f])).rngs.withP1Recv =
    recv1 (dealerAt conf g l).rngs.withP1Recv
  preproc0 : (dealerAt conf g (l ++ [f])).preproc .p0 =
    (dealerAt conf g l).preproc .p0 ++ prepChunk conf g order .p0 l f
  preproc1 : (dealerAt conf g (l ++ [f])).preproc .p1 =
    (dealerAt conf g l).preproc .p1 ++ prepChunk conf g order .p1 l f
  b0 : (dealerAt conf g (l ++ [f])).B .p0 =
    (dealerAt conf g l).B .p0 ++ bChunk conf g order .p0 l f
  b1 : (dealerAt conf g (l ++ [f])).B .p1 =
    (dealerAt conf g l).B .p1 ++ bChunk conf g order .p1 l f

def kindIs (conf : ProtocolConfig) (g : Streams) (order : List Gate) (idx : ℕ)
    (kind : DealKind) : Bool := dealKind conf g order idx = kind

include h ho

theorem dealerStep_perm (hd : f.deals f.shuffleIdx = true) :
    DealerStep conf g order l f
      (sendAdvance conf.size (!dealt l f.shuffleIdx && kindIs conf g order f.shuffleIdx .toP1))
      (sendAdvance conf.size (!dealt l f.shuffleIdx && !kindIs conf g order f.shuffleIdx .merged))
      (recvAdvance conf.size (!dealt l f.shuffleIdx))
      (recvAdvance conf.size (!dealt l f.shuffleIdx && !kindIs conf g order f.shuffleIdx .toP1)) ∧
    (dealerAt conf g (l ++ [f])).rngs.withP0Prep = (dealerAt conf g l).rngs.withP0Prep ∧
    (dealerAt conf g (l ++ [f])).rngs.withP1Prep = (dealerAt conf g l).rngs.withP1Prep := by
  have hstep := deal_step h ho (tables (g := g) h _ _ ho) hd
  have htype := (deals_iff.mp hd).1
  have hp : dealRun conf.size g (l ++ [f]) = dealGate conf.size (dealRun conf.size g l) f :=
    dealRun_snoc ..
  cases hn : dealt l f.shuffleIdx with
  | true =>
    rw [hn, if_pos rfl] at hstep
    refine ⟨⟨?_, ?_, ?_, ?_, ?_, ?_, ?_, ?_⟩, ?_, ?_⟩
    all_goals
      simp only [dealerAt, hp, hstep, prepChunk, bChunk, if_pos htype, hn, Bool.not_true,
        Bool.false_and, if_true, List.append_nil]
      rfl
  | false =>
    rw [hn, if_neg (by decide)] at hstep
    refine ⟨⟨?_, ?_, ?_, ?_, ?_, ?_, ?_, ?_⟩, ?_, ?_⟩
    all_goals
      simp only [dealerAt, hp, hstep, prepChunk, bChunk, if_pos htype, hn, Bool.not_false,
        Bool.true_and, permChunk, kindIs]
      cases dealKind conf g order f.shuffleIdx
      all_goals first
        | rfl
        | exact (List.append_nil _).symm

theorem dealerStep_unshuffle (ht : f.type = .unshuffle) :
    DealerStep conf g order l f (sendAdvance conf.size false) (sendAdvance conf.size false)
      (recvAdvance conf.size false) (recvAdvance conf.size false) ∧
    (dealerAt conf g (l ++ [f])).rngs.withP0Prep = (dealerAt conf g l).rngs.withP0Prep ∧
    (dealerAt conf g (l ++ [f])).rngs.withP1Prep = (dealerAt conf g l).rngs.withP1Prep := by
  have hstep := dealGate_unshuffle_data (g := g) h ho ht
  have hp : dealRun conf.size g (l ++ [f]) = dealGate conf.size (dealRun conf.size g l) f :=
    dealRun_snoc ..
  have hne : ¬ (f.type = .shuffle ∨ f.type = .mergedShuffle) := by simp [ht]
  have htr : f.takesTriple = false := by simp [Gate.takesTriple, ht]
  refine ⟨⟨?_, ?_, ?_, ?_, ?_, ?_, ?_, ?_⟩, ?_, ?_⟩
  all_goals
    simp only [dealerAt, hp, hstep, prepChunk, bChunk, if_neg hne, if_pos ht, htr,
      Bool.false_eq_true, if_false, List.append_nil]
    rfl

omit h ho in
theorem dealerStep_triple (ht : f.takesTriple = true) :
    DealerStep conf g order l f id id id id := by
  have hp : dealRun conf.size g (l ++ [f]) = dealGate conf.size (dealRun conf.size g l) f :=
    dealRun_snoc ..
  rw [dealGate_triple ht, dealTriples_dealer] at hp
  obtain ⟨h1, h2, h3⟩ := takesTriple_types ht
  have hne : ¬ (f.type = .shuffle ∨ f.type = .mergedShuffle) := by simp [h1, h2]
  rcases recvAt_cases conf g l with hr | hr
  all_goals
    have hr' := hr
    rw [recvAt] at hr'
    refine ⟨?_, ?_, ?_, ?_, ?_, ?_, ?_, ?_⟩
    all_goals
      simp only [dealerAt, hp, prepChunk, bChunk, if_neg hne, if_neg h3, ht, tripleChunk,
        triplesAt, hr, hr', reduceCtorEq, if_true, if_false, List.append_nil]
      rfl

omit h ho in
theorem dealerStep_silent (hs : ∀ size p, dealGate size p f = p)
    (ht : f.type ≠ .shuffle ∧ f.type ≠ .mergedShuffle ∧ f.type ≠ .unshuffle ∧
      f.takesTriple = false) :
    DealerStep conf g order l f id id id id ∧
    (dealerAt conf g (l ++ [f])).rngs.withP0Prep = (dealerAt conf g l).rngs.withP0Prep ∧
    (dealerAt conf g (l ++ [f])).rngs.withP1Prep = (dealerAt conf g l).rngs.withP1Prep := by
  have hp : dealRun conf.size g (l ++ [f]) = dealRun conf.size g l := by
    rw [dealRun_snoc, hs]
  obtain ⟨h1, h2, h3, h4⟩ := ht
  have hne : ¬ (f.type = .shuffle ∨ f.type = .mergedShuffle) := by simp [h1, h2]
  refine ⟨⟨?_, ?_, ?_, ?_, ?_, ?_, ?_, ?_⟩, ?_, ?_⟩
  all_goals
    simp only [dealerAt, hp, prepChunk, bChunk, if_neg hne, if_neg h3, h4, Bool.false_eq_true,
      if_false, List.append_nil]
    try rfl

theorem dealerStep_exists : ∃ s0 s1 r0 r1, DealerStep conf g order l f s0 s1 r0 r1 := by
  cases f.dealt_cases with
  | perm hd => exact ⟨_, _, _, _, (dealerStep_perm h ho hd).1⟩
  | unshuffle ht => exact ⟨_, _, _, _, (dealerStep_unshuffle h ho ht).1⟩
  | triple ht => exact ⟨_, _, _, _, dealerStep_triple ht⟩
  | silent hs ht => exact ⟨_, _, _, _, (dealerStep_silent hs ht).1⟩

omit ho in
theorem dealer_grows : ∀ l r, order = l ++ r →
    (∃ rest, (dealerAt conf g order).preproc .p0 = (dealerAt conf g l).preproc .p0 ++ rest) ∧
    (∃ rest, (dealerAt conf g order).preproc .p1 = (dealerAt conf g l).preproc .p1 ++ rest) ∧
    (∃ rest, (dealerAt conf g order).B .p0 = (dealerAt conf g l).B .p0 ++ rest) ∧
    (∃ rest, (dealerAt conf g order).B .p1 = (dealerAt conf g l).B .p1 ++ rest) := by
  intro l r
  induction r generalizing l with
  | nil =>
    intro ho
    rw [List.append_nil] at ho
    rw [ho]
    exact ⟨⟨[], by simp⟩, ⟨[], by simp⟩, ⟨[], by simp⟩, ⟨[], by simp⟩⟩
  | cons f r ih =>
    intro ho
    obtain ⟨_, _, _, _, hstep⟩ := dealerStep_exists (g := g) h ho
    obtain ⟨⟨a, ha⟩, ⟨b, hb⟩, ⟨c, hc⟩, ⟨d, hd⟩⟩ := ih (l ++ [f]) (by rw [ho]; simp)
    rw [hstep.preproc0] at ha
    rw [hstep.preproc1] at hb
    rw [hstep.b0] at hc
    rw [hstep.b1] at hd
    exact ⟨⟨_, by rw [ha, List.append_assoc]⟩, ⟨_, by rw [hb, List.append_assoc]⟩,
      ⟨_, by rw [hc, List.append_assoc]⟩, ⟨_, by rw [hd, List.append_assoc]⟩⟩

omit h in
theorem kind_eq (hd : f.deals idx = true) (hn : dealt l idx = false) :
    dealKind conf g order idx = if f.type = .mergedShuffle then .merged
      else if recvAt conf g l = .p1 then .toP1 else .toP0 := by
  obtain ⟨hb, hf⟩ := first_deal ho hd hn
  simp only [dealKind, hf, hb]
  rfl

omit h in
theorem deal_streams (hd : f.deals idx = true) (hn : dealt l idx = false) :
    (deal conf g order idx).pi0 = randomPerm conf.size (dealerAt conf g l).rngs.withP0Recv ∧
    (dealKind conf g order idx ≠ .merged → (deal conf g order idx).pi1 =
      randomPerm conf.size ((dealerAt conf g l).rngs.withP1Send.skip conf.size)) ∧
    (dealKind conf g order idx = .toP1 → (deal conf g order idx).pi0p =
      randomPerm conf.size ((dealerAt conf g l).rngs.withP0Send.skip conf.size)) ∧
    (dealKind conf g order idx ≠ .toP1 → (deal conf g order idx).pi1p =
      randomPerm conf.size (dealerAt conf g l).rngs.withP1Recv) := by
  obtain ⟨hb, hf⟩ := first_deal ho hd hn
  have hidx := (deals_iff.mp hd).2
  by_cases hm : f.type = .mergedShuffle
  · simp only [dealKind, deal, hf, if_pos hm, mergedDeal, hidx, hb]
    refine ⟨rfl, fun hne => absurd rfl hne, fun h => absurd h (by decide), fun _ => rfl⟩
  · by_cases hr : (dealRun conf.size g l).recv = .p1
    · simp only [dealKind, deal, hf, if_neg hm, shuffleDeal, hb, if_pos hr]
      exact ⟨rfl, fun _ => rfl, fun _ => rfl, fun hne => absurd rfl hne⟩
    · simp only [dealKind, deal, hf, if_neg hm, shuffleDeal, hb, if_neg hr]
      exact ⟨rfl, fun _ => rfl, fun h => absurd h (by decide), fun _ => rfl⟩

omit h in
theorem merged_or_shuffle_kind (hd : f.deals idx = true) (hn : dealt l idx = false) :
    (f.type = .mergedShuffle ∧ dealKind conf g order idx = .merged) ∨
    (f.type = .shuffle ∧ recvAt conf g l = .p1 ∧ dealKind conf g order idx = .toP1) ∨
    (f.type = .shuffle ∧ recvAt conf g l = .p0 ∧ dealKind conf g order idx = .toP0) := by
  have hk := @kind_eq conf g _ _ _ _ _ ho hd hn
  rcases (deals_iff.mp hd).1 with ht | ht
  · rw [if_neg (by simp [ht])] at hk
    rcases recvAt_cases conf g l with hr | hr
    · rw [if_neg (by simp [hr])] at hk
      exact Or.inr (Or.inr ⟨ht, hr, hk⟩)
    · rw [if_pos hr] at hk
      exact Or.inr (Or.inl ⟨ht, hr, hk⟩)
  · rw [if_pos ht] at hk
    exact Or.inl ⟨ht, hk⟩

end chunks

section preprocessing

variable (conf : ProtocolConfig) (g : Streams) (order : List Gate)

def permIf (n : ℕ) (given : Bool) (σ : Equiv.Perm ℕ) : Permutation :=
  if given then ofPerm n σ else .null

structure Prepared (l : List Gate) (p0 p1 : Preprocessor) : Prop where
  recv0 : p0.recv = recvAt conf g l
  recv1 : p1.recv = recvAt conf g l
  rngs0 : p0.data.rngs =
    { g.generators .p0 with withDPrep := (dealerAt conf g l).rngs.withP0Prep }
  rngs1 : p1.data.rngs =
    { g.generators .p1 with withDPrep := (dealerAt conf g l).rngs.withP1Prep }
  marks0 : ∀ idx, p0.data.preprocessed idx = dealt l idx
  marks1 : ∀ idx, p1.data.preprocessed idx = dealt l idx
  pi0 : ∀ idx, p0.data.pi0 idx = .null
  pi0p : ∀ idx, p0.data.pi0p idx = permIf conf.size
    (dealt l idx && !kindIs conf g order idx .toP1) (deal conf g order idx).pi0p
  pi1 : ∀ idx, p1.data.pi1 idx = permIf conf.size
    (dealt l idx && kindIs conf g order idx .merged) (deal conf g order idx).pi1
  pi1p : ∀ idx, p1.data.pi1p idx = permIf conf.size
    (dealt l idx && kindIs conf g order idx .toP1) (deal conf g order idx).pi1p
  read0 : ∃ rest, (dealerAt conf g order).preproc .p0 = (dealerAt conf g l).preproc .p0 ++ rest ∧
    At (p0.data.preproc .p0) p0.data.readIdx (rest ++ (dealerAt conf g order).B .p0)
  read1 : ∃ rest, (dealerAt conf g order).preproc .p1 = (dealerAt conf g l).preproc .p1 ++ rest ∧
    At (p1.data.preproc .p1) p1.data.readIdx (rest ++ (dealerAt conf g order).B .p1)
  triples : ∀ f ∈ l, f.takesTriple = true →
    TripleDealt f.binary (f.tripleLen conf) (p0.data.triples f) (p1.data.triples f)

variable {conf g order} {l r : List Gate} {f : Gate} (h : Dealable conf order)
  (ho : order = l ++ f :: r) {p0 p1 : Preprocessor} (hp : Prepared conf g order l p0 p1)

theorem readPreproc_spec {s : Storage} {id : Party} {chunk rest : Vec} {n : ℕ}
    (hat : At (s.preproc id) s.readIdx (chunk ++ rest)) (hn : chunk.length = n) :
    ∃ i, s.readPreproc id n = some (chunk, { s with readIdx := i }) ∧
      At (s.preproc id) i rest := by
  obtain ⟨i, hi, hrest⟩ := hat.read hn
  refine ⟨i, ?_, hrest⟩
  simp only [Storage.readPreproc, hi, Option.bind_eq_bind, Option.bind_some, Option.pure_def]

include h ho in
theorem Prepared.chunks (hp : Prepared conf g order l p0 p1) :
    (∃ rest, (dealerAt conf g order).preproc .p0 =
      (dealerAt conf g (l ++ [f])).preproc .p0 ++ rest ∧
        At (p0.data.preproc .p0) p0.data.readIdx
          (prepChunk conf g order .p0 l f ++ (rest ++ (dealerAt conf g order).B .p0))) ∧
    ∃ rest, (dealerAt conf g order).preproc .p1 =
      (dealerAt conf g (l ++ [f])).preproc .p1 ++ rest ∧
        At (p1.data.preproc .p1) p1.data.readIdx
          (prepChunk conf g order .p1 l f ++ (rest ++ (dealerAt conf g order).B .p1)) := by
  obtain ⟨_, _, _, _, hstep⟩ := dealerStep_exists (g := g) h ho
  obtain ⟨⟨a, ha⟩, ⟨b, hb⟩, -, -⟩ := dealer_grows (g := g) h (l ++ [f]) r (by rw [ho]; simp)
  obtain ⟨a', ha', hata⟩ := hp.read0
  obtain ⟨b', hb', hatb⟩ := hp.read1
  refine ⟨⟨a, ha, ?_⟩, b, hb, ?_⟩
  · rw [hstep.preproc0, List.append_assoc, ha'] at ha
    rw [List.append_cancel_left ha, List.append_assoc] at hata
    exact hata
  · rw [hstep.preproc1, List.append_assoc, hb'] at hb
    rw [List.append_cancel_left hb, List.append_assoc] at hatb
    exact hatb

theorem dealt_of_not_deals (hd : f.deals f.shuffleIdx = false) (idx : ℕ) :
    dealt (l ++ [f]) idx = dealt l idx := by
  have : f.deals idx = false := by
    by_contra hc
    obtain ⟨ht, -⟩ := deals_iff.mp (by simpa using hc)
    rw [deals_iff.mpr ⟨ht, rfl⟩] at hd
    cases hd
  rw [dealt_snoc, this, Bool.or_false]

theorem dealt_other {idx : ℕ} (hne : idx ≠ f.shuffleIdx) :
    dealt (l ++ [f]) idx = dealt l idx := by
  have : f.deals idx = false := by
    by_contra hc
    exact hne (deals_iff.mp (by simpa using hc)).2.symm
  rw [dealt_snoc, this, Bool.or_false]

theorem prep0_skip {size : ℕ} {p : Preprocessor} (hd : f.deals f.shuffleIdx = true)
    (hc : p.data.preprocessed f.shuffleIdx = true ∨ f.type = .shuffle ∧ p.recv ≠ .p0) :
    preprocessGate size .p0 p f =
      some ⟨markPreprocessed p.data f.shuffleIdx, nextRecv f p.recv⟩ := by
  rcases (deals_iff.mp hd).1 with ht | ht
  · have hne : ¬ (p.recv = .p0 ∧ p.data.preprocessed f.shuffleIdx = false) := by
      rintro ⟨h1, h2⟩
      rcases hc with hc | ⟨-, hc⟩
      · rw [hc] at h2
        cases h2
      · exact hc h1
    simp only [preprocessGate, ht, if_neg hne, nextRecv, Option.bind_eq_bind, Option.bind_some,
      true_or, if_true]
  · have hm : p.data.preprocessed f.shuffleIdx = true :=
      hc.resolve_right fun hh => by simp [ht] at hh
    simp [preprocessGate, ht, hm, nextRecv, Gate.takesTriple]

theorem prep1_skip {size : ℕ} {p : Preprocessor} (hd : f.deals f.shuffleIdx = true)
    (hc : p.data.preprocessed f.shuffleIdx = true ∨ f.type = .shuffle ∧ p.recv ≠ .p1) :
    preprocessGate size .p1 p f =
      some ⟨markPreprocessed p.data f.shuffleIdx, nextRecv f p.recv⟩ := by
  rcases (deals_iff.mp hd).1 with ht | ht
  · have hne : ¬ (p.recv = .p1 ∧ p.data.preprocessed f.shuffleIdx = false) := by
      rintro ⟨h1, h2⟩
      rcases hc with hc | ⟨-, hc⟩
      · rw [hc] at h2
        cases h2
      · exact hc h1
    simp only [preprocessGate, ht, if_neg hne, nextRecv, Option.bind_eq_bind, Option.bind_some,
      true_or, if_true]
  · have hm : p.data.preprocessed f.shuffleIdx = true :=
      hc.resolve_right fun hh => by simp [ht] at hh
    simp [preprocessGate, ht, hm, nextRecv, Gate.takesTriple]

theorem prep0_read {size : ℕ} {p : Preprocessor} {v : Vec} {s : Storage}
    (hd : f.deals f.shuffleIdx = true) (hm : p.data.preprocessed f.shuffleIdx = false)
    (hr : f.type = .shuffle → p.recv = .p0) (hread : p.data.readPreproc .p0 size = some (v, s)) :
    preprocessGate size .p0 p f = some ⟨markPreprocessed
      { s with pi0p := Function.update s.pi0p f.shuffleIdx ⟨v⟩ } f.shuffleIdx,
        nextRecv f p.recv⟩ := by
  rcases (deals_iff.mp hd).1 with ht | ht
  · have hr' := hr ht
    simp [preprocessGate, ht, hm, hr', hread, nextRecv]
  · simp [preprocessGate, ht, hm, hread, nextRecv, Gate.takesTriple]

theorem prep1_read {size : ℕ} {p : Preprocessor} {v : Vec} {s : Storage}
    (hd : f.deals f.shuffleIdx = true) (hm : p.data.preprocessed f.shuffleIdx = false)
    (hr : f.type = .shuffle → p.recv = .p1) (hread : p.data.readPreproc .p1 size = some (v, s)) :
    preprocessGate size .p1 p f = some ⟨markPreprocessed
      (if f.type = .shuffle then { s with pi1p := Function.update s.pi1p f.shuffleIdx ⟨v⟩ }
        else { s with pi1 := Function.update s.pi1 f.shuffleIdx ⟨v⟩ }) f.shuffleIdx,
          nextRecv f p.recv⟩ := by
  rcases (deals_iff.mp hd).1 with ht | ht
  · have hr' := hr ht
    simp [preprocessGate, ht, hm, hr', hread, nextRecv]
  · simp [preprocessGate, ht, hm, hread, nextRecv, Gate.takesTriple]

theorem marks_snoc {s : Storage} (hm : ∀ idx, s.preprocessed idx = dealt l idx)
    (hd : f.deals f.shuffleIdx = true) (idx : ℕ) :
    (markPreprocessed s f.shuffleIdx).preprocessed idx = dealt (l ++ [f]) idx := by
  simp only [markPreprocessed, Function.update_apply]
  split_ifs with hidx
  · rw [hidx, dealt_snoc, hd, Bool.or_true]
  · rw [hm, dealt_other hidx]

theorem table_snoc {tab tab' : ℕ → Permutation} {given : ℕ → Bool} {σ : ℕ → Equiv.Perm ℕ} {n : ℕ}
    (ht : ∀ idx, tab idx = permIf n (dealt l idx && given idx) (σ idx))
    (hd : f.deals f.shuffleIdx = true)
    (hsame : ∀ idx, idx ≠ f.shuffleIdx → tab' idx = tab idx)
    (hnew : tab' f.shuffleIdx = permIf n (given f.shuffleIdx) (σ f.shuffleIdx)) (idx : ℕ) :
    tab' idx = permIf n (dealt (l ++ [f]) idx && given idx) (σ idx) := by
  by_cases hidx : idx = f.shuffleIdx
  · rw [hidx, dealt_snoc, hd, Bool.or_true, Bool.true_and, hnew]
  · rw [hsame idx hidx, dealt_other hidx, ht]

include h ho hp in
theorem Prepared.perm (hd : f.deals f.shuffleIdx = true) :
    ∃ p0' p1', preprocessGate conf.size .p0 p0 f = some p0' ∧
      preprocessGate conf.size .p1 p1 f = some p1' ∧
        Prepared conf g order (l ++ [f]) p0' p1' := by
  obtain ⟨hstep, hprep0, hprep1⟩ := dealerStep_perm (g := g) h ho hd
  obtain ⟨⟨rest0, hr0, hat0⟩, ⟨rest1, hr1, hat1⟩⟩ := hp.chunks h ho
  have htype := (deals_iff.mp hd).1
  have hnt : ∀ x ∈ l ++ [f], x.takesTriple = true → x ∈ l := by
    intro x hx hxt
    rcases List.mem_append.mp hx with hx | hx
    · exact hx
    · obtain rfl := List.mem_singleton.mp hx
      obtain ⟨h1, h2, -⟩ := takesTriple_types hxt
      rcases htype with hh | hh
      · exact absurd hh h1
      · exact absurd hh h2
  have hrng0 := hp.rngs0
  have hrng1 := hp.rngs1
  rw [← hprep0] at hrng0
  rw [← hprep1] at hrng1
  have hrecv0 : nextRecv f p0.recv = recvAt conf g (l ++ [f]) := by rw [recvAt_snoc, hp.recv0]
  have hrecv1 : nextRecv f p1.recv = recvAt conf g (l ++ [f]) := by rw [recvAt_snoc, hp.recv1]
  simp only [prepChunk, if_pos htype] at hat0 hat1
  cases hn : dealt l f.shuffleIdx with
  | true =>
    rw [hn, if_pos rfl, List.nil_append] at hat0 hat1
    refine ⟨_, _, prep0_skip hd (Or.inl ((hp.marks0 _).trans hn)),
      prep1_skip hd (Or.inl ((hp.marks1 _).trans hn)), hrecv0, hrecv1, hrng0, hrng1,
      marks_snoc hp.marks0 hd, marks_snoc hp.marks1 hd, hp.pi0,
      table_snoc hp.pi0p hd (fun _ _ => rfl) ?_, table_snoc hp.pi1 hd (fun _ _ => rfl) ?_,
      table_snoc hp.pi1p hd (fun _ _ => rfl) ?_, ⟨rest0, hr0, hat0⟩, ⟨rest1, hr1, hat1⟩,
      fun x hx hxt => hp.triples x (hnt x hx hxt) hxt⟩
    · have := hp.pi0p f.shuffleIdx
      rwa [hn, Bool.true_and] at this
    · have := hp.pi1 f.shuffleIdx
      rwa [hn, Bool.true_and] at this
    · have := hp.pi1p f.shuffleIdx
      rwa [hn, Bool.true_and] at this
  | false =>
    rw [hn, if_neg (by decide)] at hat0 hat1
    have hm0 := (hp.marks0 f.shuffleIdx).trans hn
    have hm1 := (hp.marks1 f.shuffleIdx).trans hn
    have hold0 := hp.pi0p f.shuffleIdx
    have hold1 := hp.pi1 f.shuffleIdx
    have hold1p := hp.pi1p f.shuffleIdx
    rw [hn, Bool.false_and] at hold0 hold1 hold1p
    rcases @merged_or_shuffle_kind conf g _ _ _ _ _ ho hd hn with
      ⟨ht, hk⟩ | ⟨ht, hr, hk⟩ | ⟨ht, hr, hk⟩
    · simp only [permChunk, hk] at hat0 hat1
      obtain ⟨i0, hread0, hrest0⟩ := readPreproc_spec hat0 (ofPerm_length ..)
      obtain ⟨i1, hread1, hrest1⟩ := readPreproc_spec hat1 (ofPerm_length ..)
      have hns : ¬ f.type = .shuffle := by simp [ht]
      have he1 := prep1_read hd hm1 (fun hh => absurd hh hns) hread1
      rw [if_neg hns] at he1
      refine ⟨_, _, prep0_read hd hm0 (fun hh => absurd hh hns) hread0, he1, hrecv0, hrecv1,
        hrng0, hrng1, marks_snoc hp.marks0 hd, marks_snoc hp.marks1 hd, hp.pi0,
        table_snoc hp.pi0p hd (fun _ hne => Function.update_of_ne hne _ _) ?_,
        table_snoc hp.pi1 hd (fun _ hne => Function.update_of_ne hne _ _) ?_,
        table_snoc hp.pi1p hd (fun _ _ => rfl) ?_, ⟨rest0, hr0, hrest0⟩, ⟨rest1, hr1, hrest1⟩,
        fun x hx hxt => hp.triples x (hnt x hx hxt) hxt⟩
      · simp [markPreprocessed, kindIs, hk, permIf]
      · simp [markPreprocessed, kindIs, hk, permIf]
      · simpa [markPreprocessed, kindIs, hk, permIf] using hold1p
    · simp only [permChunk, hk] at hat0 hat1
      rw [List.nil_append] at hat0
      obtain ⟨i1, hread1, hrest1⟩ := readPreproc_spec hat1 (ofPerm_length ..)
      have he1 := prep1_read hd hm1 (fun _ => hp.recv1.trans hr) hread1
      rw [if_pos ht] at he1
      have hne0 : p0.recv ≠ .p0 := by rw [hp.recv0, hr]; decide
      refine ⟨_, _, prep0_skip hd (Or.inr ⟨ht, hne0⟩), he1, hrecv0, hrecv1,
        hrng0, hrng1, marks_snoc hp.marks0 hd, marks_snoc hp.marks1 hd, hp.pi0,
        table_snoc hp.pi0p hd (fun _ _ => rfl) ?_, table_snoc hp.pi1 hd (fun _ _ => rfl) ?_,
        table_snoc hp.pi1p hd (fun _ hne => Function.update_of_ne hne _ _) ?_,
        ⟨rest0, hr0, hat0⟩, ⟨rest1, hr1, hrest1⟩,
        fun x hx hxt => hp.triples x (hnt x hx hxt) hxt⟩
      · simpa [markPreprocessed, kindIs, hk, permIf] using hold0
      · simpa [markPreprocessed, kindIs, hk, permIf] using hold1
      · simp [markPreprocessed, kindIs, hk, permIf]
    · simp only [permChunk, hk] at hat0 hat1
      rw [List.nil_append] at hat1
      obtain ⟨i0, hread0, hrest0⟩ := readPreproc_spec hat0 (ofPerm_length ..)
      have hne1 : p1.recv ≠ .p1 := by rw [hp.recv1, hr]; decide
      refine ⟨_, _, prep0_read hd hm0 (fun _ => hp.recv0.trans hr) hread0,
        prep1_skip hd (Or.inr ⟨ht, hne1⟩), hrecv0, hrecv1,
        hrng0, hrng1, marks_snoc hp.marks0 hd, marks_snoc hp.marks1 hd, hp.pi0,
        table_snoc hp.pi0p hd (fun _ hne => Function.update_of_ne hne _ _) ?_,
        table_snoc hp.pi1 hd (fun _ _ => rfl) ?_, table_snoc hp.pi1p hd (fun _ _ => rfl) ?_,
        ⟨rest0, hr0, hrest0⟩, ⟨rest1, hr1, hat1⟩,
        fun x hx hxt => hp.triples x (hnt x hx hxt) hxt⟩
      · simp [markPreprocessed, kindIs, hk, permIf]
      · simpa [markPreprocessed, kindIs, hk, permIf] using hold1
      · simpa [markPreprocessed, kindIs, hk, permIf] using hold1p

theorem preprocessGate_triple (size : ℕ) (id : Party) {p : Preprocessor} {d : Storage}
    (htype : f.takesTriple = true) (hn : f.tripleLen conf = if f.type = .compaction then size
      else f.size) (hd : p.data.dealTriples id p.recv (f.tripleLen conf) f = some d) :
    preprocessGate size id p f = some ⟨d, nextRecv f p.recv⟩ := by
  rw [nextRecv, if_pos (Or.inr htype)]
  cases ht : f.type <;> simp only [Gate.takesTriple, ht, Bool.false_eq_true] at htype
  all_goals
    simp only [ht, reduceCtorEq, if_true, if_false] at hn
    rw [hn] at hd
    simp only [preprocessGate, ht, hd, Option.bind_eq_bind, Option.bind_some]

def withPrep (s : Storage) (p : PRG) : Storage := { s with rngs := { s.rngs with withDPrep := p } }

theorem dealTriples_draw {s : Storage} {id recv : Party} (hid : id ≠ .d) (hr : recv ≠ id) (n : ℕ)
    (f : Gate) : s.dealTriples id recv n f = some
      ((withPrep s ((s.rngs.withDPrep.skipTwice n).skip n)).storeTriples (s.rngs.withDPrep.vec n)
        ((s.rngs.withDPrep.skip n).vec n) ((s.rngs.withDPrep.skipTwice n).vec n) f.multIdx) := by
  simp only [Storage.dealTriples, randomShareVec3P, Storage.randomShareSecretVec3P, if_neg hid,
    if_neg hr.symm, tab_length, Option.bind_eq_bind, Option.bind_some, Option.pure_def]
  rfl

theorem dealTriples_read {s : Storage} {id : Party} {n i : ℕ} {v : Vec} (hid : id ≠ .d) (f : Gate)
    (hread : (withPrep s (s.rngs.withDPrep.skipTwice n)).readPreproc id n =
      some (v, { withPrep s (s.rngs.withDPrep.skipTwice n) with readIdx := i })) :
    s.dealTriples id id n f = some
      ({ withPrep s (s.rngs.withDPrep.skipTwice n) with readIdx := i }.storeTriples
        (s.rngs.withDPrep.vec n) ((s.rngs.withDPrep.skip n).vec n) v f.multIdx) := by
  have hread' : Storage.readPreproc { s with rngs := { s.rngs with
      withDPrep := (s.rngs.withDPrep.skip n).skip n } } id n =
        some (v, { withPrep s (s.rngs.withDPrep.skipTwice n) with readIdx := i }) := hread
  simp only [Storage.dealTriples, randomShareVec3P, Storage.randomShareSecretVec3P, if_neg hid,
    if_true, tab_length, hread', Option.bind_eq_bind, Option.bind_some, Option.pure_def]

theorem triples_storeTriples_self (s : Storage) (a b c : Vec) (f : Gate) :
    (s.storeTriples a b c f.multIdx).triples f = { a := a, b := b, c := c } := by
  simp [Storage.triples, Storage.storeTriples]

theorem triples_storeTriples_of_ne (s : Storage) (a b c : Vec) {f x : Gate}
    (hne : x.multIdx ≠ f.multIdx) : (s.storeTriples a b c f.multIdx).triples x = s.triples x := by
  simp [Storage.triples, Storage.storeTriples, hne]

include h ho in
theorem prior_mult (htype : f.takesTriple = true) {x : Gate} (hx : x ∈ l)
    (hxt : x.takesTriple = true) : x.multIdx ≠ f.multIdx := by
  have hp := h.triples
  rw [ho, List.pairwise_append] at hp
  exact hp.2.2 x hx f (List.mem_cons_self ..) hxt htype

theorem tripleShares_masks (n : ℕ) (binary : Bool) (recv : Party) (r : RandomGenerators) :
    tripleShares n binary recv r =
      ({ a := r.withP0Prep.vec n, b := (r.withP0Prep.skip n).vec n,
         c := (tripleShares n binary recv r).1.c },
       { a := r.withP1Prep.vec n, b := (r.withP1Prep.skip n).vec n,
         c := (tripleShares n binary recv r).2.c }) := by
  rw [tripleShares]
  split <;> rfl

theorem tripleShares_drawn (n : ℕ) (binary : Bool) (recv : Party) (r : RandomGenerators) :
    (recv = .p1 → (tripleShares n binary recv r).1.c = (r.withP0Prep.skipTwice n).vec n) ∧
    (recv ≠ .p1 → (tripleShares n binary recv r).2.c = (r.withP1Prep.skipTwice n).vec n) := by
  refine ⟨fun hr => ?_, fun hr => ?_⟩
  · rw [tripleShares, if_pos hr, drawTriple_length]
  · rw [tripleShares, if_neg hr, drawTriple_length]

theorem dealerAt_triple (htype : f.takesTriple = true) :
    (dealerAt conf g (l ++ [f])).rngs.withP0Prep =
      (if recvAt conf g l = .p1 then
        ((dealerAt conf g l).rngs.withP0Prep.skipTwice (f.tripleLen conf)).skip (f.tripleLen conf)
      else (dealerAt conf g l).rngs.withP0Prep.skipTwice (f.tripleLen conf)) ∧
    (dealerAt conf g (l ++ [f])).rngs.withP1Prep =
      if recvAt conf g l = .p1 then
        (dealerAt conf g l).rngs.withP1Prep.skipTwice (f.tripleLen conf)
      else
        ((dealerAt conf g l).rngs.withP1Prep.skipTwice (f.tripleLen conf)).skip
          (f.tripleLen conf) := by
  have hrun : dealRun conf.size g (l ++ [f]) = dealGate conf.size (dealRun conf.size g l) f :=
    dealRun_snoc ..
  rw [dealGate_triple htype, dealTriples_dealer] at hrun
  rw [dealerAt, dealerAt, recvAt, hrun]
  constructor
  all_goals
    simp only [Option.getD_some]
    split <;> rfl

theorem dealTriples_party {s : Storage} {id recv : Party} {c rest : Vec} (hid : id ≠ .d) (f : Gate)
    (n : ℕ) (hat : At (s.preproc id) s.readIdx ((if recv = id then c else []) ++ rest))
    (hc : recv = id → c.length = n) (hdrawn : recv ≠ id → c = (s.rngs.withDPrep.skipTwice n).vec n) :
    ∃ d, s.dealTriples id recv n f = some d ∧
      d.rngs = { s.rngs with withDPrep := if recv = id then s.rngs.withDPrep.skipTwice n
        else (s.rngs.withDPrep.skipTwice n).skip n } ∧
      d.triples f = { a := s.rngs.withDPrep.vec n, b := (s.rngs.withDPrep.skip n).vec n, c := c } ∧
      (∀ x : Gate, x.multIdx ≠ f.multIdx → d.triples x = s.triples x) ∧
      At (d.preproc id) d.readIdx rest ∧
      d.preprocessed = s.preprocessed ∧ d.pi0 = s.pi0 ∧ d.pi1 = s.pi1 ∧ d.pi0p = s.pi0p ∧
      d.pi1p = s.pi1p := by
  by_cases hr : recv = id
  · subst hr
    rw [if_pos rfl] at hat
    obtain ⟨i, hread, hrest⟩ := readPreproc_spec
      (s := withPrep s (s.rngs.withDPrep.skipTwice n)) hat (hc rfl)
    exact ⟨_, dealTriples_read hid f hread, by rw [if_pos rfl]; rfl,
      triples_storeTriples_self .., fun x hx => triples_storeTriples_of_ne _ _ _ _ hx, hrest,
      rfl, rfl, rfl, rfl, rfl⟩
  · rw [if_neg hr, List.nil_append] at hat
    refine ⟨_, dealTriples_draw hid hr n f, by rw [if_neg hr]; rfl, ?_,
      fun x hx => triples_storeTriples_of_ne _ _ _ _ hx, hat, rfl, rfl, rfl, rfl, rfl⟩
    rw [hdrawn hr]
    exact triples_storeTriples_self ..

include h ho hp in
theorem Prepared.triple (htype : f.takesTriple = true) :
    ∃ p0' p1', preprocessGate conf.size .p0 p0 f = some p0' ∧
      preprocessGate conf.size .p1 p1 f = some p1' ∧
        Prepared conf g order (l ++ [f]) p0' p1' := by
  obtain ⟨h1, h2, h3⟩ := takesTriple_types htype
  have hnp : ¬ (f.type = .shuffle ∨ f.type = .mergedShuffle) := by simp [h1, h2]
  have hnd : f.deals f.shuffleIdx = false := by
    by_contra hc
    exact hnp (deals_iff.mp (by simpa using hc)).1
  have hsame := dealt_of_not_deals (l := l) hnd
  obtain ⟨⟨rest0, hr0, hat0⟩, ⟨rest1, hr1, hat1⟩⟩ := hp.chunks h ho
  simp only [prepChunk, if_neg hnp, htype, if_true, tripleChunk, reduceCtorEq, if_false]
    at hat0 hat1
  have hdealt := tripleShares_dealt (f.tripleLen conf) f.binary (recvAt conf g l)
    (dealerAt conf g l).rngs
  obtain ⟨hl0, hl1⟩ := tripleShares_length (f.tripleLen conf) f.binary (recvAt conf g l)
    (dealerAt conf g l).rngs
  obtain ⟨hdrawn0, hdrawn1⟩ := tripleShares_drawn (f.tripleLen conf) f.binary (recvAt conf g l)
    (dealerAt conf g l).rngs
  obtain ⟨hs0, hs1⟩ := @dealerAt_triple conf g l _ htype
  have hother : recvAt conf g l ≠ .p0 ↔ recvAt conf g l = .p1 := by
    rcases recvAt_cases conf g l with hr | hr <;> simp [hr]
  have hd0 : p0.data.rngs.withDPrep = (dealerAt conf g l).rngs.withP0Prep := by rw [hp.rngs0]
  have hd1 : p1.data.rngs.withDPrep = (dealerAt conf g l).rngs.withP1Prep := by rw [hp.rngs1]
  obtain ⟨d0, e0, hrng0, ht0, hto0, hrest0, hm0, hpi0, -, hpi0p, -⟩ :=
    dealTriples_party (show Party.p0 ≠ .d by decide) f (f.tripleLen conf) hat0 (fun _ => hl0)
      (fun hr => by rw [hd0]; exact hdrawn0 (hother.mp hr))
  obtain ⟨d1, e1, hrng1, ht1, hto1, hrest1, hm1, -, hpi1, -, hpi1p⟩ :=
    dealTriples_party (show Party.p1 ≠ .d by decide) f (f.tripleLen conf) hat1 (fun _ => hl1)
      (fun hr => by rw [hd1]; exact hdrawn1 hr)
  rw [← hp.recv0] at e0
  rw [← hp.recv1] at e1
  refine ⟨_, _, preprocessGate_triple conf.size .p0 htype rfl e0,
    preprocessGate_triple conf.size .p1 htype rfl e1, ?_, ?_, ?_, ?_, ?_, ?_, ?_, ?_, ?_, ?_,
    ⟨rest0, hr0, hrest0⟩, ⟨rest1, hr1, hrest1⟩, ?_⟩
  · rw [recvAt_snoc, hp.recv0]
  · rw [recvAt_snoc, hp.recv1]
  · rw [hrng0, hs0, hd0, hp.rngs0]
    rcases recvAt_cases conf g l with hr | hr <;> simp [hr]
  · rw [hrng1, hs1, hd1, hp.rngs1]
  · intro idx
    rw [hsame, hm0, hp.marks0]
  · intro idx
    rw [hsame, hm1, hp.marks1]
  · intro idx
    rw [hpi0, hp.pi0]
  · intro idx
    rw [hsame, hpi0p, hp.pi0p]
  · intro idx
    rw [hsame, hpi1, hp.pi1]
  · intro idx
    rw [hsame, hpi1p, hp.pi1p]
  · intro x hx hxt
    rcases List.mem_append.mp hx with hx | hx
    · have hne := prior_mult h ho htype hx hxt
      rw [hto0 x hne, hto1 x hne]
      exact hp.triples x hx hxt
    · obtain rfl := List.mem_singleton.mp hx
      rw [tripleShares_masks] at hdealt
      rw [ht0, ht1, hd0, hd1]
      exact hdealt

theorem preprocessGate_idle {size : ℕ} {id : Party} (hid : id ≠ .d) (p : Preprocessor)
    (ht : f.type ≠ .shuffle ∧ f.type ≠ .mergedShuffle ∧ f.takesTriple = false) :
    preprocessGate size id p f = some p := by
  obtain ⟨h1, h2, h3⟩ := ht
  cases hf : f.type
  case shuffle => exact absurd hf h1
  case mergedShuffle => exact absurd hf h2
  case unshuffle => simp [preprocessGate, hf, hid]
  case compaction | mulSIMD | eqz | bit2A => simp [Gate.takesTriple, hf] at h3
  all_goals simp [preprocessGate, hf]

include h ho hp in
theorem Prepared.idle (ht : f.type ≠ .shuffle ∧ f.type ≠ .mergedShuffle ∧ f.takesTriple = false)
    (hprep0 : (dealerAt conf g (l ++ [f])).rngs.withP0Prep = (dealerAt conf g l).rngs.withP0Prep)
    (hprep1 : (dealerAt conf g (l ++ [f])).rngs.withP1Prep = (dealerAt conf g l).rngs.withP1Prep) :
    Prepared conf g order (l ++ [f]) p0 p1 := by
  obtain ⟨h1, h2, h3⟩ := ht
  have hnp : ¬ (f.type = .shuffle ∨ f.type = .mergedShuffle) := by simp [h1, h2]
  have hnd : f.deals f.shuffleIdx = false := by
    by_contra hc
    exact hnp (deals_iff.mp (by simpa using hc)).1
  have hsame := dealt_of_not_deals (l := l) hnd
  obtain ⟨⟨rest0, hr0, hat0⟩, ⟨rest1, hr1, hat1⟩⟩ := hp.chunks h ho
  simp only [prepChunk, if_neg hnp, h3, Bool.false_eq_true, if_false, List.nil_append]
    at hat0 hat1
  have hrecv : recvAt conf g (l ++ [f]) = recvAt conf g l := by
    rw [recvAt_snoc, nextRecv, if_neg (by simp [h1, h3])]
  refine ⟨hp.recv0.trans hrecv.symm, hp.recv1.trans hrecv.symm, by rw [hprep0, hp.rngs0],
    by rw [hprep1, hp.rngs1], fun idx => (hp.marks0 idx).trans (hsame idx).symm,
    fun idx => (hp.marks1 idx).trans (hsame idx).symm, hp.pi0,
    fun idx => by rw [hsame]; exact hp.pi0p idx, fun idx => by rw [hsame]; exact hp.pi1 idx,
    fun idx => by rw [hsame]; exact hp.pi1p idx, ⟨rest0, hr0, hat0⟩, ⟨rest1, hr1, hat1⟩, ?_⟩
  intro x hx hxt
  rcases List.mem_append.mp hx with hx | hx
  · exact hp.triples x hx hxt
  · obtain rfl := List.mem_singleton.mp hx
    rw [h3] at hxt
    cases hxt

include h ho hp in
theorem Prepared.step :
    ∃ p0' p1', preprocessGate conf.size .p0 p0 f = some p0' ∧
      preprocessGate conf.size .p1 p1 f = some p1' ∧
        Prepared conf g order (l ++ [f]) p0' p1' := by
  cases f.dealt_cases with
  | perm hd => exact hp.perm h ho hd
  | triple ht => exact hp.triple h ho ht
  | unshuffle ht =>
    obtain ⟨-, h0, h1⟩ := dealerStep_unshuffle (g := g) h ho ht
    have hidle : f.type ≠ .shuffle ∧ f.type ≠ .mergedShuffle ∧ f.takesTriple = false := by
      simp [ht, Gate.takesTriple]
    exact ⟨p0, p1, preprocessGate_idle (by decide) p0 hidle,
      preprocessGate_idle (by decide) p1 hidle, hp.idle h ho hidle h0 h1⟩
  | silent hs ht =>
    obtain ⟨-, h0, h1⟩ := @dealerStep_silent conf g order l _ hs ht
    have hidle : f.type ≠ .shuffle ∧ f.type ≠ .mergedShuffle ∧ f.takesTriple = false :=
      ⟨ht.1, ht.2.1, ht.2.2.2⟩
    exact ⟨p0, p1, preprocessGate_idle (by decide) p0 hidle,
      preprocessGate_idle (by decide) p1 hidle, hp.idle h ho hidle h0 h1⟩

include h in
theorem Prepared.run (l r : List Gate) (ho : order = l ++ r) (hp : Prepared conf g order l p0 p1) :
    ∃ p0' p1', r.foldlM (preprocessGate conf.size .p0) p0 = some p0' ∧
      r.foldlM (preprocessGate conf.size .p1) p1 = some p1' ∧
        Prepared conf g order order p0' p1' := by
  induction r generalizing l p0 p1 with
  | nil =>
    rw [List.append_nil] at ho
    exact ⟨p0, p1, rfl, rfl, ho ▸ hp⟩
  | cons f r ih =>
    obtain ⟨q0, q1, e0, e1, hq⟩ := hp.step h ho
    obtain ⟨p0', p1', f0, f1, hfin⟩ := ih (l ++ [f]) (by rw [ho]; simp) hq
    refine ⟨p0', p1', ?_, ?_, hfin⟩
    · rw [List.foldlM_cons, e0]
      exact f0
    · rw [List.foldlM_cons, e1]
      exact f1

def partyStart (g : Streams) (dealer : Storage) (id : Party) : Preprocessor :=
  let s := Storage.init (g.generators id)
  ⟨{ s with preproc := Function.update s.preproc id (Preprocessor.dealt dealer id) }, .p0⟩

theorem runParty_eq (conf : ProtocolConfig) (circ : List (List Gate)) (g : Streams)
    (dealer : Storage) (id : Party) : runParty conf circ g dealer id =
      (circ.flatten.foldlM (preprocessGate conf.size id) (partyStart g dealer id)).map
        Preprocessor.data := by
  rw [runParty, preprocess, partyStart]
  cases circ.flatten.foldlM (preprocessGate conf.size id) _ <;> rfl

theorem Prepared.start : Prepared conf g order [] (partyStart g (dealerAt conf g order) .p0)
    (partyStart g (dealerAt conf g order) .p1) where
  recv0 := rfl
  recv1 := rfl
  rngs0 := rfl
  rngs1 := rfl
  marks0 _ := rfl
  marks1 _ := rfl
  pi0 _ := rfl
  pi0p _ := rfl
  pi1 _ := rfl
  pi1p _ := rfl
  read0 := ⟨_, (List.nil_append _).symm, At.start _⟩
  read1 := ⟨_, (List.nil_append _).symm, At.start _⟩
  triples _ hx := absurd hx List.not_mem_nil

include h in
theorem runParty_prepared {circ : List (List Gate)} (hc : circ.flatten = order) :
    ∃ s0 s1 recv, runParty conf circ g (dealerAt conf g order) .p0 = some s0 ∧
      runParty conf circ g (dealerAt conf g order) .p1 = some s1 ∧
        Prepared conf g order order ⟨s0, recv⟩ ⟨s1, recv⟩ := by
  obtain ⟨p0, p1, e0, e1, hp⟩ := Prepared.run h [] order rfl Prepared.start
  refine ⟨p0.data, p1.data, recvAt conf g order, ?_, ?_, ?_⟩
  · rw [runParty_eq, hc, e0]
    rfl
  · rw [runParty_eq, hc, e1]
    rfl
  · have e0 : p0 = ⟨p0.data, recvAt conf g order⟩ := by rw [← hp.recv0]
    have e1 : p1 = ⟨p1.data, recvAt conf g order⟩ := by rw [← hp.recv1]
    rwa [e0, e1] at hp

end preprocessing

end GraphMpc
