import GraphMpc.Alignment

namespace GraphMpc

open Tabulate Permutation Preprocessor

section supply

variable (conf : ProtocolConfig) (g : Streams) (order : List Gate) (s0 s1 : Storage)

def ahead (f : Gate) : List Gate := order.takeWhile (· ≠ f)

def constLen (f : Gate) : ℕ :=
  if f.type = .setConstVecSIMD then (Storage.constVals conf.size f).length else 0

def common (l : List Gate) : PRG := g.rng01.skip (l.map (constLen conf)).sum

noncomputable def correlations (f : Gate) : GateCorrelations :=
  let l := ahead order f
  let q := deal conf g order f.shuffleIdx
  let mask0 := (dealerAt conf g l).rngs.withP0Send.vec conf.size
  let mask1 := (dealerAt conf g l).rngs.withP1Send.vec conf.size
  match f.type with
  | .shuffle | .mergedShuffle =>
    { send0 := { mask := mask0, perm := ofPerm conf.size q.pi0p }
      send1 := { mask := mask1, perm := ofPerm conf.size q.pi1 }
      recv0 := { perm := ofPerm conf.size q.pi0
                 B := correctionAt conf g .p0 l (ofPerm conf.size q.pi) }
      recv1 := { perm := ofPerm conf.size q.pi1p
                 B := correctionAt conf g .p1 l (ofPerm conf.size q.pi) } }
  | .unshuffle =>
    { send0 := { mask := mask0, perm := ofPerm conf.size q.pi0 }
      send1 := { mask := mask1, perm := ofPerm conf.size q.pi1p }
      recv0 := { perm := ofPerm conf.size q.pi0p
                 B := correctionAt conf g .p0 l (ofPerm conf.size q.pi⁻¹) }
      recv1 := { perm := ofPerm conf.size q.pi1
                 B := correctionAt conf g .p1 l (ofPerm conf.size q.pi⁻¹) } }
  | .compaction | .mul | .mulSIMD | .eqz | .bit2A =>
    ⟨s0.triples f, s1.triples f, s0.triples f, s1.triples f⟩
  | .setConstVecSIMD =>
    let mask := (common conf g l).vec (constLen conf f)
    ⟨{}, {}, { mask := mask }, { mask := mask }⟩
  | _ => ⟨{}, {}, {}, {}⟩

structure Stocked (sent recvd : List Gate) (d0 d1 : Storage) : Prop where
  kept : ∀ f ∈ recvd, f ∈ sent
  send0 : d0.rngs.withDSend = (dealerAt conf g sent).rngs.withP0Send
  send1 : d1.rngs.withDSend = (dealerAt conf g sent).rngs.withP1Send
  recv0 : d0.rngs.withDRecv = (dealerAt conf g recvd).rngs.withP0Recv
  recv1 : d1.rngs.withDRecv = (dealerAt conf g recvd).rngs.withP1Recv
  common0 : d0.rngs.rng01 = common conf g recvd
  common1 : d1.rngs.rng01 = common conf g recvd
  pi0 : ∀ idx, d0.pi0 idx = permIf conf.size (dealt recvd idx) (deal conf g order idx).pi0
  pi0p : ∀ idx, d0.pi0p idx = permIf conf.size
    (dealt order idx && !kindIs conf g order idx .toP1 || dealt sent idx)
      (deal conf g order idx).pi0p
  pi1 : ∀ idx, d1.pi1 idx = permIf conf.size
    (dealt order idx && kindIs conf g order idx .merged || dealt sent idx)
      (deal conf g order idx).pi1
  pi1p : ∀ idx, d1.pi1p idx = permIf conf.size
    (dealt order idx && kindIs conf g order idx .toP1 || dealt recvd idx)
      (deal conf g order idx).pi1p
  triples0 : ∀ f, d0.triples f = s0.triples f
  triples1 : ∀ f, d1.triples f = s1.triples f
  read0 : ∃ rest, (dealerAt conf g order).B .p0 = (dealerAt conf g recvd).B .p0 ++ rest ∧
    At (d0.preproc .p0) d0.readIdx rest
  read1 : ∃ rest, (dealerAt conf g order).B .p1 = (dealerAt conf g recvd).B .p1 ++ rest ∧
    At (d1.preproc .p1) d1.readIdx rest

variable {conf g order s0 s1} {sent recvd l r rest : List Gate} {f : Gate} {d0 d1 : Storage}
  (h : Dealable conf order)

theorem ahead_eq (hn : order.Nodup) (ho : order = l ++ f :: r) : ahead order f = l := by
  have hf : f ∉ l := by
    rw [ho, List.nodup_append] at hn
    exact fun hm => hn.2.2 f hm f (List.mem_cons_self ..) rfl
  rw [ahead, ho, List.takeWhile_append_of_pos fun x hx => by
    simpa using fun he : x = f => hf (he ▸ hx)]
  simp

theorem Prepared.stocked {recv : Party}
    (hp : Prepared conf g order order ⟨s0, recv⟩ ⟨s1, recv⟩) :
    Stocked conf g order s0 s1 [] [] s0 s1 := by
  obtain ⟨rest0, hr0, hat0⟩ := hp.read0
  obtain ⟨rest1, hr1, hat1⟩ := hp.read1
  obtain rfl := List.append_right_eq_self.mp hr0.symm
  obtain rfl := List.append_right_eq_self.mp hr1.symm
  have h0 : s0.rngs = _ := hp.rngs0
  have h1 : s1.rngs = _ := hp.rngs1
  refine ⟨fun f hf => hf, by rw [h0]; rfl, by rw [h1]; rfl, by rw [h0]; rfl, by rw [h1]; rfl,
    by rw [h0]; rfl, by rw [h1]; rfl, hp.pi0, ?_, ?_, ?_, fun _ => rfl, fun _ => rfl,
    ⟨_, rfl, hat0⟩, ⟨_, rfl, hat1⟩⟩
  · intro idx
    rw [hp.pi0p]
    simp [dealt]
  · intro idx
    rw [hp.pi1]
    simp [dealt]
  · intro idx
    rw [hp.pi1p]
    simp [dealt]

theorem correlations_correlated {recv : Party} (h : Dealable conf order)
    (hp : Prepared conf g order order ⟨s0, recv⟩ ⟨s1, recv⟩) (hf : f ∈ order) :
    Correlated conf (fun idx => (deal conf g order idx).pi) f
      (correlations conf g order s0 s1 f) := by
  have htriple : f.takesTriple = true →
      TripleDealt f.binary (f.tripleLen conf) (s0.triples f) (s1.triples f) := hp.triples f hf
  cases ht : f.type
  case shuffle =>
    simp only [Correlated, correlations, ht]
    exact ⟨_, deal_pi h hf (Or.inl ht), rfl, rfl, rfl, rfl, _, rfl, rfl⟩
  case mergedShuffle =>
    simp only [Correlated, correlations, ht]
    exact ⟨_, deal_pi h hf (Or.inr ht), rfl, rfl, rfl, rfl, _, rfl, rfl⟩
  case unshuffle =>
    simp only [Correlated, correlations, ht]
    refine ⟨_, ?_, rfl, rfl, rfl, rfl, _, rfl, rfl⟩
    rw [gatePerm, if_neg (by simp [ht])]
  case compaction | mulSIMD | eqz | bit2A =>
    simp only [Correlated, correlations, ht, TriplesDealt, true_and]
    simpa only [Gate.takesTriple, Gate.tripleLen, ht, reduceCtorEq, if_true, if_false,
      forall_const] using htriple
  all_goals simp only [Correlated, correlations, ht]

theorem permIf_update {n : ℕ} {tab : ℕ → Permutation} {given : ℕ → Bool} {σ : ℕ → Equiv.Perm ℕ}
    (ht : ∀ idx, tab idx = permIf n (given idx) (σ idx)) (idx i : ℕ) :
    (if given idx then tab else Function.update tab idx (ofPerm n (σ idx))) i =
      permIf n (given i || i == idx) (σ i) := by
  by_cases hi : i = idx
  · subst hi
    cases hg : given i
    · simp [permIf]
    · simp [ht, hg]
  · have hb : (i == idx) = false := by simpa using hi
    cases hg : given idx
    · simp [hi, ht, hb]
    · simp [ht, hb]

section use

variable {n idx : ℕ} {s : Storage} {given : Bool} {σ : Equiv.Perm ℕ}

theorem permIf_false_size : (permIf n false σ).size = 0 := rfl

theorem permIf_true_size : (permIf n true σ).size = n := ofPerm_size n σ

theorem update_permIf {tab : ℕ → Permutation} (ht : tab idx = permIf 0 true σ) (g : PRG) :
    Function.update tab idx (random 0 g).1 = tab := by
  have hnull : (random 0 g).1 = tab idx := ht.symm
  rw [hnull, Function.update_eq_self]

theorem sendPerm_p0 (ht : s.pi0p idx = permIf n given σ)
    (hσ : given = false → σ = randomPerm n s.rngs.withDSend) :
    s.sendPerm n .p0 idx = (ofPerm n σ, { s with
      rngs := { s.rngs with withDSend := recvAdvance n (!given) s.rngs.withDSend }
      pi0p := if given then s.pi0p else Function.update s.pi0p idx (ofPerm n σ) }) := by
  cases given
  · rw [Storage.sendPerm, if_pos rfl, ht, if_pos permIf_false_size, hσ rfl,
      ← random_fst]
    rfl
  · rw [Storage.sendPerm, if_pos rfl]
    by_cases hn : n = 0
    · subst hn
      have hu := update_permIf ht s.rngs.withDSend
      rw [ht, if_pos permIf_true_size]
      exact congrArg (fun tab => (ofPerm 0 σ, { s with pi0p := tab })) hu
    · rw [ht, permIf_true_size, if_neg hn]
      rfl

theorem sendPerm_p1 (ht : s.pi1 idx = permIf n given σ)
    (hσ : given = false → σ = randomPerm n s.rngs.withDSend) :
    s.sendPerm n .p1 idx = (ofPerm n σ, { s with
      rngs := { s.rngs with withDSend := recvAdvance n (!given) s.rngs.withDSend }
      pi1 := if given then s.pi1 else Function.update s.pi1 idx (ofPerm n σ) }) := by
  cases given
  · rw [Storage.sendPerm, if_neg (by decide), ht, if_pos permIf_false_size, hσ rfl,
      ← random_fst]
    rfl
  · rw [Storage.sendPerm, if_neg (by decide)]
    by_cases hn : n = 0
    · subst hn
      have hu := update_permIf ht s.rngs.withDSend
      rw [ht, if_pos permIf_true_size]
      exact congrArg (fun tab => (ofPerm 0 σ, { s with pi1 := tab })) hu
    · rw [ht, permIf_true_size, if_neg hn]
      rfl

theorem recvPerm_p0 (ht : s.pi0 idx = permIf n given σ)
    (hσ : given = false → σ = randomPerm n s.rngs.withDRecv) :
    s.recvPerm n .p0 idx = (ofPerm n σ, { s with
      rngs := { s.rngs with withDRecv := recvAdvance n (!given) s.rngs.withDRecv }
      pi0 := if given then s.pi0 else Function.update s.pi0 idx (ofPerm n σ) }) := by
  cases given
  · rw [Storage.recvPerm, if_pos rfl, ht, if_pos permIf_false_size, hσ rfl,
      ← random_fst]
    rfl
  · rw [Storage.recvPerm, if_pos rfl]
    by_cases hn : n = 0
    · subst hn
      have hu := update_permIf ht s.rngs.withDRecv
      rw [ht, if_pos permIf_true_size]
      exact congrArg (fun tab => (ofPerm 0 σ, { s with pi0 := tab })) hu
    · rw [ht, permIf_true_size, if_neg hn]
      rfl

theorem recvPerm_p1 (ht : s.pi1p idx = permIf n given σ)
    (hσ : given = false → σ = randomPerm n s.rngs.withDRecv) :
    s.recvPerm n .p1 idx = (ofPerm n σ, { s with
      rngs := { s.rngs with withDRecv := recvAdvance n (!given) s.rngs.withDRecv }
      pi1p := if given then s.pi1p else Function.update s.pi1p idx (ofPerm n σ) }) := by
  cases given
  · rw [Storage.recvPerm, if_neg (by decide), ht, if_pos permIf_false_size, hσ rfl,
      ← random_fst]
    rfl
  · rw [Storage.recvPerm, if_neg (by decide)]
    by_cases hn : n = 0
    · subst hn
      have hu := update_permIf ht s.rngs.withDRecv
      rw [ht, if_pos permIf_true_size]
      exact congrArg (fun tab => (ofPerm 0 σ, { s with pi1p := tab })) hu
    · rw [ht, permIf_true_size, if_neg hn]
      rfl

end use

theorem dealt_snoc_deals (hd : f.deals f.shuffleIdx = true) (l : List Gate) (idx : ℕ) :
    dealt (l ++ [f]) idx = (dealt l idx || idx == f.shuffleIdx) := by
  obtain ⟨ht, -⟩ := deals_iff.mp hd
  have : f.deals idx = (idx == f.shuffleIdx) := by
    by_cases hi : idx = f.shuffleIdx
    · rw [hi, hd]
      simp
    · have hne : f.deals idx = false := by
        by_contra hc
        exact hi (deals_iff.mp (by simpa using hc)).2.symm
      rw [hne]
      simpa using fun he : idx = f.shuffleIdx => hi he
  rw [dealt_snoc, this]

theorem sendCorrelation_deals (hd : f.deals f.shuffleIdx = true) (n : ℕ) (id : Party)
    (s : Storage) : s.sendCorrelation n id f =
      ({ mask := s.rngs.withDSend.vec n,
         perm := ((s.drawSend n).2.sendPerm n id f.shuffleIdx).1 },
        ((s.drawSend n).2.sendPerm n id f.shuffleIdx).2) := by
  rcases (deals_iff.mp hd).1 with ht | ht <;> simp only [Storage.sendCorrelation, ht] <;> rfl

include h in
theorem Stocked.send_perm (hs : Stocked conf g order s0 s1 sent recvd d0 d1)
    (ho : order = sent ++ f :: rest) (hd : f.deals f.shuffleIdx = true) :
    ∃ d0' d1',
      d0.sendCorrelation conf.size .p0 f = ((correlations conf g order s0 s1 f).send0, d0') ∧
      d1.sendCorrelation conf.size .p1 f = ((correlations conf g order s0 s1 f).send1, d1') ∧
        Stocked conf g order s0 s1 (sent ++ [f]) recvd d0' d1' := by
  obtain ⟨hstep, -, -⟩ := dealerStep_perm (g := g) h ho hd
  have hda := ahead_eq h.nodup ho
  have hin : dealt order f.shuffleIdx = true :=
    dealt_iff.mpr ⟨f, by rw [ho]; simp, hd⟩
  have hfresh0 : (dealt order f.shuffleIdx && !kindIs conf g order f.shuffleIdx .toP1 ||
      dealt sent f.shuffleIdx) = false → (deal conf g order f.shuffleIdx).pi0p =
        randomPerm conf.size (d0.drawSend conf.size).2.rngs.withDSend := by
    intro hf
    rw [hin] at hf
    simp only [Bool.true_and, Bool.or_eq_false_iff, Bool.not_eq_false', kindIs,
      decide_eq_true_eq] at hf
    rw [(deal_streams ho hd hf.2).2.2.1 hf.1]
    simp only [Storage.drawSend, hs.send0]
  have hfresh1 : (dealt order f.shuffleIdx && kindIs conf g order f.shuffleIdx .merged ||
      dealt sent f.shuffleIdx) = false → (deal conf g order f.shuffleIdx).pi1 =
        randomPerm conf.size (d1.drawSend conf.size).2.rngs.withDSend := by
    intro hf
    rw [hin] at hf
    simp only [Bool.true_and, Bool.or_eq_false_iff, kindIs, decide_eq_false_iff_not] at hf
    rw [(deal_streams ho hd hf.2).2.1 hf.1]
    simp only [Storage.drawSend, hs.send1]
  have e0 := sendPerm_p0 (s := (d0.drawSend conf.size).2) (hs.pi0p f.shuffleIdx) hfresh0
  have e1 := sendPerm_p1 (s := (d1.drawSend conf.size).2) (hs.pi1 f.shuffleIdx) hfresh1
  rw [sendCorrelation_deals hd, sendCorrelation_deals hd, e0, e1]
  have hcorr : (correlations conf g order s0 s1 f).send0 =
      { mask := d0.rngs.withDSend.vec conf.size,
        perm := ofPerm conf.size (deal conf g order f.shuffleIdx).pi0p } ∧
      (correlations conf g order s0 s1 f).send1 =
      { mask := d1.rngs.withDSend.vec conf.size,
        perm := ofPerm conf.size (deal conf g order f.shuffleIdx).pi1 } := by
    rcases (deals_iff.mp hd).1 with ht | ht <;>
      simp only [correlations, ht, hda, hs.send0, hs.send1, and_self]
  refine ⟨_, _, Prod.ext hcorr.1.symm rfl, Prod.ext hcorr.2.symm rfl,
    ⟨fun x hx => List.mem_append_left _ (hs.kept x hx), ?_, ?_, hs.recv0, hs.recv1, hs.common0,
      hs.common1, hs.pi0, ?_, ?_, hs.pi1p, hs.triples0, hs.triples1, hs.read0, hs.read1⟩⟩
  · rw [hstep.p0Send, ← hs.send0, hin]
    cases dealt sent f.shuffleIdx <;> cases kindIs conf g order f.shuffleIdx .toP1 <;> rfl
  · rw [hstep.p1Send, ← hs.send1, hin]
    cases dealt sent f.shuffleIdx <;> cases kindIs conf g order f.shuffleIdx .merged <;> rfl
  · intro idx
    rw [dealt_snoc_deals hd, ← Bool.or_assoc]
    exact permIf_update hs.pi0p f.shuffleIdx idx
  · intro idx
    rw [dealt_snoc_deals hd, ← Bool.or_assoc]
    exact permIf_update hs.pi1 f.shuffleIdx idx

theorem Stocked.send_plain (hs : Stocked conf g order s0 s1 sent recvd d0 d1) (n : ℕ)
    (hnd : f.deals f.shuffleIdx = false)
    (h0 : (dealerAt conf g (sent ++ [f])).rngs.withP0Send =
      (dealerAt conf g sent).rngs.withP0Send.skip n)
    (h1 : (dealerAt conf g (sent ++ [f])).rngs.withP1Send =
      (dealerAt conf g sent).rngs.withP1Send.skip n) :
    Stocked conf g order s0 s1 (sent ++ [f]) recvd (d0.drawSend n).2 (d1.drawSend n).2 := by
  have hsame := dealt_of_not_deals (l := sent) hnd
  refine ⟨fun x hx => List.mem_append_left _ (hs.kept x hx), ?_, ?_, hs.recv0, hs.recv1,
    hs.common0, hs.common1, hs.pi0, ?_, ?_, hs.pi1p, hs.triples0, hs.triples1, hs.read0, hs.read1⟩
  · rw [h0, ← hs.send0]
    rfl
  · rw [h1, ← hs.send1]
    rfl
  · intro idx
    rw [hsame]
    exact hs.pi0p idx
  · intro idx
    rw [hsame]
    exact hs.pi1 idx

theorem not_deals (ht : ¬ (f.type = .shuffle ∨ f.type = .mergedShuffle)) :
    f.deals f.shuffleIdx = false := by
  by_contra hc
  exact ht (deals_iff.mp (by simpa using hc)).1

theorem permIf_dealt (l : List Gate) (ht : ∃ x ∈ l, x.type = .shuffle ∧
    x.shuffleIdx = f.shuffleIdx) : dealt l f.shuffleIdx = true := by
  obtain ⟨x, hx, hxt, hxi⟩ := ht
  exact dealt_iff.mpr ⟨x, hx, deals_iff.mpr ⟨Or.inl hxt, hxi⟩⟩

include h in
theorem Stocked.send_unshuffle (hs : Stocked conf g order s0 s1 sent recvd d0 d1)
    (ho : order = sent ++ f :: rest) (ht : f.type = .unshuffle)
    (hd : dealt recvd f.shuffleIdx = true) :
    ∃ d0' d1',
      d0.sendCorrelation conf.size .p0 f = ((correlations conf g order s0 s1 f).send0, d0') ∧
      d1.sendCorrelation conf.size .p1 f = ((correlations conf g order s0 s1 f).send1, d1') ∧
        Stocked conf g order s0 s1 (sent ++ [f]) recvd d0' d1' := by
  obtain ⟨hstep, -, -⟩ := dealerStep_unshuffle (g := g) h ho ht
  have hda := ahead_eq h.nodup ho
  have hpi0 := hs.pi0 f.shuffleIdx
  have hpi1p := hs.pi1p f.shuffleIdx
  rw [hd] at hpi0 hpi1p
  rw [Bool.or_true] at hpi1p
  refine ⟨(d0.drawSend conf.size).2, (d1.drawSend conf.size).2, ?_, ?_,
    hs.send_plain conf.size (not_deals (by simp [ht])) hstep.p0Send hstep.p1Send⟩
  · simp only [Storage.sendCorrelation, ht, correlations, hda, ← hs.send0]
    exact congrArg (fun perm => (({ mask := d0.rngs.withDSend.vec conf.size, perm := perm } :
      Correlation), (d0.drawSend conf.size).2)) hpi0
  · simp only [Storage.sendCorrelation, ht, correlations, hda, ← hs.send1]
    exact congrArg (fun perm => (({ mask := d1.rngs.withDSend.vec conf.size, perm := perm } :
      Correlation), (d1.drawSend conf.size).2)) hpi1p

theorem Stocked.send_fixed (hs : Stocked conf g order s0 s1 sent recvd d0 d1)
    (ht : f.type ≠ .shuffle ∧ f.type ≠ .mergedShuffle ∧ f.type ≠ .unshuffle) :
    ∃ d0' d1',
      d0.sendCorrelation conf.size .p0 f = ((correlations conf g order s0 s1 f).send0, d0') ∧
      d1.sendCorrelation conf.size .p1 f = ((correlations conf g order s0 s1 f).send1, d1') ∧
        Stocked conf g order s0 s1 (sent ++ [f]) recvd d0' d1' := by
  obtain ⟨h1, h2, h3⟩ := ht
  have hstep : DealerStep conf g order sent f id id id id := by
    cases f.dealt_cases with
    | perm hd =>
      rcases (deals_iff.mp hd).1 with hh | hh
      · exact absurd hh h1
      · exact absurd hh h2
    | unshuffle hh => exact absurd hh h3
    | triple hh => exact dealerStep_triple hh
    | silent hh ht => exact (dealerStep_silent hh ht).1
  refine ⟨d0, d1, ?_, ?_,
    hs.send_plain 0 (not_deals (by simp [h1, h2])) hstep.p0Send hstep.p1Send⟩
  · cases hf : f.type
    case shuffle => exact absurd hf h1
    case mergedShuffle => exact absurd hf h2
    case unshuffle => exact absurd hf h3
    all_goals simp only [Storage.sendCorrelation, correlations, hf, hs.triples0]
  · cases hf : f.type
    case shuffle => exact absurd hf h1
    case mergedShuffle => exact absurd hf h2
    case unshuffle => exact absurd hf h3
    all_goals simp only [Storage.sendCorrelation, correlations, hf, hs.triples1]

include h in
theorem Stocked.send (hs : Stocked conf g order s0 s1 sent recvd d0 d1)
    (ho : order = sent ++ f :: rest)
    (hu : f.type = .unshuffle → ∃ x ∈ recvd, x.type = .shuffle ∧ x.shuffleIdx = f.shuffleIdx) :
    ∃ d0' d1',
      d0.sendCorrelation conf.size .p0 f = ((correlations conf g order s0 s1 f).send0, d0') ∧
      d1.sendCorrelation conf.size .p1 f = ((correlations conf g order s0 s1 f).send1, d1') ∧
        Stocked conf g order s0 s1 (sent ++ [f]) recvd d0' d1' := by
  by_cases hd : f.type = .shuffle ∨ f.type = .mergedShuffle
  · exact hs.send_perm h ho (deals_iff.mpr ⟨hd, rfl⟩)
  · by_cases ht : f.type = .unshuffle
    · exact hs.send_unshuffle h ho ht (permIf_dealt recvd (hu ht))
    · exact hs.send_fixed ⟨fun hh => hd (Or.inl hh), fun hh => hd (Or.inr hh), ht⟩

theorem common_snoc (l : List Gate) (f : Gate) :
    common conf g (l ++ [f]) = (common conf g l).skip (constLen conf f) := by
  simp only [common, PRG.skip, List.map_append, List.map_cons, List.map_nil, List.sum_append,
    List.sum_cons, List.sum_nil, Nat.add_zero, Nat.add_assoc]

theorem common_of_ne (ht : f.type ≠ .setConstVecSIMD) :
    common conf g (l ++ [f]) = common conf g l := by
  rw [common_snoc, constLen, if_neg ht]
  rfl

theorem correctionAt_length (id : Party) (l : List Gate) {σ : Equiv.Perm ℕ}
    (hσ : Keeps conf.size σ) :
    (correctionAt conf g id l (ofPerm conf.size σ)).length = conf.size := by
  rw [correctionAt]
  split <;> simp [correctionB0, correctionB1, apply_ofPerm conf.size_le hσ]

include h in
theorem Stocked.chunks (hs : Stocked conf g order s0 s1 sent recvd d0 d1)
    (ho : order = recvd ++ f :: rest) :
    (∃ rest, (dealerAt conf g order).B .p0 = (dealerAt conf g (recvd ++ [f])).B .p0 ++ rest ∧
      At (d0.preproc .p0) d0.readIdx (bChunk conf g order .p0 recvd f ++ rest)) ∧
    ∃ rest, (dealerAt conf g order).B .p1 = (dealerAt conf g (recvd ++ [f])).B .p1 ++ rest ∧
      At (d1.preproc .p1) d1.readIdx (bChunk conf g order .p1 recvd f ++ rest) := by
  obtain ⟨_, _, _, _, hstep⟩ := dealerStep_exists (g := g) h ho
  obtain ⟨-, -, ⟨a, ha⟩, b, hb⟩ := dealer_grows (g := g) h (recvd ++ [f]) rest (by rw [ho]; simp)
  obtain ⟨a', ha', hata⟩ := hs.read0
  obtain ⟨b', hb', hatb⟩ := hs.read1
  refine ⟨⟨a, ha, ?_⟩, b, hb, ?_⟩
  · rw [hstep.b0, List.append_assoc, ha'] at ha
    rwa [List.append_cancel_left ha] at hata
  · rw [hstep.b1, List.append_assoc, hb'] at hb
    rwa [List.append_cancel_left hb] at hatb

theorem recvCorrelation_deals (hd : f.deals f.shuffleIdx = true) (n : ℕ) (id : Party)
    (s : Storage) : s.recvCorrelation n id f =
      ((s.recvPerm n id f.shuffleIdx).2.readPreproc id n).map fun t =>
        ({ perm := (s.recvPerm n id f.shuffleIdx).1, B := t.1 }, t.2) := by
  rcases (deals_iff.mp hd).1 with ht | ht
  all_goals
    simp only [Storage.recvCorrelation, ht]
    cases (s.recvPerm n id f.shuffleIdx).2.readPreproc id n <;> rfl

theorem recvCorrelation_unshuffle (ht : f.type = .unshuffle) (n : ℕ) (id : Party)
    (s : Storage) : s.recvCorrelation n id f = (s.readPreproc id n).map fun t =>
      ({ perm := if id = .p0 then t.2.pi0p f.shuffleIdx else t.2.pi1 f.shuffleIdx, B := t.1 },
        t.2) := by
  simp only [Storage.recvCorrelation, ht]
  cases s.readPreproc id n <;> rfl

include h in
theorem Stocked.recv_perm (hs : Stocked conf g order s0 s1 sent recvd d0 d1)
    (ho : order = recvd ++ f :: rest) (hf : f ∈ sent) (hd : f.deals f.shuffleIdx = true) :
    ∃ d0' d1',
      d0.recvCorrelation conf.size .p0 f =
        some ((correlations conf g order s0 s1 f).recv0, d0') ∧
      d1.recvCorrelation conf.size .p1 f =
        some ((correlations conf g order s0 s1 f).recv1, d1') ∧
        Stocked conf g order s0 s1 sent (recvd ++ [f]) d0' d1' := by
  obtain ⟨hstep, -, -⟩ := dealerStep_perm (g := g) h ho hd
  have htype := (deals_iff.mp hd).1
  have hda := ahead_eq h.nodup ho
  have hin : dealt order f.shuffleIdx = true :=
    dealt_iff.mpr ⟨f, by rw [ho]; simp, hd⟩
  have hfresh0 : dealt recvd f.shuffleIdx = false → (deal conf g order f.shuffleIdx).pi0 =
      randomPerm conf.size d0.rngs.withDRecv := by
    intro hn
    rw [(deal_streams ho hd hn).1, hs.recv0]
  have hfresh1 : (dealt order f.shuffleIdx && kindIs conf g order f.shuffleIdx .toP1 ||
      dealt recvd f.shuffleIdx) = false → (deal conf g order f.shuffleIdx).pi1p =
        randomPerm conf.size d1.rngs.withDRecv := by
    intro hf
    rw [hin] at hf
    simp only [Bool.true_and, Bool.or_eq_false_iff, kindIs, decide_eq_false_iff_not] at hf
    rw [(deal_streams ho hd hf.2).2.2.2 hf.1, hs.recv1]
  have e0 := recvPerm_p0 (hs.pi0 f.shuffleIdx) hfresh0
  have e1 := recvPerm_p1 (hs.pi1p f.shuffleIdx) hfresh1
  obtain ⟨⟨rest0, hr0, hat0⟩, rest1, hr1, hat1⟩ := hs.chunks h ho
  simp only [bChunk, if_pos htype] at hat0 hat1
  have hkeeps := (deal conf g order f.shuffleIdx).pi_keeps
  obtain ⟨i0, hread0, hrest0⟩ := readPreproc_spec (s := (d0.recvPerm conf.size .p0 f.shuffleIdx).2)
    (by rw [e0]; exact hat0) (correctionAt_length .p0 recvd hkeeps)
  obtain ⟨i1, hread1, hrest1⟩ := readPreproc_spec (s := (d1.recvPerm conf.size .p1 f.shuffleIdx).2)
    (by rw [e1]; exact hat1) (correctionAt_length .p1 recvd hkeeps)
  rw [recvCorrelation_deals hd, recvCorrelation_deals hd, hread0, hread1]
  rw [e0] at hrest0 ⊢
  rw [e1] at hrest1 ⊢
  have hcorr : (correlations conf g order s0 s1 f).recv0 =
      { perm := ofPerm conf.size (deal conf g order f.shuffleIdx).pi0,
        B := correctionAt conf g .p0 recvd
          (ofPerm conf.size (deal conf g order f.shuffleIdx).pi) } ∧
      (correlations conf g order s0 s1 f).recv1 =
      { perm := ofPerm conf.size (deal conf g order f.shuffleIdx).pi1p,
        B := correctionAt conf g .p1 recvd
          (ofPerm conf.size (deal conf g order f.shuffleIdx).pi) } := by
    rcases htype with ht | ht <;> simp only [correlations, ht, hda, and_self]
  refine ⟨_, _, congrArg some (Prod.ext hcorr.1.symm rfl),
    congrArg some (Prod.ext hcorr.2.symm rfl), ⟨?_, hs.send0, hs.send1, ?_, ?_, ?_, ?_, ?_,
      hs.pi0p, hs.pi1, ?_, hs.triples0, hs.triples1, ⟨rest0, hr0, hrest0⟩,
        rest1, hr1, hrest1⟩⟩
  · intro x hx
    rcases List.mem_append.mp hx with hx | hx
    · exact hs.kept x hx
    · obtain rfl := List.mem_singleton.mp hx
      exact hf
  · rw [hstep.p0Recv, ← hs.recv0]
  · rw [hstep.p1Recv, ← hs.recv1, hin]
    cases dealt recvd f.shuffleIdx <;> cases kindIs conf g order f.shuffleIdx .toP1 <;> rfl
  · exact hs.common0.trans (common_of_ne (by rcases htype with ht | ht <;> simp [ht])).symm
  · exact hs.common1.trans (common_of_ne (by rcases htype with ht | ht <;> simp [ht])).symm
  · intro idx
    rw [dealt_snoc_deals hd]
    exact permIf_update hs.pi0 f.shuffleIdx idx
  · intro idx
    rw [dealt_snoc_deals hd, ← Bool.or_assoc]
    exact permIf_update hs.pi1p f.shuffleIdx idx

theorem Stocked.recv_plain (hs : Stocked conf g order s0 s1 sent recvd d0 d1) (hf : f ∈ sent)
    (hnd : f.deals f.shuffleIdx = false)
    (h0 : (dealerAt conf g (recvd ++ [f])).rngs.withP0Recv =
      (dealerAt conf g recvd).rngs.withP0Recv)
    (h1 : (dealerAt conf g (recvd ++ [f])).rngs.withP1Recv =
      (dealerAt conf g recvd).rngs.withP1Recv) {i0 i1 : ℕ}
    (hr0 : ∃ rest, (dealerAt conf g order).B .p0 = (dealerAt conf g (recvd ++ [f])).B .p0 ++ rest ∧
      At (d0.preproc .p0) i0 rest)
    (hr1 : ∃ rest, (dealerAt conf g order).B .p1 = (dealerAt conf g (recvd ++ [f])).B .p1 ++ rest ∧
      At (d1.preproc .p1) i1 rest) :
    Stocked conf g order s0 s1 sent (recvd ++ [f])
      { d0 with
        readIdx := i0
        rngs := { d0.rngs with rng01 := d0.rngs.rng01.skip (constLen conf f) } }
      { d1 with
        readIdx := i1
        rngs := { d1.rngs with rng01 := d1.rngs.rng01.skip (constLen conf f) } } := by
  have hsame := dealt_of_not_deals (l := recvd) hnd
  refine ⟨?_, hs.send0, hs.send1, hs.recv0.trans h0.symm, hs.recv1.trans h1.symm,
    by rw [common_snoc, ← hs.common0], by rw [common_snoc, ← hs.common1], ?_, hs.pi0p, hs.pi1, ?_,
    hs.triples0, hs.triples1, hr0, hr1⟩
  · intro x hx
    rcases List.mem_append.mp hx with hx | hx
    · exact hs.kept x hx
    · obtain rfl := List.mem_singleton.mp hx
      exact hf
  · intro idx
    rw [hsame]
    exact hs.pi0 idx
  · intro idx
    rw [hsame]
    exact hs.pi1p idx

include h in
theorem Stocked.recv_unshuffle (hs : Stocked conf g order s0 s1 sent recvd d0 d1)
    (ho : order = recvd ++ f :: rest) (hf : f ∈ sent) (ht : f.type = .unshuffle) :
    ∃ d0' d1',
      d0.recvCorrelation conf.size .p0 f =
        some ((correlations conf g order s0 s1 f).recv0, d0') ∧
      d1.recvCorrelation conf.size .p1 f =
        some ((correlations conf g order s0 s1 f).recv1, d1') ∧
        Stocked conf g order s0 s1 sent (recvd ++ [f]) d0' d1' := by
  obtain ⟨hstep, -, -⟩ := dealerStep_unshuffle (g := g) h ho ht
  have hda := ahead_eq h.nodup ho
  obtain ⟨x, hx, hxt, hxi⟩ := h.shuffled recvd f rest ho ht
  have hd : dealt sent f.shuffleIdx = true :=
    permIf_dealt sent ⟨x, hs.kept x hx, hxt, hxi⟩
  have hpi0p := hs.pi0p f.shuffleIdx
  have hpi1 := hs.pi1 f.shuffleIdx
  rw [hd, Bool.or_true] at hpi0p hpi1
  have hne : ¬ (f.type = .shuffle ∨ f.type = .mergedShuffle) := by simp [ht]
  have hconst : constLen conf f = 0 := if_neg (by simp [ht])
  obtain ⟨⟨rest0, hr0, hat0⟩, rest1, hr1, hat1⟩ := hs.chunks h ho
  simp only [bChunk, if_neg hne, if_pos ht] at hat0 hat1
  have hkeeps := (deal conf g order f.shuffleIdx).pi_keeps.inv
  obtain ⟨i0, hread0, hrest0⟩ := readPreproc_spec hat0 (correctionAt_length .p0 recvd hkeeps)
  obtain ⟨i1, hread1, hrest1⟩ := readPreproc_spec hat1 (correctionAt_length .p1 recvd hkeeps)
  have hstock := hs.recv_plain hf (not_deals hne) hstep.p0Recv hstep.p1Recv
    ⟨rest0, hr0, hrest0⟩ ⟨rest1, hr1, hrest1⟩
  rw [hconst] at hstock
  refine ⟨_, _, ?_, ?_, hstock⟩
  · rw [recvCorrelation_unshuffle ht, hread0]
    simp only [correlations, ht, hda, Option.map_some, if_true, hpi0p]
    rfl
  · rw [recvCorrelation_unshuffle ht, hread1]
    simp only [correlations, ht, hda, Option.map_some, reduceCtorEq, if_false, hpi1]
    rfl

include h in
theorem Stocked.recv_fixed (hs : Stocked conf g order s0 s1 sent recvd d0 d1)
    (ho : order = recvd ++ f :: rest) (hf : f ∈ sent)
    (ht : f.type ≠ .shuffle ∧ f.type ≠ .mergedShuffle ∧ f.type ≠ .unshuffle) :
    ∃ d0' d1',
      d0.recvCorrelation conf.size .p0 f =
        some ((correlations conf g order s0 s1 f).recv0, d0') ∧
      d1.recvCorrelation conf.size .p1 f =
        some ((correlations conf g order s0 s1 f).recv1, d1') ∧
        Stocked conf g order s0 s1 sent (recvd ++ [f]) d0' d1' := by
  obtain ⟨h1, h2, h3⟩ := ht
  have hne : ¬ (f.type = .shuffle ∨ f.type = .mergedShuffle) := by simp [h1, h2]
  have hda := ahead_eq h.nodup ho
  have hstep : DealerStep conf g order recvd f id id id id := by
    cases f.dealt_cases with
    | perm hd => exact absurd (deals_iff.mp hd).1 hne
    | unshuffle hh => exact absurd hh h3
    | triple hh => exact dealerStep_triple hh
    | silent hh ht => exact (dealerStep_silent hh ht).1
  obtain ⟨⟨rest0, hr0, hat0⟩, rest1, hr1, hat1⟩ := hs.chunks h ho
  simp only [bChunk, if_neg hne, if_neg h3, List.nil_append] at hat0 hat1
  have hstock := hs.recv_plain hf (not_deals hne) hstep.p0Recv hstep.p1Recv
    ⟨rest0, hr0, hat0⟩ ⟨rest1, hr1, hat1⟩
  refine ⟨_, _, ?_, ?_, hstock⟩
  · cases hft : f.type
    case shuffle => exact absurd hft h1
    case mergedShuffle => exact absurd hft h2
    case unshuffle => exact absurd hft h3
    case setConstVecSIMD =>
      simp only [Storage.recvCorrelation, correlations, hft, hda, constLen, hs.common0, if_true]
      rfl
    all_goals
      simp only [Storage.recvCorrelation, correlations, hft, hs.triples0, constLen, reduceCtorEq,
        if_false]
      rfl
  · cases hft : f.type
    case shuffle => exact absurd hft h1
    case mergedShuffle => exact absurd hft h2
    case unshuffle => exact absurd hft h3
    case setConstVecSIMD =>
      simp only [Storage.recvCorrelation, correlations, hft, hda, constLen, hs.common1, if_true]
      rfl
    all_goals
      simp only [Storage.recvCorrelation, correlations, hft, hs.triples1, constLen, reduceCtorEq,
        if_false]
      rfl

include h in
theorem Stocked.recv (hs : Stocked conf g order s0 s1 sent recvd d0 d1)
    (ho : order = recvd ++ f :: rest) (hf : f ∈ sent) :
    ∃ d0' d1',
      d0.recvCorrelation conf.size .p0 f =
        some ((correlations conf g order s0 s1 f).recv0, d0') ∧
      d1.recvCorrelation conf.size .p1 f =
        some ((correlations conf g order s0 s1 f).recv1, d1') ∧
        Stocked conf g order s0 s1 sent (recvd ++ [f]) d0' d1' := by
  by_cases hd : f.type = .shuffle ∨ f.type = .mergedShuffle
  · exact hs.recv_perm h ho hf (deals_iff.mpr ⟨hd, rfl⟩)
  · by_cases ht : f.type = .unshuffle
    · exact hs.recv_unshuffle h ho hf ht
    · exact hs.recv_fixed h ho hf ⟨fun hh => hd (Or.inl hh), fun hh => hd (Or.inr hh), ht⟩

noncomputable def supply (h : Dealable conf order) {recv : Party}
    (hp : Prepared conf g order order ⟨s0, recv⟩ ⟨s1, recv⟩) :
    Supply conf (fun idx => (deal conf g order idx).pi) order where
  corr := correlations conf g order s0 s1
  correlated _ hf := correlations_correlated h hp hf
  Stocked := Stocked conf g order s0 s1
  send ho hs hu := hs.send h ho hu
  recv ho hf hs := hs.recv h ho hf

end supply

end GraphMpc
