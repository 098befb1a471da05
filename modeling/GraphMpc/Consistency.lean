import GraphMpc.Supply

namespace GraphMpc

open Tabulate Permutation Preprocessor Sharing Online

namespace Permutation

variable {n : ℕ} {σ : Equiv.Perm ℕ}

theorem inverse_apply_apply (hn : n ≤ 2 ^ 32) (hσ : Keeps n σ) {x : Vec} (hx : x.length = n) :
    (ofPerm n σ).inverse.apply ((ofPerm n σ).apply x) = x := by
  rw [inverse_ofPerm hn hσ, apply_ofPerm hn hσ, apply_ofPerm hn hσ.inv]
  symm
  apply eq_tab 0 hx
  intro i hi
  have hs : (σ⁻¹ : Equiv.Perm ℕ).symm i = σ i := rfl
  rw [hs, tab_getD_lt _ _ (hσ.lt hi), Equiv.symm_apply_apply]

theorem mul_apply (hn : n ≤ 2 ^ 32) {τ : Equiv.Perm ℕ} (hσ : Keeps n σ) (hτ : Keeps n τ) (x : Vec) :
    ((ofPerm n σ).mul (ofPerm n τ)).apply x = (ofPerm n σ).apply ((ofPerm n τ).apply x) := by
  rw [mul_ofPerm hn hτ, apply_ofPerm hn (hσ.mul hτ), apply_ofPerm hn hσ, apply_ofPerm hn hτ]
  refine tab_congr fun i hi => ?_
  rw [tab_getD_lt _ _ (hσ.symm_lt hi)]
  rfl

end Permutation

-- the storages of the two servers after they sent and received some of the gates of a circuit,
-- each in the order of the circuit and every gate sent before it is received
inductive Reached (conf : ProtocolConfig) (g : Streams) (circ : List (List Gate)) :
    List Gate → List Gate → Storage → Storage → Prop where
  | start {dealer s0 s1 : Storage} (hd : runDealer conf circ g = some dealer)
      (h0 : runParty conf circ g dealer .p0 = some s0)
      (h1 : runParty conf circ g dealer .p1 = some s1) : Reached conf g circ [] [] s0 s1
  | send {sent recvd rest : List Gate} {f : Gate} {d0 d1 : Storage}
      (h : Reached conf g circ sent recvd d0 d1) (ho : circ.flatten = sent ++ f :: rest)
      (hu : f.type = .unshuffle →
        ∃ x ∈ recvd, x.type = .shuffle ∧ x.shuffleIdx = f.shuffleIdx) :
      Reached conf g circ (sent ++ [f]) recvd (d0.sendCorrelation conf.size .p0 f).2
        (d1.sendCorrelation conf.size .p1 f).2
  | recv {sent recvd rest : List Gate} {f : Gate} {d0 d1 d0' d1' : Storage} {k0 k1 : Correlation}
      (h : Reached conf g circ sent recvd d0 d1) (ho : circ.flatten = recvd ++ f :: rest)
      (hf : f ∈ sent) (h0 : d0.recvCorrelation conf.size .p0 f = some (k0, d0'))
      (h1 : d1.recvCorrelation conf.size .p1 f = some (k1, d1')) :
      Reached conf g circ sent (recvd ++ [f]) d0' d1'

section consistency

variable {conf : ProtocolConfig} {g : Streams} {circ : List (List Gate)} {order : List Gate}
  {sent recvd rest : List Gate} {f : Gate} {d0 d1 : Storage}

theorem runDealer_dealerAt (conf : ProtocolConfig) (circ : List (List Gate)) (g : Streams) :
    runDealer conf circ g = some (dealerAt conf g circ.flatten) := runDealer_eq conf circ g

theorem Reached.stocked (h : Dealable conf circ.flatten) : ∃ s0 s1 recv,
    runParty conf circ g (dealerAt conf g circ.flatten) .p0 = some s0 ∧
    runParty conf circ g (dealerAt conf g circ.flatten) .p1 = some s1 ∧
    Prepared conf g circ.flatten circ.flatten ⟨s0, recv⟩ ⟨s1, recv⟩ ∧
    ∀ sent recvd d0 d1, Reached conf g circ sent recvd d0 d1 →
      Stocked conf g circ.flatten s0 s1 sent recvd d0 d1 := by
  obtain ⟨s0, s1, recv, e0, e1, hp⟩ := runParty_prepared (g := g) h rfl
  refine ⟨s0, s1, recv, e0, e1, hp, fun sent recvd d0 d1 hr => ?_⟩
  induction hr with
  | start hd h0 h1 =>
    rw [runDealer_dealerAt, Option.some.injEq] at hd
    subst hd
    rw [e0, Option.some.injEq] at h0
    rw [e1, Option.some.injEq] at h1
    subst h0 h1
    exact hp.stocked
  | send _ ho hu ih =>
    obtain ⟨d0', d1', h0, h1, hs⟩ := ih.send h ho hu
    rwa [h0, h1]
  | recv _ ho hf h0 h1 ih =>
    obtain ⟨d0', d1', h0', h1', hs⟩ := ih.recv h ho hf
    rw [h0, Option.some.injEq, Prod.mk.injEq] at h0'
    rw [h1, Option.some.injEq, Prod.mk.injEq] at h1'
    rwa [h0'.2, h1'.2]

theorem Reached.mem_order (h : Reached conf g circ sent recvd d0 d1) :
    ∀ x ∈ sent, x ∈ circ.flatten := by
  induction h with
  | start => simp
  | @send sent recvd rest f _ _ _ ho _ ih =>
    intro x hx
    rcases List.mem_append.mp hx with hx | hx
    · exact ih x hx
    · rw [List.mem_singleton.mp hx, ho]
      simp
  | recv _ _ _ _ _ ih => exact ih

def Gate.permutes (f : Gate) : Prop :=
  f.type = .shuffle ∨ f.type = .mergedShuffle ∨ f.type = .unshuffle

-- both servers evaluate one gate on shares x0 and x1: it is sent from the storages d0 and d1 and
-- received with the storages e0 and e1
def evaluateShares (conf : ProtocolConfig) (f : Gate) (d0 d1 e0 e1 : Storage) (x0 x1 : Vec) :
    Option (Vec × Vec) := do
  let m0 ← message conf .p0 f (d0.sendCorrelation conf.size .p0 f).1 fun _ => x0
  let m1 ← message conf .p1 f (d1.sendCorrelation conf.size .p1 f).1 fun _ => x1
  let (k0, _) ← e0.recvCorrelation conf.size .p0 f
  let (k1, _) ← e1.recvCorrelation conf.size .p1 f
  let o0 ← gateOutput conf .p0 (fun _ => []) f k0 (m0.receive m1.dataSend) fun _ => x0
  let o1 ← gateOutput conf .p1 (fun _ => []) f k1 (m1.receive m0.dataSend) fun _ => x1
  some (o0, o1)

def dealerPi (dealer : Storage) (idx : ℕ) : Permutation := (dealer.pi0 idx).mul (dealer.pi1 idx)

def permuted (dealer : Storage) (f : Gate) (x : Vec) : Vec :=
  match f.type with
  | .shuffle => (dealerPi dealer f.shuffleIdx).apply x
  | .mergedShuffle =>
    (dealerPi dealer f.omegaIdx).apply ((dealerPi dealer f.piIdx).inverse.apply x)
  | _ => (dealerPi dealer f.shuffleIdx).inverse.apply x

structure ConsistentShuffles (conf : ProtocolConfig) (g : Streams) (circ : List (List Gate))
    (dealer : Storage) : Prop where
  prepares : ∃ s0 s1, runParty conf circ g dealer .p0 = some s0 ∧
    runParty conf circ g dealer .p1 = some s1
  progress : ∀ sent recvd rest f d0 d1, Reached conf g circ sent recvd d0 d1 →
    circ.flatten = recvd ++ f :: rest → f ∈ sent →
      (d0.recvCorrelation conf.size .p0 f).isSome ∧ (d1.recvCorrelation conf.size .p1 f).isSome
  sums : ∀ sent recvd sent' rest f d0 d1 e0 e1, Reached conf g circ sent recvd d0 d1 →
    Reached conf g circ sent' sent e0 e1 → circ.flatten = sent ++ f :: rest → f ∈ sent' →
    (f.type = .unshuffle → ∃ x ∈ recvd, x.type = .shuffle ∧ x.shuffleIdx = f.shuffleIdx) →
    f.permutes → ∀ x0 x1 : Vec, x0.length = conf.size → x1.length = conf.size →
      ∃ o0 o1, evaluateShares conf f d0 d1 e0 e1 x0 x1 = some (o0, o1) ∧
        o0.length = conf.size ∧ o1.length = conf.size ∧
        List.zipWith (· + ·) o0 o1 = permuted dealer f (List.zipWith (· + ·) x0 x1)
  restores : ∀ f ∈ circ.flatten, f.type = .shuffle → ∀ x : Vec, x.length = conf.size →
    (dealerPi dealer f.shuffleIdx).inverse.apply ((dealerPi dealer f.shuffleIdx).apply x) = x
  derived : ∀ sent recvd d0 d1, Reached conf g circ sent recvd d0 d1 → ∀ f ∈ recvd,
    f.type = .shuffle ∨ f.type = .mergedShuffle →
      (d1.pi1p f.shuffleIdx).mul (d0.pi0p f.shuffleIdx) = dealerPi dealer f.shuffleIdx ∧
      (d0.pi0 f.shuffleIdx).mul (d1.pi1 f.shuffleIdx) = dealerPi dealer f.shuffleIdx
  merged : ∀ f ∈ circ.flatten, f.type = .mergedShuffle → dealerPi dealer f.shuffleIdx =
    (dealerPi dealer f.omegaIdx).mul (dealerPi dealer f.piIdx).inverse

theorem dealerPi_eq (h : Dealable conf order) {idx : ℕ} (hd : dealt order idx = true) :
    dealerPi (dealerAt conf g order) idx = ofPerm conf.size (deal conf g order idx).pi := by
  have ht := tables (g := g) h order [] (List.append_nil _).symm
  have h0 := ht.pi0 idx
  have h1 := ht.pi1 idx
  rw [hd, if_pos rfl] at h0 h1
  rw [dealerPi, dealerAt, h0, h1, mul_ofPerm conf.size_le (deal conf g order idx).pi1_keeps]
  rfl

theorem dealt_of_mem {l : List Gate} (hf : f ∈ l) (ht : f.type = .shuffle ∨ f.type = .mergedShuffle) :
    dealt l f.shuffleIdx = true := dealt_iff.mpr ⟨f, hf, deals_iff.mpr ⟨ht, rfl⟩⟩

theorem dealt_operands (h : Dealable conf order) (hf : f ∈ order) (ht : f.type = .mergedShuffle) :
    dealt order f.piIdx = true ∧ dealt order f.omegaIdx = true := by
  obtain ⟨l, r, ho⟩ := List.append_of_mem hf
  obtain ⟨⟨p, hp, hpt, hpi⟩, ⟨o, hom, hot, homega⟩⟩ := h.merged l f r ho ht
  rw [← hpi, ← homega, ho]
  exact ⟨dealt_of_mem (List.mem_append_left _ hp) (Or.inl hpt),
    dealt_of_mem (List.mem_append_left _ hom) (Or.inl hot)⟩

theorem dealt_unshuffle (h : Dealable conf order) (hf : f ∈ order) (ht : f.type = .unshuffle) :
    dealt order f.shuffleIdx = true := by
  obtain ⟨l, r, ho⟩ := List.append_of_mem hf
  obtain ⟨x, hx, hxt, hxi⟩ := h.shuffled l f r ho ht
  rw [← hxi, ho]
  exact dealt_of_mem (List.mem_append_left _ hx) (Or.inl hxt)

theorem permuted_eq (h : Dealable conf order) (hf : f ∈ order) (hp : f.permutes) (x : Vec) :
    permuted (dealerAt conf g order) f x =
      (ofPerm conf.size (if f.type = .unshuffle then (deal conf g order f.shuffleIdx).pi⁻¹
        else (deal conf g order f.shuffleIdx).pi)).apply x := by
  have hk := fun idx => (deal conf g order idx).pi_keeps
  rcases hp with ht | ht | ht
  · simp only [permuted, ht, reduceCtorEq, if_false, dealerPi_eq h (dealt_of_mem hf (Or.inl ht))]
  · obtain ⟨hpi, homega⟩ := dealt_operands h hf ht
    have hm := deal_pi (g := g) h hf (Or.inr ht)
    rw [gatePerm, if_pos ht] at hm
    simp only [permuted, ht, reduceCtorEq, if_false, dealerPi_eq h hpi, dealerPi_eq h homega, hm]
    rw [inverse_ofPerm conf.size_le (hk _), ← mul_apply conf.size_le (hk _) (hk _).inv,
      mul_ofPerm conf.size_le (hk _).inv]
  · simp only [permuted, ht, if_true, dealerPi_eq h (dealt_unshuffle h hf ht),
      inverse_ofPerm conf.size_le (hk _)]

-- the gate with wires of its own, so that its operand and its result are different ones
def Gate.detached (f : Gate) : Gate := { f with in1Idx := 1, outIdx := 0 }

theorem message_detached (hp : f.permutes) (id : Party) (k : Correlation) (x : Vec) :
    message conf id f.detached k (fun _ => x) = message conf id f k fun _ => x := by
  rcases hp with ht | ht | ht <;> simp only [message, Gate.detached, ht]

theorem gateOutput_detached (hp : f.permutes) (id : Party) (k : Correlation) (t : Message)
    (inp w : ℕ → Vec) : gateOutput conf id inp f.detached k t w =
      gateOutput conf id inp f k t w := by
  rcases hp with ht | ht | ht <;> simp only [gateOutput, Gate.detached, ht]

theorem negate_detached (hp : f.permutes) (id : Party) (w : ℕ → Vec) :
    negateWires id f.detached w = w := by
  apply negateWires_of_ne
  rcases hp with ht | ht | ht <;> simp [Gate.detached, ht]

theorem evaluateShares_sums {c : GateCorrelations} {e0 e1 d0' d1' : Storage} {x0 x1 : Vec}
    (hp : f.permutes) (hs0 : (d0.sendCorrelation conf.size .p0 f).1 = c.send0)
    (hs1 : (d1.sendCorrelation conf.size .p1 f).1 = c.send1)
    (hr0 : e0.recvCorrelation conf.size .p0 f = some (c.recv0, d0'))
    (hr1 : e1.recvCorrelation conf.size .p1 f = some (c.recv1, d1'))
    (h0 : x0.length = conf.size) (h1 : x1.length = conf.size) {π : Equiv.Perm ℕ}
    (hπ : ∃ q : SharedPerm conf.size,
      (f.type ≠ .unshuffle ∧ q.pi = π ∧ ShuffleDealt conf.size q c) ∨
      (f.type = .unshuffle ∧ q.pi⁻¹ = π ∧ UnshuffleDealt conf.size q c)) :
    ∃ o0 o1, evaluateShares conf f d0 d1 e0 e1 x0 x1 = some (o0, o1) ∧
      o0.length = conf.size ∧ o1.length = conf.size ∧
      List.zipWith (· + ·) o0 o1 = tab conf.size fun i =>
        (List.zipWith (· + ·) x0 x1).getD (π.symm i) 0 := by
  let result := tab conf.size fun i => (List.zipWith (· + ·) x0 x1).getD (π.symm i) 0
  let v : ℕ → Vec := fun w => if w = 0 then result else List.zipWith (· + ·) x0 x1
  have hsh : Shares x0 x1 (v f.detached.in1Idx) := shares_zipWith (h0.trans h1.symm)
  have hlen : conf.size ≤ (v f.detached.in1Idx).length := by
    rw [← hsh.left, h0]
  have hsends : Sends conf (fun _ => []) (fun _ => []) (fun _ => .add) v f.detached c
      (fun _ => x0) fun _ => x1 := by
    obtain ⟨q, ⟨hne, rfl, hq⟩ | ⟨ht, rfl, hq⟩⟩ := hπ
    · exact sends_shuffle (f := f.detached) (hp.imp_right fun h => h.resolve_right hne) hsh hlen rfl q
        hq rfl
    · exact sends_unshuffle (f := f.detached) ht hsh hlen rfl q hq rfl
  obtain ⟨m0, m1, hm0, hm1, hpr⟩ := hsends
  rw [negate_detached hp, message_detached hp] at hm0 hm1
  have hlocal : ¬ f.detached.isLocal := by
    rcases hp with ht | ht | ht <;> simp [Gate.isLocal, Gate.interactive, Gate.detached, ht]
  obtain ⟨o0, o1, ho0, ho1, hrel⟩ := hpr.delivers (fun _ => x0) (fun _ => x1)
    ⟨fun hl => absurd hl hlocal, fun _ => ⟨rfl, rfl⟩⟩
  rw [gateOutput_detached hp] at ho0 ho1
  have hrel' : Shares o0 o1 result := hrel
  refine ⟨o0, o1, ?_, hrel'.left.trans (tab_length ..), hrel'.right.trans (tab_length ..),
    zipWith_shares hrel'⟩
  simp only [evaluateShares, hs0, hs1, hm0, hm1, hr0, hr1, ho0, ho1, Option.bind_eq_bind,
    Option.bind_some]

theorem permIf_mul {q : SharedPerm conf.size} :
    (permIf conf.size true q.pi1p).mul (permIf conf.size true q.pi0p) = ofPerm conf.size q.pi ∧
      (permIf conf.size true q.pi0).mul (permIf conf.size true q.pi1) = ofPerm conf.size q.pi := by
  simp only [permIf, if_true, mul_ofPerm conf.size_le q.pi0p_keeps,
    mul_ofPerm conf.size_le q.pi1_keeps]
  exact ⟨congrArg (ofPerm conf.size) q.consistent.symm, rfl⟩

theorem correlations_dealt {recv : Party} {s0 s1 : Storage} (h : Dealable conf order)
    (hp : Prepared conf g order order ⟨s0, recv⟩ ⟨s1, recv⟩) (hf : f ∈ order)
    (hperm : f.permutes) : ∃ q : SharedPerm conf.size,
      (f.type ≠ .unshuffle ∧ q.pi = (deal conf g order f.shuffleIdx).pi ∧
        ShuffleDealt conf.size q (correlations conf g order s0 s1 f)) ∨
      (f.type = .unshuffle ∧ q.pi⁻¹ = (deal conf g order f.shuffleIdx).pi⁻¹ ∧
        UnshuffleDealt conf.size q (correlations conf g order s0 s1 f)) := by
  have hc := correlations_correlated h hp hf
  rcases hperm with ht | ht | ht
  · simp only [Correlated, ht] at hc
    obtain ⟨q, hq, hd⟩ := hc
    exact ⟨q, Or.inl ⟨by simp [ht], hq.trans (deal_pi h hf (Or.inl ht)).symm, hd⟩⟩
  · simp only [Correlated, ht] at hc
    obtain ⟨q, hq, hd⟩ := hc
    exact ⟨q, Or.inl ⟨by simp [ht], hq.trans (deal_pi h hf (Or.inr ht)).symm, hd⟩⟩
  · simp only [Correlated, ht] at hc
    obtain ⟨q, hq, hd⟩ := hc
    rw [gatePerm, if_neg (by simp [ht])] at hq
    exact ⟨q, Or.inr ⟨ht, congrArg _ hq, hd⟩⟩

theorem shuffles_consistent (h : Dealable conf circ.flatten) (g : Streams) :
    ∃ dealer, runDealer conf circ g = some dealer ∧ ConsistentShuffles conf g circ dealer := by
  obtain ⟨s0, s1, recv, e0, e1, hp, hstock⟩ := Reached.stocked (g := g) h
  have hkeeps := fun idx => (deal conf g circ.flatten idx).pi_keeps
  refine ⟨_, runDealer_dealerAt conf circ g, ⟨s0, s1, e0, e1⟩, ?_, ?_, ?_, ?_, ?_⟩
  · intro sent recvd rest f d0 d1 hr ho hf
    obtain ⟨_, _, h0, h1, -⟩ := (hstock _ _ _ _ hr).recv h ho hf
    rw [h0, h1]
    exact ⟨rfl, rfl⟩
  · intro sent recvd sent' rest f d0 d1 e0 e1 hs hr ho hf hu hperm x0 x1 h0 h1
    have hmem : f ∈ circ.flatten := by rw [ho]; simp
    obtain ⟨_, _, hs0, hs1, -⟩ := (hstock _ _ _ _ hs).send h ho hu
    obtain ⟨_, _, hr0, hr1, -⟩ := (hstock _ _ _ _ hr).recv h ho hf
    obtain ⟨q, hq⟩ := correlations_dealt h hp hmem hperm
    have hπ := permuted_eq (g := g) h hmem hperm (List.zipWith (· + ·) x0 x1)
    by_cases ht : f.type = .unshuffle
    · rw [if_pos ht, apply_ofPerm conf.size_le (hkeeps _).inv] at hπ
      rw [hπ]
      exact evaluateShares_sums hperm (by rw [hs0]) (by rw [hs1]) hr0 hr1 h0 h1
        ⟨q, hq.imp_left fun hc => absurd ht hc.1⟩
    · rw [if_neg ht, apply_ofPerm conf.size_le (hkeeps _)] at hπ
      rw [hπ]
      exact evaluateShares_sums hperm (by rw [hs0]) (by rw [hs1]) hr0 hr1 h0 h1
        ⟨q, hq.imp_right fun hc => absurd hc.1 ht⟩
  · intro f hf ht x hx
    rw [dealerPi_eq h (dealt_of_mem hf (Or.inl ht))]
    exact inverse_apply_apply conf.size_le (hkeeps _) hx
  · intro sent recvd d0 d1 hr f hf ht
    have hs := hstock _ _ _ _ hr
    have hd := dealt_of_mem hf ht
    have hd' := dealt_of_mem (hs.kept f hf) ht
    have hmem : f ∈ circ.flatten := hr.mem_order f (hs.kept f hf)
    rw [hs.pi1p, hs.pi0p, hs.pi0, hs.pi1, hd, hd', Bool.or_true, Bool.or_true, Bool.or_true,
      dealerPi_eq h (dealt_of_mem hmem ht)]
    exact permIf_mul
  · intro f hf ht
    obtain ⟨hpi, homega⟩ := dealt_operands h hf ht
    have hm := deal_pi (g := g) h hf (Or.inr ht)
    rw [gatePerm, if_pos ht] at hm
    rw [dealerPi_eq h (dealt_of_mem hf (Or.inr ht)), dealerPi_eq h hpi, dealerPi_eq h homega, hm,
      inverse_ofPerm conf.size_le (hkeeps _), mul_ofPerm conf.size_le (hkeeps _).inv]

theorem split_at {p : List Gate → Gate → Prop}
    (h : ∀ i (hi : i < order.length), p (order.take i) order[i]) {l r : List Gate}
    (ho : order = l ++ f :: r) : p l f := by
  subst ho
  have := h l.length (by simp)
  simpa using this

def shuffleCircuit : List (List Gate) :=
  [[{ type := .shuffle, gId := 0, in1Idx := 0, outIdx := 1, shuffleIdx := 0 },
    { type := .shuffle, gId := 1, in1Idx := 0, outIdx := 2, shuffleIdx := 1 },
    { type := .shuffle, gId := 2, in1Idx := 0, outIdx := 3, shuffleIdx := 0 }],
   [{ type := .mergedShuffle, gId := 3, in1Idx := 1, outIdx := 4, shuffleIdx := 2, piIdx := 0,
      omegaIdx := 1 },
    { type := .unshuffle, gId := 4, in1Idx := 3, outIdx := 5, shuffleIdx := 0 }],
   [{ type := .unshuffle, gId := 5, in1Idx := 4, outIdx := 6, shuffleIdx := 1 }]]

theorem shuffleCircuit_dealable (conf : ProtocolConfig) :
    Dealable conf shuffleCircuit.flatten where
  nodup := by decide
  shuffled l f r ho := split_at (p := fun l f => f.type = .unshuffle →
    ∃ g ∈ l, g.type = .shuffle ∧ g.shuffleIdx = f.shuffleIdx) (by decide) ho
  merged l f r ho := split_at (p := fun l f => f.type = .mergedShuffle →
    (∃ g ∈ l, g.type = .shuffle ∧ g.shuffleIdx = f.piIdx) ∧
      ∃ g ∈ l, g.type = .shuffle ∧ g.shuffleIdx = f.omegaIdx) (by decide) ho
  separate := by decide
  same := by decide
  triples := by decide

def countingStreams : Streams :=
  let g : PRG := ⟨BitVec.ofNat 64, 0⟩
  ⟨g, g, g, g, g, g, g, g, g⟩

theorem shuffles_consistent_three :
    ∃ dealer, runDealer ⟨3, 2, 0, 1, by decide⟩ shuffleCircuit countingStreams = some dealer ∧
      ConsistentShuffles ⟨3, 2, 0, 1, by decide⟩ countingStreams shuffleCircuit dealer :=
  shuffles_consistent (shuffleCircuit_dealable _) _

end consistency

end GraphMpc
