import GraphMpc.Simulation
import Mathlib.Tactic.Group

namespace GraphMpc

open Tabulate Permutation Preprocessor

section randomness

variable {n : ℕ}

noncomputable def randomPerm (n : ℕ) (g : PRG) : Equiv.Perm ℕ := (random_ofPerm n g).choose

theorem randomPerm_keeps (n : ℕ) (g : PRG) : Keeps n (randomPerm n g) :=
  (random_ofPerm n g).choose_spec.1

theorem random_fst (n : ℕ) (g : PRG) : (random n g).1 = ofPerm n (randomPerm n g) :=
  (random_ofPerm n g).choose_spec.2

noncomputable def SharedPerm.toP1 (n : ℕ) (r : RandomGenerators) : SharedPerm n where
  pi0 := randomPerm n r.withP0Recv
  pi1 := randomPerm n r.withP1Send
  pi0p := randomPerm n r.withP0Send
  pi1p := randomPerm n r.withP0Recv * randomPerm n r.withP1Send * (randomPerm n r.withP0Send)⁻¹
  pi0_keeps := randomPerm_keeps _ _
  pi1_keeps := randomPerm_keeps _ _
  pi0p_keeps := randomPerm_keeps _ _
  pi1p_keeps := ((randomPerm_keeps _ _).mul (randomPerm_keeps _ _)).mul (randomPerm_keeps _ _).inv
  consistent := by group

noncomputable def SharedPerm.toP0 (n : ℕ) (r : RandomGenerators) : SharedPerm n where
  pi0 := randomPerm n r.withP0Recv
  pi1 := randomPerm n r.withP1Send
  pi0p := (randomPerm n r.withP1Recv)⁻¹ * randomPerm n r.withP0Recv * randomPerm n r.withP1Send
  pi1p := randomPerm n r.withP1Recv
  pi0_keeps := randomPerm_keeps _ _
  pi1_keeps := randomPerm_keeps _ _
  pi0p_keeps := ((randomPerm_keeps _ _).inv.mul (randomPerm_keeps _ _)).mul (randomPerm_keeps _ _)
  pi1p_keeps := randomPerm_keeps _ _
  consistent := by group

noncomputable def SharedPerm.merged (n : ℕ) (r : RandomGenerators) (pi omega : SharedPerm n) :
    SharedPerm n where
  pi0 := randomPerm n r.withP0Recv
  pi1 := (randomPerm n r.withP0Recv)⁻¹ * (omega.pi * pi.pi⁻¹)
  pi0p := (randomPerm n r.withP1Recv)⁻¹ * (omega.pi * pi.pi⁻¹)
  pi1p := randomPerm n r.withP1Recv
  pi0_keeps := randomPerm_keeps _ _
  pi1_keeps := (randomPerm_keeps _ _).inv.mul (omega.pi_keeps.mul pi.pi_keeps.inv)
  pi0p_keeps := (randomPerm_keeps _ _).inv.mul (omega.pi_keeps.mul pi.pi_keeps.inv)
  pi1p_keeps := randomPerm_keeps _ _
  consistent := by group

theorem SharedPerm.merged_pi (n : ℕ) (r : RandomGenerators) (pi omega : SharedPerm n) :
    (SharedPerm.merged n r pi omega).pi = omega.pi * pi.pi⁻¹ := by
  simp only [SharedPerm.pi, SharedPerm.merged]
  group

end randomness

namespace Gate

def deals (idx : ℕ) (f : Gate) : Bool :=
  (f.type = .shuffle ∨ f.type = .mergedShuffle) ∧ f.shuffleIdx = idx

def takesTriple (f : Gate) : Bool :=
  match f.type with
  | .compaction | .mulSIMD | .eqz | .bit2A => true
  | _ => false

def tripleLen (conf : ProtocolConfig) (f : Gate) : ℕ :=
  if f.type = .compaction then conf.size else f.size

end Gate

def dealt (l : List Gate) (idx : ℕ) : Bool := l.any (Gate.deals idx)

structure Dealable (conf : ProtocolConfig) (order : List Gate) : Prop where
  nodup : order.Nodup
  shuffled : ∀ l f r, order = l ++ f :: r → f.type = .unshuffle →
    ∃ g ∈ l, g.type = .shuffle ∧ g.shuffleIdx = f.shuffleIdx
  merged : ∀ l f r, order = l ++ f :: r → f.type = .mergedShuffle →
    (∃ g ∈ l, g.type = .shuffle ∧ g.shuffleIdx = f.piIdx) ∧
      ∃ g ∈ l, g.type = .shuffle ∧ g.shuffleIdx = f.omegaIdx
  separate : ∀ f ∈ order, ∀ g ∈ order, f.type = .shuffle → g.type = .mergedShuffle →
    f.shuffleIdx ≠ g.shuffleIdx
  same : ∀ f ∈ order, ∀ g ∈ order, f.type = .mergedShuffle → g.type = .mergedShuffle →
    f.shuffleIdx = g.shuffleIdx → f.piIdx = g.piIdx ∧ f.omegaIdx = g.omegaIdx
  triples : order.Pairwise fun f g => f.takesTriple = true → g.takesTriple = true →
    f.multIdx ≠ g.multIdx

def dealGate (size : ℕ) (p : Preprocessor) (f : Gate) : Preprocessor :=
  (preprocessGate size .d p f).getD p

def dealRun (size : ℕ) (g : Streams) (l : List Gate) : Preprocessor :=
  l.foldl (dealGate size) ⟨Storage.init (g.generators .d), .p0⟩

section dealGate

variable {size : ℕ} {p : Preprocessor} {f : Gate}

theorem preprocessGate_dealer (size : ℕ) (p : Preprocessor) (f : Gate) :
    preprocessGate size .d p f = some (dealGate size p f) := by
  unfold dealGate preprocessGate
  split <;> simp [Storage.dealTriples, Storage.randomShareSecretVec3P]

theorem runDealer_eq (conf : ProtocolConfig) (circ : List (List Gate)) (g : Streams) :
    runDealer conf circ g = some (dealRun conf.size g circ.flatten).data := by
  have hrun : ∀ (l : List Gate) (p : Preprocessor),
      l.foldlM (preprocessGate conf.size .d) p = some (l.foldl (dealGate conf.size) p) := by
    intro l
    induction l with
    | nil => intro p; rfl
    | cons f l ih =>
      intro p
      rw [List.foldlM_cons, preprocessGate_dealer, Option.bind_eq_bind, Option.bind_some, ih]
      rfl
  simp only [runDealer, preprocess, hrun, Option.bind_eq_bind, Option.bind_some, dealRun,
    Option.pure_def]

theorem dealRun_snoc (size : ℕ) (g : Streams) (l : List Gate) (f : Gate) :
    dealRun size g (l ++ [f]) = dealGate size (dealRun size g l) f := by
  simp [dealRun, List.foldl_append]

theorem dealGate_shuffle (ht : f.type = .shuffle) : dealGate size p f =
    ⟨markPreprocessed (p.data.dealShuffle size p.recv f) f.shuffleIdx, p.recv.other⟩ := by
  simp [dealGate, preprocessGate, ht]

theorem dealGate_merged (ht : f.type = .mergedShuffle) : dealGate size p f =
    ⟨markPreprocessed (p.data.dealMergedShuffle size f) f.shuffleIdx, p.recv⟩ := by
  simp [dealGate, preprocessGate, ht]

theorem dealGate_unshuffle (ht : f.type = .unshuffle) : dealGate size p f =
    ⟨p.data.dealUnshuffle size f, p.recv⟩ := by
  simp [dealGate, preprocessGate, ht]

end dealGate

section newPerms

variable {conf : ProtocolConfig}

inductive DealKind where
  | toP1
  | toP0
  | merged
  deriving DecidableEq

theorem dealPerms_toP1 (s : Storage) (idx : ℕ) : s.dealPerms conf.size .p1 idx =
    { s.storeVec .p1 (ofPerm conf.size (SharedPerm.toP1 conf.size s.rngs).pi1p).permVec with
      pi0 := Function.update s.pi0 idx (ofPerm conf.size (SharedPerm.toP1 conf.size s.rngs).pi0)
      pi1 := Function.update s.pi1 idx (ofPerm conf.size (SharedPerm.toP1 conf.size s.rngs).pi1)
      rngs := { s.rngs with
        withP0Send := (random conf.size s.rngs.withP0Send).2
        withP0Recv := (random conf.size s.rngs.withP0Recv).2
        withP1Send := (random conf.size s.rngs.withP1Send).2 } } := by
  have hp : ((random conf.size s.rngs.withP0Recv).1.mul
      (random conf.size s.rngs.withP1Send).1).mul
        (random conf.size s.rngs.withP0Send).1.inverse =
          ofPerm conf.size (SharedPerm.toP1 conf.size s.rngs).pi1p := by
    rw [random_fst, random_fst, random_fst, mul_ofPerm conf.size_le (randomPerm_keeps _ _),
      inverse_ofPerm conf.size_le (randomPerm_keeps _ _),
      mul_ofPerm conf.size_le (randomPerm_keeps _ _).inv]
    rfl
  rw [← hp]
  simp only [SharedPerm.toP1, ← random_fst]
  rfl

theorem dealPerms_toP0 (s : Storage) {recv : Party} (hr : recv ≠ .p1) (idx : ℕ) :
    s.dealPerms conf.size recv idx =
    { s.storeVec .p0 (ofPerm conf.size (SharedPerm.toP0 conf.size s.rngs).pi0p).permVec with
      pi0 := Function.update s.pi0 idx (ofPerm conf.size (SharedPerm.toP0 conf.size s.rngs).pi0)
      pi1 := Function.update s.pi1 idx (ofPerm conf.size (SharedPerm.toP0 conf.size s.rngs).pi1)
      rngs := { s.rngs with
        withP1Send := (random conf.size s.rngs.withP1Send).2
        withP1Recv := (random conf.size s.rngs.withP1Recv).2
        withP0Recv := (random conf.size s.rngs.withP0Recv).2 } } := by
  have hp : ((random conf.size s.rngs.withP1Recv).1.inverse.mul
      (random conf.size s.rngs.withP0Recv).1).mul
        (random conf.size s.rngs.withP1Send).1 =
          ofPerm conf.size (SharedPerm.toP0 conf.size s.rngs).pi0p := by
    rw [random_fst, random_fst, random_fst, inverse_ofPerm conf.size_le (randomPerm_keeps _ _),
      mul_ofPerm conf.size_le (randomPerm_keeps _ _), mul_ofPerm conf.size_le (randomPerm_keeps _ _)]
    rfl
  rw [← hp]
  simp only [SharedPerm.toP0, ← random_fst, Storage.dealPerms, if_neg hr]
  rfl

theorem dealMergedPerms_eq (s : Storage) (idx : ℕ) {piIdx omegaIdx : ℕ}
    {pi omega : SharedPerm conf.size} (hp0 : s.pi0 piIdx = ofPerm conf.size pi.pi0)
    (hp1 : s.pi1 piIdx = ofPerm conf.size pi.pi1)
    (ho0 : s.pi0 omegaIdx = ofPerm conf.size omega.pi0)
    (ho1 : s.pi1 omegaIdx = ofPerm conf.size omega.pi1) :
    s.dealMergedPerms conf.size idx piIdx omegaIdx =
    { (s.storeVec .p0 (ofPerm conf.size (SharedPerm.merged conf.size s.rngs pi omega).pi0p).permVec
        ).storeVec .p1
          (ofPerm conf.size (SharedPerm.merged conf.size s.rngs pi omega).pi1).permVec with
      pi0 := Function.update s.pi0 idx
        (ofPerm conf.size (SharedPerm.merged conf.size s.rngs pi omega).pi0)
      pi1 := Function.update s.pi1 idx
        (ofPerm conf.size (SharedPerm.merged conf.size s.rngs pi omega).pi1)
      rngs := { s.rngs with
        withP0Recv := (random conf.size s.rngs.withP0Recv).2
        withP1Recv := (random conf.size s.rngs.withP1Recv).2 } } := by
  have hm : (⟨((s.pi0 piIdx).mul (s.pi1 piIdx)).apply
      ((s.pi0 omegaIdx).mul (s.pi1 omegaIdx)).permVec⟩ : Permutation) =
        ofPerm conf.size (omega.pi * pi.pi⁻¹) := by
    rw [hp0, hp1, ho0, ho1, mul_ofPerm conf.size_le pi.pi1_keeps,
      mul_ofPerm conf.size_le omega.pi1_keeps,
      apply_ofPerm conf.size_le (pi.pi0_keeps.mul pi.pi1_keeps)]
    refine congrArg Permutation.mk (tab_congr fun i hi => ?_)
    exact tab_getD_lt _ _ (pi.pi_keeps.symm_lt hi)
  have hkeeps := omega.pi_keeps.mul pi.pi_keeps.inv
  have h0p : (random conf.size s.rngs.withP1Recv).1.inverse.mul
      (ofPerm conf.size (omega.pi * pi.pi⁻¹)) =
        ofPerm conf.size (SharedPerm.merged conf.size s.rngs pi omega).pi0p := by
    rw [random_fst, inverse_ofPerm conf.size_le (randomPerm_keeps _ _),
      mul_ofPerm conf.size_le hkeeps]
    rfl
  have h1 : (random conf.size s.rngs.withP0Recv).1.inverse.mul
      (ofPerm conf.size (omega.pi * pi.pi⁻¹)) =
        ofPerm conf.size (SharedPerm.merged conf.size s.rngs pi omega).pi1 := by
    rw [random_fst, inverse_ofPerm conf.size_le (randomPerm_keeps _ _),
      mul_ofPerm conf.size_le hkeeps]
    rfl
  have h0 : (random conf.size s.rngs.withP0Recv).1 =
      ofPerm conf.size (SharedPerm.merged conf.size s.rngs pi omega).pi0 := random_fst ..
  rw [← h0, ← h1, ← h0p, ← hm]
  rfl

end newPerms

section triples

structure TripleShares where
  a0 : Vec
  a1 : Vec
  b0 : Vec
  b1 : Vec
  c : Vec

namespace TripleShares

variable (t : TripleShares) (binary : Bool)

def rest (share : Vec) : Vec := tab t.c.length fun i =>
  if binary then t.c.getD i 0 ^^^ share.getD i 0 else t.c.getD i 0 - share.getD i 0

end TripleShares

def drawTriple (n : ℕ) (binary : Bool) (r : RandomGenerators) : TripleShares :=
  let a0 := r.withP0Prep.vec n
  let a1 := r.withP1Prep.vec n
  let b0 := (r.withP0Prep.skip n).vec n
  let b1 := (r.withP1Prep.skip n).vec n
  let a := tab n fun i => if binary then a0.getD i 0 ^^^ a1.getD i 0 else a0.getD i 0 + a1.getD i 0
  let b := tab n fun i => if binary then b0.getD i 0 ^^^ b1.getD i 0 else b0.getD i 0 + b1.getD i 0
  let c := tab n fun i => if binary then a.getD i 0 &&& b.getD i 0 else a.getD i 0 * b.getD i 0
  ⟨a0, a1, b0, b1, c⟩

def PRG.skipTwice (g : PRG) (n : ℕ) : PRG := (g.skip n).skip n

def tripleShares (n : ℕ) (binary : Bool) (recv : Party) (r : RandomGenerators) :
    Correlation × Correlation :=
  let t := drawTriple n binary r
  if recv = .p1 then
    let c0 := (r.withP0Prep.skipTwice n).vec t.c.length
    ({ a := t.a0, b := t.b0, c := c0 }, { a := t.a1, b := t.b1, c := t.rest binary c0 })
  else
    let c1 := (r.withP1Prep.skipTwice n).vec t.c.length
    ({ a := t.a0, b := t.b0, c := t.rest binary c1 }, { a := t.a1, b := t.b1, c := c1 })

theorem drawTriple_length (n : ℕ) (binary : Bool) (r : RandomGenerators) :
    (drawTriple n binary r).c.length = n := tab_length ..

theorem tripleShares_dealt (n : ℕ) (binary : Bool) (recv : Party) (r : RandomGenerators) :
    TripleDealt binary n (tripleShares n binary recv r).1 (tripleShares n binary recv r).2 := by
  have hxor : ∀ x y : Ring, x ^^^ (y ^^^ x) = y := by
    intro x y
    rw [BitVec.xor_comm y x, ← BitVec.xor_assoc, BitVec.xor_self, BitVec.zero_xor]
  by_cases hr : recv = .p1
  · simp only [tripleShares, if_pos hr, TripleShares.rest, drawTriple_length]
    refine ⟨by simp [drawTriple], by simp [drawTriple], fun i hi => ?_⟩
    cases binary
    · simp only [drawTriple, Bool.false_eq_true, if_false, tab_getD_lt _ _ hi]
      ring
    · simp only [drawTriple, if_true, tab_getD_lt _ _ hi]
      exact hxor _ _
  · simp only [tripleShares, if_neg hr, TripleShares.rest, drawTriple_length]
    refine ⟨by simp [drawTriple], by simp [drawTriple], fun i hi => ?_⟩
    cases binary
    · simp only [drawTriple, Bool.false_eq_true, if_false, tab_getD_lt _ _ hi]
      ring
    · simp only [drawTriple, if_true, tab_getD_lt _ _ hi]
      rw [BitVec.xor_comm]
      exact hxor _ _

theorem tripleShares_length (n : ℕ) (binary : Bool) (recv : Party) (r : RandomGenerators) :
    (tripleShares n binary recv r).1.c.length = n ∧
      (tripleShares n binary recv r).2.c.length = n := by
  by_cases hr : recv = .p1
  · simp [tripleShares, hr, TripleShares.rest, drawTriple_length]
  · simp [tripleShares, hr, TripleShares.rest, drawTriple_length]

end triples

namespace Storage

def masked (s : Storage) (n : ℕ) : Storage := (s.dealMasks n).2.2

def install (n : ℕ) (kind : DealKind) (q : SharedPerm n) (idx : ℕ) (s : Storage) : Storage :=
  let t := match kind with
    | .toP1 => s.storeVec .p1 (ofPerm n q.pi1p).permVec
    | .toP0 => s.storeVec .p0 (ofPerm n q.pi0p).permVec
    | .merged =>
      (s.storeVec .p0 (ofPerm n q.pi0p).permVec).storeVec .p1 (ofPerm n q.pi1).permVec
  { t with
    pi0 := Function.update s.pi0 idx (ofPerm n q.pi0)
    pi1 := Function.update s.pi1 idx (ofPerm n q.pi1)
    rngs := match kind with
      | .toP1 => { s.rngs with
          withP0Send := (random n s.rngs.withP0Send).2
          withP0Recv := (random n s.rngs.withP0Recv).2
          withP1Send := (random n s.rngs.withP1Send).2 }
      | .toP0 => { s.rngs with
          withP1Send := (random n s.rngs.withP1Send).2
          withP1Recv := (random n s.rngs.withP1Recv).2
          withP0Recv := (random n s.rngs.withP0Recv).2 }
      | .merged => { s.rngs with
          withP0Recv := (random n s.rngs.withP0Recv).2
          withP1Recv := (random n s.rngs.withP1Recv).2 } }

end Storage

section deals

variable (conf : ProtocolConfig) (g : Streams) (order : List Gate)

def before (idx : ℕ) : List Gate := order.takeWhile fun f => !f.deals idx

noncomputable def shuffleDeal (idx : ℕ) : SharedPerm conf.size :=
  let p := dealRun conf.size g (before order idx)
  if p.recv = .p1 then .toP1 conf.size (p.data.masked conf.size).rngs
  else .toP0 conf.size (p.data.masked conf.size).rngs

noncomputable def mergedDeal (f : Gate) : SharedPerm conf.size :=
  let p := dealRun conf.size g (before order f.shuffleIdx)
  .merged conf.size (p.data.masked conf.size).rngs (shuffleDeal conf g order f.piIdx)
    (shuffleDeal conf g order f.omegaIdx)

noncomputable def deal (idx : ℕ) : SharedPerm conf.size :=
  match order.find? (Gate.deals idx) with
  | some f =>
    if f.type = .mergedShuffle then mergedDeal conf g order f else shuffleDeal conf g order idx
  | none => shuffleDeal conf g order idx

def dealKind (idx : ℕ) : DealKind :=
  match order.find? (Gate.deals idx) with
  | some f =>
    if f.type = .mergedShuffle then .merged
    else if (dealRun conf.size g (before order idx)).recv = .p1 then .toP1 else .toP0
  | none => .toP1

variable {conf g order} {l r : List Gate} {f : Gate} {idx : ℕ}

theorem dealt_snoc (l : List Gate) (f : Gate) (idx : ℕ) :
    dealt (l ++ [f]) idx = (dealt l idx || f.deals idx) := by
  simp [dealt]

theorem dealt_iff : dealt l idx = true ↔ ∃ f ∈ l, f.deals idx = true := by
  simp [dealt]

theorem deals_iff : f.deals idx = true ↔
    (f.type = .shuffle ∨ f.type = .mergedShuffle) ∧ f.shuffleIdx = idx := by
  simp [Gate.deals]

theorem first_deal (ho : order = l ++ f :: r) (hd : f.deals idx = true)
    (hn : dealt l idx = false) :
    before order idx = l ∧ order.find? (Gate.deals idx) = some f := by
  have hl : ∀ h ∈ l, h.deals idx = false := by
    intro h hh
    by_contra hne
    have := dealt_iff.mpr ⟨h, hh, by simpa using hne⟩
    rw [hn] at this
    cases this
  constructor
  · rw [before, ho, List.takeWhile_append_of_pos (by simpa using hl)]
    simp [hd]
  · rw [ho, List.find?_append, List.find?_eq_none.mpr (by simpa using hl)]
    simp [hd]

theorem find_deal (hd : dealt order idx = true) :
    ∃ f ∈ order, f.deals idx = true ∧ order.find? (Gate.deals idx) = some f := by
  obtain ⟨f, hf, hfd⟩ := dealt_iff.mp hd
  cases he : order.find? (Gate.deals idx) with
  | none => exact absurd hfd (by simpa using List.find?_eq_none.mp he f hf)
  | some f' => exact ⟨f', List.mem_of_find?_eq_some he, by simpa using List.find?_some he, rfl⟩

theorem deal_of_shuffle (h : Dealable conf order) (hf : f ∈ order) (ht : f.type = .shuffle) :
    deal conf g order f.shuffleIdx = shuffleDeal conf g order f.shuffleIdx := by
  obtain ⟨f', hf', hd', he⟩ := @find_deal order f.shuffleIdx
    (dealt_iff.mpr ⟨f, hf, deals_iff.mpr ⟨Or.inl ht, rfl⟩⟩)
  obtain ⟨-, hidx⟩ := deals_iff.mp hd'
  rw [deal, he]
  exact if_neg fun hm => h.separate f hf f' hf' ht hm hidx.symm

theorem deal_pi (h : Dealable conf order) (hf : f ∈ order)
    (ht : f.type = .shuffle ∨ f.type = .mergedShuffle) :
    (deal conf g order f.shuffleIdx).pi =
      gatePerm (fun idx => (deal conf g order idx).pi) f := by
  rcases ht with ht | ht
  · rw [gatePerm, if_neg (by simp [ht])]
  · obtain ⟨f', hf', hd', he⟩ := @find_deal order f.shuffleIdx
      (dealt_iff.mpr ⟨f, hf, deals_iff.mpr ⟨Or.inr ht, rfl⟩⟩)
    obtain ⟨ht', hidx⟩ := deals_iff.mp hd'
    have hm : f'.type = .mergedShuffle :=
      ht'.resolve_left fun hs => h.separate f' hf' f hf hs ht hidx
    obtain ⟨hpi, homega⟩ := h.same f' hf' f hf hm ht hidx
    obtain ⟨l, r, ho⟩ := List.append_of_mem hf
    obtain ⟨⟨p, hp, hpt, hpi'⟩, ⟨o, hom, hot, homega'⟩⟩ := h.merged l f r ho ht
    have hmem : ∀ {x}, x ∈ l → x ∈ order := fun hx => by
      rw [ho]
      exact List.mem_append_left _ hx
    rw [gatePerm, if_pos ht, deal, he]
    simp only [if_pos hm, mergedDeal, SharedPerm.merged_pi, hpi, homega, ← hpi', ← homega',
      deal_of_shuffle h (hmem hp) hpt, deal_of_shuffle h (hmem hom) hot]

structure Tables (conf : ProtocolConfig) (g : Streams) (order l : List Gate) : Prop where
  pi0 : ∀ idx, (dealRun conf.size g l).data.pi0 idx =
    if dealt l idx then ofPerm conf.size (deal conf g order idx).pi0 else .null
  pi1 : ∀ idx, (dealRun conf.size g l).data.pi1 idx =
    if dealt l idx then ofPerm conf.size (deal conf g order idx).pi1 else .null

theorem null_size : Permutation.null.size = 0 := rfl

theorem Tables.fresh (h : Tables conf g order l) {idx : ℕ} (hn : dealt l idx = false) :
    ((dealRun conf.size g l).data.pi0 idx).size = 0 := by
  rw [h.pi0, hn]
  rfl

theorem masked_pi0 (s : Storage) (n : ℕ) : (s.masked n).pi0 = s.pi0 := rfl

theorem masked_pi1 (s : Storage) (n : ℕ) : (s.masked n).pi1 = s.pi1 := rfl

def correct (conf : ProtocolConfig) (p : Preprocessor) (pi : Permutation) (s : Storage) : Storage :=
  s.dealCorrection pi (p.data.rngs.withP0Send.vec conf.size) (p.data.rngs.withP1Send.vec conf.size)

theorem install_toP1 (s : Storage) (idx : ℕ) : s.dealPerms conf.size .p1 idx =
    s.install conf.size .toP1 (SharedPerm.toP1 conf.size s.rngs) idx := dealPerms_toP1 s idx

theorem install_toP0 (s : Storage) {recv : Party} (hr : recv ≠ .p1) (idx : ℕ) :
    s.dealPerms conf.size recv idx =
      s.install conf.size .toP0 (SharedPerm.toP0 conf.size s.rngs) idx := dealPerms_toP0 s hr idx

theorem dealShuffle_eq (s : Storage) (size : ℕ) (recv : Party) (f : Gate) {t : Storage}
    (ht : (if (s.pi0 f.shuffleIdx).size = 0 then
      (s.masked size).dealPerms size recv f.shuffleIdx else s.masked size) = t) :
    s.dealShuffle size recv f = t.dealCorrection ((t.pi0 f.shuffleIdx).mul (t.pi1 f.shuffleIdx))
      (s.rngs.withP0Send.vec size) (s.rngs.withP1Send.vec size) := by
  subst ht
  rfl

theorem dealMergedShuffle_eq (s : Storage) (size : ℕ) (f : Gate) {t : Storage}
    (ht : (if (s.pi0 f.shuffleIdx).size = 0 then
      (s.masked size).dealMergedPerms size f.shuffleIdx f.piIdx f.omegaIdx
        else s.masked size) = t) :
    s.dealMergedShuffle size f = t.dealCorrection ((t.pi0 f.shuffleIdx).mul (t.pi1 f.shuffleIdx))
      (s.rngs.withP0Send.vec size) (s.rngs.withP1Send.vec size) := by
  subst ht
  rfl

theorem ofPerm_zero {n : ℕ} (hn : n = 0) (σ : Equiv.Perm ℕ) : ofPerm n σ = .null := by
  subst hn
  rfl

theorem storeVec_nil (s : Storage) (dst : Party) : s.storeVec dst [] = s := by
  rw [Storage.storeVec, List.append_nil, Function.update_eq_self]

theorem dealPerms_zero {s : Storage} {idx : ℕ} (h0 : s.pi0 idx = .null) (h1 : s.pi1 idx = .null)
    (recv : Party) : s.dealPerms 0 recv idx = s := by
  have hu0 : Function.update s.pi0 idx .null = s.pi0 := by rw [← h0, Function.update_eq_self]
  have hu1 : Function.update s.pi1 idx .null = s.pi1 := by rw [← h1, Function.update_eq_self]
  have hs : ∀ dst, { s.storeVec dst [] with
      pi0 := Function.update s.pi0 idx .null
      pi1 := Function.update s.pi1 idx .null } = s := fun dst => by
    rw [hu0, hu1]
    exact storeVec_nil s dst
  rw [Storage.dealPerms]
  split
  · exact hs .p1
  · exact hs .p0

theorem dealMergedPerms_zero {s : Storage} {idx : ℕ} (h0 : s.pi0 idx = .null)
    (h1 : s.pi1 idx = .null) (piIdx omegaIdx : ℕ) : s.dealMergedPerms 0 idx piIdx omegaIdx = s := by
  have hu0 : Function.update s.pi0 idx .null = s.pi0 := by rw [← h0, Function.update_eq_self]
  have hu1 : Function.update s.pi1 idx .null = s.pi1 := by rw [← h1, Function.update_eq_self]
  have hs : { (s.storeVec .p0 []).storeVec .p1 [] with
      pi0 := Function.update s.pi0 idx .null
      pi1 := Function.update s.pi1 idx .null } = s := by
    rw [hu0, hu1, storeVec_nil, storeVec_nil]
  exact hs

theorem install_tables (n : ℕ) (kind : DealKind) (q : SharedPerm n) (idx : ℕ) (s : Storage) :
    (s.install n kind q idx).pi0 = Function.update s.pi0 idx (ofPerm n q.pi0) ∧
      (s.install n kind q idx).pi1 = Function.update s.pi1 idx (ofPerm n q.pi1) := ⟨rfl, rfl⟩

theorem deal_step (h : Dealable conf order) (ho : order = l ++ f :: r) (ht : Tables conf g order l)
    (hd : f.deals idx = true) : (dealGate conf.size (dealRun conf.size g l) f).data =
      markPreprocessed (correct conf (dealRun conf.size g l)
        (ofPerm conf.size (deal conf g order idx).pi)
        (if dealt l idx then (dealRun conf.size g l).data.masked conf.size
          else ((dealRun conf.size g l).data.masked conf.size).install conf.size
            (dealKind conf g order idx) (deal conf g order idx) idx)) idx := by
  obtain ⟨htype, hidx⟩ := deals_iff.mp hd
  subst hidx
  have hmul : (ofPerm conf.size (deal conf g order f.shuffleIdx).pi0).mul
      (ofPerm conf.size (deal conf g order f.shuffleIdx).pi1) =
        ofPerm conf.size (deal conf g order f.shuffleIdx).pi :=
    mul_ofPerm conf.size_le (deal conf g order f.shuffleIdx).pi1_keeps
  cases hn : dealt l f.shuffleIdx with
  | true =>
    have h0 := ht.pi0 f.shuffleIdx
    have h1 := ht.pi1 f.shuffleIdx
    rw [hn, if_pos rfl] at h0 h1
    -- a second deal happens only for permutations of no elements
    have hnull : ((dealRun conf.size g l).data.pi0 f.shuffleIdx).size = 0 → conf.size = 0 ∧
        ((dealRun conf.size g l).data.masked conf.size).pi0 f.shuffleIdx = .null ∧
        ((dealRun conf.size g l).data.masked conf.size).pi1 f.shuffleIdx = .null := by
      intro hz
      rw [h0, ofPerm_size] at hz
      rw [masked_pi0, masked_pi1, h0, h1]
      exact ⟨hz, ofPerm_zero hz _, ofPerm_zero hz _⟩
    rw [if_pos rfl, ← hmul, ← h0, ← h1]
    rcases htype with hs | hm
    · have hkeep : (if ((dealRun conf.size g l).data.pi0 f.shuffleIdx).size = 0 then
          ((dealRun conf.size g l).data.masked conf.size).dealPerms conf.size
            (dealRun conf.size g l).recv f.shuffleIdx
          else (dealRun conf.size g l).data.masked conf.size) =
            (dealRun conf.size g l).data.masked conf.size := by
        split
        · rename_i hz
          obtain ⟨hsz, hp0, hp1⟩ := hnull hz
          have := dealPerms_zero hp0 hp1 (dealRun conf.size g l).recv
          rwa [← hsz] at this
        · rfl
      rw [dealGate_shuffle hs, dealShuffle_eq _ _ _ _ hkeep]
      rfl
    · have hkeep : (if ((dealRun conf.size g l).data.pi0 f.shuffleIdx).size = 0 then
          ((dealRun conf.size g l).data.masked conf.size).dealMergedPerms conf.size
            f.shuffleIdx f.piIdx f.omegaIdx
          else (dealRun conf.size g l).data.masked conf.size) =
            (dealRun conf.size g l).data.masked conf.size := by
        split
        · rename_i hz
          obtain ⟨hsz, hp0, hp1⟩ := hnull hz
          have := dealMergedPerms_zero hp0 hp1 f.piIdx f.omegaIdx
          rwa [← hsz] at this
        · rfl
      rw [dealGate_merged hm, dealMergedShuffle_eq _ _ _ hkeep]
      rfl
  | false =>
    have hz : ((dealRun conf.size g l).data.pi0 f.shuffleIdx).size = 0 :=
      ht.fresh hn
    obtain ⟨hb, hf⟩ := first_deal ho hd hn
    have hinstall : ∀ t : Storage, t = ((dealRun conf.size g l).data.masked conf.size).install
        conf.size (dealKind conf g order f.shuffleIdx) (deal conf g order f.shuffleIdx)
          f.shuffleIdx → t.dealCorrection ((t.pi0 f.shuffleIdx).mul (t.pi1 f.shuffleIdx))
            ((dealRun conf.size g l).data.rngs.withP0Send.vec conf.size)
            ((dealRun conf.size g l).data.rngs.withP1Send.vec conf.size) =
          correct conf (dealRun conf.size g l)
            (ofPerm conf.size (deal conf g order f.shuffleIdx).pi) t := by
      rintro t rfl
      rw [(install_tables ..).1, (install_tables ..).2, Function.update_self, Function.update_self,
        hmul]
      rfl
    rw [if_neg (by decide)]
    rcases htype with hs | hm
    · have hnm : ¬ f.type = .mergedShuffle := by simp [hs]
      rw [dealGate_shuffle hs, dealShuffle_eq _ _ _ _ (if_pos hz)]
      refine congrArg (markPreprocessed · f.shuffleIdx) ?_
      have hi : ((dealRun conf.size g l).data.masked conf.size).dealPerms conf.size
          (dealRun conf.size g l).recv f.shuffleIdx =
            ((dealRun conf.size g l).data.masked conf.size).install conf.size
              (dealKind conf g order f.shuffleIdx) (deal conf g order f.shuffleIdx)
                f.shuffleIdx := by
        simp only [deal, dealKind, hf, if_neg hnm, shuffleDeal, hb]
        by_cases hr : (dealRun conf.size g l).recv = .p1
        · simp only [if_pos hr]
          rw [hr, install_toP1]
        · simp only [if_neg hr]
          rw [install_toP0 _ hr]
      rw [hinstall _ hi, hi]
    · obtain ⟨⟨p, hp, hpt, hpi⟩, ⟨o, hom, hot, homega⟩⟩ := h.merged l f r ho hm
      have hmem : ∀ {x}, x ∈ l → x ∈ order := fun hx => by
        rw [ho]
        exact List.mem_append_left _ hx
      have htab : ∀ {x : Gate}, x ∈ l → x.type = .shuffle →
          (dealRun conf.size g l).data.pi0 x.shuffleIdx =
            ofPerm conf.size (shuffleDeal conf g order x.shuffleIdx).pi0 ∧
          (dealRun conf.size g l).data.pi1 x.shuffleIdx =
            ofPerm conf.size (shuffleDeal conf g order x.shuffleIdx).pi1 := by
        intro x hx hxt
        have hxd : dealt l x.shuffleIdx = true :=
          dealt_iff.mpr ⟨x, hx, deals_iff.mpr ⟨Or.inl hxt, rfl⟩⟩
        rw [ht.pi0, ht.pi1, hxd, if_pos rfl, if_pos rfl, deal_of_shuffle h (hmem hx) hxt]
        exact ⟨rfl, rfl⟩
      obtain ⟨hp0, hp1⟩ := htab hp hpt
      obtain ⟨ho0, ho1⟩ := htab hom hot
      rw [hpi] at hp0 hp1
      rw [homega] at ho0 ho1
      rw [dealGate_merged hm, dealMergedShuffle_eq _ _ _ (if_pos hz)]
      refine congrArg (markPreprocessed · f.shuffleIdx) ?_
      have hi : ((dealRun conf.size g l).data.masked conf.size).dealMergedPerms conf.size
          f.shuffleIdx f.piIdx f.omegaIdx =
            ((dealRun conf.size g l).data.masked conf.size).install conf.size
              (dealKind conf g order f.shuffleIdx) (deal conf g order f.shuffleIdx)
                f.shuffleIdx := by
        simp only [deal, dealKind, hf, if_pos hm, mergedDeal, hb]
        exact dealMergedPerms_eq _ _ hp0 hp1 ho0 ho1
      rw [hinstall _ hi, hi]

theorem dealGate_tables (hd : ∀ idx, f.deals idx = false) :
    (dealGate conf.size (dealRun conf.size g l) f).data.pi0 = (dealRun conf.size g l).data.pi0 ∧
      (dealGate conf.size (dealRun conf.size g l) f).data.pi1 =
        (dealRun conf.size g l).data.pi1 := by
  have hne : f.type ≠ .shuffle ∧ f.type ≠ .mergedShuffle := by
    constructor <;> intro ht <;> simpa [Gate.deals, ht] using hd f.shuffleIdx
  cases ht : f.type <;> simp only [dealGate, preprocessGate, ht]
  case shuffle => exact absurd ht hne.1
  case mergedShuffle => exact absurd ht hne.2
  all_goals exact ⟨rfl, rfl⟩

theorem tables (h : Dealable conf order) : ∀ l r, order = l ++ r → Tables conf g order l := by
  intro l
  induction l using List.reverseRecOn with
  | nil => exact fun _ _ => ⟨fun _ => rfl, fun _ => rfl⟩
  | append_singleton l f ih =>
    intro r ho
    have ho' : order = l ++ f :: r := by rw [ho]; simp
    have ht := ih _ ho'
    by_cases hd : f.deals f.shuffleIdx = true
    · have hstep := deal_step h ho' ht hd
      have hother : ∀ idx, idx ≠ f.shuffleIdx → f.deals idx = false := by
        intro idx hne
        by_contra hc
        exact hne (deals_iff.mp (by simpa using hc)).2.symm
      constructor
      all_goals
        intro idx
        rw [dealRun_snoc, hstep, dealt_snoc]
        by_cases hidx : idx = f.shuffleIdx
        · subst hidx
          rw [hd, Bool.or_true, if_pos rfl]
          cases hn : dealt l f.shuffleIdx with
          | true =>
            have h0 := ht.pi0 f.shuffleIdx
            have h1 := ht.pi1 f.shuffleIdx
            rw [hn, if_pos rfl] at h0 h1
            first | exact h0 | exact h1
          | false => exact Function.update_self ..
        · rw [hother idx hidx, Bool.or_false]
          have h0 := ht.pi0 idx
          have h1 := ht.pi1 idx
          cases hn : dealt l f.shuffleIdx with
          | true => first | exact h0 | exact h1
          | false => first
            | exact (Function.update_of_ne hidx _ _).trans h0
            | exact (Function.update_of_ne hidx _ _).trans h1
    · have hall : ∀ idx, f.deals idx = false := by
        intro idx
        by_contra hc
        obtain ⟨htype, -⟩ := deals_iff.mp (by simpa using hc)
        exact hd (deals_iff.mpr ⟨htype, rfl⟩)
      obtain ⟨h0, h1⟩ := @dealGate_tables conf g l _ hall
      constructor
      · intro idx
        rw [dealRun_snoc, h0, dealt_snoc, hall, Bool.or_false, ht.pi0]
      · intro idx
        rw [dealRun_snoc, h1, dealt_snoc, hall, Bool.or_false, ht.pi1]

theorem dealGate_unshuffle_data (h : Dealable conf order) (ho : order = l ++ f :: r)
    (htype : f.type = .unshuffle) : (dealGate conf.size (dealRun conf.size g l) f).data =
      correct conf (dealRun conf.size g l)
        (ofPerm conf.size (deal conf g order f.shuffleIdx).pi⁻¹)
          ((dealRun conf.size g l).data.masked conf.size) := by
  have ht : Tables conf g order l := tables h _ _ ho
  obtain ⟨x, hx, hxt, hxi⟩ := h.shuffled l f r ho htype
  have hd : dealt l f.shuffleIdx = true :=
    dealt_iff.mpr ⟨x, hx, deals_iff.mpr ⟨Or.inl hxt, hxi⟩⟩
  have h0 := ht.pi0 f.shuffleIdx
  have h1 := ht.pi1 f.shuffleIdx
  rw [hd, if_pos rfl] at h0 h1
  rw [dealGate_unshuffle htype]
  simp only [Storage.dealUnshuffle, Storage.dealMasks, h0, h1,
    mul_ofPerm conf.size_le (deal conf g order f.shuffleIdx).pi1_keeps]
  rw [inverse_ofPerm conf.size_le ((deal conf g order f.shuffleIdx).pi0_keeps.mul
    (deal conf g order f.shuffleIdx).pi1_keeps)]
  rfl

theorem dealTriples_dealer (s : Storage) (recv : Party) (n : ℕ) (f : Gate) :
    s.dealTriples .d recv n f = some
      { s.storeVec recv (if recv = .p1 then (tripleShares n f.binary recv s.rngs).2.c
          else (tripleShares n f.binary recv s.rngs).1.c) with
        rngs := if recv = .p1 then
          { s.rngs with
            withP0Prep := (s.rngs.withP0Prep.skipTwice n).skip n
            withP1Prep := s.rngs.withP1Prep.skipTwice n }
        else
          { s.rngs with
            withP0Prep := s.rngs.withP0Prep.skipTwice n
            withP1Prep := (s.rngs.withP1Prep.skipTwice n).skip n } } := by
  have hl := drawTriple_length n f.binary s.rngs
  by_cases hr : recv = .p1
  · simp only [if_pos hr, tripleShares]
    rw [← congrArg (PRG.skip _) hl]
    simp only [Storage.dealTriples, Storage.randomShareSecretVec3P, if_pos hr]
    rfl
  · simp only [if_neg hr, tripleShares]
    rw [← congrArg (PRG.skip (s.rngs.withP1Prep.skipTwice n)) hl]
    simp only [Storage.dealTriples, Storage.randomShareSecretVec3P, if_neg hr]
    rfl

theorem dealGate_triple (htype : f.takesTriple = true) (p : Preprocessor) :
    dealGate conf.size p f = ⟨(p.data.dealTriples .d p.recv (f.tripleLen conf) f).getD p.data,
      p.recv.other⟩ := by
  have hsome := dealTriples_dealer p.data p.recv (f.tripleLen conf) f
  cases ht : f.type <;> simp only [Gate.takesTriple, ht, Bool.false_eq_true] at htype
  all_goals
    simp only [Gate.tripleLen, ht, reduceCtorEq, if_true, if_false] at hsome ⊢
    simp only [dealGate, preprocessGate, ht, hsome]
    rfl

end deals

end GraphMpc
