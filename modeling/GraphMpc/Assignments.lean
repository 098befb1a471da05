import GraphMpc.Consistency
import GraphMpc.Draws
import GraphMpc.Sampler

namespace GraphMpc

open Tabulate Permutation Preprocessor

section assignments

variable {n : ℕ}

def ofFin (σ : Equiv.Perm (Fin n)) : Permutation := ⟨List.ofFn fun i => BitVec.ofNat 32 (σ i)⟩

def extended (σ : Equiv.Perm (Fin n)) : Equiv.Perm ℕ := σ.extendDomain Fin.equivSubtype

def restricted {σ : Equiv.Perm ℕ} (hσ : Keeps n σ) : Equiv.Perm (Fin n) :=
  Fin.equivSubtype.symm.permCongr (σ.subtypePerm hσ)

theorem extended_apply (σ : Equiv.Perm (Fin n)) (i : Fin n) : extended σ i = σ i :=
  Equiv.Perm.extendDomain_apply_image σ Fin.equivSubtype i

theorem extended_keeps (σ : Equiv.Perm (Fin n)) : Keeps n (extended σ) := by
  intro i
  by_cases hi : i < n
  · have h := extended_apply σ ⟨i, hi⟩
    exact iff_of_true (h ▸ (σ ⟨i, hi⟩).isLt) hi
  · have h : extended σ i = i := Equiv.Perm.extendDomain_apply_not_subtype σ Fin.equivSubtype hi
    rw [h]

theorem restricted_apply {σ : Equiv.Perm ℕ} (hσ : Keeps n σ) (i : Fin n) :
    (restricted hσ i : ℕ) = σ i := rfl

theorem ofFin_eq {σ : Equiv.Perm (Fin n)} {τ : Equiv.Perm ℕ} (h : ∀ i : Fin n, τ i = σ i) :
    ofFin σ = ofPerm n τ := by
  rw [ofFin, ofPerm]
  refine congrArg Permutation.mk (eq_tab 0 (by simp) fun i hi => ?_)
  rw [List.getD_eq_getElem _ _ (by simpa using hi), List.getElem_ofFn, h ⟨i, _⟩]

def ShuffleIdx (circ : Circuit) (idx : ℕ) : Prop :=
  ∃ f ∈ circ.circ.flatten, f.type = .shuffle ∧ f.shuffleIdx = idx

instance (circ : Circuit) (idx : ℕ) : Decidable (ShuffleIdx circ idx) :=
  inferInstanceAs (Decidable (∃ f ∈ circ.circ.flatten, f.type = .shuffle ∧ f.shuffleIdx = idx))

def Assignment (conf : ProtocolConfig) (circ : Circuit) : Type :=
  {idx // ShuffleIdx circ idx} → Equiv.Perm (Fin conf.size)

namespace Assignment

variable {conf : ProtocolConfig} {circ : Circuit}

def perm (a : Assignment conf circ) (idx : ℕ) : Permutation :=
  if h : ShuffleIdx circ idx then ofFin (a ⟨idx, h⟩) else ⟨[]⟩

def extension (a : Assignment conf circ) (idx : ℕ) : Equiv.Perm ℕ :=
  if h : ShuffleIdx circ idx then extended (a ⟨idx, h⟩) else 1

theorem perm_of (a : Assignment conf circ) {idx : ℕ} (h : ShuffleIdx circ idx) :
    a.perm idx = ofFin (a ⟨idx, h⟩) := dif_pos h

theorem extension_keeps (a : Assignment conf circ) (idx : ℕ) :
    Keeps conf.size (a.extension idx) := by
  rw [extension]
  split
  · exact extended_keeps _
  · exact .one _

theorem perm_eq (a : Assignment conf circ) {idx : ℕ} (h : ShuffleIdx circ idx) :
    a.perm idx = ofPerm conf.size (a.extension idx) := by
  rw [perm_of _ h, extension, dif_pos h]
  exact ofFin_eq fun i => extended_apply _ i

def shift {c : ℕ → Equiv.Perm ℕ} (hc : ∀ idx, Keeps conf.size (c idx)) :
    Assignment conf circ ≃ Assignment conf circ :=
  Equiv.piCongrRight fun idx => Equiv.mulRight (restricted (hc idx))

theorem perm_shift {c : ℕ → Equiv.Perm ℕ} (hc : ∀ idx, Keeps conf.size (c idx))
    (a : Assignment conf circ) {idx : ℕ} (h : ShuffleIdx circ idx) :
    (shift hc a).perm idx = ofPerm conf.size (a.extension idx * c idx) := by
  rw [perm_of _ h, extension, dif_pos h]
  refine ofFin_eq fun i => ?_
  have hi : (restricted (hc idx) i : ℕ) = c idx i := restricted_apply (hc idx) i
  rw [Equiv.Perm.mul_apply, ← hi, extended_apply]
  rfl

end Assignment

end assignments

section streams

variable {conf : ProtocolConfig} {order : List Gate} {l r : List Gate} {f : Gate}

theorem dealerDraws_congr {size : ℕ} {p p' : Preprocessor} (hr : p.recv = p'.recv)
    (hs : (p.data.pi0 f.shuffleIdx).size = (p'.data.pi0 f.shuffleIdx).size) :
    dealerDraws size p f = dealerDraws size p' f := by
  unfold dealerDraws
  rw [hr, hs]

theorem Tables.size_eq {g : Streams} (h : Tables conf g order l) (idx : ℕ) :
    ((dealRun conf.size g l).data.pi0 idx).size = if dealt l idx then conf.size else 0 := by
  rw [h.pi0]
  split
  · exact ofPerm_size _ _
  · rfl

theorem dealRun_skips (h : Dealable conf order) (g g' : Streams) (ho : order = l ++ r) :
    (dealRun conf.size g l).recv = (dealRun conf.size g' l).recv ∧ ∀ id ≠ .d, ∀ stream, ∃ n,
      (dealRun conf.size g l).data.rngs.withServer id stream =
        ((g.generators .d).withServer id stream).skip n ∧
      (dealRun conf.size g' l).data.rngs.withServer id stream =
        ((g'.generators .d).withServer id stream).skip n := by
  induction l using List.reverseRecOn generalizing r with
  | nil => exact ⟨rfl, fun id _ stream => ⟨0, rfl, rfl⟩⟩
  | append_singleton l f ih =>
    rw [List.append_assoc] at ho
    obtain ⟨hrecv, hskip⟩ := ih ho
    have hdraws : dealerDraws conf.size (dealRun conf.size g l) f =
        dealerDraws conf.size (dealRun conf.size g' l) f := by
      refine dealerDraws_congr hrecv ?_
      rw [(tables h l _ ho).size_eq, (tables h l _ ho).size_eq]
    refine ⟨?_, fun id hid stream => ?_⟩
    · have h1 := @recvAt_snoc conf g l f
      have h2 := @recvAt_snoc conf g' l f
      rw [recvAt, recvAt] at h1 h2
      rw [h1, h2, hrecv]
    · obtain ⟨n, h1, h2⟩ := hskip id hid stream
      rw [dealRun_snoc, dealRun_snoc, dealGate_drawn _ _ hid, dealGate_drawn _ _ hid, h1, h2,
        PRG.skip_skip, PRG.skip_skip, hdraws]
      exact ⟨_, rfl, rfl⟩

theorem dealRun_pos_le (conf : ProtocolConfig) (g : Streams) (l r : List Gate) :
    (dealRun conf.size g l).data.rngs.withP0Recv.pos ≤
      (dealRun conf.size g (l ++ r)).data.rngs.withP0Recv.pos := by
  induction r using List.reverseRecOn with
  | nil => rw [List.append_nil]
  | append_singleton r f ih =>
    have hskip := @dealGate_drawn conf.size .p0 .recv (dealRun conf.size g (l ++ r)) f (by decide)
    rw [← List.append_assoc, dealRun_snoc]
    refine ih.trans ?_
    exact (Nat.le_add_right _ _).trans_eq (congrArg PRG.pos hskip).symm

theorem dealRun_shuffle_pos (h : Dealable conf order) (g : Streams) (ho : order = l ++ f :: r)
    (ht : f.type = .shuffle) (hn : dealt l f.shuffleIdx = false) :
    (dealRun conf.size g (l ++ [f])).data.rngs.withP0Recv.pos =
      (dealRun conf.size g l).data.rngs.withP0Recv.pos + conf.size := by
  have hskip := @dealGate_drawn conf.size .p0 .recv (dealRun conf.size g l) f (by decide)
  have hfresh : ((dealRun conf.size g l).data.pi0 f.shuffleIdx).size = 0 :=
    (tables h l _ ho).fresh hn
  have hdrawn : drawn .p0 .recv (dealerDraws conf.size (dealRun conf.size g l) f) = conf.size := by
    simp only [dealerDraws, permDraws, ht, hfresh, if_true]
    split <;> simp [drawn, maskDraws, Draw.on]
  rw [dealRun_snoc]
  rw [hdrawn] at hskip
  exact congrArg PRG.pos hskip

theorem first_shuffle (h : Dealable conf order) {idx : ℕ}
    (hs : ∃ f ∈ order, f.type = .shuffle ∧ f.shuffleIdx = idx) : ∃ f r,
      order = before order idx ++ f :: r ∧ f.type = .shuffle ∧ f.shuffleIdx = idx ∧
        dealt (before order idx) idx = false := by
  obtain ⟨f, hf, ht, hidx⟩ := hs
  have hd : dealt order idx = true := dealt_iff.mpr ⟨f, hf, deals_iff.mpr ⟨Or.inl ht, hidx⟩⟩
  obtain ⟨f', hf', hd', he⟩ := find_deal hd
  obtain ⟨-, l, r, ho, hl⟩ := List.find?_eq_some_iff_append.mp he
  have hn : dealt l idx = false := by
    rw [Bool.eq_false_iff]
    intro hdl
    obtain ⟨x, hx, hxd⟩ := dealt_iff.mp hdl
    have := hl x hx
    rw [hxd] at this
    cases this
  obtain ⟨hbefore, -⟩ := first_deal ho hd' hn
  obtain ⟨ht', hidx'⟩ := deals_iff.mp hd'
  refine ⟨f', r, hbefore ▸ ho, ht'.resolve_right fun hm => ?_, hidx', hbefore ▸ hn⟩
  exact h.separate f hf f' hf' ht hm (hidx.trans hidx'.symm)

variable (conf order) in
def drawPos (g : Streams) (idx : ℕ) : ℕ :=
  (dealRun conf.size g (before order idx)).data.rngs.withP0Recv.pos

theorem drawPos_lt (h : Dealable conf order) (g : Streams) {idx idx' : ℕ}
    (hs : ∃ f ∈ order, f.type = .shuffle ∧ f.shuffleIdx = idx)
    (hs' : ∃ f ∈ order, f.type = .shuffle ∧ f.shuffleIdx = idx') (hne : idx ≠ idx') :
    drawPos conf order g idx + conf.size ≤ drawPos conf order g idx' ∨
      drawPos conf order g idx' + conf.size ≤ drawPos conf order g idx := by
  have hlt : ∀ {idx idx' : ℕ} {f f' : Gate} {r r' : List Gate},
      order = before order idx ++ f :: r → order = before order idx' ++ f' :: r' →
      f.type = .shuffle → f.shuffleIdx = idx → dealt (before order idx) idx = false →
      f'.shuffleIdx = idx' → idx ≠ idx' → before order idx <+: before order idx' →
      drawPos conf order g idx + conf.size ≤ drawPos conf order g idx' := by
    intro idx idx' f f' r r' ho ho' ht hidx hn hidx' hne hpre
    obtain ⟨m, hm⟩ := hpre
    have hcons : f :: r = m ++ f' :: r' := by
      rw [← hm, List.append_assoc] at ho'
      exact List.append_cancel_left (ho.symm.trans ho')
    cases m with
    | nil =>
      obtain ⟨rfl, -⟩ := List.cons.inj hcons
      exact absurd (hidx.symm.trans hidx') hne
    | cons x m =>
      obtain ⟨rfl, -⟩ := List.cons.inj hcons
      have hle := dealRun_pos_le conf g (before order idx ++ [f]) m
      rw [dealRun_shuffle_pos h g ho ht (hidx ▸ hn), ← List.append_cons, hm] at hle
      exact hle
  obtain ⟨f, r, ho, ht, hidx, hn⟩ := first_shuffle h hs
  obtain ⟨f', r', ho', ht', hidx', hn'⟩ := first_shuffle h hs'
  have hpre : before order idx <+: order := ⟨_, ho.symm⟩
  have hpre' : before order idx' <+: order := ⟨_, ho'.symm⟩
  rcases List.prefix_or_prefix_of_prefix hpre hpre' with hp | hp
  · exact Or.inl (hlt ho ho' ht hidx hn hidx' hne hp)
  · exact Or.inr (hlt ho' ho ht' hidx' hn' hidx hne.symm hp)

end streams

section words

variable {n : ℕ}

theorem exists_words (hn : n < 2 ^ 31) {τ : Equiv.Perm ℕ} (hτ : Keeps n τ) :
    ∃ k : ℕ → BitVec 64, ∀ g : PRG, (∀ i < n, g.word (g.pos + i) = k i) →
      (random n g).1 = ofPerm n τ := by
  have hn' : n ≤ 2 ^ 32 := hn.le.trans (by decide)
  obtain ⟨-, hsample, -, hsurj⟩ := random_exact n hn
  obtain ⟨k, hk⟩ := hsurj ⟨(ofPerm n τ).permVec, isPermutation_ofPerm hn' hτ⟩
  refine ⟨fun i => BitVec.ofNat 64 (sequence k i), fun g hg => ?_⟩
  have hg : ∀ i < n, g.word (g.pos + i) = BitVec.ofNat 64 (sequence k i) := hg
  have hres : (fun i : Fin n => (⟨residues n g i, residues_lt g i.2⟩ : Fin (n - i))) = k := by
    funext i
    have hlt := (k i).isLt
    have hword : (k i : ℕ) < 2 ^ 64 := by omega
    refine Fin.ext ?_
    show (g.word (g.pos + i)).toNat % (n - i) = k i
    rw [hg i i.2, sequence_eq, BitVec.toNat_ofNat, Nat.mod_eq_of_lt hword, Nat.mod_eq_of_lt hlt]
  have hvec := hsample g
  rw [hres, hk] at hvec
  exact congrArg Permutation.mk hvec

end words

section deals

variable {conf : ProtocolConfig} {circ : Circuit}

def Deals (conf : ProtocolConfig) (circ : Circuit) (g : Streams) (a : Assignment conf circ) : Prop :=
  ∃ dealer, runDealer conf circ.circ g = some dealer ∧
    ∀ idx, ShuffleIdx circ idx → dealerPi dealer idx = a.perm idx

theorem dealerPi_shuffle (h : Dealable conf circ.circ.flatten) (g : Streams) {idx : ℕ}
    (hs : ShuffleIdx circ idx) : dealerPi (dealerAt conf g circ.circ.flatten) idx =
      ofPerm conf.size (shuffleDeal conf g circ.circ.flatten idx).pi := by
  obtain ⟨f, hf, ht, rfl⟩ := hs
  rw [dealerPi_eq h (dealt_of_mem hf (Or.inl ht)), deal_of_shuffle h hf ht]

theorem exists_deals (h : Dealable conf circ.circ.flatten) (g : Streams) :
    ∃ a, Deals conf circ g a := by
  have hk : ∀ idx, Keeps conf.size (shuffleDeal conf g circ.circ.flatten idx).pi :=
    fun idx => SharedPerm.pi_keeps _
  let a : Assignment conf circ := fun idx => restricted (hk idx)
  refine ⟨a, dealerAt conf g circ.circ.flatten, runDealer_eq .., fun idx hs => ?_⟩
  rw [dealerPi_shuffle h g hs, a.perm_of hs]
  exact (ofFin_eq fun i => (restricted_apply (hk idx) i).symm).symm

def zeroStream : PRG := ⟨fun _ => 0, 0⟩

-- the streams of which only what the dealer shares with P0 for the first permutations is not zero
def streamsOf (word : ℕ → BitVec 64) : Streams :=
  ⟨zeroStream, zeroStream, ⟨word, 0⟩, zeroStream, zeroStream, zeroStream, zeroStream, zeroStream,
    zeroStream⟩

theorem shuffleDeal_pi (order : List Gate) (g : Streams) (idx : ℕ) :
    (shuffleDeal conf g order idx).pi =
      randomPerm conf.size (dealRun conf.size g (before order idx)).data.rngs.withP0Recv *
        randomPerm conf.size
          ((dealRun conf.size g (before order idx)).data.rngs.withP1Send.skip conf.size) := by
  unfold shuffleDeal
  dsimp only
  split <;> rfl

theorem deals_surjective (h : Dealable conf circ.circ.flatten) (a : Assignment conf circ) :
    ∃ g, Deals conf circ g a := by
  let g0 := streamsOf fun _ => 0
  let pi1 : ℕ → Equiv.Perm ℕ := fun idx => randomPerm conf.size
    ((dealRun conf.size g0 (before circ.circ.flatten idx)).data.rngs.withP1Send.skip conf.size)
  have hk : ∀ idx, Keeps conf.size (a.extension idx * (pi1 idx)⁻¹) := fun idx =>
    (a.extension_keeps idx).mul (randomPerm_keeps _ _).inv
  choose k hword using fun idx => exists_words conf.size_int (hk idx)
  let block : {idx // ShuffleIdx circ idx} × Fin conf.size → ℕ := fun p =>
    drawPos conf circ.circ.flatten g0 p.1 + p.2
  have hinj : Function.Injective block := by
    rintro ⟨⟨idx, hs⟩, i⟩ ⟨⟨idx', hs'⟩, i'⟩ he
    have he : drawPos conf circ.circ.flatten g0 idx + i =
      drawPos conf circ.circ.flatten g0 idx' + i' := he
    have hi := i.isLt
    have hi' := i'.isLt
    by_cases hne : idx = idx'
    · subst hne
      have hii : i = i' := Fin.ext (by omega)
      rw [hii]
    · rcases drawPos_lt h g0 hs hs' hne with hlt | hlt <;> omega
  let word : ℕ → BitVec 64 := Function.extend block (fun p => k p.1 p.2) fun _ => 0
  refine ⟨streamsOf word, dealerAt conf _ circ.circ.flatten, runDealer_eq .., fun idx hs => ?_⟩
  obtain ⟨f, r, ho, -⟩ := first_shuffle h hs
  obtain ⟨-, hskip⟩ := dealRun_skips h g0 (streamsOf word) ho
  obtain ⟨m, hm, hm'⟩ := hskip .p0 (by decide) .recv
  obtain ⟨m1, hm1, hm1'⟩ := hskip .p1 (by decide) .send
  have hpos : drawPos conf circ.circ.flatten g0 idx = m :=
    (congrArg PRG.pos hm).trans (Nat.zero_add m)
  have h0 : (random conf.size (dealRun conf.size (streamsOf word)
      (before circ.circ.flatten idx)).data.rngs.withP0Recv).1 =
        ofPerm conf.size (a.extension idx * (pi1 idx)⁻¹) := by
    refine hword idx _ fun i hi => ?_
    have hat := hinj.extend_apply (fun p => k p.1 p.2) (fun _ => 0) ⟨⟨idx, hs⟩, ⟨i, hi⟩⟩
    have hg : (dealRun conf.size (streamsOf word)
      (before circ.circ.flatten idx)).data.rngs.withP0Recv = ⟨word, 0 + m⟩ := hm'
    rw [hg, Nat.zero_add, ← hpos]
    exact hat
  have h1 : (dealRun conf.size (streamsOf word) (before circ.circ.flatten idx)).data.rngs.withP1Send
      = (dealRun conf.size g0 (before circ.circ.flatten idx)).data.rngs.withP1Send :=
    hm1'.trans hm1.symm
  rw [dealerPi_shuffle h _ hs, shuffleDeal_pi, ← mul_ofPerm conf.size_le (randomPerm_keeps _ _),
    ← random_fst, h0, h1, mul_ofPerm conf.size_le (randomPerm_keeps _ _), inv_mul_cancel_right,
    a.perm_eq hs]

end deals

end GraphMpc
