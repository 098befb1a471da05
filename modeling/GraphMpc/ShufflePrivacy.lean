import GraphMpc.GateProtocol
import Mathlib.Tactic.LinearCombination
import Mathlib.Tactic.Ring

namespace GraphMpc.ShufflePrivacy

open Tabulate Permutation Online

def shuffleGate : Gate := { type := .shuffle, gId := 0, in1Idx := 0, outIdx := 1 }

def revealGate : Gate := { type := .reveal, gId := 1, in1Idx := 1, outIdx := 2 }

structure World (n : ℕ) where
  x0 : Vec
  x1 : Vec
  pi0 : Equiv.Perm ℕ
  pi1 : Equiv.Perm ℕ
  pi0p : Equiv.Perm ℕ
  pi1p : Equiv.Perm ℕ
  x0_length : x0.length = n
  x1_length : x1.length = n
  pi0_keeps : Keeps n pi0
  pi1_keeps : Keeps n pi1
  pi0p_keeps : Keeps n pi0p
  pi1p_keeps : Keeps n pi1p
  consistent : pi0 * pi1 = pi1p * pi0p

def World.pi {n : ℕ} (w : World n) : Equiv.Perm ℕ := w.pi0 * w.pi1

def World.opened {n : ℕ} (w : World n) : Vec :=
  (ofPerm n w.pi).apply (tab n fun i => w.x0.getD i 0 + w.x1.getD i 0)

structure Randomness (n : ℕ) where
  r0 : Vec
  r1 : Vec
  r : Ring
  r0_length : r0.length = n
  r1_length : r1.length = n

structure Transcript where
  t0 : Vec
  t1 : Vec
  b0 : Vec
  b1 : Vec
  share0 : Vec
  share1 : Vec

def Transcript.view0 (t : Transcript) : Vec × Vec × Vec := (t.t1, t.b0, t.share1)

def Transcript.view1 (t : Transcript) : Vec × Vec × Vec := (t.t0, t.b1, t.share0)

def start (x : Vec) : Online :=
  Online.initWaiting { wires := Function.update (fun _ => []) 0 x } [[shuffleGate], [revealGate]]

def shuffleReveal (conf : ProtocolConfig) (w : World conf.size) (k : Randomness conf.size) :
    Option Transcript := do
  let pi := (ofPerm conf.size w.pi0).mul (ofPerm conf.size w.pi1)
  let b0 := correctionB0 pi k.r1 k.r
  let b1 := correctionB1 pi k.r0 k.r
  let o0 ← (start w.x0).sendGate conf .p0 shuffleGate
    { mask := k.r0, perm := ofPerm conf.size w.pi0p }
  let o1 ← (start w.x1).sendGate conf .p1 shuffleGate
    { mask := k.r1, perm := ofPerm conf.size w.pi1 }
  let t0 := o0.vals.dataSend
  let t1 := o1.vals.dataSend
  let o0 ← (o0.receive t1).recvGate conf .p0 (fun _ => []) shuffleGate
    { perm := ofPerm conf.size w.pi0, B := b0 }
  let o1 ← (o1.receive t0).recvGate conf .p1 (fun _ => []) shuffleGate
    { perm := ofPerm conf.size w.pi1p, B := b1 }
  let o0 ← o0.clearVals.sendGate conf .p0 revealGate {}
  let o1 ← o1.clearVals.sendGate conf .p1 revealGate {}
  return ⟨t0, t1, b0, b1, o0.vals.dataSend, o1.vals.dataSend⟩

section closedForm

variable (conf : ProtocolConfig) (w : World conf.size) (k : Randomness conf.size)

theorem start_shuffleIdx (x : Vec) : ((start x).updateWire 0).shuffleIdx = 0 := by
  simp only [Online.updateWire, Online.freeIfDone]
  split <;> rfl

theorem send_shuffle {x : Vec} {σ : Equiv.Perm ℕ} (id : Party) (mask : Vec)
    (hx : x.length = conf.size) (hσ : Keeps conf.size σ) :
    ∃ o, (start x).sendGate conf id shuffleGate { mask := mask, perm := ofPerm conf.size σ } =
        some o ∧ o.shuffleIdx = 0 ∧ o.vals =
          { shuffleVals := tab conf.size fun i =>
              x.getD (σ.symm i) 0 + mask.getD (σ.symm i) 0 } := by
  have hm : message conf id shuffleGate { mask := mask, perm := ofPerm conf.size σ }
      (start x).wires = some _ := message_shuffle id (Or.inl rfl) rfl hσ hx.ge
  have hn : (start x).negateInput id shuffleGate = start x :=
    Online.negateInput_of_ne id (by decide)
  rw [← hn] at hm
  refine ⟨_, Online.sendGate_eq conf id hm, ?_, rfl⟩
  rw [hn]
  exact start_shuffleIdx x

theorem readChunk_self (t : Vec) : readChunk t t.length 0 = some (t, 0) := by
  simp [readChunk]

theorem recv_shuffle {o : Online} {t b : Vec} {σ : Equiv.Perm ℕ} (id : Party)
    (hi : o.shuffleIdx = 0) (hv : o.vals = { shuffleVals := t }) (ht : t.length = conf.size)
    {t' : Vec} (ht' : t'.length = conf.size) (hσ : Keeps conf.size σ) :
    ∃ o', (o.receive t').recvGate conf id (fun _ => []) shuffleGate
        { perm := ofPerm conf.size σ, B := b } = some o' ∧
      o'.wires 1 = tab conf.size fun i => t'.getD (σ.symm i) 0 - b.getD i 0 := by
  have hs : (o.receive t').vals.shuffleVals = t' := by
    refine Eq.symm (eq_tab 0 (ht'.trans ?_) fun i _ => ?_) <;> simp [hv, ht]
  have hread : (o.receive t').readGate conf shuffleGate =
      some ({ shuffleVals := t' }, { o.receive t' with shuffleIdx := 0 }) := by
    have hchunk : readChunk (o.receive t').vals.shuffleVals conf.size (o.receive t').shuffleIdx =
        some (t', 0) := by
      rw [hs, show (o.receive t').shuffleIdx = 0 from hi, ← ht', readChunk_self]
    simp only [Online.readGate, shuffleGate, Online.readShuffle, hchunk, Option.bind_eq_bind,
      Option.bind_some]
  have hout := output_shuffle (f := shuffleGate) id (fun _ => []) (Or.inl rfl)
    (k := { perm := ofPerm conf.size σ, B := b }) rfl hσ { shuffleVals := t' }
    ({ o.receive t' with shuffleIdx := 0 } : Online).wires
  generalize (tab conf.size fun i => t'.getD (σ.symm i) 0 - b.getD i 0) = v at hout ⊢
  refine ⟨({ o.receive t' with shuffleIdx := 0 } : Online).setWire 1 v, ?_, by
    simp only [Online.setWire, Function.update_self]⟩
  simp only [Online.recvGate, show shuffleGate.type = .shuffle from rfl, hread,
    Option.bind_eq_bind, Option.bind_some, hout]
  rfl

theorem send_reveal {o : Online} {v : Vec} (id : Party) (hw : o.wires 1 = v)
    (hv : v.length = conf.size) :
    ∃ o', o.clearVals.sendGate conf id revealGate {} = some o' ∧ o'.vals.dataSend = v := by
  have hf : prefixOf (o.wires 1) conf.size = some v := by
    rw [hw, prefixOf, if_pos hv.ge, ← hv, List.take_length]
  have hn : o.clearVals.negateInput id revealGate = o.clearVals :=
    Online.negateInput_of_ne id (by decide)
  have hm : Online.message conf id revealGate {} (o.clearVals.negateInput id revealGate).wires =
      some { revealVals := v } := by
    rw [hn]
    simp only [Online.message, revealGate, Online.clearVals, hf, Option.bind_eq_bind,
      Option.bind_some]
  refine ⟨_, Online.sendGate_eq conf id hm, ?_⟩
  simp [Message.dataSend, Message.append, Online.clearVals]

theorem World.pi_keeps : Keeps conf.size w.pi := w.pi0_keeps.mul w.pi1_keeps

theorem shuffleReveal_eq : shuffleReveal conf w k = some
    { t0 := tab conf.size fun i => w.x0.getD (w.pi0p.symm i) 0 + k.r0.getD (w.pi0p.symm i) 0
      t1 := tab conf.size fun i => w.x1.getD (w.pi1.symm i) 0 + k.r1.getD (w.pi1.symm i) 0
      b0 := tab conf.size fun i => k.r1.getD (w.pi.symm i) 0 - k.r
      b1 := tab conf.size fun i => k.r0.getD (w.pi.symm i) 0 + k.r
      share0 := tab conf.size fun i => w.x1.getD (w.pi.symm i) 0 + k.r
      share1 := tab conf.size fun i => w.x0.getD (w.pi.symm i) 0 - k.r } := by
  have hmul : (ofPerm conf.size w.pi0).mul (ofPerm conf.size w.pi1) = ofPerm conf.size w.pi :=
    mul_ofPerm conf.size_le w.pi1_keeps
  have hb0 : correctionB0 (ofPerm conf.size w.pi) k.r1 k.r =
      tab conf.size fun i => k.r1.getD (w.pi.symm i) 0 - k.r :=
    correction_eq conf.size_le (w.pi_keeps conf) _ _
  have hb1 : correctionB1 (ofPerm conf.size w.pi) k.r0 k.r =
      tab conf.size fun i => k.r0.getD (w.pi.symm i) 0 + k.r :=
    correction_eq conf.size_le (w.pi_keeps conf) _ _
  obtain ⟨o0, hs0, hi0, hv0⟩ := send_shuffle conf .p0 k.r0 w.x0_length w.pi0p_keeps
  obtain ⟨o1, hs1, hi1, hv1⟩ := send_shuffle conf .p1 k.r1 w.x1_length w.pi1_keeps
  generalize ht0 : (tab conf.size fun i =>
    w.x0.getD (w.pi0p.symm i) 0 + k.r0.getD (w.pi0p.symm i) 0) = t0 at hv0 ⊢
  generalize ht1 : (tab conf.size fun i =>
    w.x1.getD (w.pi1.symm i) 0 + k.r1.getD (w.pi1.symm i) 0) = t1 at hv1 ⊢
  have hl0 : t0.length = conf.size := ht0 ▸ tab_length ..
  have hl1 : t1.length = conf.size := ht1 ▸ tab_length ..
  have hd0 : o0.vals.dataSend = t0 := by simp [hv0, Message.dataSend]
  have hd1 : o1.vals.dataSend = t1 := by simp [hv1, Message.dataSend]
  obtain ⟨o0', h0', hw0⟩ := recv_shuffle conf .p0 hi0 hv0 hl0 hl1 w.pi0_keeps
    (b := tab conf.size fun i => k.r1.getD (w.pi.symm i) 0 - k.r)
  obtain ⟨o1', h1', hw1⟩ := recv_shuffle conf .p1 hi1 hv1 hl1 hl0 w.pi1p_keeps
    (b := tab conf.size fun i => k.r0.getD (w.pi.symm i) 0 + k.r)
  obtain ⟨o0'', h0'', hr0⟩ := send_reveal conf .p0 hw0 (tab_length ..)
  obtain ⟨o1'', h1'', hr1⟩ := send_reveal conf .p1 hw1 (tab_length ..)
  simp only [shuffleReveal, hmul, hb0, hb1, hs0, hs1, hd0, hd1, h0', h1', h0'', h1'', hr0, hr1,
    Option.bind_eq_bind, Option.bind_some, Option.pure_def]
  have hpi : ∀ i, w.pi.symm i = w.pi1.symm (w.pi0.symm i) := fun i => rfl
  have hpip : ∀ i, w.pi.symm i = w.pi0p.symm (w.pi1p.symm i) := by
    intro i
    rw [World.pi, w.consistent]
    rfl
  refine congrArg some ?_
  congr 1
  · refine tab_congr fun i hi => ?_
    rw [← ht1, tab_getD_lt _ _ (w.pi0_keeps.symm_lt hi), tab_getD_lt _ _ hi, hpi]
    ring
  · refine tab_congr fun i hi => ?_
    rw [← ht0, tab_getD_lt _ _ (w.pi1p_keeps.symm_lt hi), tab_getD_lt _ _ hi, hpip]
    ring

theorem view0_eq : (shuffleReveal conf w k).map Transcript.view0 = some
    (tab conf.size fun i => w.x1.getD (w.pi1.symm i) 0 + k.r1.getD (w.pi1.symm i) 0,
      tab conf.size fun i => k.r1.getD (w.pi.symm i) 0 - k.r,
      tab conf.size fun i => w.x0.getD (w.pi.symm i) 0 - k.r) := by
  rw [shuffleReveal_eq]
  rfl

theorem view1_eq : (shuffleReveal conf w k).map Transcript.view1 = some
    (tab conf.size fun i => w.x0.getD (w.pi0p.symm i) 0 + k.r0.getD (w.pi0p.symm i) 0,
      tab conf.size fun i => k.r0.getD (w.pi.symm i) 0 + k.r,
      tab conf.size fun i => w.x1.getD (w.pi.symm i) 0 + k.r) := by
  rw [shuffleReveal_eq]
  rfl

end closedForm

section permutationHiding

variable {n : ℕ}

structure Agree0 (w w' : World n) : Prop where
  share : w.x0 = w'.x0
  pi0 : ofPerm n w.pi0 = ofPerm n w'.pi0
  pi0p : ofPerm n w.pi0p = ofPerm n w'.pi0p
  opened : w.opened = w'.opened

structure Agree1 (w w' : World n) : Prop where
  share : w.x1 = w'.x1
  pi1 : ofPerm n w.pi1 = ofPerm n w'.pi1
  pi1p : ofPerm n w.pi1p = ofPerm n w'.pi1p
  opened : w.opened = w'.opened

-- the other server's mask and the dealer's r are free, the own mask is known
def Hides0 (conf : ProtocolConfig) (w w' : World conf.size) : Prop :=
  ∀ k : Randomness conf.size, ∃ k' : Randomness conf.size, k'.r0 = k.r0 ∧
    (shuffleReveal conf w k).map Transcript.view0 = (shuffleReveal conf w' k').map Transcript.view0

def Hides1 (conf : ProtocolConfig) (w w' : World conf.size) : Prop :=
  ∀ k : Randomness conf.size, ∃ k' : Randomness conf.size, k'.r1 = k.r1 ∧
    (shuffleReveal conf w k).map Transcript.view1 = (shuffleReveal conf w' k').map Transcript.view1

def ConstantDifference (x y : Vec) : Prop :=
  ∃ c : Ring, ∀ i < x.length, x.getD i 0 - y.getD i 0 = c

theorem symm_congr_of_ofPerm {σ τ : Equiv.Perm ℕ} (hn : n ≤ 2 ^ 32) (hσ : Keeps n σ)
    (hτ : Keeps n τ) (h : ofPerm n σ = ofPerm n τ) {i : ℕ} (hi : i < n) :
    σ.symm i = τ.symm i := by
  have hj := hσ.symm_lt hi
  have he : σ (σ.symm i) = τ (σ.symm i) := by
    rw [← ofPerm_entry hn hσ hj, ← ofPerm_entry hn hτ hj, h]
  rw [Equiv.apply_symm_apply] at he
  exact (Equiv.symm_apply_eq τ).mpr he |>.symm

theorem opened_entry {w w' : World n} (hn : n ≤ 2 ^ 32) (h : w.opened = w'.opened) {i : ℕ}
    (hi : i < n) : w.x0.getD (w.pi.symm i) 0 + w.x1.getD (w.pi.symm i) 0 =
      w'.x0.getD (w'.pi.symm i) 0 + w'.x1.getD (w'.pi.symm i) 0 := by
  have hk : Keeps n w.pi := w.pi0_keeps.mul w.pi1_keeps
  have hk' : Keeps n w'.pi := w'.pi0_keeps.mul w'.pi1_keeps
  rw [World.opened, World.opened, apply_ofPerm hn hk, apply_ofPerm hn hk', tab_eq_iff] at h
  have he := h i hi
  rwa [tab_getD_lt _ _ (hk.symm_lt hi), tab_getD_lt _ _ (hk'.symm_lt hi)] at he

theorem constantDifference_iff {σ τ : Equiv.Perm ℕ} (hn : n ≤ 2 ^ 32) (hσ : Keeps n σ)
    (hτ : Keeps n τ) (x y : Vec) :
    ConstantDifference ((ofPerm n σ).apply x) ((ofPerm n τ).apply y) ↔
      ∃ c : Ring, ∀ i < n, x.getD (σ.symm i) 0 - y.getD (τ.symm i) 0 = c := by
  rw [apply_ofPerm hn hσ, apply_ofPerm hn hτ, ConstantDifference, tab_length]
  refine exists_congr fun c => forall_congr' fun i => forall_congr' fun hi => ?_
  rw [tab_getD_lt _ _ hi, tab_getD_lt _ _ hi]

def movedMask (n : ℕ) (σ τ : Equiv.Perm ℕ) (mask : Vec) (c : Ring) : Vec :=
  tab n fun j => mask.getD (σ.symm (τ j)) 0 - c

theorem movedMask_entry {σ τ : Equiv.Perm ℕ} (hτ : Keeps n τ) (mask : Vec) (c : Ring) {i : ℕ}
    (hi : i < n) : (movedMask n σ τ mask c).getD (τ.symm i) 0 = mask.getD (σ.symm i) 0 - c := by
  rw [movedMask, tab_getD_lt _ _ (hτ.symm_lt hi), Equiv.apply_symm_apply]

def constantRandomness (n : ℕ) : Randomness n where
  r0 := List.replicate n 0
  r1 := List.replicate n 0
  r := 0
  r0_length := List.length_replicate
  r1_length := List.length_replicate

theorem hides0_iff {conf : ProtocolConfig} {w w' : World conf.size} (h : Agree0 w w') :
    Hides0 conf w w' ↔
      ConstantDifference ((ofPerm conf.size w.pi).apply w.x0)
        ((ofPerm conf.size w'.pi).apply w'.x0) := by
  have hn := conf.size_le
  have hk := World.pi_keeps conf w
  have hk' := World.pi_keeps conf w'
  rw [constantDifference_iff hn hk hk']
  constructor
  · intro hides
    obtain ⟨k', -, hview⟩ := hides (constantRandomness conf.size)
    rw [view0_eq, view0_eq, Option.some.injEq, Prod.mk.injEq, Prod.mk.injEq] at hview
    refine ⟨-k'.r, fun i hi => ?_⟩
    have hs : w.x0.getD (w.pi.symm i) 0 - 0 = _ := tab_eq_iff.mp hview.2.2 i hi
    linear_combination hs
  · rintro ⟨c, hc⟩ k
    have hmask : ∀ i < conf.size, (movedMask conf.size w.pi w'.pi k.r1 c).getD
        (w'.pi.symm i) 0 = k.r1.getD (w.pi.symm i) 0 - c :=
      fun i hi => movedMask_entry hk' _ _ hi
    refine ⟨⟨k.r0, movedMask conf.size w.pi w'.pi k.r1 c, k.r - c, k.r0_length,
      tab_length ..⟩, rfl, ?_⟩
    rw [view0_eq, view0_eq, Option.some.injEq, Prod.mk.injEq, Prod.mk.injEq]
    refine ⟨tab_congr fun i hi => ?_, tab_congr fun i hi => ?_, tab_congr fun i hi => ?_⟩
    · -- entry i of t_1 is entry pi_0 i of the shuffled vector
      have hj := w.pi0_keeps.lt hi
      have hl : w.pi.symm (w.pi0 i) = w.pi1.symm i := by
        simp [World.pi, Equiv.Perm.mul_def]
      have hr : w'.pi.symm (w.pi0 i) = w'.pi1.symm i := by
        have he := symm_congr_of_ofPerm hn w.pi0_keeps w'.pi0_keeps h.pi0 hj
        rw [Equiv.symm_apply_apply] at he
        simp only [World.pi, Equiv.Perm.mul_def, Equiv.symm_trans_apply, ← he]
      have ho := opened_entry hn h.opened hj
      have hm := hmask _ hj
      have hx := hc _ hj
      rw [hl, hr] at ho hm hx
      linear_combination ho - hm - hx
    · rw [hmask i hi]
      ring
    · linear_combination hc i hi

theorem hides1_iff {conf : ProtocolConfig} {w w' : World conf.size} (h : Agree1 w w') :
    Hides1 conf w w' ↔
      ConstantDifference ((ofPerm conf.size w.pi).apply w.x1)
        ((ofPerm conf.size w'.pi).apply w'.x1) := by
  have hn := conf.size_le
  have hk := World.pi_keeps conf w
  have hk' := World.pi_keeps conf w'
  rw [constantDifference_iff hn hk hk']
  constructor
  · intro hides
    obtain ⟨k', -, hview⟩ := hides (constantRandomness conf.size)
    rw [view1_eq, view1_eq, Option.some.injEq, Prod.mk.injEq, Prod.mk.injEq] at hview
    refine ⟨k'.r, fun i hi => ?_⟩
    have hs : w.x1.getD (w.pi.symm i) 0 + 0 = _ := tab_eq_iff.mp hview.2.2 i hi
    linear_combination hs
  · rintro ⟨c, hc⟩ k
    have hmask : ∀ i < conf.size, (movedMask conf.size w.pi w'.pi k.r0 c).getD
        (w'.pi.symm i) 0 = k.r0.getD (w.pi.symm i) 0 - c :=
      fun i hi => movedMask_entry hk' _ _ hi
    refine ⟨⟨movedMask conf.size w.pi w'.pi k.r0 c, k.r1, k.r + c, tab_length ..,
      k.r1_length⟩, rfl, ?_⟩
    rw [view1_eq, view1_eq, Option.some.injEq, Prod.mk.injEq, Prod.mk.injEq]
    refine ⟨tab_congr fun i hi => ?_, tab_congr fun i hi => ?_, tab_congr fun i hi => ?_⟩
    · -- entry i of t_0 is entry pi_1_p i of the shuffled vector
      have hj := w.pi1p_keeps.lt hi
      have hl : w.pi.symm (w.pi1p i) = w.pi0p.symm i := by
        simp [World.pi, w.consistent, Equiv.Perm.mul_def]
      have hr : w'.pi.symm (w.pi1p i) = w'.pi0p.symm i := by
        have he := symm_congr_of_ofPerm hn w.pi1p_keeps w'.pi1p_keeps h.pi1p hj
        rw [Equiv.symm_apply_apply] at he
        simp only [World.pi, w'.consistent, Equiv.Perm.mul_def, Equiv.symm_trans_apply, ← he]
      have ho := opened_entry hn h.opened hj
      have hm := hmask _ hj
      have hx := hc _ hj
      rw [hl, hr] at ho hm hx
      linear_combination ho - hm - hx
    · rw [hmask i hi]
      ring
    · linear_combination hc i hi

theorem hides_iff (conf : ProtocolConfig) :
    (∀ w w' : World conf.size, Agree0 w w' → (Hides0 conf w w' ↔
      ConstantDifference ((ofPerm conf.size w.pi).apply w.x0)
        ((ofPerm conf.size w'.pi).apply w'.x0))) ∧
    (∀ w w' : World conf.size, Agree1 w w' → (Hides1 conf w w' ↔
      ConstantDifference ((ofPerm conf.size w.pi).apply w.x1)
        ((ofPerm conf.size w'.pi).apply w'.x1))) :=
  ⟨fun _ _ => hides0_iff, fun _ _ => hides1_iff⟩

end permutationHiding

section failingWorlds

def pair : ProtocolConfig where
  size := 2
  nodes := 1
  depth := 1
  bits := 1
  size_int := by decide

def plainWorld : World pair.size where
  x0 := [0, 1]
  x1 := [0, 0]
  pi0 := 1
  pi1 := 1
  pi0p := 1
  pi1p := 1
  x0_length := rfl
  x1_length := rfl
  pi0_keeps := .one _
  pi1_keeps := .one _
  pi0p_keeps := .one _
  pi1p_keeps := .one _
  consistent := rfl

theorem swap_keeps : Keeps pair.size (Equiv.swap 0 1) := .swap (by decide) (by decide)

def swappedWorld : World pair.size where
  x0 := [0, 1]
  x1 := [1, -1]
  pi0 := 1
  pi1 := Equiv.swap 0 1
  pi0p := 1
  pi1p := Equiv.swap 0 1
  x0_length := rfl
  x1_length := rfl
  pi0_keeps := .one _
  pi1_keeps := swap_keeps
  pi0p_keeps := .one _
  pi1p_keeps := swap_keeps
  consistent := rfl

theorem worlds_agree : Agree0 plainWorld swappedWorld := ⟨rfl, rfl, rfl, by decide⟩

theorem worlds_differ : ¬ ConstantDifference ((ofPerm pair.size plainWorld.pi).apply plainWorld.x0)
    ((ofPerm pair.size swappedWorld.pi).apply swappedWorld.x0) := by
  rintro ⟨c, hc⟩
  have h0 : (0 - 1 : Ring) = c := hc 0 (by decide)
  have h1 : (1 - 0 : Ring) = c := hc 1 (by decide)
  exact absurd (h0.trans h1.symm) (by decide)

theorem hides_iff_pair : Agree0 plainWorld swappedWorld ∧
    (Hides0 pair plainWorld swappedWorld ↔
      ConstantDifference ((ofPerm pair.size plainWorld.pi).apply plainWorld.x0)
        ((ofPerm pair.size swappedWorld.pi).apply swappedWorld.x0)) :=
  ⟨worlds_agree, (hides_iff pair).1 plainWorld swappedWorld worlds_agree⟩

theorem not_hides_all : ¬ ((∀ (conf : ProtocolConfig) (w w' : World conf.size),
      Agree0 w w' → Hides0 conf w w') ∧
    (∀ (conf : ProtocolConfig) (w w' : World conf.size), Agree1 w w' → Hides1 conf w w')) := by
  rintro ⟨h, -⟩
  exact worlds_differ ((hides0_iff worlds_agree).mp (h pair _ _ worlds_agree))

end failingWorlds

end GraphMpc.ShufflePrivacy
