import GraphMpc.GateProtocol
import GraphMpc.LocalGates
import GraphMpc.Cleartext
import GraphMpc.Library.Sharing

namespace GraphMpc

open Tabulate Permutation Sharing

def IsBit (x : Ring) : Prop := x = 0 ∨ x = 1

-- how the shares of a wire stand for its value: additively, in the clear, as the xor of bits, or,
-- between the layers of EQZ, by the low bits of the xor that are all set when the value is 1
inductive Kind where
  | add
  | pub
  | bit
  | eqz (layer : ℕ)
  deriving DecidableEq

def Kind.Entry : Kind → Ring → Ring → Ring → Prop
  | add, a, b, v => a + b = v
  | pub, a, b, v => a = v ∧ b = v
  | bit, a, b, v => IsBit v ∧ a ^^^ b = v
  | eqz l, a, b, v => IsBit v ∧ (LowOnes (2 ^ (4 - l)) (a ^^^ b) ↔ v = 1)

structure Kind.Rel (kd : Kind) (a b v : Vec) : Prop where
  left : a.length = v.length
  right : b.length = v.length
  entry : ∀ i, kd.Entry (a.getD i 0) (b.getD i 0) (v.getD i 0)

theorem Kind.entry_zero (kd : Kind) : kd.Entry 0 0 0 := by
  cases kd with
  | add => exact add_zero 0
  | pub => exact ⟨rfl, rfl⟩
  | bit => exact ⟨Or.inl rfl, rfl⟩
  | eqz l =>
    refine ⟨Or.inl rfl, iff_of_false (fun h => ?_) (by decide)⟩
    have := h 0 (Nat.two_pow_pos _)
    simp at this

theorem Kind.Rel.of_tab {kd : Kind} {n : ℕ} {f g h : ℕ → Ring}
    (he : ∀ i < n, kd.Entry (f i) (g i) (h i)) : kd.Rel (tab n f) (tab n g) (tab n h) where
  left := by simp
  right := by simp
  entry i := by
    simp only [tab_getD]
    split
    · exact he i ‹_›
    · exact kd.entry_zero

theorem Kind.Rel.of_prefix {kd : Kind} {n m : ℕ} {f g h : ℕ → Ring}
    (he : ∀ i < m, kd.Entry (f i) (g i) (h i)) :
    kd.Rel (tab n fun i => if i < m then f i else 0) (tab n fun i => if i < m then g i else 0)
      (tab n fun i => if i < m then h i else 0) := by
  refine .of_tab fun i _ => ?_
  split
  · exact he i ‹_›
  · exact kd.entry_zero

theorem Kind.Rel.pub_eq {a b v : Vec} (h : Kind.pub.Rel a b v) : a = v ∧ b = v :=
  ⟨ext_getD 0 h.left fun i _ => (h.entry i).1, ext_getD 0 h.right fun i _ => (h.entry i).2⟩

abbrev Shares (a b v : Vec) : Prop := Kind.add.Rel a b v

theorem Shares.sum {a b v : Vec} (h : Shares a b v) (i : ℕ) :
    a.getD i 0 + b.getD i 0 = v.getD i 0 := h.entry i

theorem Shares.of_tab {n : ℕ} {f g h : ℕ → Ring} (he : ∀ i < n, f i + g i = h i) :
    Shares (tab n f) (tab n g) (tab n h) := Kind.Rel.of_tab he

theorem shares_zipWith {x0 x1 : Vec} (h : x0.length = x1.length) :
    Shares x0 x1 (List.zipWith (· + ·) x0 x1) := by
  refine ⟨by simp [h], by simp [h], fun i => ?_⟩
  rw [Kind.Entry]
  simp only [List.getD_eq_getElem?_getD, List.getElem?_zipWith]
  by_cases hi : i < x0.length
  · rw [List.getElem?_eq_getElem hi, List.getElem?_eq_getElem (h ▸ hi)]
    rfl
  · rw [List.getElem?_eq_none (not_lt.mp hi), List.getElem?_eq_none (h ▸ not_lt.mp hi)]
    rfl

theorem zipWith_shares {o0 o1 v : Vec} (h : Shares o0 o1 v) : List.zipWith (· + ·) o0 o1 = v := by
  apply ext_getD 0 (by simp [h.left, h.right])
  intro i hi
  rw [← h.sum]
  simp only [List.length_zipWith, h.left, h.right, Nat.min_self] at hi
  simp only [List.getD_eq_getElem?_getD, List.getElem?_zipWith,
    List.getElem?_eq_getElem (h.left ▸ hi : i < o0.length),
    List.getElem?_eq_getElem (h.right ▸ hi : i < o1.length)]
  rfl

def WiresRel (kd : ℕ → Kind) (w0 w1 v : ℕ → Vec) (r : ℕ) : Prop := (kd r).Rel (w0 r) (w1 r) (v r)

section ready

variable (conf : ProtocolConfig) (v : ℕ → Vec) (kd : ℕ → Kind)

def Full (w : ℕ) : Prop := kd w = .add ∧ conf.size ≤ (v w).length

def Ready (f : Gate) : Prop :=
  match f.type with
  | .input | .setConstVecSIMD => kd f.outIdx = .add
  | .output => Full conf v kd f.in1Idx
  | .shuffle | .unshuffle | .mergedShuffle | .addConstSIMD | .mulConstSIMD | .flip | .gather1
  | .deduplicationSub => Full conf v kd f.in1Idx ∧ kd f.outIdx = .add
  | .compaction => Full conf v kd f.in1Idx ∧ kd f.outIdx = .add ∧ f.binary = false ∧
      ∀ i < conf.size, IsBit ((v f.in1Idx).getD i 0)
  | .reveal => kd f.in1Idx = .add ∧ kd f.outIdx = .pub ∧
      ∃ σ, Keeps conf.size σ ∧ v f.in1Idx = (ofPerm conf.size σ).permVec
  | .permute | .reversePermute => Full conf v kd f.in1Idx ∧ kd f.outIdx = .add ∧
      kd f.in2Idx = .pub ∧ ∃ σ, Keeps conf.size σ ∧ v f.in2Idx = (ofPerm conf.size σ).permVec
  | .propagate1 => Full conf v kd f.in1Idx ∧ kd f.outIdx = .add ∧ 0 < conf.nodes ∧
      conf.nodes ≤ conf.size
  | .gather2 => Full conf v kd f.in1Idx ∧ kd f.outIdx = .add ∧ conf.nodes ≤ conf.size
  | .removeEdgeData => Full conf v kd f.in1Idx ∧ kd f.outIdx = .add ∧ f.size ≤ conf.size
  | .insert => kd f.in1Idx = .add ∧ kd f.outIdx = .add
  | .addSIMD | .subSIMD | .propagate2 =>
      Full conf v kd f.in1Idx ∧ Full conf v kd f.in2Idx ∧ kd f.outIdx = .add
  | .mulSIMD => f.size ≤ conf.size ∧ f.size ≤ (v f.in1Idx).length ∧
      f.size ≤ (v f.in2Idx).length ∧ kd f.in1Idx = (if f.binary then .bit else .add) ∧
        kd f.in2Idx = (if f.binary then .bit else .add) ∧
          kd f.outIdx = if f.binary then .bit else .add
  | .eqz => f.size ≤ conf.size ∧ f.size ≤ (v f.in1Idx).length ∧ f.layer ≤ 4 ∧ f.binary = true ∧
      kd f.in1Idx = (if f.layer = 0 then .add else .eqz (f.layer - 1)) ∧
        kd f.outIdx = if f.layer = 4 then .bit else .eqz f.layer
  | .bit2A => f.size ≤ conf.size ∧ f.size ≤ (v f.in1Idx).length ∧ f.binary = false ∧
      kd f.in1Idx = .bit ∧ kd f.outIdx = .add
  | .columnSumsToNodes => conf.nodes ≤ f.dataParallel.length ∧ conf.nodes ≤ conf.size ∧
      (∀ r ∈ f.dataParallel.take conf.nodes, Full conf v kd r) ∧ kd f.outIdx = .add
  | _ => False

variable {conf v kd} {v' : ℕ → Vec} {f : Gate}

theorem Ready.of_lengths (hr : Ready conf v kd f)
    (hl : ∀ r ∈ f.reads conf.nodes, (v' r).length = (v r).length)
    (hx : f.type = .compaction ∨ f.type = .reveal → v' f.in1Idx = v f.in1Idx)
    (hp : f.type = .permute ∨ f.type = .reversePermute → v' f.in2Idx = v f.in2Idx) :
    Ready conf v' kd f := by
  cases ht : f.type
  case columnSumsToNodes =>
    simp only [Ready, Full, ht, Gate.reads] at hl hr ⊢
    exact ⟨hr.1, hr.2.1, fun r hm => by rw [hl r hm]; exact hr.2.2.1 r hm, hr.2.2.2⟩
  all_goals
    simp only [Ready, Full, ht, Gate.reads, List.forall_mem_cons] at hl hr ⊢
  all_goals simpa only [hl, hx, hp, ht, true_or, or_true] using hr

end ready

section localGates

variable {conf : ProtocolConfig} {f : Gate} {kd : ℕ → Kind} {w0 w1 v : ℕ → Vec}

def LocalShares (conf : ProtocolConfig) (f : Gate) (w0 w1 v : ℕ → Vec) : Prop :=
  ∃ a b out, localGate conf .p0 f w0 = some a ∧ localGate conf .p1 f w1 = some b ∧
    localGate conf .p0 f v = some out ∧ Shares a b out

theorem LocalShares.of_tab {m : ℕ} {x y z : ℕ → Ring}
    (h0 : localGate conf .p0 f w0 = some (tab m x)) (h1 : localGate conf .p1 f w1 = some (tab m y))
    (h : localGate conf .p0 f v = some (tab m z)) (hs : ∀ i < m, x i + y i = z i) :
    LocalShares conf f w0 w1 v :=
  ⟨_, _, _, h0, h1, h, Shares.of_tab hs⟩

def Gate.isLocal (f : Gate) : Prop :=
  f.type ≠ .input ∧ f.type ≠ .output ∧ f.type ≠ .setConstVecSIMD ∧ f.interactive = false

theorem Full.shares {r : ℕ} (hf : Full conf v kd r) (h : WiresRel kd w0 w1 v r) :
    Shares (w0 r) (w1 r) (v r) := by
  rw [WiresRel, hf.1] at h
  exact h

theorem Shares.le_length {a b x : Vec} (h : Shares a b x) {n : ℕ} (hn : n ≤ x.length) :
    n ≤ a.length ∧ n ≤ b.length :=
  ⟨h.left ▸ hn, h.right ▸ hn⟩

theorem Shares.prefixSum {a b x : Vec} (h : Shares a b x) (n : ℕ) :
    prefixSum (fun j => a.getD j 0) n + prefixSum (fun j => b.getD j 0) n =
      prefixSum (fun j => x.getD j 0) n := by
  rw [prefixSum_add]
  exact prefixSum_congr fun j _ => h.sum j

section unary

variable (hs : Shares (w0 f.in1Idx) (w1 f.in1Idx) (v f.in1Idx))
  (hn : conf.size ≤ (v f.in1Idx).length)

include hs hn

theorem shares_permute (ht : f.type = .permute) {σ : Equiv.Perm ℕ} (hσ : Keeps conf.size σ)
    (hp : v f.in2Idx = (ofPerm conf.size σ).permVec) (h0 : w0 f.in2Idx = v f.in2Idx)
    (h1 : w1 f.in2Idx = v f.in2Idx) : LocalShares conf f w0 w1 v := by
  obtain ⟨hn0, hn1⟩ := hs.le_length hn
  exact .of_tab (localGate_permute .p0 ht hσ (h0.trans hp) hn0)
    (localGate_permute .p1 ht hσ (h1.trans hp) hn1) (localGate_permute .p0 ht hσ hp hn)
    fun i _ => hs.sum _

theorem shares_reversePermute (ht : f.type = .reversePermute) {σ : Equiv.Perm ℕ}
    (hσ : Keeps conf.size σ) (hp : v f.in2Idx = (ofPerm conf.size σ).permVec)
    (h0 : w0 f.in2Idx = v f.in2Idx) (h1 : w1 f.in2Idx = v f.in2Idx) :
    LocalShares conf f w0 w1 v := by
  obtain ⟨hn0, hn1⟩ := hs.le_length hn
  exact .of_tab (localGate_reversePermute .p0 ht hσ (h0.trans hp) hn0)
    (localGate_reversePermute .p1 ht hσ (h1.trans hp) hn1)
    (localGate_reversePermute .p0 ht hσ hp hn) fun i _ => hs.sum _

theorem shares_addConstSIMD (ht : f.type = .addConstSIMD) : LocalShares conf f w0 w1 v := by
  obtain ⟨hn0, hn1⟩ := hs.le_length hn
  refine .of_tab (localGate_addConstSIMD .p0 ht hn0) (localGate_addConstSIMD .p1 ht hn1)
    (localGate_addConstSIMD .p0 ht hn) fun i _ => ?_
  simp only [← hs.sum i, true_and, reduceCtorEq, false_and, if_false]
  split_ifs <;> ring

theorem shares_mulConstSIMD (ht : f.type = .mulConstSIMD) : LocalShares conf f w0 w1 v := by
  obtain ⟨hn0, hn1⟩ := hs.le_length hn
  refine .of_tab (localGate_mulConstSIMD .p0 ht hn0) (localGate_mulConstSIMD .p1 ht hn1)
    (localGate_mulConstSIMD .p0 ht hn) fun i _ => ?_
  rw [← hs.sum i]
  ring

theorem shares_flip (ht : f.type = .flip) : LocalShares conf f w0 w1 v := by
  obtain ⟨hn0, hn1⟩ := hs.le_length hn
  refine .of_tab (localGate_flip .p0 ht hn0) (localGate_flip .p1 ht hn1)
    (localGate_flip .p0 ht hn) fun i _ => ?_
  simp only [← hs.sum i, if_true, reduceCtorEq, if_false]
  ring

theorem shares_removeEdgeData (ht : f.type = .removeEdgeData) (hz : f.size ≤ conf.size) :
    LocalShares conf f w0 w1 v := by
  obtain ⟨hn0, hn1⟩ := hs.le_length (hz.trans hn)
  refine .of_tab (localGate_removeEdgeData .p0 ht hz hn0) (localGate_removeEdgeData .p1 ht hz hn1)
    (localGate_removeEdgeData .p0 ht hz (hz.trans hn)) fun i _ => ?_
  split_ifs
  · exact hs.sum i
  · exact add_zero 0

theorem shares_propagate1 (ht : f.type = .propagate1) (h0 : 0 < conf.nodes)
    (hz : conf.nodes ≤ conf.size) : LocalShares conf f w0 w1 v := by
  obtain ⟨hn0, hn1⟩ := hs.le_length hn
  refine .of_tab (localGate_propagate1 .p0 ht h0 hz hn0) (localGate_propagate1 .p1 ht h0 hz hn1)
    (localGate_propagate1 .p0 ht h0 hz hn) fun i _ => ?_
  simp only [← hs.sum]
  split_ifs <;> ring

theorem shares_gather1 (ht : f.type = .gather1) : LocalShares conf f w0 w1 v := by
  obtain ⟨hn0, hn1⟩ := hs.le_length hn
  exact .of_tab (localGate_gather1 .p0 ht hn0) (localGate_gather1 .p1 ht hn1)
    (localGate_gather1 .p0 ht hn) fun i _ => hs.prefixSum _

theorem shares_gather2 (ht : f.type = .gather2) (hz : conf.nodes ≤ conf.size) :
    LocalShares conf f w0 w1 v := by
  obtain ⟨hn0, hn1⟩ := hs.le_length (hz.trans hn)
  refine .of_tab (localGate_gather2 .p0 ht hz hn0) (localGate_gather2 .p1 ht hz hn1)
    (localGate_gather2 .p0 ht hz (hz.trans hn)) fun i _ => ?_
  simp only [← hs.sum]
  split_ifs <;> ring

theorem shares_deduplicationSub (ht : f.type = .deduplicationSub) :
    LocalShares conf f w0 w1 v := by
  obtain ⟨hn0, hn1⟩ := hs.le_length hn
  refine .of_tab (localGate_deduplicationSub .p0 ht hn0) (localGate_deduplicationSub .p1 ht hn1)
    (localGate_deduplicationSub .p0 ht hn) fun i _ => ?_
  simp only [← hs.sum]
  ring

section binary

variable (hs' : Shares (w0 f.in2Idx) (w1 f.in2Idx) (v f.in2Idx))
  (hn' : conf.size ≤ (v f.in2Idx).length)

include hs' hn'

theorem shares_addSIMD (ht : f.type = .addSIMD) : LocalShares conf f w0 w1 v := by
  obtain ⟨hn0, hn1⟩ := hs.le_length hn
  obtain ⟨hm0, hm1⟩ := hs'.le_length hn'
  refine .of_tab (localGate_addSIMD .p0 ht hn0 hm0) (localGate_addSIMD .p1 ht hn1 hm1)
    (localGate_addSIMD .p0 ht hn hn') fun i _ => ?_
  rw [← hs.sum, ← hs'.sum]
  ring

theorem shares_subSIMD (ht : f.type = .subSIMD) : LocalShares conf f w0 w1 v := by
  obtain ⟨hn0, hn1⟩ := hs.le_length hn
  obtain ⟨hm0, hm1⟩ := hs'.le_length hn'
  refine .of_tab (localGate_subSIMD .p0 ht hn0 hm0) (localGate_subSIMD .p1 ht hn1 hm1)
    (localGate_subSIMD .p0 ht hn hn') fun i _ => ?_
  rw [← hs.sum, ← hs'.sum]
  ring

theorem shares_propagate2 (ht : f.type = .propagate2) : LocalShares conf f w0 w1 v := by
  obtain ⟨hn0, hn1⟩ := hs.le_length hn
  obtain ⟨hm0, hm1⟩ := hs'.le_length hn'
  refine .of_tab (localGate_propagate2 .p0 ht hn0 hm0) (localGate_propagate2 .p1 ht hn1 hm1)
    (localGate_propagate2 .p0 ht hn hn') fun i _ => ?_
  rw [← hs.prefixSum, ← hs'.sum]
  ring

end binary

end unary

theorem shares_insert (ht : f.type = .insert)
    (hs : Shares (w0 f.in1Idx) (w1 f.in1Idx) (v f.in1Idx)) : LocalShares conf f w0 w1 v := by
  refine ⟨_, _, _, localGate_insert .p0 ht, localGate_insert .p1 ht, localGate_insert .p0 ht,
    by simp [hs.left], by simp [hs.right], fun i => ?_⟩
  cases i with
  | zero => exact add_zero 0
  | succ i => exact hs.sum i

theorem shares_columnSums (ht : f.type = .columnSumsToNodes)
    (hl : conf.nodes ≤ f.dataParallel.length) (hz : conf.nodes ≤ conf.size)
    (hs : ∀ r ∈ f.dataParallel.take conf.nodes, Shares (w0 r) (w1 r) (v r))
    (hn : ∀ r ∈ f.dataParallel.take conf.nodes, conf.size ≤ (v r).length) :
    LocalShares conf f w0 w1 v := by
  have hn' : ∀ r ∈ f.dataParallel.take conf.nodes, conf.nodes ≤ (v r).length :=
    fun r hr => hz.trans (hn r hr)
  refine .of_tab (localGate_columnSums .p0 ht hl hz fun r hr => (hs r hr).left ▸ hn' r hr)
    (localGate_columnSums .p1 ht hl hz fun r hr => (hs r hr).right ▸ hn' r hr)
    (localGate_columnSums .p0 ht hl hz hn') fun i _ => ?_
  split_ifs with hi
  · refine (hs _ ?_).prefixSum _
    have hlt : i < f.dataParallel.length := hi.trans_le hl
    rw [List.getD_eq_getElem _ _ hlt]
    exact List.mem_take_iff_getElem.mpr ⟨i, by omega, rfl⟩
  · exact add_zero 0

theorem localShares_of_ready (hr : Ready conf v kd f) (hl : f.isLocal)
    (hw : ∀ r ∈ f.reads conf.nodes, WiresRel kd w0 w1 v r) : LocalShares conf f w0 w1 v := by
  obtain ⟨hin, hout, hconst, hint⟩ := hl
  have h1 : ∀ {r}, Full conf v kd r → r ∈ f.reads conf.nodes → Shares (w0 r) (w1 r) (v r) :=
    fun hf hmem => hf.shares (hw _ hmem)
  have hpub : kd f.in2Idx = .pub → f.in2Idx ∈ f.reads conf.nodes →
      w0 f.in2Idx = v f.in2Idx ∧ w1 f.in2Idx = v f.in2Idx := by
    intro hk hmem
    have := hw _ hmem
    rw [WiresRel, hk] at this
    exact this.pub_eq
  cases ht : f.type
  case input => exact absurd ht hin
  case output => exact absurd ht hout
  case setConstVecSIMD => exact absurd ht hconst
  all_goals simp only [Ready, ht] at hr
  case permute =>
    obtain ⟨hf, -, hk, σ, hσ, hp⟩ := hr
    obtain ⟨hp0, hp1⟩ := hpub hk (by simp [Gate.reads, ht])
    exact shares_permute (h1 hf (by simp [Gate.reads, ht])) hf.2 ht hσ hp hp0 hp1
  case reversePermute =>
    obtain ⟨hf, -, hk, σ, hσ, hp⟩ := hr
    obtain ⟨hp0, hp1⟩ := hpub hk (by simp [Gate.reads, ht])
    exact shares_reversePermute (h1 hf (by simp [Gate.reads, ht])) hf.2 ht hσ hp hp0 hp1
  case addConstSIMD => exact shares_addConstSIMD (h1 hr.1 (by simp [Gate.reads, ht])) hr.1.2 ht
  case mulConstSIMD => exact shares_mulConstSIMD (h1 hr.1 (by simp [Gate.reads, ht])) hr.1.2 ht
  case flip => exact shares_flip (h1 hr.1 (by simp [Gate.reads, ht])) hr.1.2 ht
  case gather1 => exact shares_gather1 (h1 hr.1 (by simp [Gate.reads, ht])) hr.1.2 ht
  case gather2 =>
    exact shares_gather2 (h1 hr.1 (by simp [Gate.reads, ht])) hr.1.2 ht hr.2.2
  case removeEdgeData =>
    exact shares_removeEdgeData (h1 hr.1 (by simp [Gate.reads, ht])) hr.1.2 ht hr.2.2
  case propagate1 =>
    exact shares_propagate1 (h1 hr.1 (by simp [Gate.reads, ht])) hr.1.2 ht hr.2.2.1 hr.2.2.2
  case deduplicationSub =>
    exact shares_deduplicationSub (h1 hr.1 (by simp [Gate.reads, ht])) hr.1.2 ht
  case addSIMD =>
    exact shares_addSIMD (h1 hr.1 (by simp [Gate.reads, ht])) hr.1.2
      (h1 hr.2.1 (by simp [Gate.reads, ht])) hr.2.1.2 ht
  case subSIMD =>
    exact shares_subSIMD (h1 hr.1 (by simp [Gate.reads, ht])) hr.1.2
      (h1 hr.2.1 (by simp [Gate.reads, ht])) hr.2.1.2 ht
  case propagate2 =>
    exact shares_propagate2 (h1 hr.1 (by simp [Gate.reads, ht])) hr.1.2
      (h1 hr.2.1 (by simp [Gate.reads, ht])) hr.2.1.2 ht
  case insert =>
    refine shares_insert ht ?_
    have := hw f.in1Idx (by simp [Gate.reads, ht])
    rwa [WiresRel, hr.1] at this
  case columnSumsToNodes =>
    obtain ⟨hl, hz, hf, -⟩ := hr
    exact shares_columnSums ht hl hz
      (fun r hmem => h1 (hf r hmem) (by simpa [Gate.reads, ht] using hmem))
      fun r hmem => (hf r hmem).2
  all_goals simp [Gate.interactive, ht] at hint

end localGates

end GraphMpc
