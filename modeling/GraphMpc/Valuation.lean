import GraphMpc.Blocks
import GraphMpc.Sharing

namespace GraphMpc

open Tabulate Permutation StableOrder

def Gate.kind (f : Gate) : Kind :=
  match f.type with
  | .reveal => .pub
  | .eqz => if f.layer = 4 then .bit else .eqz f.layer
  | .mulSIMD => if f.binary then .bit else .add
  | _ => .add

structure Valuation (conf : ProtocolConfig) where
  gates : List Gate
  perm : ℕ → Equiv.Perm ℕ
  inp : ℕ → Vec
  val : ℕ → Vec
  kd : ℕ → Kind
  keeps : ∀ idx, Keeps conf.size (perm idx)
  solves : ∀ f ∈ gates, f.type ≠ .output → val f.outIdx =
    clearGate conf (fun idx => ofPerm conf.size (perm idx)) inp f val
  kind : ∀ f ∈ gates, f.type ≠ .output → kd f.outIdx = f.kind

namespace Valuation

variable {conf : ProtocolConfig} (V : Valuation conf)

def Holds (w : ℕ) (x : ℕ → Ring) : Prop := V.kd w = .add ∧ V.val w = tab conf.size x

def Bits (w : ℕ) (b : ℕ → Bool) : Prop := V.Holds w fun i => if b i then 1 else 0

def Order (w : ℕ) (ρ : Equiv.Perm ℕ) : Prop :=
  Keeps conf.size ρ ∧ V.Holds w fun i => BitVec.ofNat 32 (ρ i)

def Opens (w : ℕ) (σ : Equiv.Perm ℕ) : Prop :=
  Keeps conf.size σ ∧ V.kd w = .pub ∧ V.val w = (ofPerm conf.size σ).permVec

abbrev Good (f : Gate) : Prop := Ready conf V.val V.kd f

def Yields (f : Gate) (x : ℕ → Ring) : Prop := V.Good f ∧ V.Holds f.outIdx x

variable {V} {f : Gate} {x y : ℕ → Ring} {w : ℕ}

theorem Holds.congr (h : V.Holds w x) (he : ∀ i < conf.size, x i = y i) : V.Holds w y :=
  ⟨h.1, h.2.trans (tab_congr he)⟩

theorem Holds.full (h : V.Holds w x) : Full conf V.val V.kd w := ⟨h.1, by rw [h.2, tab_length]⟩

theorem Holds.getD (h : V.Holds w x) {i : ℕ} (hi : i < conf.size) : (V.val w).getD i 0 = x i := by
  rw [h.2, tab_getD_lt _ _ hi]

-- a vector that may be longer than the list, of which only the first entries count
def Begins (V : Valuation conf) (w : ℕ) (x : ℕ → Ring) : Prop :=
  Full conf V.val V.kd w ∧ ∀ i < conf.size, (V.val w).getD i 0 = x i

theorem Holds.begins (h : V.Holds w x) : V.Begins w x := ⟨h.full, fun _ hi => h.getD hi⟩

theorem Bits.isBit {b : ℕ → Bool} (h : V.Bits w b) {i : ℕ} (hi : i < conf.size) :
    IsBit ((V.val w).getD i 0) := by
  rw [Holds.getD h hi]
  split
  · exact Or.inr rfl
  · exact Or.inl rfl

theorem Bits.entry {b : ℕ → Bool} (h : V.Bits w b) {i : ℕ} (hi : i < conf.size) :
    ((V.val w).getD i 0 != 0) = b i := by
  rw [Holds.getD h hi]
  cases b i <;> rfl

theorem Bits.congr {b b' : ℕ → Bool} (h : V.Bits w b) (he : ∀ i < conf.size, b i = b' i) :
    V.Bits w b' :=
  Holds.congr h fun i hi => by rw [he i hi]

theorem Yields.intro (hf : f ∈ V.gates) (ho : f.type ≠ .output) (hk : f.kind = .add)
    (hr : V.kd f.outIdx = .add → V.Good f)
    (hv : clearGate conf (fun idx => ofPerm conf.size (V.perm idx)) V.inp f V.val =
      tab conf.size x) : V.Yields f x := by
  have hkd := (V.kind f hf ho).trans hk
  exact ⟨hr hkd, hkd, (V.solves f hf ho).trans hv⟩

section gates

variable (hf : f ∈ V.gates)

include hf

theorem yields_shuffle (ht : f.type = .shuffle) (hx : V.Holds f.in1Idx x) :
    V.Yields f fun i => x ((V.perm f.shuffleIdx).symm i) := by
  refine .intro hf (by simp [ht]) (by simp [Gate.kind, ht]) (fun hk => ?_) ?_
  · simp only [Ready, ht]
    exact ⟨hx.full, hk⟩
  · simp only [clearGate, ht]
    rw [apply_ofPerm conf.size_le (V.keeps _)]
    exact tab_congr fun i hi => hx.getD ((V.keeps _).symm_lt hi)

theorem yields_unshuffle (ht : f.type = .unshuffle) (hx : V.Holds f.in1Idx x) :
    V.Yields f fun i => x (V.perm f.shuffleIdx i) := by
  refine .intro hf (by simp [ht]) (by simp [Gate.kind, ht]) (fun hk => ?_) ?_
  · simp only [Ready, ht]
    exact ⟨hx.full, hk⟩
  · simp only [clearGate, ht]
    rw [inverse_ofPerm conf.size_le (V.keeps _), apply_ofPerm conf.size_le (V.keeps _).inv]
    exact tab_congr fun i hi => hx.getD ((V.keeps _).lt hi)

theorem yields_mergedShuffle (ht : f.type = .mergedShuffle) (hx : V.Holds f.in1Idx x) :
    V.Yields f fun i => x (V.perm f.piIdx ((V.perm f.omegaIdx).symm i)) := by
  refine .intro hf (by simp [ht]) (by simp [Gate.kind, ht]) (fun hk => ?_) ?_
  · simp only [Ready, ht]
    exact ⟨hx.full, hk⟩
  · simp only [clearGate, ht]
    rw [inverse_ofPerm conf.size_le (V.keeps _), mul_ofPerm conf.size_le (V.keeps _).inv,
      apply_ofPerm conf.size_le ((V.keeps _).mul (V.keeps _).inv)]
    exact tab_congr fun i hi => hx.getD ((V.keeps _).lt ((V.keeps _).symm_lt hi))

theorem opens_reveal (ht : f.type = .reveal) {σ : Equiv.Perm ℕ} (hσ : Keeps conf.size σ)
    (hx : V.Holds f.in1Idx fun i => BitVec.ofNat 32 (σ i)) : V.Good f ∧ V.Opens f.outIdx σ := by
  have hk : V.kd f.outIdx = .pub := by
    rw [V.kind f hf (by simp [ht]), Gate.kind, ht]
  refine ⟨?_, hσ, hk, ?_⟩
  · simp only [Good, Ready, ht]
    exact ⟨hx.1, hk, σ, hσ, hx.2⟩
  · rw [V.solves f hf (by simp [ht])]
    simp only [clearGate, ht]
    exact hx.2

theorem yields_permute (ht : f.type = .permute) {σ : Equiv.Perm ℕ} (hx : V.Holds f.in1Idx x)
    (hσ : V.Opens f.in2Idx σ) : V.Yields f fun i => x (σ.symm i) := by
  obtain ⟨hkeeps, hpub, hval⟩ := hσ
  refine .intro hf (by simp [ht]) (by simp [Gate.kind, ht]) (fun hk => ?_) ?_
  · simp only [Ready, ht]
    exact ⟨hx.full, hk, hpub, σ, hkeeps, hval⟩
  · simp only [clearGate, ht]
    rw [localGate_permute .p0 ht hkeeps hval hx.full.2]
    exact tab_congr fun i hi => hx.getD (hkeeps.symm_lt hi)

theorem yields_reversePermute (ht : f.type = .reversePermute) {σ : Equiv.Perm ℕ}
    (hx : V.Begins f.in1Idx x) (hσ : V.Opens f.in2Idx σ) : V.Yields f fun i => x (σ i) := by
  obtain ⟨hkeeps, hpub, hval⟩ := hσ
  refine .intro hf (by simp [ht]) (by simp [Gate.kind, ht]) (fun hk => ?_) ?_
  · simp only [Ready, ht]
    exact ⟨hx.1, hk, hpub, σ, hkeeps, hval⟩
  · simp only [clearGate, ht]
    rw [localGate_reversePermute .p0 ht hkeeps hval hx.1.2]
    exact tab_congr fun i hi => hx.2 _ (hkeeps.lt hi)

theorem yields_compaction (ht : f.type = .compaction) (hb : f.binary = false) {b : ℕ → Bool}
    (hx : V.Bits f.in1Idx b) :
    V.Good f ∧ V.Order f.outIdx (partition conf.size b) := by
  have h : V.Yields f fun i => BitVec.ofNat 32 (partition conf.size b i) := by
    refine .intro hf (by simp [ht]) (by simp [Gate.kind, ht]) (fun hk => ?_) ?_
    · simp only [Ready, ht]
      exact ⟨Holds.full hx, hk, hb, fun i hi => hx.isBit hi⟩
    · simp only [clearGate, ht, destinations]
      refine tab_congr fun i hi => ?_
      rw [partition_apply hi, dest_congr (fun j hj => hx.entry hj) hi]
  exact ⟨h.1, partition_keeps _ _, h.2⟩

theorem yields_flip (ht : f.type = .flip) (hx : V.Holds f.in1Idx x) :
    V.Yields f fun i => 1 - x i := by
  refine .intro hf (by simp [ht]) (by simp [Gate.kind, ht]) (fun hk => ?_) ?_
  · simp only [Ready, ht]
    exact ⟨hx.full, hk⟩
  · simp only [clearGate, ht]
    rw [localGate_flip .p0 ht hx.full.2]
    exact tab_congr fun i hi => by rw [if_pos rfl, hx.getD hi]

theorem yields_addConstSIMD (ht : f.type = .addConstSIMD) (hx : V.Holds f.in1Idx x) :
    V.Yields f fun i => if i < conf.nodes then x i + f.val else x i := by
  refine .intro hf (by simp [ht]) (by simp [Gate.kind, ht]) (fun hk => ?_) ?_
  · simp only [Ready, ht]
    exact ⟨hx.full, hk⟩
  · simp only [clearGate, ht]
    rw [localGate_addConstSIMD .p0 ht hx.full.2]
    exact tab_congr fun i hi => by simp only [true_and, hx.getD hi]

theorem yields_mulConstSIMD (ht : f.type = .mulConstSIMD) (hx : V.Holds f.in1Idx x) :
    V.Yields f fun i => x i * f.val := by
  refine .intro hf (by simp [ht]) (by simp [Gate.kind, ht]) (fun hk => ?_) ?_
  · simp only [Ready, ht]
    exact ⟨hx.full, hk⟩
  · simp only [clearGate, ht]
    rw [localGate_mulConstSIMD .p0 ht hx.full.2]
    exact tab_congr fun i hi => by rw [hx.getD hi]

theorem yields_addSIMD (ht : f.type = .addSIMD) (hx : V.Holds f.in1Idx x)
    (hy : V.Holds f.in2Idx y) : V.Yields f fun i => x i + y i := by
  refine .intro hf (by simp [ht]) (by simp [Gate.kind, ht]) (fun hk => ?_) ?_
  · simp only [Ready, ht]
    exact ⟨hx.full, hy.full, hk⟩
  · simp only [clearGate, ht]
    rw [localGate_addSIMD .p0 ht hx.full.2 hy.full.2]
    exact tab_congr fun i hi => by rw [hx.getD hi, hy.getD hi]

theorem yields_subSIMD (ht : f.type = .subSIMD) (hx : V.Holds f.in1Idx x)
    (hy : V.Holds f.in2Idx y) : V.Yields f fun i => x i - y i := by
  refine .intro hf (by simp [ht]) (by simp [Gate.kind, ht]) (fun hk => ?_) ?_
  · simp only [Ready, ht]
    exact ⟨hx.full, hy.full, hk⟩
  · simp only [clearGate, ht]
    rw [localGate_subSIMD .p0 ht hx.full.2 hy.full.2]
    exact tab_congr fun i hi => by rw [hx.getD hi, hy.getD hi]

theorem yields_mulSIMD (ht : f.type = .mulSIMD) (hb : f.binary = false)
    (hs : f.size ≤ conf.size) (hx : V.Holds f.in1Idx x) (hy : V.Holds f.in2Idx y) :
    V.Yields f fun i => if i < f.size then x i * y i else 0 := by
  refine .intro hf (by simp [ht]) (by simp [Gate.kind, ht, hb]) (fun hk => ?_) ?_
  · simp only [Ready, ht, hb]
    exact ⟨hs, hs.trans hx.full.2, hs.trans hy.full.2, hx.1, hy.1, hk⟩
  · simp only [clearGate, ht, hb]
    exact tab_congr fun i hi => by simp only [hx.getD hi, hy.getD hi, Bool.false_eq_true, if_false]

theorem yields_setConstVecSIMD (ht : f.type = .setConstVecSIMD) (hl : f.vals.length ≤ conf.size) :
    V.Yields f fun i => f.vals.getD i 0 := by
  refine .intro hf (by simp [ht]) (by simp [Gate.kind, ht]) (fun hk => ?_) ?_
  · simpa only [Ready, ht] using hk
  · simp only [clearGate, ht, Storage.constVals]
    refine eq_tab 0 (by simp [hl]) fun i _ => ?_
    simp only [List.getD_eq_getElem?_getD]
    rcases Nat.lt_or_ge i f.vals.length with hlt | hge
    · rw [List.getElem?_append_left hlt]
    · rw [List.getElem?_append_right hge, List.getElem?_eq_none hge, List.getElem?_replicate]
      split <;> rfl

theorem yields_propagate1 (ht : f.type = .propagate1) (h0 : 0 < conf.nodes)
    (hz : conf.nodes ≤ conf.size) (hx : V.Holds f.in1Idx x) :
    V.Yields f fun i => if 0 < i ∧ i < conf.nodes then x i - x (i - 1) else x i := by
  refine .intro hf (by simp [ht]) (by simp [Gate.kind, ht]) (fun hk => ?_) ?_
  · simp only [Ready, ht]
    exact ⟨hx.full, hk, h0, hz⟩
  · simp only [clearGate, ht]
    rw [localGate_propagate1 .p0 ht h0 hz hx.full.2]
    exact tab_congr fun i hi => by rw [hx.getD hi, hx.getD (by omega)]

theorem yields_propagate2 (ht : f.type = .propagate2) (hx : V.Holds f.in1Idx x)
    (hy : V.Holds f.in2Idx y) : V.Yields f fun i => prefixSum x (i + 1) - y i := by
  refine .intro hf (by simp [ht]) (by simp [Gate.kind, ht]) (fun hk => ?_) ?_
  · simp only [Ready, ht]
    exact ⟨hx.full, hy.full, hk⟩
  · simp only [clearGate, ht]
    rw [localGate_propagate2 .p0 ht hx.full.2 hy.full.2]
    refine tab_congr fun i hi => ?_
    rw [hy.getD hi, prefixSum_congr fun j hj => hx.getD (by omega)]

theorem yields_gather1 (ht : f.type = .gather1) (hx : V.Holds f.in1Idx x) :
    V.Yields f fun i => prefixSum x (i + 1) := by
  refine .intro hf (by simp [ht]) (by simp [Gate.kind, ht]) (fun hk => ?_) ?_
  · simp only [Ready, ht]
    exact ⟨hx.full, hk⟩
  · simp only [clearGate, ht]
    rw [localGate_gather1 .p0 ht hx.full.2]
    exact tab_congr fun i hi => prefixSum_congr fun j hj => hx.getD (by omega)

theorem yields_gather2 (ht : f.type = .gather2) (hz : conf.nodes ≤ conf.size)
    (hx : V.Holds f.in1Idx x) : V.Yields f fun i =>
      if i < conf.nodes then x i - if i = 0 then 0 else x (i - 1) else 0 := by
  refine .intro hf (by simp [ht]) (by simp [Gate.kind, ht]) (fun hk => ?_) ?_
  · simp only [Ready, ht]
    exact ⟨hx.full, hk, hz⟩
  · simp only [clearGate, ht]
    rw [localGate_gather2 .p0 ht hz (hz.trans hx.full.2)]
    exact tab_congr fun i hi => by rw [hx.getD hi, hx.getD (by omega)]

theorem yields_removeEdgeData (ht : f.type = .removeEdgeData) (hz : f.size ≤ conf.size)
    (hx : V.Holds f.in1Idx x) : V.Yields f fun i => if i < f.size then x i else 0 := by
  refine .intro hf (by simp [ht]) (by simp [Gate.kind, ht]) (fun hk => ?_) ?_
  · simp only [Ready, ht]
    exact ⟨hx.full, hk, hz⟩
  · simp only [clearGate, ht]
    rw [localGate_removeEdgeData .p0 ht hz (hz.trans hx.full.2)]
    exact tab_congr fun i hi => by rw [hx.getD hi]

theorem yields_columnSums (ht : f.type = .columnSumsToNodes) (hz : conf.nodes ≤ conf.size)
    (hl : conf.nodes ≤ f.dataParallel.length) {col : ℕ → ℕ → Ring}
    (hx : ∀ i < conf.nodes, V.Holds (f.dataParallel.getD i 0) (col i)) :
    V.Yields f fun i => if i < conf.nodes then prefixSum (col i) conf.nodes else 0 := by
  have hfull : ∀ r ∈ f.dataParallel.take conf.nodes, Full conf V.val V.kd r := by
    intro r hr
    obtain ⟨i, hi, rfl⟩ := List.mem_take_iff_getElem.mp hr
    have hlt : i < f.dataParallel.length := hi.trans_le (Nat.min_le_right ..)
    have := (hx i (hi.trans_le (Nat.min_le_left ..))).full
    rwa [List.getD_eq_getElem _ _ hlt] at this
  refine .intro hf (by simp [ht]) (by simp [Gate.kind, ht]) (fun hk => ?_) ?_
  · simp only [Ready, ht]
    exact ⟨hl, hz, hfull, hk⟩
  · simp only [clearGate, ht]
    rw [localGate_columnSums .p0 ht hl hz fun r hr => hz.trans (hfull r hr).2]
    refine tab_congr fun i hi => ?_
    split_ifs with hin
    · exact prefixSum_congr fun j hj => (hx i hin).getD (by omega)
    · rfl

end gates

section flags

def Flags (V : Valuation conf) (w n : ℕ) (b : ℕ → Bool) : Prop :=
  V.kd w = .bit ∧ V.val w = tab conf.size fun i => if i < n then if b i then 1 else 0 else 0

variable {n : ℕ} {b c : ℕ → Bool} (hf : f ∈ V.gates)

include hf

theorem eqz_first (ht : f.type = .eqz) (hl : f.layer = 0) (hb : f.binary = true)
    (hk : V.kd f.in1Idx = .add) (hs : f.size ≤ conf.size)
    (hx : f.size ≤ (V.val f.in1Idx).length) : V.Good f ∧ V.kd f.outIdx = .eqz 0 ∧
      V.val f.outIdx = tab conf.size fun i => if i < f.size then
        if (V.val f.in1Idx).getD i 0 = 0 then 1 else 0 else 0 := by
  have hkd : V.kd f.outIdx = .eqz 0 := by simp [V.kind f hf, Gate.kind, ht, hl]
  refine ⟨?_, hkd, ?_⟩
  · simp [Good, Ready, ht, hl, hb, hk, hkd, hs, hx]
  · rw [V.solves f hf (by simp [ht])]
    simp only [clearGate, ht, hl, if_true]

theorem eqz_next (ht : f.type = .eqz) {l : ℕ} (hl : f.layer = l + 1) (hl4 : l < 4)
    (hb : f.binary = true) (hk : V.kd f.in1Idx = .eqz l) (hs : f.size ≤ conf.size)
    {z : ℕ → Ring} (hx : V.val f.in1Idx = tab conf.size fun i => if i < f.size then z i else 0) :
    V.Good f ∧ V.kd f.outIdx = (if l = 3 then .bit else .eqz (l + 1)) ∧
      V.val f.outIdx = tab conf.size fun i => if i < f.size then z i else 0 := by
  have hkd : V.kd f.outIdx = if l = 3 then .bit else .eqz (l + 1) := by
    simp [V.kind f hf, Gate.kind, ht, hl]
  refine ⟨?_, hkd, ?_⟩
  · simp [Good, Ready, ht, hl, hb, hk, hkd, hs, hx, Nat.succ_le_of_lt hl4]
  · rw [V.solves f hf (by simp [ht])]
    simp only [clearGate, ht, hl, Nat.succ_ne_zero, if_false]
    refine tab_congr fun i hi => ?_
    rw [hx, tab_getD_lt _ _ hi]
    split <;> rfl

theorem flags_and (ht : f.type = .mulSIMD) (hb : f.binary = true) (hs : f.size ≤ conf.size)
    (hx : V.Flags f.in1Idx f.size b) (hy : V.Flags f.in2Idx f.size c) :
    V.Good f ∧ V.Flags f.outIdx f.size fun i => b i && c i := by
  have hkd : V.kd f.outIdx = .bit := by simp [V.kind f hf, Gate.kind, ht, hb]
  refine ⟨?_, hkd, ?_⟩
  · simp [Good, Ready, ht, hb, hx.1, hy.1, hkd, hs, hx.2, hy.2]
  · rw [V.solves f hf (by simp [ht])]
    simp only [clearGate, ht, hb, if_true]
    refine tab_congr fun i hi => ?_
    rw [hx.2, hy.2, tab_getD_lt _ _ hi, tab_getD_lt _ _ hi]
    split_ifs <;> simp_all

theorem yields_bit2A (ht : f.type = .bit2A) (hb : f.binary = false) (hs : f.size ≤ conf.size)
    (hx : V.Flags f.in1Idx f.size b) :
    V.Good f ∧ V.Bits f.outIdx fun i => decide (i < f.size) && b i := by
  refine Yields.intro hf (by simp [ht]) (by simp [Gate.kind, ht]) (fun hk => ?_) ?_
  · simp only [Ready, ht]
    exact ⟨hs, by rw [hx.2, tab_length]; exact hs, hb, hx.1, hk⟩
  · simp only [clearGate, ht]
    refine tab_congr fun i hi => ?_
    rw [hx.2, tab_getD_lt _ _ hi]
    by_cases hlt : i < f.size
    · simp [hlt]
    · simp [hlt]

theorem deduplicationSub_entries (ht : f.type = .deduplicationSub) (hx : V.Holds f.in1Idx x) :
    V.Good f ∧ V.kd f.outIdx = .add ∧
      V.val f.outIdx = tab (conf.size - 1) fun i => x (i + 1) - x i := by
  have hkd : V.kd f.outIdx = .add := by simp [V.kind f hf, Gate.kind, ht]
  refine ⟨?_, hkd, ?_⟩
  · simp only [Good, Ready, ht]
    exact ⟨hx.full, hkd⟩
  · rw [V.solves f hf (by simp [ht])]
    simp only [clearGate, ht]
    rw [localGate_deduplicationSub .p0 ht hx.full.2]
    exact tab_congr fun i hi => by rw [hx.getD (by omega), hx.getD (by omega)]

theorem begins_insert (ht : f.type = .insert) (hx : V.Holds f.in1Idx x) :
    V.Good f ∧ V.Begins f.outIdx fun i => if i = 0 then 0 else x (i - 1) := by
  have hkd : V.kd f.outIdx = .add := by simp [V.kind f hf, Gate.kind, ht]
  have hval : V.val f.outIdx = 0 :: V.val f.in1Idx := by
    rw [V.solves f hf (by simp [ht])]
    simp only [clearGate, ht]
    rw [localGate_insert .p0 ht]
    rfl
  refine ⟨?_, ⟨hkd, ?_⟩, fun i hi => ?_⟩
  · simp only [Good, Ready, ht]
    exact ⟨hx.1, hkd⟩
  · rw [hval, List.length_cons]
    exact hx.full.2.trans (Nat.le_succ _)
  · rw [hval]
    cases i with
    | zero => rfl
    | succ i =>
      rw [List.getD_cons_succ, hx.getD (by omega)]
      rfl

end flags

end Valuation

end GraphMpc
