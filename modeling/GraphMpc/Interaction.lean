import GraphMpc.Sharing
import GraphMpc.Cleartext

namespace GraphMpc

open Tabulate Permutation Sharing Online

section exchange

theorem interleave_length (n : ℕ) (x y : ℕ → Ring) : (interleave n x y).length = 2 * n := by
  induction n with
  | zero => rfl
  | succ n ih =>
    simp only [interleave, List.range_succ, List.flatMap_append, List.length_append] at ih ⊢
    rw [ih]
    rfl

theorem interleave_succ (n : ℕ) (x y : ℕ → Ring) :
    interleave (n + 1) x y = interleave n x y ++ [x n, y n] := by
  simp [interleave, List.range_succ, List.flatMap_append]

theorem interleave_getD {n : ℕ} (x y : ℕ → Ring) {i : ℕ} (hi : i < n) :
    (interleave n x y).getD (2 * i) 0 = x i ∧ (interleave n x y).getD (2 * i + 1) 0 = y i := by
  induction n with
  | zero => omega
  | succ n ih =>
    have hl := interleave_length n x y
    rw [interleave_succ]
    rcases Nat.lt_succ_iff_lt_or_eq.mp hi with hlt | rfl
    · rw [List.getD_append _ _ _ _ (by omega), List.getD_append _ _ _ _ (by omega)]
      exact ih hlt
    · rw [List.getD_append_right _ _ _ _ (by omega), List.getD_append_right _ _ _ _ (by omega),
        hl, Nat.sub_self, Nat.add_sub_cancel_left]
      exact ⟨rfl, rfl⟩

theorem receive_shuffleVals {t0 t1 : Vec} (h : t0.length = t1.length) :
    ({ shuffleVals := t0 } : Message).receive ({ shuffleVals := t1 } : Message).dataSend =
      { shuffleVals := t1 } := by
  simp only [Message.receive, Message.dataSend, List.length_nil, tab_zero, List.nil_append,
    List.append_nil, Nat.zero_add]
  exact congrArg (Message.mk [] [] · []) (eq_tab 0 h.symm fun _ _ => rfl).symm

theorem receive_revealVals {t0 t1 : Vec} :
    ({ revealVals := t0 } : Message).receive ({ revealVals := t1 } : Message).dataSend =
      { revealVals := tab t0.length fun i => t0.getD i 0 + t1.getD i 0 } := by
  simp only [Message.receive, Message.dataSend, List.length_nil, tab_zero, List.nil_append,
    Nat.zero_add]

theorem receive_mulVals {t0 t1 : Vec} :
    ({ mulVals := t0 } : Message).receive ({ mulVals := t1 } : Message).dataSend =
      { mulVals := tab t0.length fun i => t0.getD i 0 + t1.getD i 0 } := by
  simp only [Message.receive, Message.dataSend, List.length_nil, tab_zero, List.append_nil]

theorem receive_andVals {t0 t1 : Vec} :
    ({ andVals := t0 } : Message).receive ({ andVals := t1 } : Message).dataSend =
      { andVals := tab t0.length fun i => t0.getD i 0 ^^^ t1.getD i 0 } := by
  simp only [Message.receive, Message.dataSend, List.length_nil, tab_zero, List.append_nil,
    List.nil_append, Nat.zero_add]

theorem receive_empty : ({} : Message).receive ({} : Message).dataSend = {} := rfl

theorem sum_interleave {n i : ℕ} (hi : i < n) (x0 y0 x1 y1 : ℕ → Ring) (op : Ring → Ring → Ring) :
    (tab (interleave n x0 y0).length fun j =>
      op ((interleave n x0 y0).getD j 0) ((interleave n x1 y1).getD j 0)).getD (2 * i) 0 =
        op (x0 i) (x1 i) ∧
    (tab (interleave n x0 y0).length fun j =>
      op ((interleave n x0 y0).getD j 0) ((interleave n x1 y1).getD j 0)).getD (2 * i + 1) 0 =
        op (y0 i) (y1 i) := by
  have hl := interleave_length n x0 y0
  rw [tab_getD_lt _ _ (by omega), tab_getD_lt _ _ (by omega), (interleave_getD x0 y0 hi).1,
    (interleave_getD x0 y0 hi).2, (interleave_getD x1 y1 hi).1, (interleave_getD x1 y1 hi).2]
  exact ⟨rfl, rfl⟩

end exchange

structure GateCorrelations where
  send0 : Correlation
  send1 : Correlation
  recv0 : Correlation
  recv1 : Correlation

structure SharedPerm (n : ℕ) where
  pi0 : Equiv.Perm ℕ
  pi1 : Equiv.Perm ℕ
  pi0p : Equiv.Perm ℕ
  pi1p : Equiv.Perm ℕ
  pi0_keeps : Keeps n pi0
  pi1_keeps : Keeps n pi1
  pi0p_keeps : Keeps n pi0p
  pi1p_keeps : Keeps n pi1p
  consistent : pi0 * pi1 = pi1p * pi0p

namespace SharedPerm

variable {n : ℕ} (q : SharedPerm n)

def pi : Equiv.Perm ℕ := q.pi0 * q.pi1

theorem pi_keeps : Keeps n q.pi := q.pi0_keeps.mul q.pi1_keeps

theorem pi_apply (i : ℕ) : q.pi i = q.pi0 (q.pi1 i) := rfl

theorem pi_apply' (i : ℕ) : q.pi i = q.pi1p (q.pi0p i) := by
  rw [pi, q.consistent]
  rfl

theorem pi_symm (i : ℕ) : q.pi.symm i = q.pi1.symm (q.pi0.symm i) := rfl

theorem pi_symm' (i : ℕ) : q.pi.symm i = q.pi0p.symm (q.pi1p.symm i) := by
  rw [pi, q.consistent]
  rfl

end SharedPerm

def gatePerm (perm : ℕ → Equiv.Perm ℕ) (f : Gate) : Equiv.Perm ℕ :=
  if f.type = .mergedShuffle then perm f.omegaIdx * (perm f.piIdx)⁻¹ else perm f.shuffleIdx

structure ShuffleDealt (n : ℕ) (q : SharedPerm n) (c : GateCorrelations) : Prop where
  send0 : c.send0.perm = ofPerm n q.pi0p
  send1 : c.send1.perm = ofPerm n q.pi1
  recv0 : c.recv0.perm = ofPerm n q.pi0
  recv1 : c.recv1.perm = ofPerm n q.pi1p
  correction : ∃ r : Ring, c.recv0.B = correctionB0 (ofPerm n q.pi) c.send1.mask r ∧
    c.recv1.B = correctionB1 (ofPerm n q.pi) c.send0.mask r

structure UnshuffleDealt (n : ℕ) (q : SharedPerm n) (c : GateCorrelations) : Prop where
  send0 : c.send0.perm = ofPerm n q.pi0
  send1 : c.send1.perm = ofPerm n q.pi1p
  recv0 : c.recv0.perm = ofPerm n q.pi0p
  recv1 : c.recv1.perm = ofPerm n q.pi1
  correction : ∃ r : Ring, c.recv0.B = correctionB0 (ofPerm n q.pi⁻¹) c.send1.mask r ∧
    c.recv1.B = correctionB1 (ofPerm n q.pi⁻¹) c.send0.mask r

structure TripleDealt (binary : Bool) (n : ℕ) (k0 k1 : Correlation) : Prop where
  length0 : n ≤ k0.a.length ∧ n ≤ k0.b.length ∧ n ≤ k0.c.length
  length1 : n ≤ k1.a.length ∧ n ≤ k1.b.length ∧ n ≤ k1.c.length
  product : ∀ i < n, if binary then
      k0.c.getD i 0 ^^^ k1.c.getD i 0 =
        (k0.a.getD i 0 ^^^ k1.a.getD i 0) &&& (k0.b.getD i 0 ^^^ k1.b.getD i 0)
    else k0.c.getD i 0 + k1.c.getD i 0 =
        (k0.a.getD i 0 + k1.a.getD i 0) * (k0.b.getD i 0 + k1.b.getD i 0)

def TriplesDealt (binary : Bool) (n : ℕ) (c : GateCorrelations) : Prop :=
  c.recv0 = c.send0 ∧ c.recv1 = c.send1 ∧ TripleDealt binary n c.send0 c.send1

def Correlated (conf : ProtocolConfig) (perm : ℕ → Equiv.Perm ℕ) (f : Gate)
    (c : GateCorrelations) : Prop :=
  match f.type with
  | .shuffle | .mergedShuffle =>
      ∃ q : SharedPerm conf.size, q.pi = gatePerm perm f ∧ ShuffleDealt conf.size q c
  | .unshuffle =>
      ∃ q : SharedPerm conf.size, q.pi = gatePerm perm f ∧ UnshuffleDealt conf.size q c
  | .compaction => TriplesDealt f.binary conf.size c
  | .mulSIMD | .eqz | .bit2A => TriplesDealt f.binary f.size c
  | .setConstVecSIMD => c.recv0.mask = c.recv1.mask
  | _ => True

section promise

variable (conf : ProtocolConfig) (inp0 inp1 : ℕ → Vec) (kd : ℕ → Kind) (v : ℕ → Vec)

namespace Gate

def mulLen (f : Gate) : ℕ :=
  match f.type with
  | .compaction => 2 * conf.size
  | .mulSIMD => if f.binary then 0 else 2 * f.size
  | .bit2A => 2 * f.size
  | _ => 0

def andLen (f : Gate) : ℕ :=
  match f.type with
  | .mulSIMD => if f.binary then 2 * f.size else 0
  | .eqz => 2 * f.size
  | _ => 0

def shuffleLen (f : Gate) : ℕ :=
  match f.type with
  | .shuffle | .mergedShuffle | .unshuffle => conf.size
  | _ => 0

def revealLen (f : Gate) : ℕ := if f.type = .reveal then conf.size else 0

end Gate

structure Message.Fits (f : Gate) (m : Message) : Prop where
  mulVals : m.mulVals.length = f.mulLen conf
  andVals : m.andVals.length = f.andLen
  shuffleVals : m.shuffleVals.length = f.shuffleLen conf
  revealVals : m.revealVals.length = f.revealLen conf

-- the wires at the receive phase (r) against those at the send phase (s)
structure RecvView (f : Gate) (s0 s1 r0 r1 : ℕ → Vec) : Prop where
  related : f.isLocal → ∀ r ∈ f.reads conf.nodes, WiresRel kd r0 r1 v r
  kept : f.type = .compaction ∨ f.type = .bit2A →
    r0 f.in1Idx = s0 f.in1Idx ∧ r1 f.in1Idx = s1 f.in1Idx

structure Promise (f : Gate) (c : GateCorrelations) (s0 s1 : ℕ → Vec) (m0 m1 : Message) :
    Prop where
  fits0 : m0.Fits conf f
  fits1 : m1.Fits conf f
  delivers : ∀ r0 r1, RecvView conf kd v f s0 s1 r0 r1 → ∃ a b,
    gateOutput conf .p0 inp0 f c.recv0 (m0.receive m1.dataSend) r0 = some a ∧
    gateOutput conf .p1 inp1 f c.recv1 (m1.receive m0.dataSend) r1 = some b ∧
    (kd f.outIdx).Rel a b (v f.outIdx)

def Sends (f : Gate) (c : GateCorrelations) (s0 s1 : ℕ → Vec) : Prop :=
  ∃ m0 m1, message conf .p0 f c.send0 (negateWires .p0 f s0) = some m0 ∧
    message conf .p1 f c.send1 (negateWires .p1 f s1) = some m1 ∧
    Promise conf inp0 inp1 kd v f c s0 s1 m0 m1

end promise

section gates

variable {conf : ProtocolConfig} {inp0 inp1 : ℕ → Vec} {kd : ℕ → Kind} {v : ℕ → Vec}
  {perm : ℕ → Equiv.Perm ℕ} {f : Gate} {c : GateCorrelations} {s0 s1 : ℕ → Vec}

theorem sends_shuffle (ht : f.type = .shuffle ∨ f.type = .mergedShuffle)
    (hs : Shares (s0 f.in1Idx) (s1 f.in1Idx) (v f.in1Idx))
    (hn : conf.size ≤ (v f.in1Idx).length) (hk : kd f.outIdx = .add) (q : SharedPerm conf.size)
    (hc : ShuffleDealt conf.size q c)
    (hv : v f.outIdx = tab conf.size fun i => (v f.in1Idx).getD (q.pi.symm i) 0) :
    Sends conf inp0 inp1 kd v f c s0 s1 := by
  obtain ⟨hn0, hn1⟩ := hs.le_length hn
  obtain ⟨r, hb0, hb1⟩ := hc.correction
  have hne : f.type ≠ .eqz := by rcases ht with h | h <;> simp [h]
  rw [Sends, negateWires_of_ne _ hne, negateWires_of_ne _ hne]
  have hfit : ∀ x : ℕ → Ring, ({ shuffleVals := tab conf.size x } : Message).Fits conf f := by
    intro x
    rcases ht with h | h <;> constructor <;>
      simp [Gate.mulLen, Gate.andLen, Gate.shuffleLen, Gate.revealLen, h]
  refine ⟨_, _, message_shuffle .p0 ht hc.send0 q.pi0p_keeps hn0,
    message_shuffle .p1 ht hc.send1 q.pi1_keeps hn1, hfit _, hfit _, fun r0 r1 _ => ?_⟩
  rw [receive_shuffleVals (by simp), receive_shuffleVals (by simp)]
  refine ⟨_, _, output_shuffle .p0 inp0 ht hc.recv0 q.pi0_keeps _ _,
    output_shuffle .p1 inp1 ht hc.recv1 q.pi1p_keeps _ _, ?_⟩
  rw [hk, hv]
  refine Shares.of_tab fun i hi => ?_
  rw [hb0, hb1, correctionB0, correctionB1, correction_eq conf.size_le q.pi_keeps,
    correction_eq conf.size_le q.pi_keeps, tab_getD_lt _ _ hi, tab_getD_lt _ _ hi,
    tab_getD_lt _ _ (q.pi0_keeps.symm_lt hi), tab_getD_lt _ _ (q.pi1p_keeps.symm_lt hi),
    ← q.pi_symm, ← q.pi_symm', ← hs.sum]
  ring

theorem sends_unshuffle (ht : f.type = .unshuffle)
    (hs : Shares (s0 f.in1Idx) (s1 f.in1Idx) (v f.in1Idx))
    (hn : conf.size ≤ (v f.in1Idx).length) (hk : kd f.outIdx = .add) (q : SharedPerm conf.size)
    (hc : UnshuffleDealt conf.size q c)
    (hv : v f.outIdx = tab conf.size fun i => (v f.in1Idx).getD (q.pi i) 0) :
    Sends conf inp0 inp1 kd v f c s0 s1 := by
  obtain ⟨hn0, hn1⟩ := hs.le_length hn
  obtain ⟨r, hb0, hb1⟩ := hc.correction
  have hne : f.type ≠ .eqz := by simp [ht]
  rw [Sends, negateWires_of_ne _ hne, negateWires_of_ne _ hne]
  have hfit : ∀ x : ℕ → Ring, ({ shuffleVals := tab conf.size x } : Message).Fits conf f := by
    intro x
    constructor <;> simp [Gate.mulLen, Gate.andLen, Gate.shuffleLen, Gate.revealLen, ht]
  refine ⟨_, _, message_unshuffle .p0 ht hc.send0 q.pi0_keeps hn0,
    message_unshuffle .p1 ht hc.send1 q.pi1p_keeps hn1, hfit _, hfit _, fun r0 r1 _ => ?_⟩
  rw [receive_shuffleVals (by simp), receive_shuffleVals (by simp)]
  refine ⟨_, _, output_unshuffle .p0 inp0 ht hc.recv0 q.pi0p_keeps (by simp) _,
    output_unshuffle .p1 inp1 ht hc.recv1 q.pi1_keeps (by simp) _, ?_⟩
  rw [hk, hv]
  refine Shares.of_tab fun i hi => ?_
  have hsymm : ∀ j, (q.pi⁻¹ : Equiv.Perm ℕ).symm j = q.pi j := fun _ => rfl
  rw [hb0, hb1, correctionB0, correctionB1, correction_eq conf.size_le q.pi_keeps.inv,
    correction_eq conf.size_le q.pi_keeps.inv, tab_getD_lt _ _ hi, tab_getD_lt _ _ hi,
    tab_getD_lt _ _ (q.pi0p_keeps.lt hi), tab_getD_lt _ _ (q.pi1_keeps.lt hi), hsymm,
    ← q.pi_apply, ← q.pi_apply', ← hs.sum]
  ring

theorem sends_reveal (ht : f.type = .reveal)
    (hs : Shares (s0 f.in1Idx) (s1 f.in1Idx) (v f.in1Idx))
    (hn : (v f.in1Idx).length = conf.size) (hk : kd f.outIdx = .pub)
    (hv : v f.outIdx = v f.in1Idx) : Sends conf inp0 inp1 kd v f c s0 s1 := by
  have hne : f.type ≠ .eqz := by simp [ht]
  rw [Sends, negateWires_of_ne _ hne, negateWires_of_ne _ hne]
  have hm : ∀ id (k : Correlation) (w : ℕ → Vec), (w f.in1Idx).length = conf.size →
      message conf id f k w = some { revealVals := w f.in1Idx } := by
    intro id k w hw
    have hp : prefixOf (w f.in1Idx) conf.size = some (w f.in1Idx) := by
      rw [prefixOf, if_pos hw.ge, ← hw, List.take_length]
    simp only [message, ht, hp, Option.bind_eq_bind, Option.bind_some]
  have hl0 := hs.left.trans hn
  have hl1 := hs.right.trans hn
  have hfit : ∀ x : Vec, x.length = conf.size →
      ({ revealVals := x } : Message).Fits conf f := by
    intro x hx
    constructor <;> simp [Gate.mulLen, Gate.andLen, Gate.shuffleLen, Gate.revealLen, ht, hx]
  refine ⟨_, _, hm .p0 _ _ hl0, hm .p1 _ _ hl1, hfit _ hl0, hfit _ hl1, fun r0 r1 _ => ?_⟩
  have ho : ∀ id inp k (t : Message) w,
      gateOutput conf id inp f k t w = some t.revealVals := by
    intro id inp k t w
    simp only [gateOutput, ht]
  rw [receive_revealVals, receive_revealVals, hk, hv]
  refine ⟨_, _, ho .., ho .., by simp [hs.left], by simp [hs.right], fun i => ?_⟩
  simp only [tab_getD, hs.left, hs.right]
  split_ifs with hi
  · exact ⟨hs.sum i, (add_comm _ _).trans (hs.sum i)⟩
  · rw [List.getD_eq_default _ _ (not_lt.mp hi)]
    exact ⟨rfl, rfl⟩

theorem interleave_congr {n : ℕ} {x y x' y' : ℕ → Ring} (hx : ∀ i < n, x i = x' i)
    (hy : ∀ i < n, y i = y' i) : interleave n x y = interleave n x' y' := by
  simp only [interleave]
  refine List.flatMap_congr fun i hi => ?_
  rw [hx i (List.mem_range.mp hi), hy i (List.mem_range.mp hi)]

section triples

variable {n : ℕ} {k0 k1 : Correlation}

theorem beaver_false {x0 x1 y0 y1 d e a0 a1 b0 b1 c0 c1 : Ring}
    (hc : c0 + c1 = (a0 + a1) * (b0 + b1)) (hd : d = (x0 + a0) + (x1 + a1))
    (he : e = (y0 + b0) + (y1 + b1)) :
    beaver .p0 false d e a0 b0 c0 + beaver .p1 false d e a1 b1 c1 = (x0 + x1) * (y0 + y1) := by
  rw [← beaver_add hc hd he]
  simp only [beaver, partySign, Bool.false_eq_true, if_true, if_false, reduceCtorEq]
  ring

theorem beaver_true {x0 x1 y0 y1 d e a0 a1 b0 b1 c0 c1 : Ring}
    (hc : c0 ^^^ c1 = (a0 ^^^ a1) &&& (b0 ^^^ b1)) (hd : d = (x0 ^^^ a0) ^^^ (x1 ^^^ a1))
    (he : e = (y0 ^^^ b0) ^^^ (y1 ^^^ b1)) :
    beaver .p0 true d e a0 b0 c0 ^^^ beaver .p1 true d e a1 b1 c1 =
      (x0 ^^^ x1) &&& (y0 ^^^ y1) := by
  have hzero : ∀ x : Ring, 0 ^^^ x = x := fun _ => BitVec.zero_xor
  rw [← beaver_xor hc hd he]
  simp only [beaver, partySign, if_true, if_false, reduceCtorEq, mul_zero, mul_one, hzero]

def openings (op : Ring → Ring → Ring) (n : ℕ) (k : Correlation) (x y : ℕ → Ring) : Vec :=
  interleave n (fun i => op (x i) (k.a.getD i 0)) (fun i => op (y i) (k.b.getD i 0))

theorem openings_congr (op : Ring → Ring → Ring) {k : Correlation} {x y x' y' : ℕ → Ring}
    (hx : ∀ i < n, x i = x' i) (hy : ∀ i < n, y i = y' i) :
    interleave n (fun i => op (x i) ((tab n fun j => k.a.getD j 0).getD i 0))
      (fun i => op (y i) ((tab n fun j => k.b.getD j 0).getD i 0)) = openings op n k x' y' :=
  interleave_congr (fun i hi => by rw [hx i hi, tab_getD_lt _ _ hi])
    (fun i hi => by rw [hy i hi, tab_getD_lt _ _ hi])

def received (op : Ring → Ring → Ring) (t t' : Vec) : Vec :=
  tab t.length fun j => op (t.getD j 0) (t'.getD j 0)

theorem beaverAt_add (ht : TripleDealt false n k0 k1) (x0 y0 x1 y1 : ℕ → Ring) {i : ℕ}
    (hi : i < n) :
    beaverAt .p0 false (received (· + ·) (openings (· + ·) n k0 x0 y0)
        (openings (· + ·) n k1 x1 y1)) k0.a k0.b k0.c i +
      beaverAt .p1 false (received (· + ·) (openings (· + ·) n k1 x1 y1)
        (openings (· + ·) n k0 x0 y0)) k1.a k1.b k1.c i = (x0 i + x1 i) * (y0 i + y1 i) := by
  have hp := ht.product i hi
  simp only [Bool.false_eq_true, if_false] at hp
  rw [beaverAt, beaverAt, received, received, openings, openings,
    (sum_interleave hi _ _ _ _ (· + ·)).1, (sum_interleave hi _ _ _ _ (· + ·)).2,
    (sum_interleave hi _ _ _ _ (· + ·)).1, (sum_interleave hi _ _ _ _ (· + ·)).2]
  simp only [add_comm (x1 i + _), add_comm (y1 i + _)]
  exact beaver_false hp rfl rfl

theorem beaverAt_xor (ht : TripleDealt true n k0 k1) (x0 y0 x1 y1 : ℕ → Ring) {i : ℕ}
    (hi : i < n) :
    beaverAt .p0 true (received (· ^^^ ·) (openings (· ^^^ ·) n k0 x0 y0)
        (openings (· ^^^ ·) n k1 x1 y1)) k0.a k0.b k0.c i ^^^
      beaverAt .p1 true (received (· ^^^ ·) (openings (· ^^^ ·) n k1 x1 y1)
        (openings (· ^^^ ·) n k0 x0 y0)) k1.a k1.b k1.c i =
        (x0 i ^^^ x1 i) &&& (y0 i ^^^ y1 i) := by
  have hp := ht.product i hi
  simp only [if_true] at hp
  rw [beaverAt, beaverAt, received, received, openings, openings,
    (sum_interleave hi _ _ _ _ (· ^^^ ·)).1, (sum_interleave hi _ _ _ _ (· ^^^ ·)).2,
    (sum_interleave hi _ _ _ _ (· ^^^ ·)).1, (sum_interleave hi _ _ _ _ (· ^^^ ·)).2]
  simp only [BitVec.xor_comm (x1 i ^^^ _), BitVec.xor_comm (y1 i ^^^ _)]
  exact beaver_true hp rfl rfl

theorem beaverAt_tab {id : Party} {binary : Bool} {t a b c : Vec} {i : ℕ} (hi : i < n) :
    beaverAt id binary t (tab n fun j => a.getD j 0) (tab n fun j => b.getD j 0)
      (tab n fun j => c.getD j 0) i = beaverAt id binary t a b c i := by
  simp only [beaverAt, tab_getD_lt _ _ hi]

theorem receive_mulVals' (t0 t1 : Vec) :
    ({ mulVals := t0 } : Message).receive ({ mulVals := t1 } : Message).dataSend =
      { mulVals := received (· + ·) t0 t1 } := receive_mulVals

theorem receive_andVals' (t0 t1 : Vec) :
    ({ andVals := t0 } : Message).receive ({ andVals := t1 } : Message).dataSend =
      { andVals := received (· ^^^ ·) t0 t1 } := receive_andVals

theorem fits_mulVals (hm : f.mulLen conf = 2 * n) (ha : f.andLen = 0) (hs : f.shuffleLen conf = 0)
    (hr : f.revealLen conf = 0) (k : Correlation) (x y : ℕ → Ring) :
    ({ mulVals := openings (· + ·) n k x y } : Message).Fits conf f where
  mulVals := (interleave_length ..).trans hm.symm
  andVals := ha.symm
  shuffleVals := hs.symm
  revealVals := hr.symm

theorem fits_andVals (hm : f.mulLen conf = 0) (ha : f.andLen = 2 * n) (hs : f.shuffleLen conf = 0)
    (hr : f.revealLen conf = 0) (k : Correlation) (x y : ℕ → Ring) :
    ({ andVals := openings (· ^^^ ·) n k x y } : Message).Fits conf f where
  mulVals := hm.symm
  andVals := (interleave_length ..).trans ha.symm
  shuffleVals := hs.symm
  revealVals := hr.symm

end triples

theorem sends_of_mulVals {n : ℕ} (hm : f.mulLen conf = 2 * n) (ha : f.andLen = 0)
    (hs : f.shuffleLen conf = 0) (hr : f.revealLen conf = 0)
    (hc : TriplesDealt false n c) (x0 y0 x1 y1 : ℕ → Ring)
    (out0 out1 : (ℕ → Ring) → Vec)
    (hm0 : message conf .p0 f c.send0 (negateWires .p0 f s0) =
      some { mulVals := openings (· + ·) n c.send0 x0 y0 })
    (hm1 : message conf .p1 f c.send1 (negateWires .p1 f s1) =
      some { mulVals := openings (· + ·) n c.send1 x1 y1 })
    (ho0 : ∀ t r0 r1, RecvView conf kd v f s0 s1 r0 r1 →
      gateOutput conf .p0 inp0 f c.send0 { mulVals := t } r0 =
        some (out0 (beaverAt .p0 false t c.send0.a c.send0.b c.send0.c)))
    (ho1 : ∀ t r0 r1, RecvView conf kd v f s0 s1 r0 r1 →
      gateOutput conf .p1 inp1 f c.send1 { mulVals := t } r1 =
        some (out1 (beaverAt .p1 false t c.send1.a c.send1.b c.send1.c)))
    (hrel : ∀ p0 p1 : ℕ → Ring, (∀ i < n, p0 i + p1 i = (x0 i + x1 i) * (y0 i + y1 i)) →
      (kd f.outIdx).Rel (out0 p0) (out1 p1) (v f.outIdx)) :
    Sends conf inp0 inp1 kd v f c s0 s1 := by
  obtain ⟨hr0, hr1, hd⟩ := hc
  refine ⟨_, _, hm0, hm1, fits_mulVals hm ha hs hr .., fits_mulVals hm ha hs hr ..,
    fun r0 r1 hview => ?_⟩
  rw [receive_mulVals', receive_mulVals', hr0, hr1]
  exact ⟨_, _, ho0 _ _ _ hview, ho1 _ _ _ hview, hrel _ _ fun i hi => beaverAt_add hd _ _ _ _ hi⟩

theorem sends_of_andVals {n : ℕ} (hm : f.mulLen conf = 0) (ha : f.andLen = 2 * n)
    (hs : f.shuffleLen conf = 0) (hr : f.revealLen conf = 0)
    (hc : TriplesDealt true n c) (x0 y0 x1 y1 : ℕ → Ring)
    (out0 out1 : (ℕ → Ring) → Vec)
    (hm0 : message conf .p0 f c.send0 (negateWires .p0 f s0) =
      some { andVals := openings (· ^^^ ·) n c.send0 x0 y0 })
    (hm1 : message conf .p1 f c.send1 (negateWires .p1 f s1) =
      some { andVals := openings (· ^^^ ·) n c.send1 x1 y1 })
    (ho0 : ∀ t r0, gateOutput conf .p0 inp0 f c.send0 { andVals := t } r0 =
        some (out0 (beaverAt .p0 true t c.send0.a c.send0.b c.send0.c)))
    (ho1 : ∀ t r1, gateOutput conf .p1 inp1 f c.send1 { andVals := t } r1 =
        some (out1 (beaverAt .p1 true t c.send1.a c.send1.b c.send1.c)))
    (hrel : ∀ p0 p1 : ℕ → Ring,
      (∀ i < n, p0 i ^^^ p1 i = (x0 i ^^^ x1 i) &&& (y0 i ^^^ y1 i)) →
        (kd f.outIdx).Rel (out0 p0) (out1 p1) (v f.outIdx)) :
    Sends conf inp0 inp1 kd v f c s0 s1 := by
  obtain ⟨hr0, hr1, hd⟩ := hc
  refine ⟨_, _, hm0, hm1, fits_andVals hm ha hs hr .., fits_andVals hm ha hs hr ..,
    fun r0 r1 _ => ?_⟩
  rw [receive_andVals', receive_andVals', hr0, hr1]
  exact ⟨_, _, ho0 _ _, ho1 _ _, hrel _ _ fun i hi => beaverAt_xor hd _ _ _ _ hi⟩

theorem IsBit.and {x y : Ring} (hx : IsBit x) (hy : IsBit y) : IsBit (x &&& y) := by
  rcases hx with rfl | rfl
  · exact Or.inl BitVec.zero_and
  · rcases hy with rfl | rfl
    · exact Or.inl BitVec.and_zero
    · exact Or.inr rfl

section multiplication

variable (ht : f.type = .mulSIMD) (hz : f.size ≤ conf.size)
  (hn : f.size ≤ (v f.in1Idx).length) (hn' : f.size ≤ (v f.in2Idx).length)

include ht hz

theorem output_mulSIMD (id : Party) (inp : ℕ → Vec) (k : Correlation) (t : Message) (w : ℕ → Vec)
    (ha : f.size ≤ k.a.length) (hb : f.size ≤ k.b.length) (hc : f.size ≤ k.c.length) :
    gateOutput conf id inp f k t w = some (tab conf.size fun i => if i < f.size then
      beaverAt id f.binary (if f.binary then t.andVals else t.mulVals) k.a k.b k.c i else 0) := by
  simp only [gateOutput, ht, prefixOf_eq ha, prefixOf_eq hb, prefixOf_eq hc, if_pos hz,
    Option.bind_eq_bind, Option.bind_some]
  refine congrArg some (tab_congr fun i _ => ?_)
  split_ifs with hi <;> first | exact beaverAt_tab hi | rfl

omit hz in
theorem message_mulSIMD (id : Party) (k : Correlation) (w : ℕ → Vec)
    (ha : f.size ≤ k.a.length) (hb : f.size ≤ k.b.length)
    (hx : f.size ≤ (w f.in1Idx).length) (hy : f.size ≤ (w f.in2Idx).length) :
    message conf id f k w = some (if f.binary then
      { andVals := openings (· ^^^ ·) f.size k (fun i => (w f.in1Idx).getD i 0)
          fun i => (w f.in2Idx).getD i 0 } else
      { mulVals := openings (· + ·) f.size k (fun i => (w f.in1Idx).getD i 0)
          fun i => (w f.in2Idx).getD i 0 }) := by
  simp only [message, ht, mulMessage, prefixOf_eq ha, prefixOf_eq hb, prefixOf_eq hx,
    prefixOf_eq hy, Option.bind_eq_bind, Option.bind_some]
  split_ifs
  · rw [openings_congr (· ^^^ ·) (fun i hi => tab_getD_lt _ _ hi)
      (fun i hi => tab_getD_lt _ _ hi)]
  · rw [openings_congr (· + ·) (fun i hi => tab_getD_lt _ _ hi)
      (fun i hi => tab_getD_lt _ _ hi)]

omit hz in
include hn hn' hz in
theorem sends_mulSIMD (hb : f.binary = false)
    (hs : Shares (s0 f.in1Idx) (s1 f.in1Idx) (v f.in1Idx))
    (hs' : Shares (s0 f.in2Idx) (s1 f.in2Idx) (v f.in2Idx)) (hk : kd f.outIdx = .add)
    (hc : TriplesDealt false f.size c)
    (hv : v f.outIdx = tab conf.size fun i => if i < f.size then
      (v f.in1Idx).getD i 0 * (v f.in2Idx).getD i 0 else 0) :
    Sends conf inp0 inp1 kd v f c s0 s1 := by
  obtain ⟨hn0, hn1⟩ := hs.le_length hn
  obtain ⟨hm0, hm1⟩ := hs'.le_length hn'
  obtain ⟨ha0, hb0, hc0⟩ := hc.2.2.length0
  obtain ⟨ha1, hb1, hc1⟩ := hc.2.2.length1
  have hm := @message_mulSIMD conf _ ht
  have ho := @output_mulSIMD conf _ ht hz
  have hne : f.type ≠ .eqz := by simp [ht]
  simp only [hb, Bool.false_eq_true, if_false] at hm ho
  refine sends_of_mulVals (by simp [Gate.mulLen, ht, hb]) (by simp [Gate.andLen, ht, hb])
    (by simp [Gate.shuffleLen, ht]) (by simp [Gate.revealLen, ht]) hc _ _ _ _
    (fun p => tab conf.size fun i => if i < f.size then p i else 0)
    (fun p => tab conf.size fun i => if i < f.size then p i else 0)
    (by rw [negateWires_of_ne _ hne]; exact hm .p0 _ _ ha0 hb0 hn0 hm0)
    (by rw [negateWires_of_ne _ hne]; exact hm .p1 _ _ ha1 hb1 hn1 hm1)
    (fun t r0 _ _ => ho .p0 _ _ _ _ ha0 hb0 hc0)
    (fun t _ r1 _ => ho .p1 _ _ _ _ ha1 hb1 hc1) fun p0 p1 hp => ?_
  rw [hk, hv]
  refine Shares.of_tab fun i _ => ?_
  split_ifs with hi
  · rw [hp i hi, hs.sum, hs'.sum]
  · exact add_zero 0

include hn hn' in
theorem sends_and (hb : f.binary = true) (hs : Kind.bit.Rel (s0 f.in1Idx) (s1 f.in1Idx) (v f.in1Idx))
    (hs' : Kind.bit.Rel (s0 f.in2Idx) (s1 f.in2Idx) (v f.in2Idx)) (hk : kd f.outIdx = .bit)
    (hc : TriplesDealt true f.size c)
    (hv : v f.outIdx = tab conf.size fun i => if i < f.size then
      (v f.in1Idx).getD i 0 &&& (v f.in2Idx).getD i 0 else 0) :
    Sends conf inp0 inp1 kd v f c s0 s1 := by
  obtain ⟨hl0, hl1, hx⟩ := hs
  obtain ⟨hl0', hl1', hy⟩ := hs'
  obtain ⟨ha0, hb0, hc0⟩ := hc.2.2.length0
  obtain ⟨ha1, hb1, hc1⟩ := hc.2.2.length1
  have hm := @message_mulSIMD conf _ ht
  have ho := @output_mulSIMD conf _ ht hz
  have hne : f.type ≠ .eqz := by simp [ht]
  simp only [hb, if_true] at hm ho
  refine sends_of_andVals (by simp [Gate.mulLen, ht, hb]) (by simp [Gate.andLen, ht, hb])
    (by simp [Gate.shuffleLen, ht]) (by simp [Gate.revealLen, ht]) hc _ _ _ _
    (fun p => tab conf.size fun i => if i < f.size then p i else 0)
    (fun p => tab conf.size fun i => if i < f.size then p i else 0)
    (by rw [negateWires_of_ne _ hne]; exact hm .p0 _ _ ha0 hb0 (hl0 ▸ hn) (hl0' ▸ hn'))
    (by rw [negateWires_of_ne _ hne]; exact hm .p1 _ _ ha1 hb1 (hl1 ▸ hn) (hl1' ▸ hn'))
    (fun t r0 => ho .p0 _ _ _ _ ha0 hb0 hc0) (fun t r1 => ho .p1 _ _ _ _ ha1 hb1 hc1)
    fun p0 p1 hp => ?_
  rw [hk, hv]
  refine Kind.Rel.of_prefix fun i hi => ⟨(hx i).1.and (hy i).1, ?_⟩
  rw [hp i hi, (hx i).2, (hy i).2]

end multiplication

section zeroTest

theorem and_one (x : Ring) : x &&& 1 = if x.getLsbD 0 then 1 else 0 := by
  apply BitVec.eq_of_getLsbD_eq
  intro i hi
  cases i with
  | zero => cases h : x.getLsbD 0 <;> simp_all
  | succ i => cases x.getLsbD 0 <;> simp [BitVec.getLsbD_one]

theorem lowest_bit (x : Ring) : (x <<< 31) >>> 31 = x &&& 1 := by
  apply BitVec.eq_of_getLsbD_eq
  intro i hi
  rw [BitVec.getLsbD_ushiftRight, BitVec.getLsbD_shiftLeft, BitVec.getLsbD_and]
  cases i with
  | zero => simp
  | succ i =>
    have hlt : ¬ 31 + (i + 1) < 32 := by omega
    simp [BitVec.getLsbD_one, hlt]

theorem lowOnes_one (x : Ring) : LowOnes 1 x ↔ x &&& 1 = 1 := by
  rw [and_one, LowOnes]
  simp only [Nat.lt_one_iff, forall_eq]
  cases x.getLsbD 0 <;> decide

theorem isBit_and_one (x : Ring) : IsBit (x &&& 1) := by
  rw [and_one]
  split
  · exact Or.inr rfl
  · exact Or.inl rfl

theorem IsBit.eq_of_iff {x y : Ring} (hx : IsBit x) (hy : IsBit y) (h : x = 1 ↔ y = 1) : x = y := by
  rcases hx with rfl | rfl <;> rcases hy with rfl | rfl <;> first | rfl | simp at h

theorem and_xor_one (x y : Ring) : (x ^^^ y) &&& 1 = (x &&& 1) ^^^ (y &&& 1) := by
  simp only [and_one, BitVec.getLsbD_xor]
  cases x.getLsbD 0 <;> cases y.getLsbD 0 <;> decide

variable (ht : f.type = .eqz) (hz : f.size ≤ conf.size)

include ht

theorem message_eqz (id : Party) (k : Correlation) (w : ℕ → Vec) (ha : f.size ≤ k.a.length)
    (hb : f.size ≤ k.b.length) (hx : f.size ≤ (w f.in1Idx).length) :
    message conf id f k w = some
      { andVals := openings (· ^^^ ·) f.size k
          (fun i => (w f.in1Idx).getD i 0 >>> 2 ^ (4 - f.layer))
          fun i => (w f.in1Idx).getD i 0 } := by
  simp only [message, ht, prefixOf_eq ha, prefixOf_eq hb, prefixOf_eq hx, Option.bind_eq_bind,
    Option.bind_some, Nat.one_shiftLeft]
  rw [openings_congr (· ^^^ ·) (fun i hi => by rw [tab_getD_lt _ _ hi])
    (fun i hi => tab_getD_lt _ _ hi)]

include hz in
theorem output_eqz (id : Party) (inp : ℕ → Vec) (k : Correlation) (t : Vec) (w : ℕ → Vec)
    (ha : f.size ≤ k.a.length) (hb : f.size ≤ k.b.length) (hc : f.size ≤ k.c.length) :
    gateOutput conf id inp f k { andVals := t } w = some (tab conf.size fun i =>
      if i < f.size then
        if f.layer = 4 then beaverAt id true t k.a k.b k.c i &&& 1
        else beaverAt id true t k.a k.b k.c i
      else 0) := by
  simp only [gateOutput, ht, prefixOf_eq ha, prefixOf_eq hb, prefixOf_eq hc, if_pos hz,
    Option.bind_eq_bind, Option.bind_some, lowest_bit]
  refine congrArg some (tab_congr fun i _ => ?_)
  split_ifs with hi <;> first | rw [beaverAt_tab hi] | rfl

def zeroFlag (f : Gate) (x : Ring) : Ring :=
  if f.layer = 0 then if x = 0 then 1 else 0 else x

omit ht in
theorem eqz_entry {p0 p1 y : Ring} (hbit : IsBit (zeroFlag f y))
    (h : LowOnes (2 ^ (4 - f.layer)) (p0 ^^^ p1) ↔ zeroFlag f y = 1) :
    (if f.layer = 4 then Kind.bit else Kind.eqz f.layer).Entry
      (if f.layer = 4 then p0 &&& 1 else p0) (if f.layer = 4 then p1 &&& 1 else p1)
      (zeroFlag f y) := by
  by_cases h4 : f.layer = 4
  · rw [h4, Nat.sub_self, pow_zero, lowOnes_one] at h
    simp only [if_pos h4]
    refine ⟨hbit, ?_⟩
    rw [← and_xor_one]
    exact (isBit_and_one _).eq_of_iff hbit h
  · simp only [if_neg h4]
    exact ⟨hbit, h⟩

omit ht in
theorem negateWires_length (id : Party) (f : Gate) (w : ℕ → Vec) (r : ℕ) :
    (negateWires id f w r).length = (w r).length := by
  unfold negateWires
  split
  · by_cases hr : r = f.in1Idx
    · rw [hr, Function.update_self, List.length_mapIdx]
    · rw [Function.update_of_ne hr]
  · rfl

omit ht in
theorem negateWires_later (id : Party) {f : Gate} (h : f.layer ≠ 0) (w : ℕ → Vec) :
    negateWires id f w = w := by
  rw [negateWires, if_neg fun hh => h hh.2]

theorem negateWires_first (id : Party) (h : f.layer = 0) (w : ℕ → Vec) {i : ℕ} (hi : i < f.size)
    (hlen : f.size ≤ (w f.in1Idx).length) : (negateWires id f w f.in1Idx).getD i 0 =
      if id = .p0 then ~~~(w f.in1Idx).getD i 0 else -(w f.in1Idx).getD i 0 := by
  have hlt : i < (w f.in1Idx).length := hi.trans_le hlen
  rw [negateWires, if_pos ⟨ht, h⟩, Function.update_self,
    List.getD_eq_getElem _ _ (by simpa using hlt), List.getElem_mapIdx, if_pos hi,
    List.getD_eq_getElem _ _ hlt]

theorem negated_fold (hl : f.layer ≤ 4) (hn : f.size ≤ (v f.in1Idx).length)
    (hs : (if f.layer = 0 then Kind.add else Kind.eqz (f.layer - 1)).Rel (s0 f.in1Idx)
      (s1 f.in1Idx) (v f.in1Idx)) {i : ℕ} (hi : i < f.size) :
    IsBit (zeroFlag f ((v f.in1Idx).getD i 0)) ∧
      (LowOnes (2 * 2 ^ (4 - f.layer)) ((negateWires .p0 f s0 f.in1Idx).getD i 0 ^^^
        (negateWires .p1 f s1 f.in1Idx).getD i 0) ↔ zeroFlag f ((v f.in1Idx).getD i 0) = 1) := by
  by_cases h0 : f.layer = 0
  · rw [if_pos h0] at hs
    have hw : 2 * 2 ^ (4 - f.layer) = 32 := by rw [h0]; rfl
    rw [hw, negateWires_first ht .p0 h0 s0 hi (hs.left ▸ hn),
      negateWires_first ht .p1 h0 s1 hi (hs.right ▸ hn), if_pos rfl, if_neg (by decide),
      lowOnes_full, not_xor_neg_eq_allOnes, Shares.sum hs, zeroFlag, if_pos h0]
    split_ifs with hz
    · exact ⟨Or.inr rfl, iff_of_true hz rfl⟩
    · exact ⟨Or.inl rfl, iff_of_false hz (by decide)⟩
  · rw [if_neg h0] at hs
    have hw : 2 * 2 ^ (4 - f.layer) = 2 ^ (4 - (f.layer - 1)) := by
      rw [show 4 - (f.layer - 1) = (4 - f.layer) + 1 by omega, pow_succ, Nat.mul_comm]
    rw [hw, negateWires_later .p0 h0, negateWires_later .p1 h0, zeroFlag, if_neg h0]
    exact hs.entry i

include hz in
theorem sends_eqz (hl : f.layer ≤ 4) (hn : f.size ≤ (v f.in1Idx).length)
    (hs : (if f.layer = 0 then Kind.add else Kind.eqz (f.layer - 1)).Rel (s0 f.in1Idx)
      (s1 f.in1Idx) (v f.in1Idx)) (hk : kd f.outIdx = if f.layer = 4 then .bit else .eqz f.layer)
    (hc : TriplesDealt true f.size c)
    (hv : v f.outIdx = tab conf.size fun i => if i < f.size then
      zeroFlag f ((v f.in1Idx).getD i 0) else 0) : Sends conf inp0 inp1 kd v f c s0 s1 := by
  obtain ⟨ha0, hb0, hc0⟩ := hc.2.2.length0
  obtain ⟨ha1, hb1, hc1⟩ := hc.2.2.length1
  have hl0 : f.size ≤ (negateWires .p0 f s0 f.in1Idx).length := by
    rw [negateWires_length, hs.left]
    exact hn
  have hl1 : f.size ≤ (negateWires .p1 f s1 f.in1Idx).length := by
    rw [negateWires_length, hs.right]
    exact hn
  refine sends_of_andVals (by simp [Gate.mulLen, ht]) (by simp [Gate.andLen, ht])
    (by simp [Gate.shuffleLen, ht]) (by simp [Gate.revealLen, ht]) hc _ _ _ _
    (fun p => tab conf.size fun i => if i < f.size then
      if f.layer = 4 then p i &&& 1 else p i else 0)
    (fun p => tab conf.size fun i => if i < f.size then
      if f.layer = 4 then p i &&& 1 else p i else 0)
    (message_eqz ht .p0 _ _ ha0 hb0 hl0) (message_eqz ht .p1 _ _ ha1 hb1 hl1)
    (fun t r0 => output_eqz ht hz .p0 _ _ _ _ ha0 hb0 hc0)
    (fun t r1 => output_eqz ht hz .p1 _ _ _ _ ha1 hb1 hc1) fun p0 p1 hp => ?_
  rw [hk, hv]
  refine Kind.Rel.of_prefix fun i hi => ?_
  obtain ⟨hbit, hfold⟩ := negated_fold ht hl hn hs hi
  refine eqz_entry hbit ?_
  rw [hp i hi, ← BitVec.ushiftRight_xor_distrib, lowOnes_fold]
  exact hfold

end zeroTest

section conversion

theorem and_one_sum (x y : Ring) :
    (x &&& 1) + (y &&& 1) - 2 * ((x &&& 1) * (y &&& 1)) = (x ^^^ y) &&& 1 := by
  simp only [and_one, BitVec.getLsbD_xor]
  cases x.getLsbD 0 <;> cases y.getLsbD 0 <;> decide

theorem IsBit.and_one {x : Ring} (h : IsBit x) : x &&& 1 = x := by
  rcases h with rfl | rfl <;> rfl

variable (ht : f.type = .bit2A) (hz : f.size ≤ conf.size)

include ht

theorem message_bit2A (id : Party) (k : Correlation) (w : ℕ → Vec) (ha : f.size ≤ k.a.length)
    (hb : f.size ≤ k.b.length) (hx : f.size ≤ (w f.in1Idx).length) :
    message conf id f k w = some
      { mulVals := openings (· + ·) f.size k
          (fun i => (if id = .p0 then 1 else 0) * ((w f.in1Idx).getD i 0 &&& 1))
          fun i => (if id = .p0 then 0 else 1) * ((w f.in1Idx).getD i 0 &&& 1) } := by
  simp only [message, ht, prefixOf_eq ha, prefixOf_eq hb, prefixOf_eq hx, Option.bind_eq_bind,
    Option.bind_some]
  rw [openings_congr (· + ·) (fun i hi => by rw [tab_getD_lt _ _ hi])
    (fun i hi => by rw [tab_getD_lt _ _ hi])]

include hz

theorem output_bit2A (id : Party) (inp : ℕ → Vec) (k : Correlation) (t : Vec) (w : ℕ → Vec)
    (ha : f.size ≤ k.a.length) (hb : f.size ≤ k.b.length) (hc : f.size ≤ k.c.length)
    (hx : f.size ≤ (w f.in1Idx).length) :
    gateOutput conf id inp f k { mulVals := t } w = some (tab conf.size fun i =>
      if i < f.size then ((w f.in1Idx).getD i 0 &&& 1) - 2 * beaverAt id false t k.a k.b k.c i
      else 0) := by
  simp only [gateOutput, ht, prefixOf_eq ha, prefixOf_eq hb, prefixOf_eq hc, prefixOf_eq hx,
    if_pos hz, Option.bind_eq_bind, Option.bind_some]
  refine congrArg some (tab_congr fun i _ => ?_)
  split_ifs with hi
  · rw [beaverAt_tab hi, tab_getD_lt _ _ hi]
  · rfl

theorem sends_bit2A (hn : f.size ≤ (v f.in1Idx).length)
    (hs : Kind.bit.Rel (s0 f.in1Idx) (s1 f.in1Idx) (v f.in1Idx)) (hk : kd f.outIdx = .add)
    (hc : TriplesDealt false f.size c)
    (hv : v f.outIdx = tab conf.size fun i => if i < f.size then (v f.in1Idx).getD i 0 else 0) :
    Sends conf inp0 inp1 kd v f c s0 s1 := by
  obtain ⟨ha0, hb0, hc0⟩ := hc.2.2.length0
  obtain ⟨ha1, hb1, hc1⟩ := hc.2.2.length1
  have hl0 : f.size ≤ (s0 f.in1Idx).length := hs.left ▸ hn
  have hl1 : f.size ≤ (s1 f.in1Idx).length := hs.right ▸ hn
  have hne : f.type ≠ .eqz := by simp [ht]
  refine sends_of_mulVals (by simp [Gate.mulLen, ht]) (by simp [Gate.andLen, ht])
    (by simp [Gate.shuffleLen, ht]) (by simp [Gate.revealLen, ht]) hc _ _ _ _
    (fun p => tab conf.size fun i => if i < f.size then
      ((s0 f.in1Idx).getD i 0 &&& 1) - 2 * p i else 0)
    (fun p => tab conf.size fun i => if i < f.size then
      ((s1 f.in1Idx).getD i 0 &&& 1) - 2 * p i else 0)
    (by rw [negateWires_of_ne _ hne]; exact message_bit2A ht .p0 _ _ ha0 hb0 hl0)
    (by rw [negateWires_of_ne _ hne]; exact message_bit2A ht .p1 _ _ ha1 hb1 hl1)
    (fun t r0 _ hview => ?_) (fun t _ r1 hview => ?_) fun p0 p1 hp => ?_
  · rw [← (hview.kept (Or.inr ht)).1]
    exact output_bit2A ht hz .p0 _ _ _ _ ha0 hb0 hc0 ((hview.kept (Or.inr ht)).1 ▸ hl0)
  · rw [← (hview.kept (Or.inr ht)).2]
    exact output_bit2A ht hz .p1 _ _ _ _ ha1 hb1 hc1 ((hview.kept (Or.inr ht)).2 ▸ hl1)
  · rw [hk, hv]
    refine Kind.Rel.of_prefix fun i hi => ?_
    obtain ⟨hbit, hx⟩ := hs.entry i
    have hpi := hp i hi
    simp only [if_true, reduceCtorEq, if_false, one_mul, zero_mul, add_zero, zero_add] at hpi
    rw [← hbit.and_one, ← hx, ← and_one_sum, Kind.Entry]
    linear_combination (-2) * hpi

end conversion

section compaction

theorem prefixSum_zeros {n : ℕ} {x : ℕ → Ring} (hx : ∀ j < n, IsBit (x j)) {m : ℕ} (hm : m ≤ n) :
    prefixSum (fun j => 1 - x j) m =
      BitVec.ofNat 32 (Nat.count (fun j => (x j != 0) = false) m) := by
  induction m with
  | zero => rfl
  | succ m ih =>
    rw [prefixSum, ih (by omega), Nat.count_succ, BitVec.ofNat_add]
    congr 1
    rcases hx m hm with h | h <;> rw [h] <;> decide

theorem prefixSum_ones {n : ℕ} {x : ℕ → Ring} (hx : ∀ j < n, IsBit (x j)) {m : ℕ} (hm : m ≤ n) :
    prefixSum x m = BitVec.ofNat 32 (Nat.count (fun j => (x j != 0) = true) m) := by
  induction m with
  | zero => rfl
  | succ m ih =>
    rw [prefixSum, ih (by omega), Nat.count_succ, BitVec.ofNat_add]
    congr 1
    rcases hx m hm with h | h <;> rw [h] <;> decide

theorem destination_eq {n : ℕ} {x : ℕ → Ring} (hx : ∀ j < n, IsBit (x j)) {i : ℕ} (hi : i < n) :
    x i * (prefixSum (fun j => 1 - x j) n + prefixSum x (i + 1) -
        prefixSum (fun j => 1 - x j) (i + 1)) + prefixSum (fun j => 1 - x j) (i + 1) - 1 =
      BitVec.ofNat 32 (StableOrder.dest n (fun j => x j != 0) i) := by
  have hs : ∀ y : ℕ → Ring, prefixSum y (i + 1) = prefixSum y i + y i := fun _ => rfl
  rw [hs, hs, StableOrder.dest]
  rcases hx i hi with h | h
  · rw [h, if_neg (by decide), ← prefixSum_zeros hx hi.le]
    ring
  · rw [h, if_pos (by decide), BitVec.ofNat_add, ← prefixSum_zeros hx le_rfl,
      ← prefixSum_ones hx hi.le]
    ring

theorem compactionF0_tab (id : Party) {n i : ℕ} (x : Vec) (hi : i < n) :
    compactionF0 id (tab n fun j => x.getD j 0) i = compactionF0 id x i := by
  rw [compactionF0, compactionF0, tab_getD_lt _ _ hi]

theorem compactionS0_tab (id : Party) {n i : ℕ} (x : Vec) (hi : i < n) :
    compactionS0 id (tab n fun j => x.getD j 0) i = compactionS0 id x i := by
  exact prefixSum_congr fun j hj => compactionF0_tab id x (by omega)

theorem compactionS1_tab (id : Party) {n i : ℕ} (x : Vec) (hi : i < n) :
    compactionS1 id n (tab n fun j => x.getD j 0) i = compactionS1 id n x i := by
  rw [compactionS1, compactionS1, compactionS0_tab id x hi, prefixSum_tab _ (by omega),
    prefixSum_congr fun j hj => compactionF0_tab id x hj]

theorem Shares.prefixF0 {a b x : Vec} (h : Shares a b x) (m : ℕ) :
    GraphMpc.prefixSum (compactionF0 .p0 a) m + GraphMpc.prefixSum (compactionF0 .p1 b) m =
      GraphMpc.prefixSum (fun j => 1 - x.getD j 0) m := by
  rw [prefixSum_add]
  refine prefixSum_congr fun j _ => ?_
  simp only [compactionF0, if_true, reduceCtorEq, if_false, ← h.sum j]
  ring

variable (ht : f.type = .compaction)

include ht

theorem message_compaction (id : Party) (k : Correlation) (w : ℕ → Vec)
    (ha : conf.size ≤ k.a.length) (hb : conf.size ≤ k.b.length)
    (hx : conf.size ≤ (w f.in1Idx).length) :
    message conf id f k w = some
      { mulVals := openings (· + ·) conf.size k (fun i => (w f.in1Idx).getD i 0)
          (compactionS1 id conf.size (w f.in1Idx)) } := by
  simp only [message, ht, prefixOf_eq ha, prefixOf_eq hb, prefixOf_eq hx, Option.bind_eq_bind,
    Option.bind_some]
  rw [openings_congr (· + ·) (fun i hi => by rw [tab_getD_lt _ _ hi])
    (fun i hi => compactionS1_tab id _ hi)]

theorem output_compaction (id : Party) (inp : ℕ → Vec) (k : Correlation) (t : Vec) (w : ℕ → Vec)
    (ha : conf.size ≤ k.a.length) (hb : conf.size ≤ k.b.length) (hc : conf.size ≤ k.c.length)
    (hx : conf.size ≤ (w f.in1Idx).length) :
    gateOutput conf id inp f k { mulVals := t } w = some (tab conf.size fun i =>
      beaverAt id false t k.a k.b k.c i + compactionS0 id (w f.in1Idx) i -
        if id = .p0 then 1 else 0) := by
  simp only [gateOutput, ht, prefixOf_eq ha, prefixOf_eq hb, prefixOf_eq hc, prefixOf_eq hx,
    Option.bind_eq_bind, Option.bind_some]
  refine congrArg some (tab_congr fun i hi => ?_)
  rw [beaverAt_tab hi, compactionS0_tab id _ hi]

theorem sends_compaction (hn : conf.size ≤ (v f.in1Idx).length)
    (hs : Shares (s0 f.in1Idx) (s1 f.in1Idx) (v f.in1Idx)) (hk : kd f.outIdx = .add)
    (hbit : ∀ i < conf.size, IsBit ((v f.in1Idx).getD i 0))
    (hc : TriplesDealt false conf.size c)
    (hv : v f.outIdx = destinations conf.size (v f.in1Idx)) :
    Sends conf inp0 inp1 kd v f c s0 s1 := by
  obtain ⟨ha0, hb0, hc0⟩ := hc.2.2.length0
  obtain ⟨ha1, hb1, hc1⟩ := hc.2.2.length1
  obtain ⟨hl0, hl1⟩ := hs.le_length hn
  have hne : f.type ≠ .eqz := by simp [ht]
  refine sends_of_mulVals (by simp [Gate.mulLen, ht]) (by simp [Gate.andLen, ht])
    (by simp [Gate.shuffleLen, ht]) (by simp [Gate.revealLen, ht]) hc _ _ _ _
    (fun p => tab conf.size fun i => p i + compactionS0 .p0 (s0 f.in1Idx) i -
      if Party.p0 = .p0 then 1 else 0)
    (fun p => tab conf.size fun i => p i + compactionS0 .p1 (s1 f.in1Idx) i -
      if Party.p1 = .p0 then 1 else 0)
    (by rw [negateWires_of_ne _ hne]; exact message_compaction ht .p0 _ _ ha0 hb0 hl0)
    (by rw [negateWires_of_ne _ hne]; exact message_compaction ht .p1 _ _ ha1 hb1 hl1)
    (fun t r0 _ hview => ?_) (fun t _ r1 hview => ?_) fun p0 p1 hp => ?_
  · rw [← (hview.kept (Or.inl ht)).1]
    exact output_compaction ht .p0 _ _ _ _ ha0 hb0 hc0 ((hview.kept (Or.inl ht)).1 ▸ hl0)
  · rw [← (hview.kept (Or.inl ht)).2]
    exact output_compaction ht .p1 _ _ _ _ ha1 hb1 hc1 ((hview.kept (Or.inl ht)).2 ▸ hl1)
  · rw [hk, hv]
    refine Shares.of_tab fun i hi => ?_
    have hpi := hp i hi
    have hall := hs.prefixF0 conf.size
    have hzero := hs.prefixF0 (i + 1)
    have hone := hs.prefixSum (i + 1)
    rw [← destination_eq hbit hi, ← hall, ← hzero, ← hone, ← hs.sum i]
    simp only [compactionS1] at hpi
    simp only [compactionS0, if_true, reduceCtorEq, if_false] at hpi ⊢
    linear_combination hpi

end compaction

section silent

theorem message_silent (id : Party) (k : Correlation) (w : ℕ → Vec) (hi : f.interactive = false) :
    message conf id f k w = some {} := by
  cases ht : f.type <;> simp only [Gate.interactive, ht, reduceCtorEq] at hi <;>
    simp only [message, ht]

theorem fits_silent (hi : f.interactive = false) : ({} : Message).Fits conf f := by
  cases ht : f.type <;> simp only [Gate.interactive, ht, reduceCtorEq] at hi <;>
    constructor <;> simp [Gate.mulLen, Gate.andLen, Gate.shuffleLen, Gate.revealLen, ht]

theorem sends_silent (hi : f.interactive = false)
    (ho : ∀ r0 r1, RecvView conf kd v f s0 s1 r0 r1 → ∃ a b,
      gateOutput conf .p0 inp0 f c.recv0 {} r0 = some a ∧
      gateOutput conf .p1 inp1 f c.recv1 {} r1 = some b ∧
        (kd f.outIdx).Rel a b (v f.outIdx)) : Sends conf inp0 inp1 kd v f c s0 s1 := by
  refine ⟨_, _, message_silent .p0 _ _ hi, message_silent .p1 _ _ hi, fits_silent hi,
    fits_silent hi, fun r0 r1 hview => ?_⟩
  rw [receive_empty]
  exact ho r0 r1 hview

theorem sends_input (ht : f.type = .input) (hk : kd f.outIdx = .add)
    (hv : Shares (inp0 f.outIdx) (inp1 f.outIdx) (v f.outIdx)) :
    Sends conf inp0 inp1 kd v f c s0 s1 := by
  refine sends_silent (by simp [Gate.interactive, ht]) fun r0 r1 _ => ?_
  refine ⟨inp0 f.outIdx, inp1 f.outIdx, by simp only [gateOutput, ht],
    by simp only [gateOutput, ht], ?_⟩
  rw [hk]
  exact hv

theorem sends_setConst (ht : f.type = .setConstVecSIMD) (hk : kd f.outIdx = .add)
    (hc : c.recv0.mask = c.recv1.mask) (hv : v f.outIdx = Storage.constVals conf.size f) :
    Sends conf inp0 inp1 kd v f c s0 s1 := by
  refine sends_silent (by simp [Gate.interactive, ht]) fun r0 r1 _ => ?_
  have ho : ∀ id inp k t (w : ℕ → Vec), gateOutput conf id inp f k t w =
      some (tab (Storage.constVals conf.size f).length fun i =>
        if id = .p0 then (Storage.constVals conf.size f).getD i 0 - k.mask.getD i 0
        else k.mask.getD i 0) := by
    intro id inp k t w
    simp only [gateOutput, ht]
  refine ⟨_, _, ho .., ho .., ?_⟩
  have hl : Storage.constVals conf.size f =
      tab (Storage.constVals conf.size f).length
        fun i => (Storage.constVals conf.size f).getD i 0 := eq_tab 0 rfl fun _ _ => rfl
  rw [hk, hv, hl]
  simp only [tab_length]
  refine Shares.of_tab fun i hi => ?_
  simp only [if_true, reduceCtorEq, if_false, tab_getD_lt _ _ hi, hc]
  ring

theorem gateOutput_local (id : Party) (inp : ℕ → Vec) (k : Correlation) (t : Message)
    (w : ℕ → Vec) (hl : f.isLocal) : gateOutput conf id inp f k t w = localGate conf id f w := by
  obtain ⟨hin, hout, hconst, hint⟩ := hl
  cases ht : f.type <;> simp only [Gate.interactive, ht, reduceCtorEq] at hint <;>
    first | exact absurd ht hin | exact absurd ht hconst | simp only [gateOutput, ht]

theorem clearGate_local {inp : ℕ → Vec} {p : ℕ → Permutation} {out : Vec} (hl : f.isLocal)
    (hr : Ready conf v kd f) (ho : localGate conf .p0 f v = some out) :
    clearGate conf p inp f v = out := by
  obtain ⟨hin, hout, hconst, hint⟩ := hl
  cases ht : f.type <;> simp only [Gate.interactive, ht, reduceCtorEq] at hint <;>
    first
      | exact absurd ht hin
      | exact absurd ht hconst
      | exact absurd ht hout
      | (simp only [Ready, ht] at hr; done)
      | simp only [clearGate, ht, ho, Option.getD_some]

theorem ready_local_out (hl : f.isLocal) (hr : Ready conf v kd f) : kd f.outIdx = .add := by
  obtain ⟨hin, hout, hconst, hint⟩ := hl
  cases ht : f.type <;> simp only [Gate.interactive, ht, reduceCtorEq] at hint <;>
    simp only [Ready, ht] at hr <;>
    first
      | exact absurd ht hin
      | exact absurd ht hconst
      | exact absurd ht hout
      | exact hr.2
      | exact hr.2.1
      | exact hr.2.2
      | exact hr.2.2.2

theorem sends_local {inp : ℕ → Vec} {p : ℕ → Permutation} (hl : f.isLocal)
    (hr : Ready conf v kd f) (hv : v f.outIdx = clearGate conf p inp f v) :
    Sends conf inp0 inp1 kd v f c s0 s1 := by
  refine sends_silent hl.2.2.2 fun r0 r1 hview => ?_
  obtain ⟨a, b, out, h0, h1, h, hs⟩ := localShares_of_ready hr hl (hview.related hl)
  refine ⟨a, b, ?_, ?_, ?_⟩
  · rw [gateOutput_local _ _ _ _ _ hl, h0]
  · rw [gateOutput_local _ _ _ _ _ hl, h1]
  · rw [ready_local_out hl hr, hv, clearGate_local hl hr h]
    exact hs

end silent

section ready

variable {inp : ℕ → Vec}

theorem clearGate_shuffle {q : SharedPerm conf.size}
    (ht : f.type = .shuffle ∨ f.type = .mergedShuffle) (hp : ∀ idx, Keeps conf.size (perm idx))
    (hq : q.pi = gatePerm perm f) :
    clearGate conf (fun idx => ofPerm conf.size (perm idx)) inp f v =
      tab conf.size fun i => (v f.in1Idx).getD (q.pi.symm i) 0 := by
  rcases ht with ht | ht
  · have hg : q.pi = perm f.shuffleIdx := by rw [hq, gatePerm, if_neg (by simp [ht])]
    simp only [clearGate, ht, apply_ofPerm conf.size_le (hp _), hg]
  · have hg : q.pi = perm f.omegaIdx * (perm f.piIdx)⁻¹ := by rw [hq, gatePerm, if_pos ht]
    simp only [clearGate, ht, inverse_ofPerm conf.size_le (hp _),
      mul_ofPerm conf.size_le (hp _).inv, hg,
      apply_ofPerm conf.size_le ((hp f.omegaIdx).mul (hp f.piIdx).inv)]

theorem clearGate_unshuffle {q : SharedPerm conf.size} (ht : f.type = .unshuffle)
    (hp : ∀ idx, Keeps conf.size (perm idx)) (hq : q.pi = gatePerm perm f) :
    clearGate conf (fun idx => ofPerm conf.size (perm idx)) inp f v =
      tab conf.size fun i => (v f.in1Idx).getD (q.pi i) 0 := by
  have hg : q.pi = perm f.shuffleIdx := by rw [hq, gatePerm, if_neg (by simp [ht])]
  simp only [clearGate, ht, inverse_ofPerm conf.size_le (hp _), hg,
    apply_ofPerm conf.size_le (hp f.shuffleIdx).inv]
  rfl

theorem sends_of_ready (hr : Ready conf v kd f) (ho : f.type ≠ .output)
    (hc : Correlated conf perm f c) (hp : ∀ idx, Keeps conf.size (perm idx))
    (hv : v f.outIdx = clearGate conf (fun idx => ofPerm conf.size (perm idx)) inp f v)
    (hin : f.type = .input → Shares (inp0 f.outIdx) (inp1 f.outIdx) (inp f.outIdx))
    (hw : f.interactive = true → ∀ r ∈ f.reads conf.nodes, WiresRel kd s0 s1 v r) :
    Sends conf inp0 inp1 kd v f c s0 s1 := by
  have hfull : ∀ {r}, f.interactive = true → r ∈ f.reads conf.nodes → kd r = .add →
      Shares (s0 r) (s1 r) (v r) := by
    intro r hi hmem hk
    have := hw hi r hmem
    rwa [WiresRel, hk] at this
  cases ht : f.type
  case output => exact absurd ht ho
  case input =>
    simp only [Ready, ht] at hr
    simp only [clearGate, ht] at hv
    exact sends_input ht hr (hv ▸ hin ht)
  case setConstVecSIMD =>
    simp only [Ready, ht] at hr
    simp only [clearGate, ht] at hv
    simp only [Correlated, ht] at hc
    exact sends_setConst ht hr hc hv
  case shuffle =>
    simp only [Ready, ht] at hr
    simp only [Correlated, ht] at hc
    obtain ⟨q, hq, hd⟩ := hc
    have hs := hfull (by simp [Gate.interactive, ht]) (by simp [Gate.reads, ht]) hr.1.1
    exact sends_shuffle (Or.inl ht) hs hr.1.2 hr.2 q hd
      (hv.trans (clearGate_shuffle (Or.inl ht) hp hq))
  case mergedShuffle =>
    simp only [Ready, ht] at hr
    simp only [Correlated, ht] at hc
    obtain ⟨q, hq, hd⟩ := hc
    have hs := hfull (by simp [Gate.interactive, ht]) (by simp [Gate.reads, ht]) hr.1.1
    exact sends_shuffle (Or.inr ht) hs hr.1.2 hr.2 q hd
      (hv.trans (clearGate_shuffle (Or.inr ht) hp hq))
  case unshuffle =>
    simp only [Ready, ht] at hr
    simp only [Correlated, ht] at hc
    obtain ⟨q, hq, hd⟩ := hc
    have hs := hfull (by simp [Gate.interactive, ht]) (by simp [Gate.reads, ht]) hr.1.1
    exact sends_unshuffle ht hs hr.1.2 hr.2 q hd (hv.trans (clearGate_unshuffle ht hp hq))
  case compaction =>
    simp only [Ready, ht] at hr
    obtain ⟨hf, hk, hb, hbit⟩ := hr
    simp only [Correlated, ht, hb] at hc
    simp only [clearGate, ht] at hv
    have hs := hfull (by simp [Gate.interactive, ht]) (by simp [Gate.reads, ht]) hf.1
    exact sends_compaction ht hf.2 hs hk hbit hc hv
  case reveal =>
    simp only [Ready, ht] at hr
    obtain ⟨hk, hk', σ, -, hval⟩ := hr
    simp only [clearGate, ht] at hv
    have hs := hfull (by simp [Gate.interactive, ht]) (by simp [Gate.reads, ht]) hk
    exact sends_reveal ht hs (by rw [hval, ofPerm, tab_length]) hk' hv
  case mulSIMD =>
    simp only [Ready, ht] at hr
    obtain ⟨hz, hn, hn', hk1, hk2, hk⟩ := hr
    simp only [Correlated, ht] at hc
    simp only [clearGate, ht] at hv
    have h1 := hw (by simp [Gate.interactive, ht]) f.in1Idx (by simp [Gate.reads, ht])
    have h2 := hw (by simp [Gate.interactive, ht]) f.in2Idx (by simp [Gate.reads, ht])
    rw [WiresRel, hk1] at h1
    rw [WiresRel, hk2] at h2
    cases hb : f.binary with
    | false =>
      simp only [hb, Bool.false_eq_true, if_false] at hc hv hk h1 h2
      exact sends_mulSIMD ht hz hn hn' hb h1 h2 hk hc hv
    | true =>
      simp only [hb, if_true] at hc hv hk h1 h2
      exact sends_and ht hz hn hn' hb h1 h2 hk hc hv
  case eqz =>
    simp only [Ready, ht] at hr
    obtain ⟨hz, hn, hl, hb, hk1, hk⟩ := hr
    simp only [Correlated, ht, hb] at hc
    simp only [clearGate, ht] at hv
    have h1 := hw (by simp [Gate.interactive, ht]) f.in1Idx (by simp [Gate.reads, ht])
    rw [WiresRel, hk1] at h1
    exact sends_eqz ht hz hl hn h1 hk hc hv
  case bit2A =>
    simp only [Ready, ht] at hr
    obtain ⟨hz, hn, hb, hk1, hk⟩ := hr
    simp only [Correlated, ht, hb] at hc
    simp only [clearGate, ht] at hv
    have h1 := hw (by simp [Gate.interactive, ht]) f.in1Idx (by simp [Gate.reads, ht])
    rw [WiresRel, hk1] at h1
    exact sends_bit2A ht hz hn h1 hk hc hv
  case mul => simp only [Ready, ht] at hr
  all_goals exact sends_local (by simp [Gate.isLocal, Gate.interactive, ht]) hr hv

end ready

end gates

end GraphMpc
