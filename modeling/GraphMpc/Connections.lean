import GraphMpc.Network

namespace GraphMpc

open NetworkAction Rendezvous

structure Network where
  nParties : ℕ
  nClients : ℕ
  port : ℕ
  IP : ℕ → List String
  localhost : ℕ → Bool

-- one end of a connection blocks until the other end takes the step that fits
inductive Fits : NetworkAction → NetworkAction → Prop where
  | dial (peer : ℕ) (address : Option String) (port : ℕ) : Fits (dial peer address port) (accept port)
  | accept (peer : ℕ) (address : Option String) (port : ℕ) : Fits (accept port) (dial peer address port)
  | send (port : ℕ) : Fits (send port) (recv port)
  | recv (port : ℕ) : Fits (recv port) (send port)

theorem Fits.symm {a b : NetworkAction} (h : Fits a b) : Fits b a := by
  cases h <;> constructor

namespace NetworkAction

def line : NetworkAction → ℕ
  | dial _ _ port | accept port | send port | recv port => port

end NetworkAction

namespace Network

variable (w : Network)

def size : ℕ := w.nParties + w.nClients

def conf (p : ℕ) : NetworkConfig := ⟨p, w.nParties, w.nClients, w.port, w.IP p, w.localhost p⟩

def program (rounds p : ℕ) : List NetworkAction :=
  (w.conf p).initNetwork ++ (List.replicate rounds (w.conf p).sync).flatten

def Reachable (rounds : ℕ) : (ℕ → List NetworkAction) → Prop :=
  Relation.ReflTransGen (Step Fits) (w.program rounds)

-- the k-th call of sync is over for p
def Returned (rounds k p : ℕ) (s : ℕ → List NetworkAction) : Prop :=
  (s p).length ≤ (rounds - k) * (w.conf p).sync.length

-- p has taken a step of its k-th call of sync
def Entered (rounds k p : ℕ) (s : ℕ → List NetworkAction) : Prop :=
  (s p).length < (rounds - k + 1) * (w.conf p).sync.length

def pairPort (i j : ℕ) : ℕ := w.port + 2 * (i * w.size + j)

def connectMeetings (i j : ℕ) : List (Meeting ℕ NetworkAction) :=
  [⟨i, j, dial j ((w.conf i).address j) (w.pairPort i j), accept (w.pairPort i j)⟩,
    ⟨j, i, dial i ((w.conf j).address i) (w.pairPort i j + 1), accept (w.pairPort i j + 1)⟩]

def syncMeetings (i j : ℕ) : List (Meeting ℕ NetworkAction) :=
  [⟨j, i, send (w.pairPort i j), recv (w.pairPort i j)⟩,
    ⟨i, j, send (w.pairPort i j), recv (w.pairPort i j)⟩,
    ⟨i, j, send (w.pairPort i j + 1), recv (w.pairPort i j + 1)⟩,
    ⟨j, i, send (w.pairPort i j + 1), recv (w.pairPort i j + 1)⟩]

def connects : List (Meeting ℕ NetworkAction) :=
  (NetworkConfig.pairs w.size).flatMap fun x => w.connectMeetings x.1 x.2

def syncs : List (Meeting ℕ NetworkAction) :=
  (NetworkConfig.pairs w.size).flatMap fun x => w.syncMeetings x.1 x.2

def plan (rounds : ℕ) : List (Meeting ℕ NetworkAction) :=
  w.connects ++ (List.replicate rounds w.syncs).flatten

variable {w} {rounds i j p : ℕ}

theorem script_flatMap {α : Type} (l : List α) (f : α → List (Meeting ℕ NetworkAction)) (p : ℕ) :
    script (l.flatMap f) p = l.flatMap fun x => script (f x) p := by
  induction l with
  | nil => rfl
  | cons x l ih => rw [List.flatMap_cons, List.flatMap_cons, script_append, ih]

theorem script_connects (p : ℕ) : script w.connects p = (w.conf p).initNetwork := by
  rw [connects, script_flatMap, NetworkConfig.initNetwork_eq]
  refine List.flatMap_congr fun x hx => ?_
  obtain ⟨hlt, -⟩ := NetworkConfig.mem_pairs.mp hx
  have hport : (w.conf p).pairPort x.1 x.2 = w.pairPort x.1 x.2 := rfl
  have hid : (w.conf p).id = p := rfl
  rw [NetworkConfig.connectPair, hid, hport]
  split_ifs with h1 h2
  · subst h1
    simp [script, connectMeetings, Meeting.act, hlt.ne]
  · subst h2
    simp [script, connectMeetings, Meeting.act, hlt.ne']
  · simp [script, connectMeetings, Meeting.act, Ne.symm h1, Ne.symm h2]

theorem script_syncs (p : ℕ) : script w.syncs p = (w.conf p).sync := by
  rw [syncs, script_flatMap, NetworkConfig.sync_eq]
  refine List.flatMap_congr fun x hx => ?_
  obtain ⟨hlt, -⟩ := NetworkConfig.mem_pairs.mp hx
  have hport : (w.conf p).pairPort x.1 x.2 = w.pairPort x.1 x.2 := rfl
  have hid : (w.conf p).id = p := rfl
  rw [NetworkConfig.syncPair, hid, hport]
  split_ifs with h1 h2
  · subst h1
    simp [script, syncMeetings, Meeting.act, NetworkConfig.syncChannel, hlt.ne]
  · subst h2
    simp [script, syncMeetings, Meeting.act, NetworkConfig.syncChannel, hlt.ne']
  · simp [script, syncMeetings, Meeting.act, Ne.symm h1, Ne.symm h2]

theorem script_rounds (rounds p : ℕ) : script (List.replicate rounds w.syncs).flatten p =
    (List.replicate rounds (w.conf p).sync).flatten := by
  induction rounds with
  | zero => rfl
  | succ rounds ih =>
    rw [List.replicate_succ, List.replicate_succ, List.flatten_cons, List.flatten_cons,
      script_append, script_syncs, ih]

theorem script_plan (rounds : ℕ) : script (w.plan rounds) = w.program rounds := by
  funext p
  rw [plan, script_append, script_connects, script_rounds, program]

theorem pairPort_inj {i' j' e e' : ℕ} (hj : j < w.size) (hj' : j' < w.size) (he : e ≤ 1) (he' : e' ≤ 1)
    (h : w.pairPort i j + e = w.pairPort i' j' + e') : i = i' ∧ j = j' := by
  have hsum : i * w.size + j = i' * w.size + j' := by
    rw [pairPort, pairPort] at h
    omega
  have hpos : 0 < w.size := by omega
  have hdiv := congrArg (· / w.size) hsum
  have hmod := congrArg (· % w.size) hsum
  simp only [Nat.mul_comm _ w.size, Nat.mul_add_mod, Nat.mod_eq_of_lt hj, Nat.mod_eq_of_lt hj',
    Nat.mul_add_div hpos, Nat.div_eq_of_lt hj, Nat.div_eq_of_lt hj', Nat.add_zero] at hdiv hmod
  exact ⟨hdiv, hmod⟩

structure OfPair (w : Network) (m : Meeting ℕ NetworkAction) (i j : ℕ) : Prop where
  lt : i < j
  bound : j < w.size
  ends : m.left = i ∧ m.right = j ∨ m.left = j ∧ m.right = i
  fits : Fits m.leftAct m.rightAct
  port : ∃ e ≤ 1, m.leftAct.line = w.pairPort i j + e

theorem of_connects {m : Meeting ℕ NetworkAction} (h : m ∈ w.connects) : ∃ i j, OfPair w m i j := by
  obtain ⟨⟨i, j⟩, hij, hm⟩ := List.mem_flatMap.mp h
  obtain ⟨hlt, hj⟩ := NetworkConfig.mem_pairs.mp hij
  simp only [connectMeetings, List.mem_cons, List.not_mem_nil, or_false] at hm
  rcases hm with rfl | rfl
  · exact ⟨i, j, hlt, hj, Or.inl ⟨rfl, rfl⟩, .dial .., 0, by decide, rfl⟩
  · exact ⟨i, j, hlt, hj, Or.inr ⟨rfl, rfl⟩, .dial .., 1, by decide, rfl⟩

theorem of_syncs {m : Meeting ℕ NetworkAction} (h : m ∈ w.syncs) : ∃ i j, OfPair w m i j := by
  obtain ⟨⟨i, j⟩, hij, hm⟩ := List.mem_flatMap.mp h
  obtain ⟨hlt, hj⟩ := NetworkConfig.mem_pairs.mp hij
  simp only [syncMeetings, List.mem_cons, List.not_mem_nil, or_false] at hm
  rcases hm with rfl | rfl | rfl | rfl
  · exact ⟨i, j, hlt, hj, Or.inr ⟨rfl, rfl⟩, .send .., 0, by decide, rfl⟩
  · exact ⟨i, j, hlt, hj, Or.inl ⟨rfl, rfl⟩, .send .., 0, by decide, rfl⟩
  · exact ⟨i, j, hlt, hj, Or.inl ⟨rfl, rfl⟩, .send .., 1, by decide, rfl⟩
  · exact ⟨i, j, hlt, hj, Or.inr ⟨rfl, rfl⟩, .send .., 1, by decide, rfl⟩

theorem of_plan {m : Meeting ℕ NetworkAction} (h : m ∈ w.plan rounds) : ∃ i j, OfPair w m i j := by
  rcases List.mem_append.mp h with h | h
  · exact of_connects h
  · obtain ⟨l, hl, hm⟩ := List.mem_flatten.mp h
    rw [(List.mem_replicate.mp hl).2] at hm
    exact of_syncs hm

theorem OfPair.act_isSome {m : Meeting ℕ NetworkAction} (h : OfPair w m i j) (p : ℕ) :
    (m.act p).isSome = decide (p = i ∨ p = j) := by
  rw [Meeting.act, Bool.eq_iff_iff, decide_eq_true_iff]
  rcases h.ends with ⟨hl, hr⟩ | ⟨hl, hr⟩ <;> rw [hl, hr] <;> split_ifs <;> simp_all

theorem plan_sound (w : Network) (rounds : ℕ) : Sound Fits line (w.plan rounds) where
  distinct m hm := by
    obtain ⟨i, j, h⟩ := of_plan hm
    have := h.lt
    rcases h.ends with ⟨hl, hr⟩ | ⟨hl, hr⟩ <;> omega
  agree m hm := by
    obtain ⟨i, j, h⟩ := of_plan hm
    exact h.fits
  line_eq a b h := by cases h <;> rfl
  ends m hm m' hm' hline p := by
    obtain ⟨i, j, h⟩ := of_plan hm
    obtain ⟨i', j', h'⟩ := of_plan hm'
    obtain ⟨e, he, hp⟩ := h.port
    obtain ⟨e', he', hp'⟩ := h'.port
    obtain ⟨rfl, rfl⟩ := pairPort_inj h.bound h'.bound he he' (by rw [← hp, ← hp', hline])
    rw [h.act_isSome, h'.act_isSome]

theorem Reachable.pending {s : ℕ → List NetworkAction} (h : w.Reachable rounds s) :
    ∃ pending, Sound Fits line pending ∧ pending.Sublist (w.plan rounds) ∧ s = script pending := by
  rw [Reachable, ← script_plan] at h
  obtain ⟨pending, hsub, hs, -⟩ := (plan_sound w rounds).reaches h
  exact ⟨pending, (plan_sound w rounds).sublist hsub, hsub, hs⟩

def PairEnabled (w : Network) (s : ℕ → List NetworkAction) (i j : ℕ) : Prop :=
  i < j ∧ j < w.size ∧ ∃ a b, Enabled Fits s i j a b

theorem Reachable.progress {s : ℕ → List NetworkAction} (h : w.Reachable rounds s)
    (hp : s p ≠ []) : ∃ i j, w.PairEnabled s i j := by
  obtain ⟨pending, hsound, hsub, rfl⟩ := h.pending
  obtain ⟨m, hm, he⟩ := hsound.progress hp
  obtain ⟨i, j, hpair⟩ := of_plan (hsub.subset hm)
  refine ⟨i, j, hpair.lt, hpair.bound, ?_⟩
  rcases hpair.ends with ⟨rfl, rfl⟩ | ⟨rfl, rfl⟩
  · exact ⟨_, _, he⟩
  · exact ⟨_, _, he.ne.symm, he.right, he.left, he.fits.symm⟩

theorem Reachable.ends {s : ℕ → List NetworkAction} (h : w.Reachable rounds s) {q : ℕ}
    {a b : NetworkAction} (he : Enabled Fits s p q a b) : ∃ i j, i < j ∧ j < w.size ∧
      (p = i ∧ q = j ∨ p = j ∧ q = i) ∧
      ∃ e ≤ 1, a.line = w.pairPort i j + e ∧ b.line = w.pairPort i j + e := by
  obtain ⟨pending, hsound, hsub, rfl⟩ := h.pending
  obtain ⟨pre, m, post, rfl, -, hp, hq⟩ := hsound.enabled he
  have hm : m ∈ pre ++ m :: post := List.mem_append_right _ (List.mem_cons_self ..)
  obtain ⟨i, j, hpair⟩ := of_plan (hsub.subset hm)
  obtain ⟨e, he1, hport⟩ := hpair.port
  have hpi : p = i ∨ p = j := of_decide_eq_true ((hpair.act_isSome p).symm.trans (by rw [hp]; rfl))
  have hqi : q = i ∨ q = j := of_decide_eq_true ((hpair.act_isSome q).symm.trans (by rw [hq]; rfl))
  have hne := he.ne
  refine ⟨i, j, hpair.lt, hpair.bound, by omega, e, he1, ?_, ?_⟩
  · rw [Meeting.act_line hsound hm hp, hport]
  · rw [Meeting.act_line hsound hm hq, hport]

structure PairMatches (w : Network) (i j : ℕ) : Prop where
  lower : (w.conf i).connectPair i j =
    [dial j ((w.conf i).address j) (w.pairPort i j), accept (w.pairPort i j + 1)]
  upper : (w.conf j).connectPair i j =
    [accept (w.pairPort i j), dial i ((w.conf j).address i) (w.pairPort i j + 1)]
  connect : List.Forall₂ Fits ((w.conf i).connectPair i j) ((w.conf j).connectPair i j)
  sync : List.Forall₂ Fits ((w.conf i).syncPair i j) ((w.conf j).syncPair i j)

theorem pair_matches (w : Network) (h : i < j) : w.PairMatches i j := by
  have hlower : (w.conf i).connectPair i j = [dial j ((w.conf i).address j) (w.pairPort i j),
      accept (w.pairPort i j + 1)] := if_pos rfl
  have hupper : (w.conf j).connectPair i j = [accept (w.pairPort i j),
      dial i ((w.conf j).address i) (w.pairPort i j + 1)] :=
    (if_neg h.ne).trans (if_pos rfl)
  have hsync : (w.conf i).syncPair i j = [recv (w.pairPort i j), send (w.pairPort i j),
      send (w.pairPort i j + 1), recv (w.pairPort i j + 1)] := if_pos rfl
  have hsync' : (w.conf j).syncPair i j = [send (w.pairPort i j), recv (w.pairPort i j),
      recv (w.pairPort i j + 1), send (w.pairPort i j + 1)] :=
    (if_neg h.ne).trans (if_pos rfl)
  refine ⟨hlower, hupper, ?_, ?_⟩
  · rw [hlower, hupper]
    exact .cons (.dial ..) (.cons (.accept ..) .nil)
  · rw [hsync, hsync']
    exact .cons (.recv _) (.cons (.send _) (.cons (.send _) (.cons (.recv _) .nil)))

theorem rounds_length (n p : ℕ) :
    (script (List.replicate n w.syncs).flatten p).length = n * (w.conf p).sync.length := by
  rw [script_rounds, List.length_flatten, List.map_replicate, List.sum_replicate_nat]

theorem Reachable.barrier {s : ℕ → List NetworkAction} (h : w.Reachable rounds s) {k q : ℕ}
    (hk : 1 ≤ k) (hr : k ≤ rounds) (hp : p < w.size) (hq : q < w.size) (hpq : p ≠ q)
    (hret : w.Returned rounds k p s) : w.Entered rounds k q s := by
  let before := w.connects ++ (List.replicate (k - 1) w.syncs).flatten
  let rest := (List.replicate (rounds - k) w.syncs).flatten
  have hplan : w.plan rounds = before ++ (w.syncs ++ rest) := by
    have hsplit : rounds = (k - 1) + (1 + (rounds - k)) := by omega
    have hflat : (List.replicate rounds w.syncs).flatten =
        (List.replicate (k - 1) w.syncs).flatten ++ (w.syncs ++ rest) := by
      conv_lhs => rw [hsplit]
      rw [List.replicate_add, List.replicate_add, List.flatten_append, List.flatten_append]
      simp [rest]
    rw [plan, hflat, ← List.append_assoc]
  obtain ⟨m, hm, hbetween⟩ : ∃ m ∈ w.syncs, between p q m = true := by
    rcases lt_or_gt_of_ne hpq with hlt | hlt
    · refine ⟨_, List.mem_flatMap.mpr ⟨(p, q), NetworkConfig.mem_pairs.mpr ⟨hlt, hq⟩,
        List.mem_cons_self ..⟩, ?_⟩
      simp [between, Meeting.act, hlt.ne]
    · refine ⟨_, List.mem_flatMap.mpr ⟨(q, p), NetworkConfig.mem_pairs.mpr ⟨hlt, hp⟩,
        List.mem_cons_self ..⟩, ?_⟩
      simp [between, Meeting.act, hlt.ne]
  have hsound := plan_sound w rounds
  rw [Reachable, ← script_plan, hplan] at h
  rw [hplan] at hsound
  have hlt := hsound.barrier hm hbetween h (by rw [rounds_length]; exact hret)
  rw [script_append, List.length_append, rounds_length, script_syncs] at hlt
  rw [Entered, Nat.succ_mul, Nat.add_comm]
  exact hlt

structure Synchronized (w : Network) (rounds : ℕ) (s : ℕ → List NetworkAction) : Prop where
  progress : ∀ p, s p ≠ [] → ∃ i j, w.PairEnabled s i j
  pairs : ∀ i j, i < j → j < w.size → w.PairMatches i j
  ends : ∀ p q a b, Enabled Fits s p q a b → ∃ i j, i < j ∧ j < w.size ∧
    (p = i ∧ q = j ∨ p = j ∧ q = i) ∧
    ∃ e ≤ 1, a.line = w.pairPort i j + e ∧ b.line = w.pairPort i j + e
  barrier : ∀ k p q, 1 ≤ k → k ≤ rounds → p < w.size → q < w.size → p ≠ q →
    w.Returned rounds k p s → w.Entered rounds k q s

theorem connects_and_syncs (w : Network) {s : ℕ → List NetworkAction} (h : w.Reachable rounds s) :
    w.Synchronized rounds s where
  progress _ hp := h.progress hp
  pairs _ _ hij _ := pair_matches w hij
  ends _ _ _ _ he := h.ends he
  barrier _ _ _ hk hr hp hq hpq hret := h.barrier hk hr hp hq hpq hret

theorem connects_and_syncs_client : (⟨3, 1, 4242, fun _ => [], fun _ => true⟩ : Network).Synchronized
    2 (meet ((⟨3, 1, 4242, fun _ => [], fun _ => true⟩ : Network).program 2) 0 1) :=
  connects_and_syncs _ (.single ⟨0, 1, _, _, ⟨by decide, rfl, rfl, .dial ..⟩, rfl⟩)

end Network

end GraphMpc
