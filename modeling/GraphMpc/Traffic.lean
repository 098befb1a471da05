import GraphMpc.LockStep

namespace GraphMpc

open Tabulate Permutation Preprocessor Servers

namespace Gate

def sent (conf : ProtocolConfig) (f : Gate) : ℕ :=
  match f.type with
  | .shuffle | .mergedShuffle | .unshuffle | .reveal => conf.size
  | .compaction => 2 * conf.size
  | .mul => 2
  | .mulSIMD | .eqz | .bit2A => 2 * f.size
  | _ => 0

def stored (conf : ProtocolConfig) (f : Gate) : ℕ :=
  match f.type with
  | .shuffle | .mergedShuffle | .unshuffle => 2 * conf.size
  | _ => if f.takesTriple then f.tripleLen conf else 0

end Gate

namespace Online

variable {conf : ProtocolConfig} {id : Party} {f : Gate}

theorem scatterVec_length {p : Permutation} {n : ℕ} {x : ℕ → Ring} {v : Vec}
    (h : scatterVec p n x = some v) : v.length = n := by
  obtain ⟨q, -, hv⟩ := Option.bind_eq_some_iff.mp h
  rw [← Option.some.inj hv, scatter_length]

theorem gatherVec_length {p : Permutation} {n : ℕ} {x v : Vec} (h : gatherVec p n x = some v) :
    v.length = n := by
  obtain ⟨q, -, hv⟩ := Option.bind_eq_some_iff.mp h
  rw [← Option.some.inj hv, tab_length]

theorem prefixOf_length {v w : Vec} {n : ℕ} (h : prefixOf v n = some w) : w.length = n := by
  have hn : n ≤ v.length := prefixOf_isSome.mp (h ▸ rfl)
  rw [prefixOf_eq hn] at h
  rw [← Option.some.inj h, tab_length]

theorem mulMessage_length (binary : Bool) (n : ℕ) (x y a b : Vec) :
    (mulMessage binary n x y a b).dataSend.length = 2 * n := by
  cases binary <;> simp [mulMessage, Message.dataSend, interleave_length]

theorem message_length {k : Correlation} {wires : ℕ → Vec} {m : Message}
    (h : message conf id f k wires = some m) : m.dataSend.length = f.sent conf := by
  cases ht : f.type
  case shuffle | mergedShuffle =>
    simp only [message, ht, Option.bind_eq_bind, Option.bind_eq_some_iff, Option.some.injEq] at h
    obtain ⟨x, -, t, hv, rfl⟩ := h
    simp [Message.dataSend, Gate.sent, ht, scatterVec_length hv]
  case unshuffle =>
    simp only [message, ht, Option.bind_eq_bind, Option.bind_eq_some_iff, Option.some.injEq] at h
    obtain ⟨x, -, t, hv, rfl⟩ := h
    simp [Message.dataSend, Gate.sent, ht, gatherVec_length hv]
  case compaction | eqz | bit2A =>
    simp only [message, ht, Option.bind_eq_bind, Option.bind_eq_some_iff, Option.some.injEq] at h
    obtain ⟨x, -, a, -, b, -, rfl⟩ := h
    simp [Message.dataSend, Gate.sent, ht, interleave_length]
  case mul | mulSIMD =>
    simp only [message, ht, Option.bind_eq_bind, Option.bind_eq_some_iff, Option.some.injEq] at h
    obtain ⟨x, -, y, -, a, -, b, -, rfl⟩ := h
    simp [Gate.sent, ht, mulMessage_length]
  case reveal =>
    simp only [message, ht, Option.bind_eq_bind, Option.bind_eq_some_iff, Option.some.injEq] at h
    obtain ⟨x, hx, rfl⟩ := h
    simp [Message.dataSend, Gate.sent, ht, prefixOf_length hx]
  all_goals
    simp only [message, ht, Option.some.injEq] at h
    subst h
    simp [Message.dataSend, Gate.sent, ht]

theorem append_length (m m' : Message) :
    (m.append m').dataSend.length = m.dataSend.length + m'.dataSend.length := by
  simp only [Message.dataSend, Message.append, List.length_append]
  omega

theorem receive_length (m : Message) (data : Vec) :
    (m.receive data).dataSend.length = m.dataSend.length := by
  simp [Message.dataSend, Message.receive]

theorem sendGate_length {k : Correlation} {o o' : Online} (h : o.sendGate conf id f k = some o') :
    o'.vals.dataSend.length = o.vals.dataSend.length + f.sent conf := by
  obtain ⟨m, hm, ho⟩ := Option.bind_eq_some_iff.mp h
  rw [← Option.some.inj ho, append_length, message_length hm, releaseSent_eq]
  exact congrArg (fun m : Message => m.dataSend.length + f.sent conf) (negateInput_vals id f o)

theorem readGate_vals {o o' : Online} {t : Message} (h : o.readGate conf f = some (t, o')) :
    o'.vals = o.vals := by
  have hread : ∀ {read : Vec × ℕ → Message × Online} {c : Option (Vec × ℕ)},
      (∀ r, (read r).2.vals = o.vals) → (c.bind fun r => some (read r)) = some (t, o') →
        o'.vals = o.vals := by
    intro read c hr he
    obtain ⟨r, -, hv⟩ := Option.bind_eq_some_iff.mp he
    rw [← hr r, Option.some.inj hv]
  unfold readGate at h
  split at h
  case h_5 | h_6 =>
    split at h <;> exact hread (fun _ => rfl) h
  case h_10 =>
    obtain ⟨-, rfl⟩ := Prod.mk.inj (Option.some.inj h)
    rfl
  all_goals exact hread (fun _ => rfl) h

theorem recvGate_vals {inp : ℕ → Vec} {k : Correlation} {o o' : Online}
    (h : o.recvGate conf id inp f k = some o') : o'.vals = o.vals := by
  unfold recvGate at h
  split at h
  · obtain ⟨x, -, ho⟩ := Option.bind_eq_some_iff.mp h
    rw [← Option.some.inj ho, releaseReceived_eq]
    rfl
  · rw [← Option.some.inj h]
  · rw [← Option.some.inj h]
  · rw [← Option.some.inj h]
  · rw [← Option.some.inj h]
  · obtain ⟨⟨t, o1⟩, hr, h⟩ := Option.bind_eq_some_iff.mp h
    obtain ⟨v, -, ho⟩ := Option.bind_eq_some_iff.mp h
    rw [← Option.some.inj ho, releaseReceived_eq, ← readGate_vals hr]
    rfl

end Online

namespace Servers

variable {conf : ProtocolConfig} {id : Party}

def evaluator (s : Servers) : Party → Evaluator
  | .p1 => s.e1
  | _ => s.e0

def pending (s : Servers) (id : Party) : ℕ := (s.evaluator id).online.vals.dataSend.length

def sent (conf : ProtocolConfig) (id : Party) (s : Servers) (actions : List Action) : ℕ :=
  (Trace.log (step conf) (fun s a => match a with
    | .exchange => [s.pending id]
    | _ => []) s actions).sum

def pendingAfter (conf : ProtocolConfig) (n : ℕ) : Action → ℕ
  | .send f => n + f.sent conf
  | .clear => 0
  | _ => n

theorem step_pending {s s' : Servers} {a : Action} (h : step conf s a = some s') :
    s'.pending id = pendingAfter conf (s.pending id) a := by
  cases a with
  | send f =>
    obtain ⟨e0, h0, h⟩ := Option.bind_eq_some_iff.mp h
    obtain ⟨e1, h1, h⟩ := Option.bind_eq_some_iff.mp h
    obtain ⟨o0, ho0, h0⟩ := Option.bind_eq_some_iff.mp h0
    obtain ⟨o1, ho1, h1⟩ := Option.bind_eq_some_iff.mp h1
    rw [← Option.some.inj h, ← Option.some.inj h0, ← Option.some.inj h1]
    cases id <;> first
      | exact Online.sendGate_length ho0
      | exact Online.sendGate_length ho1
  | exchange =>
    have hs : (if s.e0.online.vals.dataSend.length = s.e1.online.vals.dataSend.length then
        _ else none) = some s' := h
    split at hs
    · rw [← Option.some.inj hs]
      cases id <;> exact Online.receive_length ..
    · cases hs
  | recv f =>
    obtain ⟨e0, h0, h⟩ := Option.bind_eq_some_iff.mp h
    obtain ⟨e1, h1, h⟩ := Option.bind_eq_some_iff.mp h
    obtain ⟨k0, -, h0⟩ := Option.bind_eq_some_iff.mp h0
    obtain ⟨k1, -, h1⟩ := Option.bind_eq_some_iff.mp h1
    obtain ⟨o0, ho0, h0⟩ := Option.bind_eq_some_iff.mp h0
    obtain ⟨o1, ho1, h1⟩ := Option.bind_eq_some_iff.mp h1
    rw [← Option.some.inj h, ← Option.some.inj h0, ← Option.some.inj h1]
    cases id <;> first
      | exact congrArg (fun m : Message => m.dataSend.length) (Online.recvGate_vals ho0)
      | exact congrArg (fun m : Message => m.dataSend.length) (Online.recvGate_vals ho1)
  | clear =>
    rw [← Option.some.inj h]
    cases id <;> rfl

def traffic (conf : ProtocolConfig) : ℕ → List Action → ℕ
  | _, [] => 0
  | n, .exchange :: l => n + traffic conf n l
  | n, a :: l => traffic conf (pendingAfter conf n a) l

theorem sent_eq {s s' : Servers} {actions : List Action} (h : s.run conf actions = some s') :
    s.sent conf id actions = traffic conf (s.pending id) actions := by
  induction actions generalizing s with
  | nil => rfl
  | cons a l ih =>
    obtain ⟨t, ht, hrun⟩ := Option.bind_eq_some_iff.mp h
    have hl := ih hrun
    rw [sent] at hl
    rw [sent, Trace.log, ht, Option.elim_some, List.sum_append, hl, step_pending ht]
    cases a <;> simp [traffic, pendingAfter]

theorem traffic_send (n : ℕ) (layer : List Gate) (rest : List Action) :
    traffic conf n (layer.map .send ++ rest) =
      traffic conf (n + (layer.map (Gate.sent conf)).sum) rest := by
  induction layer generalizing n with
  | nil => rfl
  | cons f layer ih =>
    have hf : traffic conf n ((f :: layer).map .send ++ rest) =
      traffic conf (n + f.sent conf) (layer.map .send ++ rest) := rfl
    rw [hf, ih, List.map_cons, List.sum_cons, Nat.add_assoc]

theorem traffic_recv (n : ℕ) (layer : List Gate) (rest : List Action) :
    traffic conf n (layer.map .recv ++ rest) = traffic conf n rest := by
  induction layer with
  | nil => rfl
  | cons f layer ih => exact ih

theorem traffic_schedule (circ : List (List Gate)) :
    traffic conf 0 (schedule circ) = (circ.flatten.map (Gate.sent conf)).sum := by
  induction circ with
  | nil => rfl
  | cons layer circ ih =>
    have hl : schedule (layer :: circ) = layer.map .send ++ .exchange ::
        (layer.map .recv ++ .clear :: schedule circ) := by
      simp [schedule, layerSchedule]
    have hrest : traffic conf (layer.map (Gate.sent conf)).sum
        (layer.map .recv ++ .clear :: schedule circ) = (circ.flatten.map (Gate.sent conf)).sum := by
      rw [traffic_recv, ← ih]
      rfl
    rw [hl, traffic_send, Nat.zero_add, traffic, hrest, List.flatten_cons, List.map_append,
      List.sum_append]

end Servers

section dealer

variable {conf : ProtocolConfig} {g : Streams} {order l r : List Gate} {f : Gate}

def held (dealer : Storage) : ℕ :=
  (Preprocessor.dealt dealer .p0).length + (Preprocessor.dealt dealer .p1).length

def drawnIdxs (type : GType) (l : List Gate) : Finset ℕ :=
  ((l.filter (·.type = type)).map (·.shuffleIdx)).toFinset

theorem mem_drawnIdxs {type : GType} {idx : ℕ} :
    idx ∈ drawnIdxs type l ↔ ∃ f ∈ l, f.type = type ∧ f.shuffleIdx = idx := by
  simp [drawnIdxs, and_assoc]

theorem drawnIdxs_snoc (type : GType) (l : List Gate) (f : Gate) : drawnIdxs type (l ++ [f]) =
    if f.type = type then insert f.shuffleIdx (drawnIdxs type l) else drawnIdxs type l := by
  ext idx
  split_ifs with ht <;> simp only [mem_drawnIdxs, Finset.mem_insert, List.mem_append,
    List.mem_singleton]
  · constructor
    · rintro ⟨x, hx | rfl, hxt, hi⟩
      · exact Or.inr ⟨x, hx, hxt, hi⟩
      · exact Or.inl hi.symm
    · rintro (rfl | ⟨x, hx, hxt, hi⟩)
      · exact ⟨f, Or.inr rfl, ht, rfl⟩
      · exact ⟨x, Or.inl hx, hxt, hi⟩
  · constructor
    · rintro ⟨x, hx | rfl, hxt, hi⟩
      · exact ⟨x, hx, hxt, hi⟩
      · exact absurd hxt ht
    · rintro ⟨x, hx, hxt, hi⟩
      exact ⟨x, Or.inl hx, hxt, hi⟩

theorem drawnIdxs_card {type : GType} (ht : f.type = type) : (drawnIdxs type (l ++ [f])).card =
    if f.shuffleIdx ∈ drawnIdxs type l then (drawnIdxs type l).card
    else (drawnIdxs type l).card + 1 := by
  rw [drawnIdxs_snoc, if_pos ht, Finset.card_insert_eq_ite]

def dealerTraffic (conf : ProtocolConfig) (l : List Gate) : ℕ :=
  (l.map (Gate.stored conf)).sum +
    conf.size * ((drawnIdxs .shuffle l).card + 2 * (drawnIdxs .mergedShuffle l).card)

theorem dealerTraffic_perm {l l' : List Gate} (h : l.Perm l') :
    dealerTraffic conf l = dealerTraffic conf l' := by
  have hd : ∀ type, drawnIdxs type l = drawnIdxs type l' := fun type => by
    ext idx
    simp only [mem_drawnIdxs, h.mem_iff]
  rw [dealerTraffic, dealerTraffic, (h.map _).sum_eq, hd, hd]

theorem dealt_drawn (h : Dealable conf order) (ho : order = l ++ f :: r)
    (ht : f.type = .shuffle ∨ f.type = .mergedShuffle) :
    dealt l f.shuffleIdx = true ↔ f.shuffleIdx ∈ drawnIdxs f.type l := by
  have hl : ∀ x ∈ l, x ∈ order := fun x hx => ho ▸ List.mem_append_left _ hx
  have hf : f ∈ order := ho ▸ List.mem_append_right _ (List.mem_cons_self ..)
  rw [dealt_iff, mem_drawnIdxs]
  constructor
  · rintro ⟨x, hx, hd⟩
    obtain ⟨hxt, hxi⟩ := deals_iff.mp hd
    refine ⟨x, hx, ?_, hxi⟩
    rcases ht with ht | ht <;> rcases hxt with hxt | hxt
    · rw [ht, hxt]
    · exact absurd hxi.symm (h.separate f hf x (hl x hx) ht hxt)
    · exact absurd hxi (h.separate x (hl x hx) f hf hxt ht)
    · rw [ht, hxt]
  · rintro ⟨x, hx, hxt, hxi⟩
    exact ⟨x, hx, deals_iff.mpr ⟨hxt ▸ ht, hxi⟩⟩

theorem prepChunk_perm (ho : order = l ++ f :: r)
    (ht : f.type = .shuffle ∨ f.type = .mergedShuffle) :
    (prepChunk conf g order .p0 l f).length + (prepChunk conf g order .p1 l f).length =
      if dealt l f.shuffleIdx then 0 else if f.type = .shuffle then conf.size else 2 * conf.size := by
  have hd : f.deals f.shuffleIdx = true := deals_iff.mpr ⟨ht, rfl⟩
  rw [prepChunk, prepChunk, if_pos ht, if_pos ht]
  rcases @draw_cases conf g order l r f ho hd with
    hdl | ⟨hdl, ⟨ht', hk⟩ | ⟨ht', -, hk⟩ | ⟨ht', -, hk⟩⟩
  · simp [hdl]
  all_goals simp [hdl, ht', permChunk, hk, Nat.two_mul]

theorem prepChunk_triple (hf : f.takesTriple = true) :
    (prepChunk conf g order .p0 l f).length + (prepChunk conf g order .p1 l f).length =
      f.tripleLen conf := by
  obtain ⟨h1, h2, -⟩ := takesTriple_types hf
  obtain ⟨hl0, hl1⟩ := tripleShares_length (f.tripleLen conf) f.binary (recvAt conf g l)
    (dealerAt conf g l).rngs
  have hperm : ¬ (f.type = .shuffle ∨ f.type = .mergedShuffle) := by simp [h1, h2]
  have hchunk : ∀ id, prepChunk conf g order id l f = tripleChunk conf g id l f := fun id => by
    rw [prepChunk, if_neg hperm, if_pos hf]
  rw [hchunk, hchunk, tripleChunk, tripleChunk]
  rcases recvAt_cases conf g l with hr | hr
  · simp [triplesAt, hr ▸ hl0, hr]
  · simp [triplesAt, hr ▸ hl1, hr]

theorem bChunks_length (h : f.type = .shuffle ∨ f.type = .mergedShuffle ∨ f.type = .unshuffle) :
    (bChunk conf g order .p0 l f).length + (bChunk conf g order .p1 l f).length =
      2 * conf.size := by
  have hkeeps := (deal conf g order f.shuffleIdx).pi_keeps
  rcases h with ht | ht | ht
  · simp [bChunk, ht, correctionAt_length _ l hkeeps, Nat.two_mul]
  · simp [bChunk, ht, correctionAt_length _ l hkeeps, Nat.two_mul]
  · simp [bChunk, ht, correctionAt_length _ l hkeeps.inv, Nat.two_mul]

theorem held_step (h : Dealable conf order) (ho : order = l ++ f :: r) :
    held (dealerAt conf g (l ++ [f])) = held (dealerAt conf g l) +
      ((prepChunk conf g order .p0 l f).length + (prepChunk conf g order .p1 l f).length +
        ((bChunk conf g order .p0 l f).length + (bChunk conf g order .p1 l f).length)) := by
  have hgate : ∀ id, id ≠ .d → (dealerAt conf g (l ++ [f])).preproc id =
      (dealerAt conf g l).preproc id ++ prepChunk conf g order id l f ∧
        (dealerAt conf g (l ++ [f])).B id =
          (dealerAt conf g l).B id ++ bChunk conf g order id l f := fun id hid => by
    rw [dealerAt, dealRun_snoc]
    exact dealGate_preproc h ho hid
  obtain ⟨hp0, hb0⟩ := hgate .p0 (by decide)
  obtain ⟨hp1, hb1⟩ := hgate .p1 (by decide)
  simp only [held, Preprocessor.dealt, hp0, hb0, hp1, hb1, List.length_append]
  omega

theorem dealerTraffic_snoc (h : Dealable conf order) (ho : order = l ++ f :: r) :
    dealerTraffic conf (l ++ [f]) = dealerTraffic conf l +
      ((prepChunk conf g order .p0 l f).length + (prepChunk conf g order .p1 l f).length +
        ((bChunk conf g order .p0 l f).length + (bChunk conf g order .p1 l f).length)) := by
  have hsum : ((l ++ [f]).map (Gate.stored conf)).sum =
      (l.map (Gate.stored conf)).sum + f.stored conf := by simp
  have hother : ∀ type, f.type ≠ type → drawnIdxs type (l ++ [f]) = drawnIdxs type l :=
    fun type ht => by rw [drawnIdxs_snoc, if_neg ht]
  rw [dealerTraffic, dealerTraffic, hsum]
  cases f.dealt_cases with
  | perm hd =>
    have htype := (deals_iff.mp hd).1
    have hst : f.stored conf = 2 * conf.size := by
      rcases htype with ht | ht <;> simp [Gate.stored, ht]
    have hmem := dealt_drawn h ho htype
    rw [prepChunk_perm ho htype, bChunks_length (htype.imp_right Or.inl), hst]
    rcases htype with ht | ht <;> rw [ht] at hmem
    · rw [hother .mergedShuffle (by simp [ht]), drawnIdxs_card ht, if_pos ht]
      by_cases hdl : dealt l f.shuffleIdx = true
      · rw [if_pos hdl, if_pos (hmem.mp hdl)]
        ring
      · rw [if_neg hdl, if_neg (mt hmem.mpr hdl)]
        ring
    · have hs : f.type ≠ .shuffle := by simp [ht]
      rw [hother .shuffle hs, drawnIdxs_card ht, if_neg hs]
      by_cases hdl : dealt l f.shuffleIdx = true
      · rw [if_pos hdl, if_pos (hmem.mp hdl)]
        ring
      · rw [if_neg hdl, if_neg (mt hmem.mpr hdl)]
        ring
  | unshuffle ht =>
    have hst : f.stored conf = 2 * conf.size := by simp [Gate.stored, ht]
    have hprep : ∀ id, prepChunk conf g order id l f = [] := fun id => by
      simp [prepChunk, ht, Gate.takesTriple]
    rw [hother _ (by simp [ht]), hother _ (by simp [ht]), bChunks_length (.inr (.inr ht)), hst,
      hprep, hprep, List.length_nil]
    ring
  | triple ht =>
    obtain ⟨h1, h2, h3⟩ := takesTriple_types ht
    have hst : f.stored conf = f.tripleLen conf := by
      rw [Gate.stored]
      split <;> simp_all
    have hb : ∀ id, bChunk conf g order id l f = [] := fun id => by simp [bChunk, h1, h2, h3]
    rw [hother _ h1, hother _ h2, prepChunk_triple ht, hst, hb, hb, List.length_nil]
    ring
  | silent _ ht =>
    obtain ⟨h1, h2, h3, h4⟩ := ht
    have hst : f.stored conf = 0 := by
      rw [Gate.stored]
      split <;> simp_all
    have hprep : ∀ id, prepChunk conf g order id l f = [] := fun id => by
      simp [prepChunk, h1, h2, h4]
    have hb : ∀ id, bChunk conf g order id l f = [] := fun id => by simp [bChunk, h1, h2, h3]
    rw [hother _ h1, hother _ h2, hst, hprep, hprep, hb, hb, List.length_nil]
    ring

theorem held_eq (h : Dealable conf order) :
    held (dealerAt conf g order) = dealerTraffic conf order := by
  have hall : ∀ l r, order = l ++ r → held (dealerAt conf g l) = dealerTraffic conf l := by
    intro l
    induction l using List.reverseRecOn with
    | nil => exact fun _ _ => rfl
    | append_singleton l f ih =>
      intro r ho
      have ho' : order = l ++ f :: r := by rw [ho, List.append_assoc, List.singleton_append]
      rw [held_step h ho', dealerTraffic_snoc (g := g) h ho', ih _ ho']
  exact hall order [] (List.append_nil _).symm

end dealer

end GraphMpc
