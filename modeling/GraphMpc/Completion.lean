import GraphMpc.DiskRun
import GraphMpc.LockStep
import GraphMpc.Reuse

namespace GraphMpc

open Refinement Backend Circuit

namespace Storage

def cursorStep (size : ℕ) (v : Vec) (idx : ℕ) : Servers.Action → Option ℕ
  | .recv f =>
    match recvReadLength size f with
    | some n => (readChunk v n idx).map Prod.snd
    | none => some idx
  | .send _ | .exchange | .clear => some idx

def cursor (id : Party) (s : Storage) : Vec × ℕ := (s.preproc id, s.readIdx)

variable {size : ℕ} {id : Party} {f : Gate} {s s' : Storage}

theorem sendCorrelation_cursor :
    cursor id (s.sendCorrelation size id f).2 = cursor id s := by
  unfold sendCorrelation sendPerm
  cases f.type
  case shuffle | mergedShuffle =>
    dsimp only
    split <;> split <;> rfl
  all_goals rfl

theorem recvPerm_cursor (size : ℕ) (id : Party) (s : Storage) (idx : ℕ) :
    cursor id (s.recvPerm size id idx).2 = cursor id s := by
  unfold recvPerm
  split <;> split <;> rfl

theorem readPreproc_cursor (id : Party) (s : Storage) (n : ℕ) :
    (s.readPreproc id n).map (fun p => cursor id p.2) =
      (readChunk (s.preproc id) n s.readIdx).map fun p => (s.preproc id, p.2) := by
  unfold readPreproc
  cases readChunk (s.preproc id) n s.readIdx <;> rfl

theorem recvCorrelation_cursor :
    (s.recvCorrelation size id f).map (fun p => cursor id p.2) =
      (cursorStep size (s.preproc id) s.readIdx (.recv f)).map fun i => (s.preproc id, i) := by
  have hmap : ∀ {A B C : Type} (x : Option A) (k : A → B) (c : B → C),
      (x.bind fun p => some (k p)).map c = x.map fun p => c (k p) := by
    intro A B C x k c
    cases x <;> rfl
  cases ht : f.type
  case shuffle | mergedShuffle =>
    have hc := recvPerm_cursor size id s f.shuffleIdx
    have hread := readPreproc_cursor id (s.recvPerm size id f.shuffleIdx).2 size
    rw [(Prod.mk.inj hc).1, (Prod.mk.inj hc).2] at hread
    simp only [recvCorrelation, cursorStep, recvReadLength, ht, Option.map_map]
    exact (hmap _ _ _).trans hread
  case unshuffle =>
    simp only [recvCorrelation, cursorStep, recvReadLength, ht, Option.map_map]
    exact (hmap _ _ _).trans (readPreproc_cursor id s size)
  all_goals
    simp only [recvCorrelation, cursorStep, recvReadLength, ht]
    rfl

theorem act_cursor (size : ℕ) (id : Party) (s : Storage) (a : Servers.Action) :
    (s.act size id a).map (cursor id) =
      (cursorStep size (s.preproc id) s.readIdx a).map fun i => (s.preproc id, i) := by
  cases a with
  | send f => exact congrArg some sendCorrelation_cursor
  | exchange | clear => rfl
  | recv f =>
    rw [act, Option.map_map]
    exact recvCorrelation_cursor

theorem foldlM_act_cursor {l : List Servers.Action} (h : l.foldlM (act size id) s = some s') :
    l.foldlM (cursorStep size (s.preproc id)) s.readIdx = some s'.readIdx := by
  induction l generalizing s with
  | nil =>
    cases h
    rfl
  | cons a l ih =>
    obtain ⟨x, hx, h⟩ := Option.bind_eq_some_iff.mp h
    have hstep := act_cursor size id s a
    rw [hx] at hstep
    obtain ⟨i, hi, he⟩ := Option.map_eq_some_iff.mp hstep.symm
    obtain ⟨hv, rfl⟩ := Prod.mk.inj he
    rw [List.foldlM_cons, hi]
    exact hv ▸ ih h

theorem act_of_cursor {a : Servers.Action} {i : ℕ}
    (h : cursorStep size (s.preproc id) s.readIdx a = some i) :
    ∃ x, s.act size id a = some x ∧ cursor id x = (s.preproc id, i) := by
  have hstep := act_cursor size id s a
  rw [h] at hstep
  exact Option.map_eq_some_iff.mp hstep

end Storage

-- the preprocessing data of the servers lasts for the actions that are left, and to its end
def Lasts (size : ℕ) (rest : List Servers.Action) (m : Party → Storage) : Prop :=
  ∀ id, id ≠ .d →
    rest.foldlM (Storage.cursorStep size ((m id).preproc id)) (m id).readIdx = some 0

namespace Backend

variable {T : Type} [Backend T]

def Provisioned (conf : ProtocolConfig) (circ : Circuit) : Prop :=
  ∀ (blockSize : ℕ) (g : Streams) (rngs : Party → RandomGenerators), ∃ dealt m,
    prepare blockSize conf circ.circ g (fun id => Storage.init (rngs id)) = some (dealt, m) ∧
      Lasts conf.size (Servers.schedule circ.circ) m

def Started (idle : Party → Storage → T → Prop) (rngs : Party → RandomGenerators)
    (m : Party → Storage) (t : Party → T) : Prop :=
  Each idle m t ∧ m = fun id => Storage.init (rngs id)

section steps

variable {conf : ProtocolConfig} {order : List Gate} {id : Party} {f : Gate} {o o' : Online}
  {inp : ℕ → Vec} {m m' : Storage} {idle seeded : Storage → T → Prop}
  {R : List Gate → Storage → T → Prop}

theorem evaluateSend_act (hid : id ≠ .d)
    (h : (evaluateSend conf id o f : Prog Storage Online) m = some (o', m')) :
    m.act conf.size id (.send f) = some m' := by
  rw [evaluateSend, bind_apply, sendCorrelation_memory hid, Option.bind_some] at h
  obtain ⟨x, -, he⟩ := Option.map_eq_some_iff.mp h
  exact congrArg some (Prod.mk.inj he).2

theorem evaluateRecv_act (hid : id ≠ .d)
    (h : (evaluateRecv conf id inp o f : Prog Storage Online) m = some (o', m')) :
    m.act conf.size id (.recv f) = some m' := by
  rw [evaluateRecv, bind_apply, recvCorrelation_memory hid] at h
  obtain ⟨⟨k, x⟩, hk, h⟩ := Option.bind_eq_some_iff.mp h
  obtain ⟨y, -, he⟩ := Option.map_eq_some_iff.mp h
  rw [Storage.act, hk]
  exact congrArg some (Prod.mk.inj he).2

variable (h : Mirrors conf order id idle seeded R) (hid : id ≠ .d) (hf : f ∈ order)
  (hm : f.type ≠ .mul)

include h hid hf hm

theorem evaluateSend_returns (o : Online) :
    Returns (R order) (evaluateSend conf id o f) (evaluateSend conf id o f) :=
  .bind (h.sendCorrelation hid hf hm)
    (.of_total fun s _ _ => ⟨_, sendCorrelation_memory hid s⟩) fun _ => .ofOption _

theorem evaluateRecv_returns (inp : ℕ → Vec) (o : Online) :
    Returns (fun m t => R order m t ∧ ∃ x, m.act conf.size id (.recv f) = some x)
      (evaluateRecv conf id inp o f) (evaluateRecv conf id inp o f) := by
  refine .bind ((h.recvCorrelation hid hf hm).mono (fun _ _ hr => hr.1) fun _ _ _ hq => hq)
    (.of_total fun m t hr => ?_) fun _ => .ofOption _
  obtain ⟨-, x, hx⟩ := hr
  obtain ⟨k, hk, -⟩ := Option.map_eq_some_iff.mp hx
  exact ⟨k, (recvCorrelation_memory hid m).trans hk⟩

end steps

section rounds

variable {conf : ProtocolConfig} {circ : Circuit} {inp : Party → ℕ → Vec} {o o' : Online × Online}
  {a : Servers.Action} {m m' : Party → Storage} {l : List Servers.Action}

theorem step_act (h : step conf inp o a m = some (o', m')) (id : Party) (hid : id ≠ .d) :
    (m id).act conf.size id a = some (m' id) := by
  have hboth : ∀ {f0 : Prog Storage Online} {f1 : Prog Storage Online} {r : (Online × Online)},
      (onPart .p0 f0 >>= fun o0 => onPart .p1 f1 >>= fun o1 => pure (o0, o1) :
        Prog (Party → Storage) (Online × Online)) m = some (r, m') →
      f0 (m .p0) = some (r.1, m' .p0) ∧ f1 (m .p1) = some (r.2, m' .p1) := by
    intro f0 f1 r h
    obtain ⟨⟨o0, m1⟩, h0, h⟩ := Option.bind_eq_some_iff.mp h
    obtain ⟨⟨o1, m2⟩, h1, he⟩ := Option.bind_eq_some_iff.mp h
    obtain ⟨x0, hx0, rfl⟩ := onPart_eq_some.mp h0
    obtain ⟨x1, hx1, rfl⟩ := onPart_eq_some.mp h1
    cases he
    exact ⟨hx0, hx1⟩
  cases a with
  | send f =>
    obtain ⟨h0, h1⟩ := hboth h
    cases id with
    | p0 => exact evaluateSend_act hid h0
    | p1 => exact evaluateSend_act hid h1
    | d => exact absurd rfl hid
  | recv f =>
    obtain ⟨h0, h1⟩ := hboth h
    cases id with
    | p0 => exact evaluateRecv_act hid h0
    | p1 => exact evaluateRecv_act hid h1
    | d => exact absurd rfl hid
  | exchange =>
    obtain ⟨x, -, he⟩ := Option.map_eq_some_iff.mp h
    cases he
    rfl
  | clear =>
    cases h
    rfl

theorem onRegs_cursor {A : Type} {f : Storage → A × Storage} {i : Party} {x : A}
    (h : onPart i (onRegs f) m = some (x, m')) (id : Party) :
    (m' id).cursor id = (m id).cursor id := by
  obtain ⟨s, hs, rfl⟩ := onPart_eq_some.mp h
  cases hs
  by_cases hid : id = i
  · subst hid
    rw [Function.update_self]
    rfl
  · rw [Function.update_of_ne hid]

theorem createGraph_cursor {generator : GraphGenerator} {graphs : Party → Graph}
    (h : createGraph generator m = some (graphs, m')) (id : Party) :
    (m' id).cursor id = (m id).cursor id := by
  simp only [createGraph, bind_apply, Option.bind_eq_some_iff] at h
  obtain ⟨⟨rng0, m1⟩, h1, ⟨rng1, m2⟩, h2, ⟨drawn, m3⟩, h3, ⟨u0, m4⟩, h4, ⟨u1, m5⟩, h5, h⟩ := h
  obtain ⟨x, -, he⟩ := Option.map_eq_some_iff.mp h3
  cases he
  cases h
  rw [onRegs_cursor h5, onRegs_cursor h4, onRegs_cursor h2, onRegs_cursor h1]

theorem Lasts.step (hl : Lasts conf.size (a :: l) m) (h : step conf inp o a m = some (o', m')) :
    Lasts conf.size l m' := by
  intro id hid
  obtain ⟨i, hi, hrest⟩ := Option.bind_eq_some_iff.mp (hl id hid)
  obtain ⟨x, hx, hc⟩ := Storage.act_of_cursor hi
  obtain rfl : m' id = x := Option.some.inj ((step_act h id hid).symm.trans hx)
  obtain ⟨hv, hi'⟩ := Prod.mk.inj hc
  rw [hv, hi']
  exact hrest

end rounds

section completion

variable {conf : ProtocolConfig} {circ : Circuit} {idle seeded : Party → Storage → T → Prop}
  {R : Party → List Gate → Storage → T → Prop} {graphs : Party → Graph} {g : Streams}
  (h : ∀ id, Mirrors conf circ.circ.flatten id (idle id) (seeded id) (R id))

include h

theorem step_returns (inp : Party → ℕ → Vec) {a : Servers.Action} {l : List Servers.Action}
    (ha : ∀ f, a = .send f ∨ a = .recv f → f ∈ circ.circ.flatten ∧ f.type ≠ .mul)
    (o : Online × Online) :
    Returns (fun m t => Each (fun id => R id circ.circ.flatten) m t ∧ Lasts conf.size (a :: l) m)
      (step conf inp o a) (step conf inp o a) := by
  have h0 : Party.p0 ≠ .d := by decide
  have h1 : Party.p1 ≠ .d := by decide
  have hne : Party.p1 ≠ .p0 := by decide
  cases a with
  | send f =>
    obtain ⟨hf, hm⟩ := ha f (Or.inl rfl)
    refine (Returns.pair (P := fun id => R id circ.circ.flatten) hne ?_ ?_ ?_ ?_).mono
      fun _ _ hr => hr.1
    · exact ((h .p0).evaluateSend h0 hf hm _).mono (fun _ _ hr => hr) fun _ _ _ _ => trivial
    · exact evaluateSend_returns (h .p0) h0 hf hm _
    · exact ((h .p1).evaluateSend h1 hf hm _).mono (fun _ _ hr => hr) fun _ _ _ _ => trivial
    · exact evaluateSend_returns (h .p1) h1 hf hm _
  | recv f =>
    obtain ⟨hf, hm⟩ := ha f (Or.inr rfl)
    refine (Returns.pair (P := fun id m t => R id circ.circ.flatten m t ∧
      (id ≠ .d → ∃ x, m.act conf.size id (.recv f) = some x)) hne ?_ ?_ ?_ ?_).mono
      fun m t hr id => ⟨hr.1 id, fun hid => ?_⟩
    · exact ((h .p0).evaluateRecv h0 hf hm _ _).mono (fun _ _ hr => hr.1) fun _ _ _ _ => trivial
    · exact (evaluateRecv_returns (h .p0) h0 hf hm _ _).mono fun _ _ hr => ⟨hr.1, hr.2 h0⟩
    · exact ((h .p1).evaluateRecv h1 hf hm _ _).mono (fun _ _ hr => hr.1) fun _ _ _ _ => trivial
    · exact (evaluateRecv_returns (h .p1) h1 hf hm _ _).mono fun _ _ hr => ⟨hr.1, hr.2 h1⟩
    · obtain ⟨i, hi, -⟩ := Option.bind_eq_some_iff.mp (hr.2 id hid)
      obtain ⟨x, hx, -⟩ := Storage.act_of_cursor hi
      exact ⟨x, hx⟩
  | exchange => exact .ofOption _
  | clear => exact .of_total fun m _ _ => ⟨_, rfl⟩

theorem evaluate_lasts (hm : ∀ f ∈ circ.circ.flatten, f.type ≠ .mul) :
    Follows (fun m t => Each (fun id => R id circ.circ.flatten) m t ∧
        Lasts conf.size (Servers.schedule circ.circ) m)
      (evaluate conf circ graphs) (evaluate conf circ graphs)
        (fun _ m t => Each (fun id => R id circ.circ.flatten) m t ∧ Lasts conf.size [] m) ∧
    Returns (fun m t => Each (fun id => R id circ.circ.flatten) m t ∧
        Lasts conf.size (Servers.schedule circ.circ) m)
      (evaluate conf circ graphs) (evaluate conf circ graphs) := by
  let I : List Servers.Action → (Party → Storage) → (Party → T) → Prop := fun l m t =>
    Each (fun id => R id circ.circ.flatten) m t ∧
      ∀ r, Servers.schedule circ.circ = l ++ r → Lasts conf.size r m
  have ha : ∀ l a r, Servers.schedule circ.circ = l ++ a :: r → ∀ f, a = .send f ∨ a = .recv f →
      f ∈ circ.circ.flatten ∧ f.type ≠ .mul := by
    intro l a r ho f he
    have hmem : a ∈ Servers.schedule circ.circ := by simp [ho]
    have hf : f ∈ circ.circ.flatten := by
      rcases he with rfl | rfl
      · exact Servers.mem_schedule_send.mp hmem
      · exact Servers.mem_schedule_recv.mp hmem
    exact ⟨hf, hm f hf⟩
  have hfollows : ∀ l a r, Servers.schedule circ.circ = l ++ a :: r → ∀ o, Follows (I l)
      (step conf (fun id w => (Evaluator.inputs circ (graphs id)).getD w []) o a)
      (step conf (fun id w => (Evaluator.inputs circ (graphs id)).getD w []) o a)
      fun _ => I (l ++ [a]) := by
    intro l a r ho o m t hr o' m' hrun
    obtain ⟨t', ht', hr'⟩ := step_follows h _ (ha l a r ho) o m t hr.1 o' m' hrun
    refine ⟨t', ht', hr', fun r' ho' => ?_⟩
    obtain rfl : r' = r := by
      rw [ho, List.append_assoc] at ho'
      exact (List.cons.inj (List.append_cancel_left ho')).2.symm
    exact Lasts.step (hr.2 _ ho) hrun
  have hreturns : ∀ l a r, Servers.schedule circ.circ = l ++ a :: r → ∀ o, Returns (I l)
      (step conf (fun id w => (Evaluator.inputs circ (graphs id)).getD w []) o a)
      (step conf (fun id w => (Evaluator.inputs circ (graphs id)).getD w []) o a) :=
    fun l a r ho o => (step_returns h _ (ha l a r ho) o).mono fun _ _ hr => ⟨hr.1, hr.2 _ ho⟩
  have hstart : ∀ m t, Each (fun id => R id circ.circ.flatten) m t ∧
      Lasts conf.size (Servers.schedule circ.circ) m → I [] m t :=
    fun m t hr => ⟨hr.1, fun r ho => (ho.trans (List.nil_append r)) ▸ hr.2⟩
  exact ⟨(Follows.foldlM hfollows _).mono hstart fun _ _ _ hr =>
      ⟨hr.1, hr.2 [] (List.append_nil _).symm⟩,
    (Returns.foldlM hfollows hreturns _).mono hstart⟩

theorem createGraph_returns (generator : GraphGenerator) :
    Returns (Each fun id => R id circ.circ.flatten) (createGraph generator)
      (createGraph generator) := by
  have hpart : ∀ id {A : Type} (f : Storage → A × Storage),
      Follows (Each fun id => R id circ.circ.flatten) (onPart id (onRegs f)) (onPart id (onRegs f))
        fun _ => Each fun id => R id circ.circ.flatten := fun id _ f =>
    Follows.onPart_same (R := fun id => R id circ.circ.flatten) ((h id).onRegs _ f)
  have hdone : ∀ id {A : Type} (f : Storage → A × Storage),
      Returns (Each fun id => R id circ.circ.flatten) (onPart id (onRegs f))
        (onPart id (onRegs f) : Prog (Party → T) A) := fun id _ f => .of_total fun m _ _ => ⟨_, rfl⟩
  exact .bind (hpart .p0 _) (hdone .p0 _) fun _ => .bind (hpart .p1 _) (hdone .p1 _) fun _ =>
    .bind (Follows.ofOption _ fun _ _ _ _ hr => hr) (.ofOption _) fun _ =>
      .bind (hpart .p0 _) (hdone .p0 _) fun _ => .bind (hpart .p1 _) (hdone .p1 _) fun _ =>
        .of_total fun m _ _ => ⟨_, rfl⟩

theorem createGraph_lasts (generator : GraphGenerator) {l : List Servers.Action} :
    Follows (fun m t => Each (fun id => R id circ.circ.flatten) m t ∧ Lasts conf.size l m)
      (createGraph generator) (createGraph generator)
        (fun _ m t => Each (fun id => R id circ.circ.flatten) m t ∧ Lasts conf.size l m) := by
  rintro m t ⟨hr, hl⟩ graphs m' hrun
  obtain ⟨t', ht', hr'⟩ := createGraph_follows h generator m t hr graphs m' hrun
  refine ⟨t', ht', hr', fun id hid => ?_⟩
  obtain ⟨hv, hi⟩ := Prod.mk.inj (createGraph_cursor hrun id)
  rw [hv, hi]
  exact hl id hid

section started

variable (hm : ∀ f ∈ circ.circ.flatten, f.type ≠ .mul) (hp : Provisioned conf circ)
  (blockSize : ℕ) (rngs : Party → RandomGenerators)

include hp

theorem prepare_completes :
    Follows (Started idle rngs) (prepare blockSize conf circ.circ g)
      (prepare blockSize conf circ.circ g) (fun _ m t =>
        Each (fun id => R id circ.circ.flatten) m t ∧
          Lasts conf.size (Servers.schedule circ.circ) m) ∧
    Returns (Started idle rngs) (prepare blockSize conf circ.circ g)
      (prepare blockSize conf circ.circ g) := by
  obtain ⟨dealt, m0, hm0, hlasts⟩ := hp blockSize g rngs
  constructor
  · rintro m t ⟨hr, rfl⟩ a m' hrun
    obtain ⟨t', ht', hr'⟩ := prepare_follows h blockSize _ t hr a m' hrun
    obtain ⟨rfl, rfl⟩ := Prod.mk.inj (Option.some.inj (hrun.symm.trans hm0))
    exact ⟨t', ht', hr', hlasts⟩
  · rintro m t ⟨-, rfl⟩ _ _
    exact ⟨_, hm0⟩

include hm

theorem round_completes : Returns (Started idle rngs) (round blockSize conf circ graphs g)
    (round blockSize conf circ graphs g) := by
  obtain ⟨hf, hr⟩ := prepare_completes h hp blockSize rngs
  exact .bind hf hr fun _ => .bind (evaluate_lasts h hm).1 (evaluate_lasts h hm).2 fun _ =>
    .of_total fun m _ _ => ⟨_, rfl⟩

theorem session_completes (generator : GraphGenerator) :
    Follows (Started idle rngs) (session blockSize conf circ generator g)
      (session blockSize conf circ generator g) (fun _ m t =>
        Each (fun id => R id circ.circ.flatten) m t ∧ Lasts conf.size [] m) ∧
    Returns (Started idle rngs) (session blockSize conf circ generator g)
      (session blockSize conf circ generator g) := by
  obtain ⟨hf, hr⟩ := prepare_completes h hp blockSize rngs
  have hr' := createGraph_returns h generator
  constructor
  · exact hf.bind fun _ => (createGraph_lasts h generator).bind fun _ =>
      (evaluate_lasts h hm).1.bind fun _ => .pure fun _ _ hq => hq
  · exact .bind hf hr fun _ => .bind (createGraph_lasts h generator)
      (hr'.mono fun _ _ hq => hq.1) fun _ => .bind (evaluate_lasts h hm).1
        (evaluate_lasts h hm).2 fun _ => .of_total fun m _ _ => ⟨_, rfl⟩

end started

end completion

section built

variable (conf : ProtocolConfig) (p : Program) (columns : ℕ) (inInputOrder reverse dedup : Bool)

theorem build_provisioned : Provisioned conf
    (build p.algorithm (start conf columns inInputOrder reverse dedup)).2 := by
  intro blockSize g rngs
  obtain ⟨ctx, hc⟩ := construct_spec conf columns inInputOrder reverse dedup p.algorithm_lawful
  rw [build_circ]
  generalize (construct p.algorithm (start conf columns inInputOrder reverse dedup)).2 = c at *
  have hwf := hc.built.laid.wellFormed
  have hdeal : Dealable conf (layersOf c.gates).flatten :=
    dealable_layers conf hc.built.laid hc.disciplined
  have hsh : ∀ f ∈ c.gates, f.type = .unshuffle → ShuffledBefore c.gates f.shuffleIdx f.outIdx :=
    fun f hf => (hc.disciplined f hf).unshuffle
  obtain ⟨s0, s1, recv, e0, e1, hp⟩ := runParty_prepared (g := g) hdeal rfl
  have hprep := @prepare_memory conf { c with circ := layersOf c.gates } g blockSize rngs _ s0 s1
    (runDealer_eq conf (layersOf c.gates) g) e0 e1
  refine ⟨_, _, hprep, fun id hid => ?_⟩
  have hread : ∀ {v w : Vec} {idx : ℕ}, (∃ rest, v = v ++ rest ∧ At w idx rest) → idx = 0 := by
    rintro v w idx ⟨rest, hv, used, -, hidx⟩
    rwa [if_pos (List.append_right_eq_self.mp hv.symm)] at hidx
  obtain ⟨-, d0, d1, hrun, hfin⟩ := act_along hwf hdeal hsh hid
    (fun _ _ _ _ _ hs hst => pick_reads hdeal hid hs hst) hp.stocked
  have hlast := Storage.foldlM_act_cursor hrun
  cases id with
  | p0 => exact hread hfin.read0 ▸ hlast
  | p1 => exact hread hfin.read1 ▸ hlast
  | d => exact absurd rfl hid

end built

end Backend

end GraphMpc
