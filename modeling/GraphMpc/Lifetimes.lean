import GraphMpc.CriticalPath
import GraphMpc.Results
import Mathlib.Order.Lattice.Nat

namespace GraphMpc

open Circuit RefCount Servers Servers.Action

section servers

variable {conf : ProtocolConfig} {id : Party} {c : Cells} {f : Gate}

structure Online.Tracks (c : Cells) (o : Online) : Prop where
  waiting : ∀ w, o.waiting w = c.waiting w
  wires : ∀ w, c.held w = false → o.wires w = []

namespace Online.Tracks

variable {o o' : Online}

theorem congr (h : Tracks c o) (hw : o'.waiting = o.waiting) (hwires : o'.wires = o.wires) :
    Tracks c o' :=
  ⟨fun w => hw ▸ h.waiting w, fun w hh => hwires ▸ h.wires w hh⟩

theorem release (h : Tracks c o) (a : Action) (hw : o'.waiting = o.waiting)
    (hwires : ∀ w, w ∉ a.writes → o.wires w = [] → o'.wires w = []) :
    Tracks (effects.step c a) (o'.release a.frees) where
  waiting w := by
    simp only [Online.release, Effects.step, hw, h.waiting]
    rfl
  wires w hh := by
    simp only [Effects.step] at hh
    simp only [Online.release, hw, h.waiting]
    split at hh
    · exact if_pos ‹_›
    · split at hh
      · cases hh
      · split
        · rfl
        · exact hwires w ‹_› (h.wires w hh)

theorem negateInput_wires (o : Online) (id : Party) (f : Gate) {w : ℕ} (h : o.wires w = []) :
    (o.negateInput id f).wires w = [] := by
  simp only [negateInput]
  split
  · by_cases hw : w = f.in1Idx
    · simp [setWire, ← hw, h]
    · simpa [setWire, hw] using h
  · exact h

theorem sendGate {k : Correlation} (h : Tracks c o) (hs : o.sendGate conf id f k = some o') :
    Tracks (effects.step c (send f)) o' := by
  simp only [Online.sendGate, Option.bind_eq_bind, Option.bind_eq_some_iff, releaseSent_eq] at hs
  obtain ⟨m, -, hs⟩ := hs
  obtain rfl := Option.some.inj hs
  refine (h.release (send f) ?_ fun w _ => negateInput_wires o id f).congr rfl rfl
  simp only [negateInput]
  split <;> rfl

theorem readGate {t : Message} (hr : o.readGate conf f = some (t, o')) :
    o'.waiting = o.waiting ∧ o'.wires = o.wires := by
  cases ht : f.type <;> cases hb : f.binary
  all_goals
    simp [Online.readGate, ht, hb, readShuffle, readMul, readAnd, readReveal,
      Option.bind_eq_some_iff] at hr
  all_goals aesop

theorem recvGate_spec {inputToVal : ℕ → Vec} {k : Correlation}
    (hr : o.recvGate conf id inputToVal f k = some o') : ∃ x : Online,
      o' = x.release (recv f).frees ∧ x.waiting = o.waiting ∧
        ∀ w, w ∉ (recv f).writes → x.wires w = o.wires w := by
  have hskip : f.receivedFree = [] → o' = o → ∃ x : Online, o' = x.release (recv f).frees ∧
      x.waiting = o.waiting ∧ ∀ w, w ∉ (recv f).writes → x.wires w = o.wires w := by
    rintro hfree rfl
    exact ⟨o', by rw [show (recv f).frees = [] from hfree, release_nil], rfl, fun _ _ => rfl⟩
  have hassign : o.readGate conf f >>= (fun r => do
      let v ← gateOutput conf id inputToVal f k r.1 r.2.wires
      some ((r.2.setWire f.outIdx v).releaseReceived f)) = some o' → f.type ≠ .output →
      ∃ x : Online, o' = x.release (recv f).frees ∧ x.waiting = o.waiting ∧
        ∀ w, w ∉ (recv f).writes → x.wires w = o.wires w := by
    simp only [Option.bind_eq_bind, Option.bind_eq_some_iff, releaseReceived_eq]
    rintro ⟨⟨t, o1⟩, hread, v, -, hr⟩ ho
    obtain rfl := Option.some.inj hr
    obtain ⟨hwait, hwires⟩ := readGate hread
    refine ⟨_, rfl, hwait, fun w hw => ?_⟩
    rw [Action.writes, if_neg ho, List.mem_singleton] at hw
    simp only [setWire, Function.update_of_ne hw, hwires]
  rw [Online.recvGate] at hr
  split at hr
  · rename_i ht
    simp only [Option.bind_eq_bind, Option.bind_eq_some_iff, releaseReceived_eq] at hr
    obtain ⟨x, -, hr⟩ := hr
    obtain rfl := Option.some.inj hr
    exact ⟨_, rfl, rfl, fun _ _ => rfl⟩
  all_goals rename_i ht
  · exact hskip (by simp [Gate.receivedFree, ht]) (Option.some.inj hr).symm
  · exact hskip (by simp [Gate.receivedFree, ht]) (Option.some.inj hr).symm
  · exact hskip (by simp [Gate.receivedFree, ht]) (Option.some.inj hr).symm
  · exact hskip (by simp [Gate.receivedFree, ht]) (Option.some.inj hr).symm
  · exact hassign hr (by assumption)

theorem recvGate {inputToVal : ℕ → Vec} {k : Correlation} (h : Tracks c o)
    (hr : o.recvGate conf id inputToVal f k = some o') : Tracks (effects.step c (recv f)) o' := by
  obtain ⟨x, rfl, hwait, hwires⟩ := recvGate_spec hr
  exact h.release (recv f) hwait fun w hw he => (hwires w hw).trans he

end Online.Tracks

structure Servers.Tracks (c : Cells) (s : Servers) : Prop where
  p0 : s.e0.online.Tracks c
  p1 : s.e1.online.Tracks c

theorem Evaluator.send_tracks {e e' : Evaluator} (h : e.online.Tracks c)
    (hs : e.evaluateSend conf id f = some e') : e'.online.Tracks (effects.step c (send f)) := by
  simp only [evaluateSend, Option.bind_eq_bind, Option.bind_eq_some_iff] at hs
  obtain ⟨o, ho, hs⟩ := hs
  obtain rfl := Option.some.inj hs
  exact h.sendGate ho

theorem Evaluator.recv_tracks {e e' : Evaluator} (h : e.online.Tracks c)
    (hr : e.evaluateRecv conf id f = some e') : e'.online.Tracks (effects.step c (recv f)) := by
  simp only [evaluateRecv, Option.bind_eq_bind, Option.bind_eq_some_iff] at hr
  obtain ⟨⟨k, data⟩, -, o, ho, hr⟩ := hr
  obtain rfl := Option.some.inj hr
  exact h.recvGate ho

theorem Cells.step_idle (c : Cells) {a : Action} (hf : a.frees = []) (hw : a.writes = []) :
    effects.step c a = c := by
  simp only [Effects.step, effects, hf, hw]
  simp

theorem Servers.step_tracks {s s' : Servers} {a : Action} (h : s.Tracks c)
    (hs : Servers.step conf s a = some s') : s'.Tracks (effects.step c a) := by
  cases a with
  | send f =>
    simp only [Servers.step, Option.bind_eq_bind, Option.bind_eq_some_iff] at hs
    obtain ⟨e0, h0, e1, h1, hs⟩ := hs
    obtain rfl := Option.some.inj hs
    exact ⟨Evaluator.send_tracks h.p0 h0, Evaluator.send_tracks h.p1 h1⟩
  | recv f =>
    simp only [Servers.step, Option.bind_eq_bind, Option.bind_eq_some_iff] at hs
    obtain ⟨e0, h0, e1, h1, hs⟩ := hs
    obtain rfl := Option.some.inj hs
    exact ⟨Evaluator.recv_tracks h.p0 h0, Evaluator.recv_tracks h.p1 h1⟩
  | exchange =>
    rw [Cells.step_idle c rfl rfl]
    simp only [Servers.step, onlineCommunication] at hs
    split at hs
    · obtain rfl := Option.some.inj hs
      exact ⟨h.p0.congr rfl rfl, h.p1.congr rfl rfl⟩
    · cases hs
  | clear =>
    rw [Cells.step_idle c rfl rfl]
    obtain rfl := Option.some.inj hs
    exact ⟨h.p0.congr rfl rfl, h.p1.congr rfl rfl⟩

theorem Servers.run_tracks {s s' : Servers} {circ : List (List Gate)} (hs : s.Tracks
    (effects.run (Online.total circ) [])) {actions : List Action}
    (hr : s.run conf actions = some s') :
    s'.Tracks (effects.run (Online.total circ) actions) := by
  induction actions using List.reverseRecOn generalizing s' with
  | nil =>
    obtain rfl := Option.some.inj hr
    exact hs
  | append_singleton actions a ih =>
    rw [Servers.run, List.foldlM_append, Option.bind_eq_bind, Option.bind_eq_some_iff] at hr
    obtain ⟨s1, h1, hr⟩ := hr
    rw [Effects.run_snoc]
    rw [List.foldlM_cons, Option.bind_eq_bind, Option.bind_eq_some_iff] at hr
    obtain ⟨s2, h2, hr⟩ := hr
    obtain rfl := Option.some.inj hr
    exact Servers.step_tracks (ih h1) h2

theorem init_tracks (circ : Circuit) (s0 s1 : Storage) (g0 g1 : Graph) :
    Servers.Tracks (effects.run (Online.total circ.circ) [])
      ⟨Evaluator.init circ s0 g0, Evaluator.init circ s1 g1⟩ := by
  constructor <;> exact ⟨Online.initWaiting_waiting {} circ.circ, fun _ _ => rfl⟩

end servers

-- when an action reads a wire, the wire has been assigned and was not cleared since, and no release
-- brings a counter below zero
def WiresSafe (nodes : ℕ) (circ : List (List Gate)) : Prop :=
  ∀ pre a post, schedule circ = pre ++ a :: post →
    (∀ r ∈ a.reads nodes, (effects.run (Online.total circ) pre).held r = true) ∧
      ∀ w, 0 ≤ (effects.run (Online.total circ) (pre ++ [a])).waiting w

-- the largest number of interactive gates on a path to the gate; an output gate waits for all paths
noncomputable def gateDepth (G : List Gate) (f : Gate) : ℕ :=
  sSup {n | ∃ p, Path G p ∧ (f.type = .output ∨ p.head? = some f) ∧ interactions p = n}

-- the gate x counts on the wire r and has not released it when f is evaluated after the exchange
def Retains (G : List Gate) (r : ℕ) (f x : Gate) : Prop :=
  (x.sentFree ++ x.receivedFree).count r < x.counted.count r ∨
    r ∈ x.sentFree ∧ gateDepth G f < gateDepth G x ∨
      r ∈ x.receivedFree ∧ (gateDepth G f < gateDepth G x ∨
        gateDepth G f = gateDepth G x ∧ f.outIdx < x.outIdx)

-- the wires that a column sum adds up are not deeper than its last one, and either no gate counts
-- them or one that does comes after the sum
def SumsBalanced (nodes : ℕ) (G : List Gate) : Prop :=
  ∀ f ∈ G, f.type = .columnSumsToNodes → ∀ g ∈ G, g.outIdx ∈ f.reads nodes →
    gateDepth G g ≤ gateDepth G f ∧
      ((∀ x ∈ G, g.outIdx ∉ x.counted) ∨ ∃ x ∈ G, Retains G g.outIdx f x)

theorem gateDepth_eq {G : List Gate} (h : Numbered G) {f : Gate} (hf : f ∈ G) :
    gateDepth G f = (levels G).layer f := by
  refine IsGreatest.csSup_eq ⟨?_, ?_⟩
  · by_cases ho : f.type = .output
    · obtain ⟨x, -, p, hp, hi⟩ := h.exists_deepest
      exact ⟨x :: p, hp, Or.inl ho, by rw [hi, Levels.layer, if_pos ho]⟩
    · obtain ⟨p, hp, hi⟩ := h.exists_path _ rfl hf ho
      exact ⟨f :: p, hp, Or.inr rfl, by rw [hi, layer_eq h.wellFormed hf ho]; rfl⟩
  · rintro n ⟨p, hp, hhead, rfl⟩
    by_cases ho : f.type = .output
    · rw [Levels.layer, if_pos ho]
      exact h.interactions_le_depth hp
    · obtain ⟨q, rfl⟩ : ∃ q, p = f :: q := by
        rcases hhead with hhead | hhead
        · exact absurd hhead ho
        · exact List.head?_eq_some_iff.mp hhead
      rw [layer_eq h.wellFormed hf ho]
      exact h.interactions_le hp ho

section laid

variable {nodes m : ℕ} {G : List Gate} {pre post : List Action} {a : Action} {f g : Gate}
  (hl : Laid nodes m G) (hs : schedule (layersOf G) = pre ++ a :: post)

include hl

omit hs in
theorem total_eq_zero {r : ℕ} : Online.total (layersOf G) r = 0 ↔ ∀ x ∈ G, r ∉ x.counted := by
  simp only [Online.total, List.sum_eq_zero_iff_forall_eq_nat, List.forall_mem_map,
    List.count_eq_zero, mem_layersOf hl.wellFormed]

theorem waiting_nonneg (hs : schedule (layersOf G) = pre ++ post) (w : ℕ) :
    0 ≤ (effects.run (Online.total (layersOf G)) pre).waiting w := by
  have hle := Effects.released_le hs (frees_le_owed_layers hl.wellFormed hl.handled w)
    (sum_owed_layers hl.wellFormed hl.handled w)
  rw [Effects.run_waiting]
  omega

include hs

theorem held_iff (w : ℕ) : (effects.run (Online.total (layersOf G)) pre).held w = true ↔
    effects.Written pre w ∧ (Online.total (layersOf G) w = 0 ∨
      effects.released pre w < Online.total (layersOf G) w) := by
  have hle := released_le_total hl.wellFormed hl.handled hs w
  rw [Effects.held_iff hle, Effects.Live]
  · exact and_congr_right fun _ => by omega
  · rintro front e rest rfl hw
    cases e with
    | recv x =>
      simp only [effects, Action.writes] at hw
      split at hw
      · cases hw
      · rw [List.append_assoc, List.cons_append] at hs
        rw [List.mem_singleton.mp hw]
        exact unreleased hl.wellFormed hl.sourced hs
    | send x => cases hw
    | exchange => cases hw
    | clear => cases hw

theorem held_operand (ha : a.gate = some f) (hc : f.type ≠ .columnSumsToNodes) {r : ℕ}
    (hr : r ∈ a.reads nodes) :
    (effects.run (Online.total (layersOf G)) pre).held r = true := by
  have h := hl.wellFormed
  have hf := action_mem h hs ha
  have hr' := reads_of_action ha hr
  rw [held_iff hl hs]
  refine ⟨?_, Or.inr (released_lt_total h hl.handled hs ha hr
    (Gate.reads_counted (hl.handled f hf) hc hr'))⟩
  obtain ⟨x, -, rfl, hx, ho, -⟩ :=
    source_received_of h hs hl.sourced ha hr (wireLevel_read h hf hc hr')
  exact ⟨recv x, hx, by simp [effects, Action.writes, ho]⟩

omit hs in
theorem written_column (hs : schedule (layersOf G) = pre ++ recv f :: post) (hg : g ∈ G)
    (hr : g.outIdx ∈ f.reads nodes) :
    effects.Written pre g.outIdx ↔ (levels G).layer g ≤ (levels G).layer f := by
  have h := hl.wellFormed
  have hf : f ∈ G := action_mem h hs rfl
  constructor
  · rintro ⟨e, he, hw⟩
    cases e with
    | recv x =>
      simp only [effects, Action.writes] at hw
      split at hw
      · cases hw
      · obtain rfl := h.eq_of_outIdx hg (mem_gates_of_mem h hs (Or.inl he))
          (List.mem_singleton.mp hw)
        rcases precedes_of_mem h hs he with hlt | ⟨heq, -⟩
        · exact hlt.le
        · exact heq.le
    | send x => cases hw
    | exchange => cases hw
    | clear => cases hw
  · intro hle
    have hlt := (h.wired_of_mem hf).1.reads _ hr
    refine ⟨recv g, recv_before_recv h hs rfl hg (hle.lt_or_eq.imp_right fun he => ⟨he, hlt⟩), ?_⟩
    simp [effects, Action.writes, hl.sourced f hf _ hr g hg rfl]

variable (hne : G ≠ [])

include hne

omit hs in
theorem retains_of_released (hs : schedule (layersOf G) = pre ++ recv f :: post)
    (ht : f.type = .columnSumsToNodes) {r : ℕ}
    (hlt : effects.released pre r < Online.total (layersOf G) r) : ∃ x ∈ G, Retains G r f x := by
  have h := hl.wellFormed
  have hdepth : ∀ {x}, x ∈ G → gateDepth G x = (levels G).layer x := gateDepth_eq (hl.numbered hne)
  have hf : f ∈ G := action_mem h hs rfl
  have hmem : ∀ {e x}, e ∈ pre ++ recv f :: post → e.gate = some x → x ∈ G := fun he ha => by
    obtain ⟨front, rest, he⟩ := List.append_of_mem he
    exact action_mem h (hs.trans he) ha
  rw [Effects.released_lt_iff hs (frees_le_owed_layers h hl.handled r)
    (sum_owed_layers h hl.handled r)] at hlt
  rcases hlt with ⟨e, he, hpos⟩ | ⟨e, he, hlt⟩
  · have hnone : f.sentFree = [] ∧ f.receivedFree = [] := by
      simp [Gate.sentFree, Gate.receivedFree, ht]
    rcases List.mem_cons.mp he with rfl | he
    · -- the sum releases none of its operands
      refine ⟨f, hf, Or.inl ?_⟩
      rw [hnone.1, hnone.2]
      simpa [owed, hnone.1] using hpos
    · have hprec := precedes_of_mem_post h hs he
      cases e with
      | send x =>
        have hx := hmem (List.mem_append_right _ (List.mem_cons_of_mem _ he)) rfl
        refine ⟨x, hx, Or.inr (Or.inl ⟨List.count_pos_iff.mp hpos, ?_⟩)⟩
        rw [hdepth hf, hdepth hx]
        exact hprec
      | recv x =>
        have hx := hmem (List.mem_append_right _ (List.mem_cons_of_mem _ he)) rfl
        refine ⟨x, hx, ?_⟩
        by_cases hr : r ∈ x.receivedFree
        · refine Or.inr (Or.inr ⟨hr, ?_⟩)
          rw [hdepth hf, hdepth hx]
          exact hprec
        · refine Or.inl ?_
          rw [List.count_append, List.count_eq_zero.mpr hr]
          simp only [owed] at hpos
          omega
      | exchange => exact absurd hpos (lt_irrefl _)
      | clear => exact absurd hpos (lt_irrefl _)
  · cases e with
    | recv x =>
      refine ⟨x, mem_gates_of_mem h hs (Or.inl he), Or.inl ?_⟩
      rw [List.count_append]
      simp only [owed, effects, frees] at hlt
      omega
    | send x => exact absurd hlt (lt_irrefl _)
    | exchange => exact absurd hlt (lt_irrefl _)
    | clear => exact absurd hlt (lt_irrefl _)

omit hs in
theorem Retains.released_lt (hs : schedule (layersOf G) = pre ++ recv f :: post) {r : ℕ} {x : Gate}
    (hx : x ∈ G) (hk : Retains G r f x) :
    effects.released pre r < Online.total (layersOf G) r := by
  have h := hl.wellFormed
  have hdepth : ∀ {x}, x ∈ G → gateDepth G x = (levels G).layer x := gateDepth_eq (hl.numbered hne)
  have hf : f ∈ G := action_mem h hs rfl
  have hle := x.frees_le_counted (hl.handled x hx) r
  rw [Effects.released_lt_iff hs (frees_le_owed_layers h hl.handled r)
    (sum_owed_layers h hl.handled r)]
  have hlast : ∀ e ∈ schedule (layersOf G), ¬ Precedes G e (recv f) → 0 < owed e r →
      ∃ e ∈ recv f :: post, 0 < owed e r := by
    intro e he hprec hpos
    rw [hs] at he
    rcases List.mem_append.mp he with he | he
    · exact absurd (precedes_of_mem h hs he) hprec
    · exact ⟨e, he, hpos⟩
  rcases hk with hlt | ⟨hr, hlt⟩ | ⟨hr, hlt⟩
  · rw [List.count_append] at hlt
    have he := mem_schedule_recv.mpr ((mem_layersOf h).mpr hx)
    rw [hs] at he
    rcases List.mem_append.mp he with he | he
    · exact Or.inr ⟨recv x, he, by simp only [owed, effects, frees]; omega⟩
    · exact Or.inl ⟨recv x, he, by simp only [owed]; omega⟩
  · rw [hdepth hf, hdepth hx] at hlt
    exact Or.inl (hlast (send x) (mem_schedule_send.mpr ((mem_layersOf h).mpr hx))
      (not_le.mpr hlt) (List.count_pos_iff.mpr hr))
  · rw [hdepth hf, hdepth hx] at hlt
    have hpos := List.count_pos_iff.mpr hr
    refine Or.inl (hlast (recv x) (mem_schedule_recv.mpr ((mem_layersOf h).mpr hx)) ?_
      (by simp only [owed]; omega))
    rintro (hlt' | ⟨heq, hlt'⟩) <;> omega

omit hs in
theorem held_column (hs : schedule (layersOf G) = pre ++ recv f :: post)
    (ht : f.type = .columnSumsToNodes) (hg : g ∈ G) (hr : g.outIdx ∈ f.reads nodes) :
    (effects.run (Online.total (layersOf G)) pre).held g.outIdx = true ↔
      gateDepth G g ≤ gateDepth G f ∧
        ((∀ x ∈ G, g.outIdx ∉ x.counted) ∨ ∃ x ∈ G, Retains G g.outIdx f x) := by
  have hf : f ∈ G := action_mem hl.wellFormed hs rfl
  rw [held_iff hl hs, written_column hl hs hg hr, gateDepth_eq (hl.numbered hne) hg,
    gateDepth_eq (hl.numbered hne) hf, total_eq_zero hl]
  refine and_congr_right fun _ => or_congr_right ⟨retains_of_released hl hne hs ht, ?_⟩
  rintro ⟨x, hx, hk⟩
  exact hk.released_lt hl hne hs hx

omit hs in
theorem wiresSafe_layersOf : WiresSafe nodes (layersOf G) ↔ SumsBalanced nodes G := by
  have h := hl.wellFormed
  constructor
  · intro hsafe f hf ht g hg hr
    obtain ⟨pre, post, hs⟩ :=
      List.append_of_mem (mem_schedule_recv.mpr ((mem_layersOf h).mpr hf))
    refine (held_column hl hne hs ht hg hr).mp ((hsafe pre (recv f) post hs).1 _ ?_)
    rwa [Action.reads, if_neg (by simp [Gate.interactive, ht])]
  · intro hb pre a post hs
    have hs' : schedule (layersOf G) = (pre ++ [a]) ++ post := by simpa using hs
    refine ⟨fun r hr => ?_, fun w => waiting_nonneg hl hs' w⟩
    obtain ⟨f, ha⟩ := gate_of_reads hr
    by_cases ht : f.type = .columnSumsToNodes
    · have hf := action_mem h hs ha
      obtain rfl : a = recv f := by
        cases a with
        | send x =>
          obtain rfl : x = f := by simpa [Action.gate] using ha
          simp [Action.reads, Gate.interactive, ht] at hr
        | recv x => exact congrArg recv (by simpa [Action.gate] using ha)
        | exchange => cases ha
        | clear => cases ha
      have hr' := reads_of_action ha hr
      obtain ⟨g, hg, rfl⟩ := exists_source h hf hr'
      exact (held_column hl hne hs ht hg hr').mpr (hb f hf ht g hg hr')
    · exact held_operand hl hs ha ht hr

end laid

section circuits

variable (conf : ProtocolConfig) (columns : ℕ) (inInputOrder reverse dedup : Bool)

section reached

variable {conf columns inInputOrder reverse dedup} {circ : Circuit} {storages : Party → Storage}
  {graphs : Party → Graph} {s : Servers} {pre post : List Action} {a : Action}

theorem tracks_of_run (hr : Servers.run conf ⟨Evaluator.init circ (storages .p0) (graphs .p0),
      Evaluator.init circ (storages .p1) (graphs .p1)⟩ pre = some s) :
    s.Tracks (effects.run (Online.total circ.circ) pre) :=
  Servers.run_tracks (init_tracks circ ..) hr

theorem empty_of_not_held (hr : Servers.run conf ⟨Evaluator.init circ (storages .p0) (graphs .p0),
      Evaluator.init circ (storages .p1) (graphs .p1)⟩ pre = some s) {w : ℕ}
    (hw : (effects.run (Online.total circ.circ) pre).held w = false) :
    s.e0.online.wires w = [] ∧ s.e1.online.wires w = [] :=
  ⟨(tracks_of_run hr).p0.wires w hw, (tracks_of_run hr).p1.wires w hw⟩

structure Servers.Alive (nodes : ℕ) (circ : List (List Gate)) (pre : List Action) (a : Action)
    (s : Servers) : Prop where
  counters : ∀ w, 0 ≤ s.e0.online.waiting w ∧ 0 ≤ s.e1.online.waiting w
  assigned : ∀ r ∈ a.reads nodes, ∃ f, recv f ∈ pre ∧ f.type ≠ .output ∧ f.outIdx = r
  uncleared : ∀ r ∈ a.reads nodes, Online.total circ r = 0 ∨
    0 < s.e0.online.waiting r ∧ 0 < s.e1.online.waiting r

theorem servers_alive {alg : Algorithm} (hl : alg.Lawful)
    (hcirc : circ = (build alg (start conf columns inInputOrder reverse dedup)).2)
    (hb : SumsBalanced conf.nodes
      (construct alg (start conf columns inInputOrder reverse dedup)).2.gates)
    (hs : schedule circ.circ = pre ++ a :: post)
    (hr : Servers.run conf ⟨Evaluator.init circ (storages .p0) (graphs .p0),
      Evaluator.init circ (storages .p1) (graphs .p1)⟩ pre = some s) :
    s.Alive conf.nodes circ.circ pre a := by
  have ht := tracks_of_run hr
  subst hcirc
  obtain ⟨ctx, hc⟩ := construct_spec conf columns inInputOrder reverse dedup hl
  have hlaid := hc.nodes ▸ hc.built.laid
  have hne := List.length_pos_iff.mp (hc.built.wires ▸ hc.built.pos)
  rw [build_circ] at hs ht ⊢
  have hheld : ∀ r ∈ a.reads conf.nodes, _ := fun r hr =>
    (held_iff hlaid hs r).mp (((wiresSafe_layersOf hlaid hne).mpr hb pre a post hs).1 r hr)
  refine ⟨fun w => ?_, fun r hr => ?_, fun r hr => ?_⟩
  · rw [ht.p0.waiting, ht.p1.waiting]
    exact ⟨waiting_nonneg hlaid hs w, waiting_nonneg hlaid hs w⟩
  · obtain ⟨⟨e, he, hw⟩, -⟩ := hheld r hr
    cases e with
    | recv f =>
      simp only [effects, Action.writes] at hw
      split at hw
      · cases hw
      · exact ⟨f, he, ‹_›, (List.mem_singleton.mp hw).symm⟩
    | send f => cases hw
    | exchange => cases hw
    | clear => cases hw
  · obtain ⟨-, hlive⟩ := hheld r hr
    rw [ht.p0.waiting, ht.p1.waiting, Effects.run_waiting]
    exact hlive.imp_right fun hlt => by omega

end reached

theorem wiresSafe_iff {alg : Algorithm} (hl : alg.Lawful) :
    WiresSafe conf.nodes (build alg (start conf columns inInputOrder reverse dedup)).2.circ ↔
      SumsBalanced conf.nodes
        (construct alg (start conf columns inInputOrder reverse dedup)).2.gates := by
  obtain ⟨ctx, hc⟩ := construct_spec conf columns inInputOrder reverse dedup hl
  have hlaid := hc.nodes ▸ hc.built.laid
  have hne := List.length_pos_iff.mp (hc.built.wires ▸ hc.built.pos)
  rw [build_circ]
  exact wiresSafe_layersOf hlaid hne

end circuits

theorem pair_int : 2 < 2 ^ 31 := by decide

def pair : ProtocolConfig := ⟨2, 2, 0, 1, pair_int⟩

theorem wiresSafe_iff_bfs :
    WiresSafe 2 (build bfs.algorithm (start pair 1 false false false)).2.circ :=
  (wiresSafe_iff pair 1 false false false bfs.algorithm_lawful).mpr fun f hf ht =>
    absurd ht ((by decide +kernel :
      ∀ f ∈ (construct bfs.algorithm (start pair 1 false false false)).2.gates,
        f.type ≠ .columnSumsToNodes) f hf)

theorem sources_scoped : inScope 0 [.setConstVector [1, 0]] = true := rfl

theorem sum_scoped : inScope 2 [.add 0 1] = true := rfl

def lopsided : Program where
  columns := 2
  initNodes _ := some (.single (.setConstVector [1, 0]) sources_scoped)
  prepare _ _ := .arg 0 Nat.one_pos
  apply _ _ := .single (.add 0 1) sum_scoped
  postMp column := if column = 0 then .single (.clip 0) Body.clip_scoped else .arg 0 Nat.one_pos
  columnSums := true

def lopsidedGates : List Gate :=
  constGate 41 [1, 0] :: constGate 44 [1, 0] :: columnSumsGate 52 [51, 44] :: clipGates 45 5 41 2

theorem lopsided_contains : lopsidedGates ⊆
    (construct lopsided.algorithm (start pair 2 false false false)).2.gates := by
  decide +kernel

theorem not_wiresSafe_lopsided : lopsided.algorithm.Lawful ∧
    ¬ WiresSafe 2 (build lopsided.algorithm (start pair 2 false false false)).2.circ := by
  refine ⟨lopsided.algorithm_lawful, fun hsafe => ?_⟩
  obtain ⟨ctx, hc⟩ := construct_spec pair 2 false false false lopsided.algorithm_lawful
  have hlaid := hc.nodes ▸ hc.built.laid
  have hne := List.length_pos_iff.mp (hc.built.wires ▸ hc.built.pos)
  have hsub := lopsided_contains
  rw [build_circ] at hsafe
  have hb := (wiresSafe_layersOf hlaid hne).mp hsafe
  generalize (construct lopsided.algorithm (start pair 2 false false false)).2.gates = G at *
  have h := hlaid.wellFormed
  simp only [lopsidedGates, List.cons_subset] at hsub
  obtain ⟨hfirst, hlast, hsum, hclip⟩ := hsub
  have hflip : ({ type := .flip, gId := 51, in1Idx := 50, outIdx := 51 } : Gate) ∈ G :=
    hclip (by simp [clipGates])
  have hfirst0 : level G 41 = 0 :=
    (level_unary h hfirst (by simp [constGate]) rfl).trans (level_zero h)
  have hlast0 : level G 44 = 0 :=
    (level_unary h hlast (by simp [constGate]) rfl).trans (level_zero h)
  have hdeep : level G 51 = level G 41 + 6 := clipGates_level h hclip
  have hshallow : level G 52 = level G 44 := level_unary h hsum (by simp [columnSumsGate]) rfl
  obtain ⟨hle, -⟩ := hb _ hsum rfl _ hflip (by decide)
  have hnum := hlaid.numbered hne
  rw [gateDepth_eq hnum hsum, gateDepth_eq hnum hflip, layer_eq h hsum (by simp [columnSumsGate]),
    layer_eq h hflip (by simp)] at hle
  change level G 51 ≤ level G 52 at hle
  omega

end GraphMpc
