import GraphMpc.Consistency
import GraphMpc.Lifetimes

namespace GraphMpc

open Circuit RefCount Servers Servers.Action

def Servers.online (s : Servers) : Party → Online
  | .p1 => s.e1.online
  | _ => s.e0.online

section effects

variable {conf : ProtocolConfig} {id : Party} {f : Gate} {a : Action} {w : ℕ}

namespace Online

variable {o o' : Online}

def touched (o : Online) (id : Party) : Action → Online
  | send f => o.negateInput id f
  | recv _ | exchange | clear => o

theorem touched_waiting (o : Online) (id : Party) (a : Action) :
    (o.touched id a).waiting = o.waiting := by
  cases a with
  | send f =>
    simp only [touched, negateInput]
    split <;> rfl
  | recv f => rfl
  | exchange => rfl
  | clear => rfl

theorem sendGate_wires {k : Correlation} (hs : o.sendGate conf id f k = some o') :
    o'.wires = ((o.touched id (send f)).release (send f).frees).wires := by
  simp only [Online.sendGate, Option.bind_eq_bind, Option.bind_eq_some_iff, releaseSent_eq] at hs
  obtain ⟨m, -, hs⟩ := hs
  obtain rfl := Option.some.inj hs
  rfl

theorem sendGate_fits {k : Correlation} (hs : o.sendGate conf id f k = some o')
    (ht : f.type = .eqz) : f.size ≤ ((o.negateInput id f).wires f.in1Idx).length := by
  simp only [Online.sendGate, Option.bind_eq_bind, Option.bind_eq_some_iff, message, ht] at hs
  obtain ⟨m, ⟨x, hx, -⟩, -⟩ := hs
  simp only [prefixOf] at hx
  split at hx
  · assumption
  · cases hx

theorem recvGate_wires {inputToVal : ℕ → Vec} {k : Correlation}
    (hr : o.recvGate conf id inputToVal f k = some o') (hw : w ∉ (recv f).writes) :
    o'.wires w = (o.release (recv f).frees).wires w := by
  obtain ⟨x, rfl, hwait, hwires⟩ := Tracks.recvGate_spec hr
  simp only [release, hwait, hwires w hw]

theorem touched_wires (h : ∀ f, a = send f → f.type = .eqz → f.layer = 0 → w = f.in1Idx →
    f.size = 0) : (o.touched id a).wires w = o.wires w := by
  cases a with
  | send f =>
    simp only [touched, negateInput]
    split
    · rename_i hf
      by_cases hw : w = f.in1Idx
      · have hsize := h f rfl hf.1 hf.2 hw
        simp only [setWire, hw, Function.update_self, hsize, Nat.not_lt_zero, if_false]
        exact List.ext_getElem (List.length_mapIdx ..) fun i _ _ => List.getElem_mapIdx ..
      · simp only [setWire, Function.update_of_ne hw]
    · rfl
  | recv f => rfl
  | exchange => rfl
  | clear => rfl

theorem negateInput_ne (ht : f.type = .eqz) (hl : f.layer = 0) (hpos : 0 < f.size)
    (hfits : f.size ≤ ((o.negateInput .p0 f).wires f.in1Idx).length) :
    (o.negateInput .p0 f).wires f.in1Idx ≠ o.wires f.in1Idx ∧
      (o.negateInput .p0 f).wires f.in1Idx ≠ [] := by
  have hneg : (o.negateInput .p0 f).wires f.in1Idx = (o.wires f.in1Idx).mapIdx fun i x =>
      if i < f.size then (if Party.p0 = .p0 then ~~~x else -x) else x := by
    rw [negateInput, if_pos ⟨ht, hl⟩]
    exact Function.update_self ..
  rw [hneg] at hfits ⊢
  cases hx : o.wires f.in1Idx with
  | nil =>
    rw [hx] at hfits
    exact absurd (hpos.trans_le hfits) (lt_irrefl 0)
  | cons x l =>
    rw [List.mapIdx_cons, if_pos hpos, if_pos rfl]
    refine ⟨fun he => ?_, List.cons_ne_nil _ _⟩
    have hnot := congrArg BitVec.toNat (List.cons.inj he).1
    rw [BitVec.toNat_not] at hnot
    omega

end Online

variable {s t : Servers}

theorem Servers.step_wires (hid : id ≠ .d) (ht : Servers.step conf s a = some t)
    (hw : w ∉ a.writes) : (t.online id).wires w =
      (((s.online id).touched id a).release a.frees).wires w := by
  have hidle : a.frees = [] → (s.online id).touched id a = s.online id →
      (t.online id).wires = (s.online id).wires → (t.online id).wires w =
        (((s.online id).touched id a).release a.frees).wires w := by
    intro hf hs heq
    rw [hf, Online.release_nil, hs, heq]
  cases a with
  | send f =>
    simp only [Servers.step, Option.bind_eq_bind, Option.bind_eq_some_iff,
      Evaluator.evaluateSend] at ht
    obtain ⟨e0, ⟨o0, h0, he0⟩, e1, ⟨o1, h1, he1⟩, ht⟩ := ht
    obtain rfl := Option.some.inj ht
    cases Option.some.inj he0
    cases Option.some.inj he1
    cases id with
    | p0 => exact congrFun (Online.sendGate_wires h0) w
    | p1 => exact congrFun (Online.sendGate_wires h1) w
    | d => exact absurd rfl hid
  | recv f =>
    simp only [Servers.step, Option.bind_eq_bind, Option.bind_eq_some_iff,
      Evaluator.evaluateRecv] at ht
    obtain ⟨e0, ⟨k0, -, o0, h0, he0⟩, e1, ⟨k1, -, o1, h1, he1⟩, ht⟩ := ht
    obtain rfl := Option.some.inj ht
    cases Option.some.inj he0
    cases Option.some.inj he1
    cases id with
    | p0 => exact Online.recvGate_wires h0 hw
    | p1 => exact Online.recvGate_wires h1 hw
    | d => exact absurd rfl hid
  | exchange =>
    simp only [Servers.step, onlineCommunication] at ht
    split at ht
    · obtain rfl := Option.some.inj ht
      exact hidle rfl rfl (by cases id <;> rfl)
    · cases ht
  | clear =>
    obtain rfl := Option.some.inj ht
    exact hidle rfl rfl (by cases id <;> rfl)

theorem Servers.step_fits (ht : Servers.step conf s (send f) = some t) (hf : f.type = .eqz) :
    f.size ≤ (((s.online .p0).negateInput .p0 f).wires f.in1Idx).length := by
  simp only [Servers.step, Option.bind_eq_bind, Option.bind_eq_some_iff,
    Evaluator.evaluateSend] at ht
  obtain ⟨e0, ⟨o0, h0, -⟩, -⟩ := ht
  exact Online.sendGate_fits h0 hf

end effects

-- a step leaves every wire but its output as it is, or clears a wire that no later step reads
def Servers.Frames (nodes : ℕ) (post : List Action) (a : Action) (s t : Servers) : Prop :=
  ∀ id, id ≠ .d → ∀ w, w ∉ a.writes → (t.online id).wires w = (s.online id).wires w ∨
    (t.online id).wires w = [] ∧ ∀ b ∈ post, w ∉ b.reads nodes

-- the first gate of a zero test is the last one that counts on its input, and no column sum that is
-- left adds up a wire that the step clears
structure Servers.Spares (nodes : ℕ) (post : List Action) (a : Action) (s : Servers) : Prop where
  negated : ∀ f, a = send f → f.type = .eqz → f.layer = 0 →
    f.size = 0 ∨ s.e0.online.waiting f.in1Idx = 1
  cleared : ∀ id, id ≠ .d → ∀ w ∈ a.frees, (s.online id).waiting w = a.frees.count w →
    (s.online id).wires w ≠ [] → ∀ f, recv f ∈ post → f.type = .columnSumsToNodes →
      w ∉ f.reads nodes

section laid

variable {conf : ProtocolConfig} {nodes m : ℕ} {G : List Gate} {pre post : List Action}
  {a : Action} {s t : Servers} (hl : Laid nodes m G)
  (hs : schedule (layersOf G) = pre ++ a :: post)

theorem Servers.Tracks.online {c : Cells} (h : s.Tracks c) (id : Party) :
    (s.online id).Tracks c := by
  cases id with
  | p1 => exact h.p1
  | p0 | d => exact h.p0

include hl hs

theorem not_written_of_freed {w : ℕ} (hw : w ∈ a.frees) : w ∉ a.writes := by
  cases a with
  | recv f =>
    have hf : f ∈ G := action_mem hl.wellFormed hs rfl
    have hlt := (hl.wellFormed.wired_of_mem hf).1.reads _ ((f.frees_reads nodes).2 hw)
    rw [Action.writes]
    split
    · exact List.not_mem_nil
    · exact fun hm => hlt.ne (List.mem_singleton.mp hm)
  | send f => exact List.not_mem_nil
  | exchange => cases hw
  | clear => cases hw

theorem unread_of_cleared {w : ℕ} (hdone : (effects.run (Online.total (layersOf G)) pre).waiting w =
      a.frees.count w) (hsums : ∀ f, recv f ∈ post → f.type = .columnSumsToNodes →
      w ∉ f.reads nodes) : ∀ b ∈ post, w ∉ b.reads nodes := by
  have h := hl.wellFormed
  intro b hb hr
  obtain ⟨mid, rest, rfl⟩ := List.append_of_mem hb
  have hs' : schedule (layersOf G) = (pre ++ a :: mid) ++ b :: rest := by simp [hs]
  obtain ⟨f, ha⟩ := gate_of_reads hr
  have hf := action_mem h hs' ha
  by_cases hc : f.type = .columnSumsToNodes
  · have hfr := reads_of_action ha hr
    cases b with
    | recv g =>
      obtain rfl : g = f := by simpa [Action.gate] using ha
      exact hsums g hb hc hfr
    | send g =>
      obtain rfl : g = f := by simpa [Action.gate] using ha
      simp [Action.reads, Gate.interactive, hc] at hr
    | exchange => cases ha
    | clear => cases ha
  · have hlt := released_lt_total h hl.handled hs' ha hr
      (Gate.reads_counted (hl.handled f hf) hc (reads_of_action ha hr))
    have hle : effects.released (pre ++ [a]) w ≤ effects.released (pre ++ a :: mid) w := by
      simp only [Effects.released, List.map_append, List.sum_append, List.map_cons, List.sum_cons,
        List.map_nil, List.sum_nil]
      omega
    rw [Effects.run_waiting] at hdone
    rw [Effects.released_snoc] at hle
    have hcount : effects.frees a = a.frees := rfl
    rw [hcount] at hle
    omega

theorem spares_iff (htr : s.Tracks (effects.run (Online.total (layersOf G)) pre))
    (ht : Servers.step conf s a = some t) : s.Frames nodes post a t ↔ s.Spares nodes post a := by
  have hwait : ∀ id w, (s.online id).waiting w =
      (effects.run (Online.total (layersOf G)) pre).waiting w := fun id => (htr.online id).waiting
  have hstep : ∀ id, id ≠ .d → ∀ w, w ∉ a.writes → (t.online id).wires w =
      if w ∈ a.frees ∧ (s.online id).waiting w - a.frees.count w = 0 then []
      else ((s.online id).touched id a).wires w := by
    intro id hid w hw
    rw [Servers.step_wires hid ht hw]
    simp only [Online.release, Online.touched_waiting]
  constructor
  · intro hframe
    refine ⟨fun f ha hf hlay => ?_, fun id hid w hw hdone hne f hf hc hr => ?_⟩
    · subst ha
      by_contra! hno
      obtain ⟨hsize, hone⟩ := hno
      obtain ⟨hchanged, hfull⟩ := Online.negateInput_ne hf hlay (Nat.pos_of_ne_zero hsize)
        (Servers.step_fits ht hf)
      have hkept := hstep .p0 (by decide) f.in1Idx List.not_mem_nil
      have hcount : (send f).frees.count f.in1Idx = 1 := by simp [Action.frees, Gate.sentFree, hf]
      have hwaiting : (s.online .p0).waiting f.in1Idx = s.e0.online.waiting f.in1Idx := rfl
      rw [hcount, hwaiting, if_neg (by rintro ⟨-, h⟩; omega)] at hkept
      rcases hframe .p0 (by decide) f.in1Idx List.not_mem_nil with he | ⟨he, -⟩
      · exact hchanged (hkept.symm.trans he)
      · exact hfull (hkept.symm.trans he)
    · have hempty := hstep id hid w (not_written_of_freed hl hs hw)
      rw [if_pos ⟨hw, by omega⟩] at hempty
      rcases hframe id hid w (not_written_of_freed hl hs hw) with he | ⟨-, hunread⟩
      · exact hne (he.symm.trans hempty)
      · refine hunread _ hf ?_
        rwa [Action.reads, if_neg (by simp [Gate.interactive, hc])]
  · intro hspare id hid w hw
    rw [hstep id hid w hw]
    split
    · rename_i hdone
      by_cases hempty : (s.online id).wires w = []
      · exact Or.inl hempty.symm
      · have hcount : (s.online id).waiting w = a.frees.count w := by omega
        exact Or.inr ⟨rfl, unread_of_cleared hl hs ((hwait id w).symm.trans hcount)
          (hspare.cleared id hid w hdone.1 hcount hempty)⟩
    · rename_i hlive
      refine Or.inl (Online.touched_wires fun f ha hf hlay he => ?_)
      subst ha he
      refine (hspare.negated f rfl hf hlay).resolve_right fun hone => hlive ?_
      have hcount : (send f).frees.count f.in1Idx = 1 := by simp [Action.frees, Gate.sentFree, hf]
      have hmem : f.in1Idx ∈ (send f).frees := by simp [Action.frees, Gate.sentFree, hf]
      have hsame : (s.online id).waiting f.in1Idx = s.e0.online.waiting f.in1Idx :=
        (hwait id _).trans (hwait .p0 _).symm
      refine ⟨hmem, ?_⟩
      rw [hsame, hone, hcount]
      rfl

omit hs in
theorem not_rewritten {f : Gate} (hs : schedule (layersOf G) = pre ++ recv f :: post) {b : Action}
    (hb : b ∈ post) : f.outIdx ∉ b.writes := by
  have h := hl.wellFormed
  have hprec := precedes_of_mem_post h hs hb
  cases b with
  | recv x =>
    rw [Action.writes]
    split
    · exact List.not_mem_nil
    · intro hm
      have hx : x ∈ G := (mem_layersOf h).mp (mem_schedule_recv.mp (hs ▸ List.mem_append_right _
        (List.mem_cons_of_mem _ hb)))
      obtain rfl := h.eq_of_outIdx (action_mem h hs rfl) hx (List.mem_singleton.mp hm)
      rcases hprec with hlt | ⟨-, hlt⟩ <;> exact absurd hlt (lt_irrefl _)
  | send x => exact List.not_mem_nil
  | exchange => exact List.not_mem_nil
  | clear => exact List.not_mem_nil

end laid

section runs

variable (conf : ProtocolConfig) (circ : Circuit) (storages : Party → Storage)
  (graphs : Party → Graph)

def Reaches (pre : List Action) (s : Servers) : Prop :=
  Servers.run conf ⟨Evaluator.init circ (storages .p0) (graphs .p0),
    Evaluator.init circ (storages .p1) (graphs .p1)⟩ pre = some s

def EachStep (P : List Action → Action → Servers → Servers → Prop) : Prop :=
  ∀ pre a post s t, schedule circ.circ = pre ++ a :: post →
    Reaches conf circ storages graphs pre s → Servers.step conf s a = some t → P post a s t

-- a wire that is read holds what the gate that computes it put there, whoever reads it
def SharesKept : Prop :=
  ∀ pre f mid a post s u, schedule circ.circ = pre ++ recv f :: (mid ++ a :: post) →
    Reaches conf circ storages graphs (pre ++ [recv f]) s →
    Reaches conf circ storages graphs (pre ++ recv f :: mid) u →
    f.outIdx ∈ a.reads conf.nodes → ∀ id, id ≠ .d →
      (u.online id).wires f.outIdx = (s.online id).wires f.outIdx

variable {conf circ storages graphs}

theorem Reaches.snoc {pre : List Action} {a : Action} {t : Servers}
    (h : Reaches conf circ storages graphs (pre ++ [a]) t) :
    ∃ s, Reaches conf circ storages graphs pre s ∧ Servers.step conf s a = some t := by
  rw [Reaches, Servers.run, List.foldlM_append, Option.bind_eq_bind, Option.bind_eq_some_iff] at h
  obtain ⟨s, hs, ht⟩ := h
  rw [List.foldlM_cons, Option.bind_eq_bind, Option.bind_eq_some_iff] at ht
  obtain ⟨x, hx, hnil⟩ := ht
  obtain rfl := Option.some.inj hnil
  exact ⟨s, hs, hx⟩

theorem EachStep.sharesKept {nodes m : ℕ} {G : List Gate} (hl : Laid nodes m G)
    (hcirc : circ.circ = layersOf G)
    (h : EachStep conf circ storages graphs fun post a s t => s.Frames conf.nodes post a t) :
    SharesKept conf circ storages graphs := by
  intro pre f mid a post s u hs hwritten hu hread id hid
  have hkept : ∀ mid rest u, schedule circ.circ = pre ++ recv f :: (mid ++ rest) →
      Reaches conf circ storages graphs (pre ++ recv f :: mid) u →
      (∃ b ∈ rest, f.outIdx ∈ b.reads conf.nodes) →
        (u.online id).wires f.outIdx = (s.online id).wires f.outIdx := by
    intro mid
    induction mid using List.reverseRecOn with
    | nil =>
      intro rest u _ hu _
      obtain rfl : u = s := Option.some.inj (hu.symm.trans hwritten)
      rfl
    | append_singleton mid b ih =>
      intro rest u hs hu hread
      have hb : schedule circ.circ = (pre ++ recv f :: mid) ++ b :: rest := by simp [hs]
      obtain ⟨x, hx, hstep⟩ := @Reaches.snoc conf circ storages graphs (pre ++ recv f :: mid) b u
        (by simpa using hu)
      have hlater : f.outIdx ∉ b.writes :=
        not_rewritten hl (hcirc ▸ hs) (List.mem_append_left _ (List.mem_append_right _
          (List.mem_singleton_self b)))
      obtain ⟨c, hc, hr⟩ := hread
      have hstay : (u.online id).wires f.outIdx = (x.online id).wires f.outIdx := by
        rcases h _ b rest x u hb hx hstep id hid f.outIdx hlater with he | ⟨-, hunread⟩
        · exact he
        · exact absurd hr (hunread c hc)
      refine hstay.trans (ih (b :: rest) x (by simp [hs]) hx ⟨c, List.mem_cons_of_mem _ hc, hr⟩)
  exact hkept mid (a :: post) u hs hu ⟨a, List.mem_cons_self .., hread⟩

end runs

section circuits

variable {conf : ProtocolConfig} {columns : ℕ} {inInputOrder reverse dedup : Bool} {alg : Algorithm}
  {circ : Circuit}

theorem single_assignment_iff (hl : alg.Lawful)
    (hcirc : circ = (build alg (start conf columns inInputOrder reverse dedup)).2)
    (storages : Party → Storage) (graphs : Party → Graph) :
    EachStep conf circ storages graphs (fun post a s t =>
      s.Frames conf.nodes post a t ↔ s.Spares conf.nodes post a) ∧
    (EachStep conf circ storages graphs (fun post a s _ => s.Spares conf.nodes post a) →
      EachStep conf circ storages graphs (fun post a s t => s.Frames conf.nodes post a t) ∧
        SharesKept conf circ storages graphs) := by
  obtain ⟨ctx, hc⟩ := construct_spec conf columns inInputOrder reverse dedup hl
  have hlaid := hc.nodes ▸ hc.built.laid
  have hlayers : circ.circ = layersOf
      (construct alg (start conf columns inInputOrder reverse dedup)).2.gates := by
    rw [hcirc, build_circ]
  have hiff : EachStep conf circ storages graphs (fun post a s t =>
      s.Frames conf.nodes post a t ↔ s.Spares conf.nodes post a) := by
    intro pre a post s t hs hr ht
    have htr := tracks_of_run hr
    rw [hlayers] at hs htr
    exact spares_iff hlaid hs htr ht
  have hframes : EachStep conf circ storages graphs (fun post a s _ =>
      s.Spares conf.nodes post a) → EachStep conf circ storages graphs fun post a s t =>
        s.Frames conf.nodes post a t := fun hspare pre a post s t hs hr ht =>
    (hiff pre a post s t hs hr ht).mpr (hspare pre a post s t hs hr ht)
  exact ⟨hiff, fun hspare => ⟨hframes hspare, (hframes hspare).sharesKept hlaid hlayers⟩⟩

end circuits

theorem lone_int : 1 < 2 ^ 31 := by decide

def lone : ProtocolConfig := ⟨1, 1, 1, 1, lone_int⟩

def loneGraph (isV state : Ring) : Graph where
  src := [0]
  dst := [0]
  isV := [isV]
  data := [state]
  srcBits := [[0]]
  dstBits := [[0]]
  size := 1

def loneGraphs : Party → Graph
  | .p0 => loneGraph 1 5
  | _ => loneGraph 0 0

def loneSearch : Circuit := (build bfs.algorithm (start lone 1 false false false)).2

def loneStart (circ : Circuit) : Option (Storage × Storage) := do
  let dealer ← Preprocessor.runDealer lone circ.circ countingStreams
  let s0 ← Preprocessor.runParty lone circ.circ countingStreams dealer .p0
  let s1 ← Preprocessor.runParty lone circ.circ countingStreams dealer .p1
  return (s0, s1)

def seated (s : Storage × Storage) : Party → Storage
  | .p0 => s.1
  | _ => s.2

def zeroTestLast (total : ℕ → ℕ) (pre : List Action) : Action → Bool
  | send f => f.type ≠ .eqz ∨ f.layer ≠ 0 ∨ (effects.run total pre).waiting f.in1Idx = 1
  | recv _ | exchange | clear => true

theorem loneSearch_last : ∀ k < (schedule loneSearch.circ).length,
    zeroTestLast (Online.total loneSearch.circ) ((schedule loneSearch.circ).take k)
      ((schedule loneSearch.circ).getD k .clear) = true := by
  decide +kernel

theorem loneSearch_sums : ∀ f ∈ loneSearch.circ.flatten, f.type ≠ .columnSumsToNodes := by
  decide +kernel

theorem loneSearch_starts : (loneStart loneSearch).isSome = true := by
  decide +kernel

theorem loneSearch_spares (storages : Party → Storage) :
    EachStep lone loneSearch storages loneGraphs fun post a s _ => s.Spares lone.nodes post a := by
  intro pre a post s t hs hr _
  have htr := tracks_of_run hr
  have hk : pre.length < (schedule loneSearch.circ).length := by simp [hs]
  have hlast := loneSearch_last pre.length hk
  rw [hs, List.take_left, List.getD_append_right _ _ _ _ le_rfl, Nat.sub_self,
    List.getD_cons_zero] at hlast
  refine ⟨fun f ha hf hlay => ?_, fun id _ w _ _ _ f hf hc => ?_⟩
  · subst ha
    rw [htr.p0.waiting]
    simpa [zeroTestLast, hf, hlay] using Or.inr hlast
  · have hmem : recv f ∈ schedule loneSearch.circ := by simp [hs, hf]
    exact absurd hc (loneSearch_sums f (mem_schedule_recv.mp hmem))

theorem single_assignment_iff_search : ∃ s, loneStart loneSearch = some s ∧
    EachStep lone loneSearch (seated s) loneGraphs (fun post a s t =>
      s.Frames lone.nodes post a t) ∧ SharesKept lone loneSearch (seated s) loneGraphs := by
  obtain ⟨s, hs⟩ := Option.isSome_iff_exists.mp loneSearch_starts
  have hspares := loneSearch_spares (seated s)
  exact ⟨s, hs, (single_assignment_iff bfs.algorithm_lawful rfl (seated s) loneGraphs).2 hspares⟩

def clippedMessage : Program where
  columns := 1
  initNodes _ := none
  prepare _ _ := .single (.clip 0) Body.clip_scoped
  apply _ _ := .single (.add 0 1) sum_scoped
  postMp _ := .arg 0 Nat.one_pos
  columnSums := false

def loneCircuit : Circuit :=
  (build clippedMessage.algorithm (start lone 1 false false false)).2

-- P0's share of the state before and after the first step of the zero test
def loneShares (s : Storage × Storage) : Option (Vec × Vec) := do
  let before ← Servers.run lone ⟨Evaluator.init loneCircuit (seated s .p0) (loneGraphs .p0),
    Evaluator.init loneCircuit (seated s .p1) (loneGraphs .p1)⟩
    ((schedule loneCircuit.circ).take 102)
  let after ← Servers.step lone before ((schedule loneCircuit.circ).getD 102 .clear)
  return (before.e0.online.wires 38, after.e0.online.wires 38)

theorem lone_negates : (loneStart loneCircuit).bind loneShares = some ([3], [4294967292]) := by
  decide +kernel

theorem lone_schedule : schedule loneCircuit.circ = (schedule loneCircuit.circ).take 102 ++
    (schedule loneCircuit.circ).getD 102 .clear :: (schedule loneCircuit.circ).drop 103 := by
  have hlt : 102 < (schedule loneCircuit.circ).length := by decide +kernel
  rw [List.getD_eq_getElem _ _ hlt, ← List.drop_eq_getElem_cons hlt, List.take_append_drop]

theorem not_single_assignment_lone : clippedMessage.algorithm.Lawful ∧ ∃ dealer s0 s1,
    Preprocessor.runDealer lone loneCircuit.circ countingStreams = some dealer ∧
    Preprocessor.runParty lone loneCircuit.circ countingStreams dealer .p0 = some s0 ∧
    Preprocessor.runParty lone loneCircuit.circ countingStreams dealer .p1 = some s1 ∧
    ¬ EachStep lone loneCircuit (seated (s0, s1)) loneGraphs fun post a s t =>
      s.Frames lone.nodes post a t := by
  refine ⟨clippedMessage.algorithm_lawful, ?_⟩
  obtain ⟨⟨s0, s1⟩, hstart, hshares⟩ := Option.bind_eq_some_iff.mp lone_negates
  simp only [loneStart, Option.bind_eq_bind, Option.bind_eq_some_iff] at hstart
  obtain ⟨dealer, hd, s0, h0, s1, h1, hstart⟩ := hstart
  obtain ⟨rfl, rfl⟩ := Prod.mk.inj (Option.some.inj hstart)
  refine ⟨dealer, s0, s1, hd, h0, h1, fun hframes => ?_⟩
  simp only [loneShares, Option.bind_eq_bind, Option.bind_eq_some_iff] at hshares
  obtain ⟨before, hbefore, after, hafter, hshares⟩ := hshares
  obtain ⟨hold, hnew⟩ := Prod.mk.inj (Option.some.inj hshares)
  have hunwritten : 38 ∉ ((schedule loneCircuit.circ).getD 102 .clear).writes := by decide +kernel
  have hold' : (before.online .p0).wires 38 = [3] := hold
  have hnew' : (after.online .p0).wires 38 = [4294967292] := hnew
  have hframe : before.Frames lone.nodes ((schedule loneCircuit.circ).drop 103)
      ((schedule loneCircuit.circ).getD 102 .clear) after :=
    hframes ((schedule loneCircuit.circ).take 102) _ _ before after lone_schedule hbefore hafter
  rcases hframe .p0 (by decide) 38 hunwritten with he | ⟨he, -⟩
  · rw [hold', hnew'] at he
    exact absurd he (by decide)
  · rw [hnew'] at he
    cases he

end GraphMpc
