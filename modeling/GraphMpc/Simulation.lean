import GraphMpc.Buffers
import GraphMpc.Schedule
import GraphMpc.Library.Trace

namespace GraphMpc

open Tabulate Permutation Circuit Servers RefCount Online Servers.Action

-- what is known of the values on the wires of a circuit: enough for every gate to work, and kept by
-- every gate, also where the first layer of EQZ overwrites an input that other gates still read
structure Plan (conf : ProtocolConfig) where
  gates : List Gate
  perm : ℕ → Equiv.Perm ℕ
  inp : ℕ → Vec
  kd : ℕ → Kind
  holds : ℕ → Vec → Prop
  perm_keeps : ∀ idx, Keeps conf.size (perm idx)
  wellFormed : WellFormed conf.nodes gates
  sourced : Sourced conf.nodes gates
  levelled : ColumnsLevelled conf.nodes gates
  handled : ∀ f ∈ gates, f.Handled
  ready : ∀ f ∈ gates, ∀ v, (∀ r ∈ f.reads conf.nodes, holds r (v r)) → Ready conf v kd f
  solves : ∀ f ∈ gates, f.type ≠ .output → ∀ v, (∀ r ∈ f.reads conf.nodes, holds r (v r)) →
    holds f.outIdx (clearGate conf (fun idx => ofPerm conf.size (perm idx)) inp f v)
  negated : ∀ f ∈ gates, f.type = .eqz → f.layer = 0 → total (layersOf gates) f.in1Idx = 1 ∨
    (∀ g ∈ gates, g.type = .compaction ∨ g.type = .bit2A → g.in1Idx ≠ f.in1Idx) ∧
      kd f.in1Idx = .add ∧ ∀ x y, holds f.in1Idx x → y.length = x.length →
        (∀ i, f.size ≤ i → y.getD i 0 = x.getD i 0) → holds f.in1Idx y
  columns : ∀ f ∈ gates, f.type = .columnSumsToNodes → ∀ r ∈ f.reads conf.nodes,
    total (layersOf gates) r = 0 ∨ r ∈ f.counted
  shuffled : ∀ f ∈ gates, f.type = .unshuffle → ∃ g ∈ gates, g.type = .shuffle ∧
    g.shuffleIdx = f.shuffleIdx ∧ (levels gates).layer g < (levels gates).layer f

structure Supply (conf : ProtocolConfig) (perm : ℕ → Equiv.Perm ℕ) (order : List Gate) where
  corr : Gate → GateCorrelations
  correlated : ∀ f ∈ order, Correlated conf perm f (corr f)
  Stocked : List Gate → List Gate → Storage → Storage → Prop
  send : ∀ {sent recvd rest : List Gate} {f : Gate} {d0 d1 : Storage},
    order = sent ++ f :: rest → Stocked sent recvd d0 d1 →
    (f.type = .unshuffle → ∃ g ∈ recvd, g.type = .shuffle ∧ g.shuffleIdx = f.shuffleIdx) →
    ∃ d0' d1', d0.sendCorrelation conf.size .p0 f = ((corr f).send0, d0') ∧
      d1.sendCorrelation conf.size .p1 f = ((corr f).send1, d1') ∧ Stocked (sent ++ [f]) recvd d0' d1'
  recv : ∀ {sent recvd rest : List Gate} {f : Gate} {d0 d1 : Storage},
    order = recvd ++ f :: rest → f ∈ sent → Stocked sent recvd d0 d1 →
    ∃ d0' d1', d0.recvCorrelation conf.size .p0 f = some ((corr f).recv0, d0') ∧
      d1.recvCorrelation conf.size .p1 f = some ((corr f).recv1, d1') ∧
        Stocked sent (recvd ++ [f]) d0' d1'

namespace Message

def join (l : List Message) : Message := l.foldr append {}

theorem append_assoc (m n k : Message) : (m.append n).append k = m.append (n.append k) := by
  simp [append]

theorem join_snoc (l : List Message) (m : Message) : join (l ++ [m]) = (join l).append m := by
  induction l with
  | nil => simp [join, append]
  | cons n l ih =>
    simp only [join, List.cons_append, List.foldr_cons] at ih ⊢
    rw [ih, append_assoc]

end Message

structure InFlight where
  gate : Gate
  m0 : Message
  m1 : Message

namespace InFlight

theorem combine_join {l : List InFlight} (h : ∀ x ∈ l, x.m0.SameLengths x.m1) :
    (Message.join (l.map m0)).SameLengths (Message.join (l.map m1)) ∧
      (Message.join (l.map m0)).combine (Message.join (l.map m1)) =
        Message.join (l.map fun x => x.m0.combine x.m1) := by
  induction l with
  | nil => exact ⟨⟨rfl, rfl, rfl, rfl⟩, rfl⟩
  | cons x l ih =>
    obtain ⟨hl, hc⟩ := ih fun y hy => h y (List.mem_cons_of_mem _ hy)
    have hx := h x (List.mem_cons_self ..)
    refine ⟨hx.append hl, ?_⟩
    simp only [List.map_cons, Message.join, List.foldr_cons] at hc ⊢
    rw [Message.combine_append hx, hc]

end InFlight

section phases

variable {conf : ProtocolConfig} (P : Plan conf)
  (S : Supply conf P.perm (layersOf P.gates).flatten) (inp0 inp1 : ℕ → Vec)

def Plan.Outputs (recvd : List Gate) (out : Vec) : Prop :=
  ∃ y : Gate → Vec, (∀ f ∈ recvd, f.type = .output → P.holds f.in1Idx (y f)) ∧
    out = (recvd.filter (·.type = .output)).flatMap fun f => (y f).take conf.size

def Plan.Shared (w0 w1 : ℕ → Vec) (w : ℕ) : Prop :=
  ∃ x, P.holds w x ∧ (P.kd w).Rel (w0 w) (w1 w) x

abbrev Plan.Live (pre : List Action) (w : ℕ) : Prop :=
  effects.Live (total (layersOf P.gates)) pre w

structure Running (pre : List Action) (sent recvd : List Gate) (s : Servers) : Prop where
  waiting0 : ∀ w, s.e0.online.waiting w = total (layersOf P.gates) w - effects.released pre w
  waiting1 : ∀ w, s.e1.online.waiting w = total (layersOf P.gates) w - effects.released pre w
  wires : ∀ w, effects.Written pre w → P.Live pre w →
    P.Shared s.e0.online.wires s.e1.online.wires w
  input0 : s.e0.inputToVal = inp0
  input1 : s.e1.inputToVal = inp1
  output : ∃ out, P.Outputs recvd out ∧ Shares s.e0.online.output s.e1.online.output out
  received : ∀ f, recv f ∈ pre → f ∈ recvd
  stock : S.Stocked sent recvd s.e0.data s.e1.data

structure Pending (pre : List Action) (s : Servers) (x : InFlight) : Prop where
  fits0 : x.m0.Fits conf x.gate
  fits1 : x.m1.Fits conf x.gate
  silent : x.gate.interactive = false → x.m0 = {} ∧ x.m1 = {}
  promise : x.gate.interactive = true → ∃ v s0 s1, Ready conf v P.kd x.gate ∧
    P.holds x.gate.outIdx (v x.gate.outIdx) ∧
    Promise conf inp0 inp1 P.kd v x.gate (S.corr x.gate) s0 s1 x.m0 x.m1 ∧
      (x.gate.type = .compaction ∨ x.gate.type = .bit2A →
        effects.Written pre x.gate.in1Idx ∧
        s.e0.online.wires x.gate.in1Idx = s0 x.gate.in1Idx ∧
        s.e1.online.wires x.gate.in1Idx = s1 x.gate.in1Idx)

structure Sending (pre : List Action) (sent recvd : List Gate) (s : Servers)
    (l : List InFlight) : Prop extends Running P S inp0 inp1 pre sent recvd s where
  idle0 : s.e0.online.Idle
  idle1 : s.e1.online.Idle
  vals0 : s.e0.online.vals = Message.join (l.map InFlight.m0)
  vals1 : s.e1.online.vals = Message.join (l.map InFlight.m1)
  pending : ∀ x ∈ l, Pending P S inp0 inp1 pre s x ∧ x.gate ∈ sent

structure Receiving (pre : List Action) (sent recvd : List Gate) (s : Servers)
    (l : List InFlight) : Prop extends Running P S inp0 inp1 pre sent recvd s where
  reading0 : s.e0.online.Reading (Message.join (l.map fun x => x.m0.combine x.m1))
  reading1 : s.e1.online.Reading (Message.join (l.map fun x => x.m1.combine x.m0))
  pending : ∀ x ∈ l, Pending P S inp0 inp1 pre s x ∧ x.gate ∈ sent

end phases

section steps

variable {conf : ProtocolConfig} {P : Plan conf}
  {S : Supply conf P.perm (layersOf P.gates).flatten} {inp0 inp1 : ℕ → Vec}
  {pre post : List Action} {a : Action} {f : Gate} {sent recvd rest : List Gate} {s s' : Servers}

theorem Plan.mem_gates (P : Plan conf) (hs : schedule (layersOf P.gates) = pre ++ a :: post)
    (ha : a.gate = some f) : f ∈ P.gates := by
  have hmem : a ∈ schedule (layersOf P.gates) := by
    rw [hs]
    exact List.mem_append_right _ (List.mem_cons_self ..)
  rw [← mem_layersOf P.wellFormed]
  cases a with
  | send g =>
    obtain rfl : g = f := by simpa [Action.gate] using ha
    exact mem_schedule_send.mp hmem
  | recv g =>
    obtain rfl : g = f := by simpa [Action.gate] using ha
    exact mem_schedule_recv.mp hmem
  | exchange => cases ha
  | clear => cases ha

theorem Plan.Live.of_snoc {w : ℕ} (h : P.Live (pre ++ [a]) w) : P.Live pre w := by
  rw [Plan.Live, Effects.Live, Effects.released_snoc] at h
  rcases h with h | h
  · exact Or.inl (by omega)
  · exact Or.inr (by omega)

theorem release_live {o : Online} (hw : ∀ w, o.waiting w = total (layersOf P.gates) w -
    effects.released pre w) {w : ℕ} (hl : P.Live (pre ++ [a]) w) :
    (o.release (effects.frees a)).wires w = o.wires w := by
  simp only [release, hw]
  rw [if_neg]
  rintro ⟨hm, hz⟩
  have hpos := List.count_pos_iff.mpr hm
  rw [Plan.Live, Effects.Live, Effects.released_snoc] at hl
  omega

theorem Plan.not_exclusive (P : Plan conf) {w : ℕ} (hl : P.Live (pre ++ [send f]) w)
    (ht : f.type = .eqz) (hw : w = f.in1Idx) : total (layersOf P.gates) f.in1Idx ≠ 1 := by
  subst hw
  intro htotal
  have hc : (effects.frees (send f)).count f.in1Idx = 1 := by
    simp [effects, frees, Gate.sentFree, ht]
  rw [Plan.Live, Effects.Live, Effects.released_snoc, htotal] at hl
  omega

theorem negateWires_kept (P : Plan conf) (hf : f ∈ P.gates) {g : Gate} (hg : g ∈ P.gates)
    (hk : g.type = .compaction ∨ g.type = .bit2A) (id : Party)
    (hl : P.Live (pre ++ [send f]) g.in1Idx) (wires : ℕ → Vec) :
    negateWires id f wires g.in1Idx = wires g.in1Idx := by
  unfold negateWires
  split
  · rename_i he
    refine Function.update_of_ne (fun hw => ?_) _ _
    rcases P.negated f hf he.1 he.2 with hone | ⟨hother, -⟩
    · exact P.not_exclusive hl he.1 hw hone
    · exact hother g hg hk hw
  · rfl

-- the negated shares of a wire that stays in use stand for some value that agrees with the old one
-- behind the entries of the zero test
theorem Plan.Shared.negate (hf : f ∈ P.gates) {w : ℕ} (hl : P.Live (pre ++ [send f]) w)
    {w0 w1 : ℕ → Vec} (h : P.Shared w0 w1 w) :
    P.Shared (negateWires .p0 f w0) (negateWires .p1 f w1) w := by
  by_cases hneg : (f.type = .eqz ∧ f.layer = 0) ∧ w = f.in1Idx
  · obtain ⟨he, rfl⟩ := hneg
    obtain ⟨x, hx, hrel⟩ := h
    rcases P.negated f hf he.1 he.2 with hone | ⟨-, hk, hover⟩
    · exact absurd hone (P.not_exclusive hl he.1 rfl)
    · rw [hk] at hrel
      have hrel : Shares _ _ _ := hrel
      have hlen : ∀ id (v : ℕ → Vec), (negateWires id f v f.in1Idx).length = (v f.in1Idx).length :=
        fun id v => negateWires_length id f v _
      have hbehind : ∀ id (v : ℕ → Vec) i, f.size ≤ i →
          (negateWires id f v f.in1Idx).getD i 0 = (v f.in1Idx).getD i 0 := by
        intro id v i hi
        rw [negateWires, if_pos he, Function.update_self, List.getD_eq_getElem?_getD,
          List.getElem?_mapIdx, List.getD_eq_getElem?_getD]
        cases (v f.in1Idx)[i]? with
        | none => rfl
        | some y => simp [hi.not_gt]
      have hsame : (negateWires .p0 f w0 f.in1Idx).length =
          (negateWires .p1 f w1 f.in1Idx).length := by
        rw [hlen, hlen, hrel.left, hrel.right]
      refine ⟨List.zipWith (· + ·) (negateWires .p0 f w0 f.in1Idx) (negateWires .p1 f w1 f.in1Idx),
        hover x _ hx ?_ fun i hi => ?_, ?_⟩
      · rw [List.length_zipWith, ← hsame, Nat.min_self, hlen, hrel.left]
      · rw [← (shares_zipWith hsame).sum, hbehind .p0 w0 i hi, hbehind .p1 w1 i hi, hrel.sum]
      · rw [hk]
        exact shares_zipWith hsame
  · have hkeep : ∀ id (v : ℕ → Vec), negateWires id f v w = v w := by
      intro id v
      unfold negateWires
      split
      · rename_i he
        exact Function.update_of_ne (fun hw => hneg ⟨he, hw⟩) _ _
      · rfl
    obtain ⟨x, hx, hrel⟩ := h
    exact ⟨x, hx, by rw [hkeep, hkeep]; exact hrel⟩

theorem not_written_out (P : Plan conf) (hs : schedule (layersOf P.gates) = pre ++ a :: post)
    (ha : a = recv f) : ¬ effects.Written pre f.outIdx := by
  subst ha
  rintro ⟨b, hb, hw⟩
  cases b with
  | recv g =>
    have hg := mem_gates_of_mem P.wellFormed hs (Or.inl hb)
    have hout : f.outIdx = g.outIdx := by
      simp only [effects, Action.writes] at hw
      split at hw
      · cases hw
      · exact List.mem_singleton.mp hw
    obtain rfl := P.wellFormed.eq_of_outIdx (P.mem_gates hs rfl) hg hout
    rcases precedes_of_mem P.wellFormed hs hb with he | ⟨-, he⟩ <;> exact absurd he (lt_irrefl _)
  | send g => cases hw
  | exchange => cases hw
  | clear => cases hw

theorem Plan.Live.of_append {mid : List Action} {w : ℕ} (h : P.Live (pre ++ mid) w) :
    P.Live pre w := by
  induction mid using List.reverseRecOn with
  | nil => rwa [List.append_nil] at h
  | append_singleton mid a ih =>
    rw [← List.append_assoc] at h
    exact ih h.of_snoc

theorem Plan.operand (P : Plan conf) (hs : schedule (layersOf P.gates) = pre ++ a :: post)
    (ha : a.gate = some f) {r : ℕ} (hr : r ∈ a.reads conf.nodes) :
    effects.Written pre r ∧ P.Live pre r := by
  have hf := P.mem_gates hs ha
  obtain ⟨g, hg, rfl, hmem, ho, -⟩ :=
    source_received P.wellFormed hs P.levelled P.sourced ha hr
  have hreads : g.outIdx ∈ f.reads conf.nodes := by
    cases a with
    | send f' =>
      obtain rfl : f' = f := by simpa [Action.gate] using ha
      simp only [Action.reads] at hr
      split at hr
      · exact hr
      · cases hr
    | recv f' =>
      obtain rfl : f' = f := by simpa [Action.gate] using ha
      simp only [Action.reads] at hr
      split at hr
      · cases hr
      · exact hr
    | exchange => cases ha
    | clear => cases ha
  refine ⟨⟨recv g, hmem, by simp [effects, Action.writes, ho]⟩, ?_⟩
  by_cases hc : g.outIdx ∈ f.counted
  · exact Or.inr (released_lt_total P.wellFormed P.handled hs ha hr hc)
  · have ht : f.type = .columnSumsToNodes := by
      by_contra hne
      exact hc (Gate.reads_counted (P.handled f hf) hne hreads)
    have hzero := (P.columns f hf ht _ hreads).resolve_right hc
    have := released_le_total P.wellFormed P.handled hs g.outIdx
    exact Or.inl (by omega)

theorem Running.operand (h : Running P S inp0 inp1 pre sent recvd s)
    (hs : schedule (layersOf P.gates) = pre ++ a :: post) (ha : a.gate = some f) {r : ℕ}
    (hr : r ∈ a.reads conf.nodes) : P.Shared s.e0.online.wires s.e1.online.wires r := by
  obtain ⟨hwritten, hlive⟩ := P.operand hs ha hr
  exact h.wires _ hwritten hlive

-- the values that the servers share when a gate reads its operands, with the output it computes
structure Plan.Values (P : Plan conf) (f : Gate) (w0 w1 v : ℕ → Vec) : Prop where
  related : ∀ r ∈ f.reads conf.nodes, WiresRel P.kd w0 w1 v r
  ready : Ready conf v P.kd f
  solved : f.type ≠ .output →
    v f.outIdx = clearGate conf (fun idx => ofPerm conf.size (P.perm idx)) P.inp f v
  inputs : ∀ r ∈ f.reads conf.nodes, P.holds r (v r)
  output : f.type ≠ .output → P.holds f.outIdx (v f.outIdx)

theorem Plan.exists_values (P : Plan conf) (hf : f ∈ P.gates) {w0 w1 : ℕ → Vec}
    (h : ∀ r ∈ f.reads conf.nodes, P.Shared w0 w1 r) : ∃ v, P.Values f w0 w1 v := by
  have hx : ∀ r, ∃ x, r ∈ f.reads conf.nodes → P.holds r x ∧ (P.kd r).Rel (w0 r) (w1 r) x := by
    intro r
    by_cases hr : r ∈ f.reads conf.nodes
    · obtain ⟨x, hx⟩ := h r hr
      exact ⟨x, fun _ => hx⟩
    · exact ⟨[], fun hm => absurd hm hr⟩
  choose x hx using hx
  let out := clearGate conf (fun idx => ofPerm conf.size (P.perm idx)) P.inp f x
  have hne : ∀ r ∈ f.reads conf.nodes, Function.update x f.outIdx out r = x r := fun r hr =>
    Function.update_of_ne ((P.wellFormed.wired_of_mem hf).1.reads _ hr).ne _ _
  have hholds : ∀ r ∈ f.reads conf.nodes, P.holds r (Function.update x f.outIdx out r) :=
    fun r hr => by
      rw [hne r hr]
      exact (hx r hr).1
  have hout : Function.update x f.outIdx out f.outIdx =
      clearGate conf (fun idx => ofPerm conf.size (P.perm idx)) P.inp f
        (Function.update x f.outIdx out) := by
    rw [Function.update_self]
    exact Clear.clearGate_congr conf _ _ f fun r hr => (hne r hr).symm
  refine ⟨Function.update x f.outIdx out, fun r hr => ?_, P.ready f hf _ hholds, fun _ => hout,
    hholds, fun ho => ?_⟩
  · rw [WiresRel, hne r hr]
    exact (hx r hr).2
  · rw [hout]
    exact P.solves f hf ho _ hholds

theorem Running.step (h : Running P S inp0 inp1 pre sent recvd s)
    {sent' recvd' : List Gate}
    (hw0 : ∀ w, s'.e0.online.waiting w = s.e0.online.waiting w - (effects.frees a).count w)
    (hw1 : ∀ w, s'.e1.online.waiting w = s.e1.online.waiting w - (effects.frees a).count w)
    (hframe : ∀ w, effects.Written pre w → P.Live (pre ++ [a]) w →
      P.Shared s.e0.online.wires s.e1.online.wires w →
        P.Shared s'.e0.online.wires s'.e1.online.wires w)
    (hnew : ∀ w ∈ effects.writes a, P.Live (pre ++ [a]) w →
      P.Shared s'.e0.online.wires s'.e1.online.wires w)
    (hin : s'.e0.inputToVal = s.e0.inputToVal ∧ s'.e1.inputToVal = s.e1.inputToVal)
    (hout : ∃ out, P.Outputs recvd' out ∧ Shares s'.e0.online.output s'.e1.online.output out)
    (hrecv : ∀ f, recv f ∈ pre ++ [a] → f ∈ recvd')
    (hstock : S.Stocked sent' recvd' s'.e0.data s'.e1.data) :
    Running P S inp0 inp1 (pre ++ [a]) sent' recvd' s' where
  waiting0 w := by
    rw [hw0, h.waiting0, Effects.released_snoc]
    omega
  waiting1 w := by
    rw [hw1, h.waiting1, Effects.released_snoc]
    omega
  wires w hwr hl := by
    by_cases hold : effects.Written pre w
    · exact hframe w hold hl (h.wires w hold hl.of_snoc)
    · exact hnew w ((Effects.written_snoc.mp hwr).resolve_left hold) hl
  input0 := hin.1.trans h.input0
  input1 := hin.2.trans h.input1
  output := hout
  received := hrecv
  stock := hstock

theorem Pending.step {x : InFlight} (h : Pending P S inp0 inp1 pre s x)
    (hs : schedule (layersOf P.gates) = pre ++ a :: post) (hopen : recv x.gate ∈ post)
    (hframe : x.gate.type = .compaction ∨ x.gate.type = .bit2A →
      effects.Written pre x.gate.in1Idx → P.Live (pre ++ [a]) x.gate.in1Idx →
        s'.e0.online.wires x.gate.in1Idx = s.e0.online.wires x.gate.in1Idx ∧
        s'.e1.online.wires x.gate.in1Idx = s.e1.online.wires x.gate.in1Idx) :
    Pending P S inp0 inp1 (pre ++ [a]) s' x where
  fits0 := h.fits0
  fits1 := h.fits1
  silent := h.silent
  promise hi := by
    obtain ⟨v, s0, s1, hr, hv, hp, hk⟩ := h.promise hi
    refine ⟨v, s0, s1, hr, hv, hp, fun ht => ?_⟩
    obtain ⟨hw, h0, h1⟩ := hk ht
    have hlive : P.Live (pre ++ [a]) x.gate.in1Idx := by
      have hs' : schedule (layersOf P.gates) = (pre ++ [a]) ++ post := by rw [hs]; simp
      refine Or.inr (Effects.released_lt hs' (frees_le_owed_layers P.wellFormed P.handled _)
        (sum_owed_layers P.wellFormed P.handled _) hopen ?_)
      rcases ht with ht | ht <;> simp [owed, Gate.counted, Gate.sentFree, ht]
    obtain ⟨e0, e1⟩ := hframe ht hw hlive
    exact ⟨Effects.written_snoc.mpr (Or.inl hw), e0.trans h0, e1.trans h1⟩

def afterSend (id : Party) (f : Gate) (m : Message) (d : Storage) (e : Evaluator) : Evaluator :=
  { e with
    online := { (e.online.negateInput id f).release f.sentFree with
      vals := e.online.vals.append m }
    data := d }

theorem evaluateSend_eq {e : Evaluator} {id : Party} {k : Correlation} {d : Storage} {m : Message}
    (hd : e.data.sendCorrelation conf.size id f = (k, d))
    (hm : message conf id f k (negateWires id f e.online.wires) = some m) :
    e.evaluateSend conf id f = some (afterSend id f m d e) := by
  rw [← negateInput_wires] at hm
  simp only [Evaluator.evaluateSend, hd, sendGate_eq conf id hm, releaseSent_eq,
    Option.bind_eq_bind, Option.bind_some, Option.pure_def, afterSend]

theorem negateInput_waiting (id : Party) (f : Gate) (o : Online) :
    (o.negateInput id f).waiting = o.waiting := by
  unfold negateInput
  split <;> rfl

theorem negateInput_output (id : Party) (f : Gate) (o : Online) :
    (o.negateInput id f).output = o.output := by
  unfold negateInput
  split <;> rfl

theorem idle_negated {o : Online} (h : o.Idle) (id : Party) (f : Gate) (l : List ℕ) (m : Message) :
    Idle { (o.negateInput id f).release l with vals := m } := by
  obtain ⟨h1, h2, h3, h4⟩ := h
  unfold negateInput
  split <;> exact ⟨h1, h2, h3, h4⟩

theorem Running.messages (h : Running P S inp0 inp1 pre sent recvd s)
    (hs : schedule (layersOf P.gates) = pre ++ send f :: post)
    (hin : f.type = .input → Shares (inp0 f.outIdx) (inp1 f.outIdx) (P.inp f.outIdx)) :
    ∃ m0 m1, message conf .p0 f (S.corr f).send0 (negateWires .p0 f s.e0.online.wires) = some m0 ∧
      message conf .p1 f (S.corr f).send1 (negateWires .p1 f s.e1.online.wires) = some m1 ∧
      Pending P S inp0 inp1 pre s ⟨f, m0, m1⟩ := by
  have hf := P.mem_gates hs rfl
  cases hi : f.interactive with
  | false =>
    exact ⟨_, _, message_silent .p0 _ _ hi, message_silent .p1 _ _ hi, fits_silent hi,
      fits_silent hi, fun _ => ⟨rfl, rfl⟩, fun h => absurd (hi.symm.trans h) Bool.false_ne_true⟩
  | true =>
    have hreads : ∀ r ∈ f.reads conf.nodes, r ∈ (send f).reads conf.nodes := fun r hr => by
      rwa [Action.reads, if_pos hi]
    have ho : f.type ≠ .output := fun ht => by simp [Gate.interactive, ht] at hi
    obtain ⟨v, hv⟩ := P.exists_values hf fun r hr => h.operand hs rfl (hreads r hr)
    obtain ⟨m0, m1, h0, h1, hp⟩ := sends_of_ready hv.ready ho
      (S.correlated f ((mem_layersOf P.wellFormed).mpr hf)) P.perm_keeps (hv.solved ho) hin
      fun _ => hv.related
    refine ⟨m0, m1, h0, h1, hp.fits0, hp.fits1, fun h => absurd (hi.symm.trans h) (by simp),
      fun _ => ⟨v, _, _, hv.ready, hv.output ho, hp, fun ht => ?_⟩⟩
    change f.type = .compaction ∨ f.type = .bit2A at ht
    refine ⟨(P.operand hs rfl (hreads _ ?_)).1, rfl, rfl⟩
    rcases ht with ht | ht <;> simp [Gate.reads, ht]

theorem Sending.send_gate {l : List InFlight} (h : Sending P S inp0 inp1 pre sent recvd s l)
    (hs : schedule (layersOf P.gates) = pre ++ send f :: post)
    (ho : (layersOf P.gates).flatten = sent ++ f :: rest) (hopen : ∀ x ∈ l, recv x.gate ∈ post)
    (hin : f.type = .input → Shares (inp0 f.outIdx) (inp1 f.outIdx) (P.inp f.outIdx)) :
    ∃ s' m0 m1, Servers.step conf s (send f) = some s' ∧
      Sending P S inp0 inp1 (pre ++ [send f]) (sent ++ [f]) recvd s' (l ++ [⟨f, m0, m1⟩]) := by
  have hf := P.mem_gates hs rfl
  have hshuffle : f.type = .unshuffle →
      ∃ g ∈ recvd, g.type = .shuffle ∧ g.shuffleIdx = f.shuffleIdx := by
    intro ht
    obtain ⟨g, hg, hgt, hgi, hl⟩ := P.shuffled f hf ht
    exact ⟨g, h.received g (recv_before_send P.wellFormed hs rfl hg hl), hgt, hgi⟩
  obtain ⟨d0, d1, hd0, hd1, hstock⟩ := S.send ho h.stock hshuffle
  obtain ⟨m0, m1, hm0, hm1, hp⟩ := h.messages hs hin
  have hwires : ∀ w, P.Live (pre ++ [send f]) w →
      ((s.e0.online.negateInput .p0 f).release f.sentFree).wires w =
          negateWires .p0 f s.e0.online.wires w ∧
        ((s.e1.online.negateInput .p1 f).release f.sentFree).wires w =
          negateWires .p1 f s.e1.online.wires w := by
    intro w hl
    rw [← negateInput_wires, ← negateInput_wires]
    exact ⟨release_live (fun w => by rw [negateInput_waiting]; exact h.waiting0 w) hl,
      release_live (fun w => by rw [negateInput_waiting]; exact h.waiting1 w) hl⟩
  have hstep : Servers.step conf s (send f) =
      some ⟨afterSend .p0 f m0 d0 s.e0, afterSend .p1 f m1 d1 s.e1⟩ := by
    simp only [Servers.step, evaluateSend_eq hd0 hm0, evaluateSend_eq hd1 hm1,
      Option.bind_eq_bind, Option.bind_some, Option.pure_def]
  refine ⟨_, m0, m1, hstep, ?_⟩
  have hpend : ∀ x, Pending P S inp0 inp1 pre s x → recv x.gate ∈ post →
      Pending P S inp0 inp1 (pre ++ [send f])
        ⟨afterSend .p0 f m0 d0 s.e0, afterSend .p1 f m1 d1 s.e1⟩ x := by
    intro x hx hxo
    refine hx.step hs hxo fun hk _ hl => ?_
    have hg : x.gate ∈ P.gates := mem_gates_of_mem_post P.wellFormed hs hxo
    obtain ⟨h0, h1⟩ := hwires _ hl
    rw [negateWires_kept P hf hg hk _ hl] at h0 h1
    exact ⟨h0, h1⟩
  refine ⟨h.toRunning.step ?_ ?_ (fun w _ hl hw => ?_) ?_ ⟨rfl, rfl⟩ ?_ ?_
    hstock, idle_negated h.idle0 .., idle_negated h.idle1 .., ?_, ?_, ?_⟩
  · intro w
    simp only [afterSend, release, negateInput_waiting]
    rfl
  · intro w
    simp only [afterSend, release, negateInput_waiting]
    rfl
  · obtain ⟨x, hx, hrel⟩ := hw.negate hf hl
    obtain ⟨h0, h1⟩ := hwires w hl
    exact ⟨x, hx, by rw [← h0, ← h1] at hrel; exact hrel⟩
  · intro w hw
    cases hw
  · simp only [afterSend, release, negateInput_output]
    exact h.output
  · intro g hg
    rcases List.mem_append.mp hg with hg | hg
    · exact h.received g hg
    · cases List.mem_singleton.mp hg
  · rw [List.map_append, List.map_singleton, Message.join_snoc, ← h.vals0]
    rfl
  · rw [List.map_append, List.map_singleton, Message.join_snoc, ← h.vals1]
    rfl
  · intro x hx
    rcases List.mem_append.mp hx with hx | hx
    · exact ⟨hpend x (h.pending x hx).1 (hopen x hx),
        List.mem_append_left _ (h.pending x hx).2⟩
    · obtain rfl := List.mem_singleton.mp hx
      exact ⟨hpend _ hp (recv_after_send P.wellFormed hs rfl),
        List.mem_append_right _ (List.mem_singleton_self _)⟩

theorem Sending.exchange_messages {l : List InFlight}
    (h : Sending P S inp0 inp1 pre sent recvd s l)
    (hs : schedule (layersOf P.gates) = pre ++ exchange :: post)
    (hopen : ∀ x ∈ l, recv x.gate ∈ post) : ∃ s', Servers.step conf s exchange = some s' ∧
      Receiving P S inp0 inp1 (pre ++ [exchange]) sent recvd s' l := by
  obtain ⟨hlen, hjoin⟩ := InFlight.combine_join (l := l)
    fun x hx => (h.pending x hx).1.fits0.sameLengths (h.pending x hx).1.fits1
  obtain ⟨hlen', hjoin'⟩ : (Message.join (l.map InFlight.m1)).SameLengths
      (Message.join (l.map InFlight.m0)) ∧ (Message.join (l.map InFlight.m1)).combine
        (Message.join (l.map InFlight.m0)) =
          Message.join (l.map fun x => x.m1.combine x.m0) := by
    have hswap := InFlight.combine_join (l := l.map fun x => ⟨x.gate, x.m1, x.m0⟩) ?_
    · simpa only [List.map_map, Function.comp_def] using hswap
    · intro x hx
      obtain ⟨y, hy, rfl⟩ := List.mem_map.mp hx
      exact ((h.pending y hy).1.fits0.sameLengths (h.pending y hy).1.fits1).symm
  rw [← h.vals0, ← h.vals1] at hlen hjoin hlen' hjoin'
  refine ⟨_, if_pos hlen.dataSend, ?_⟩
  refine ⟨h.toRunning.step ?_ ?_ (fun _ _ _ hw => hw) ?_ ⟨rfl, rfl⟩ h.output ?_ h.stock,
    ?_, ?_, ?_⟩
  · intro w
    exact (sub_zero _).symm
  · intro w
    exact (sub_zero _).symm
  · intro w hw
    cases hw
  · intro g hg
    rcases List.mem_append.mp hg with hg | hg
    · exact h.received g hg
    · cases List.mem_singleton.mp hg
  · have hr := Idle.reading (o := s.e0.online.receive s.e1.online.vals.dataSend)
      ⟨h.idle0.mulIdx, h.idle0.andIdx, h.idle0.shuffleIdx, h.idle0.revealIdx⟩
    rw [← hjoin, ← Message.receive_eq_combine hlen]
    exact hr
  · have hr := Idle.reading (o := s.e1.online.receive s.e0.online.vals.dataSend)
      ⟨h.idle1.mulIdx, h.idle1.andIdx, h.idle1.shuffleIdx, h.idle1.revealIdx⟩
    rw [← hjoin', ← Message.receive_eq_combine hlen']
    exact hr
  · intro x hx
    exact ⟨(h.pending x hx).1.step hs (hopen x hx) fun _ _ _ => ⟨rfl, rfl⟩, (h.pending x hx).2⟩

def afterRecv (f : Gate) (v : Vec) (o : Online) (d : Storage) (e : Evaluator) : Evaluator :=
  { e with online := (o.setWire f.outIdx v).release f.receivedFree, data := d }

theorem evaluateRecv_eq {e : Evaluator} {id : Party} {k : Correlation} {d : Storage} {t : Message}
    {o : Online} {v : Vec} (ht : f.type ≠ .output ∧ f.type ≠ .and ∧ f.type ≠ .andSIMD ∧
      f.type ≠ .xor ∧ f.type ≠ .xorSIMD)
    (hd : e.data.recvCorrelation conf.size id f = some (k, d))
    (hr : e.online.readGate conf f = some (t, o))
    (hv : gateOutput conf id e.inputToVal f k t o.wires = some v) :
    e.evaluateRecv conf id f = some (afterRecv f v o d e) := by
  have hg : e.online.recvGate conf id e.inputToVal f k =
      some ((o.setWire f.outIdx v).release f.receivedFree) := by
    cases hf : f.type <;> simp_all [recvGate, releaseReceived_eq]
  simp only [Evaluator.evaluateRecv, hd, hg, Option.bind_eq_bind, Option.bind_some,
    Option.pure_def, afterRecv]

def afterOutput (conf : ProtocolConfig) (f : Gate) (d : Storage) (e : Evaluator) : Evaluator :=
  { e with
    online := { e.online with
      output := e.online.output ++ (e.online.wires f.in1Idx).take conf.size }.release f.receivedFree
    data := d }

theorem evaluateRecv_output {e : Evaluator} {id : Party} {k : Correlation} {d : Storage}
    (ht : f.type = .output) (hd : e.data.recvCorrelation conf.size id f = some (k, d))
    (hx : conf.size ≤ (e.online.wires f.in1Idx).length) :
    e.evaluateRecv conf id f = some (afterOutput conf f d e) := by
  simp only [Evaluator.evaluateRecv, hd, recvGate, ht, fetch, prefixOf, if_pos hx,
    releaseReceived_eq, Option.bind_eq_bind, Option.bind_some, Option.pure_def, afterOutput]

theorem Shares.append {a b x a' b' x' : Vec} (h : Shares a b x) (h' : Shares a' b' x') :
    Shares (a ++ a') (b ++ b') (x ++ x') where
  left := by simp [h.left, h'.left]
  right := by simp [h.right, h'.right]
  entry i := by
    have hl := h.left
    have hr := h.right
    by_cases hi : i < x.length
    · rw [List.getD_append _ _ _ _ (by omega), List.getD_append _ _ _ _ (by omega),
        List.getD_append _ _ _ _ hi]
      exact h.entry i
    · rw [List.getD_append_right _ _ _ _ (by omega), List.getD_append_right _ _ _ _ (by omega),
        List.getD_append_right _ _ _ _ (by omega), hl, hr]
      exact h'.entry _

theorem Shares.take {a b x : Vec} (h : Shares a b x) {n : ℕ} (hn : n ≤ x.length) :
    Shares (a.take n) (b.take n) (x.take n) := by
  obtain ⟨h0, h1⟩ := h.le_length hn
  rw [take_eq_tab 0 hn, take_eq_tab 0 h0, take_eq_tab 0 h1]
  exact Shares.of_tab fun i _ => h.sum i

theorem Plan.Outputs.snoc {out : Vec} (h : P.Outputs recvd out) (hf : f ∉ recvd) {x : Vec}
    (hx : f.type = .output → P.holds f.in1Idx x) :
    P.Outputs (recvd ++ [f]) (out ++ if f.type = .output then x.take conf.size else []) := by
  obtain ⟨y, hy, rfl⟩ := h
  have hold : ∀ g ∈ recvd, Function.update y f x g = y g := fun g hg =>
    Function.update_of_ne (fun he : g = f => hf (he ▸ hg)) _ _
  refine ⟨Function.update y f x, fun g hg ho => ?_, ?_⟩
  · rcases List.mem_append.mp hg with hg | hg
    · rw [hold g hg]
      exact hy g hg ho
    · obtain rfl := List.mem_singleton.mp hg
      rw [Function.update_self]
      exact hx ho
  · rw [List.filter_append, List.flatMap_append]
    refine congrArg₂ (· ++ ·) ?_ ?_
    · simp only [List.flatMap_def]
      refine congrArg List.flatten (List.map_congr_left fun g hg => ?_)
      rw [hold g (List.mem_filter.mp hg).1]
    · by_cases ho : f.type = .output <;> simp [ho]

theorem Receiving.received_snoc {f : Gate} (h : Running P S inp0 inp1 pre sent recvd s) (g : Gate)
    (hg : recv g ∈ pre ++ [recv f]) : g ∈ recvd ++ [f] := by
  rcases List.mem_append.mp hg with hg | hg
  · exact List.mem_append_left _ (h.received g hg)
  · cases List.mem_singleton.mp hg
    exact List.mem_append_right _ (List.mem_singleton_self _)

theorem not_received (ho : (layersOf P.gates).flatten = recvd ++ f :: rest) : f ∉ recvd := by
  have hnodup := nodup_layersOf P.wellFormed
  rw [ho, List.nodup_middle, List.nodup_cons] at hnodup
  exact fun hmem => hnodup.1 (List.mem_append_left _ hmem)

section receive

variable {x : InFlight} {l : List InFlight}
  (h : Receiving P S inp0 inp1 pre sent recvd s (x :: l))
  (hs : schedule (layersOf P.gates) = pre ++ recv x.gate :: post)
  (ho : (layersOf P.gates).flatten = recvd ++ x.gate :: rest)
  (hopen : ∀ y ∈ l, recv y.gate ∈ post)
  (hin : ∀ f ∈ P.gates, f.type = .input →
    Shares (inp0 f.outIdx) (inp1 f.outIdx) (P.inp f.outIdx))

include h hs hin

-- what the servers compute from the operands and the messages they hold when they receive
theorem Receiving.delivers (hout : x.gate.type ≠ .output) : ∃ v a b,
    Ready conf v P.kd x.gate ∧ P.holds x.gate.outIdx (v x.gate.outIdx) ∧
    gateOutput conf .p0 inp0 x.gate (S.corr x.gate).recv0 (x.m0.receive x.m1.dataSend)
      s.e0.online.wires = some a ∧
    gateOutput conf .p1 inp1 x.gate (S.corr x.gate).recv1 (x.m1.receive x.m0.dataSend)
      s.e1.online.wires = some b ∧ (P.kd x.gate.outIdx).Rel a b (v x.gate.outIdx) := by
  obtain ⟨hpend, -⟩ := h.pending x (List.mem_cons_self ..)
  have hf := P.mem_gates hs rfl
  cases hi : x.gate.interactive with
  | true =>
    obtain ⟨v, s0, s1, hr, hv, hp, hk⟩ := hpend.promise hi
    obtain ⟨a, b, ha, hb, hrel⟩ := hp.delivers s.e0.online.wires s.e1.online.wires
      ⟨fun hl => absurd (hl.2.2.2.symm.trans hi) (by simp), fun ht => (hk ht).2⟩
    exact ⟨v, a, b, hr, hv, ha, hb, hrel⟩
  | false =>
    obtain ⟨h0, h1⟩ := hpend.silent hi
    obtain ⟨v, hv⟩ := P.exists_values hf fun r hr => h.operand hs rfl (by
      rwa [Action.reads, if_neg (by simp [hi])])
    have hsends : Sends conf inp0 inp1 P.kd v x.gate (S.corr x.gate) s.e0.online.wires
        s.e1.online.wires :=
      sends_of_ready hv.ready hout (S.correlated _ ((mem_layersOf P.wellFormed).mpr hf))
        P.perm_keeps (hv.solved hout) (hin _ hf) fun hi' => absurd (hi'.symm.trans hi) (by simp)
    obtain ⟨m0, m1, hm0, hm1, hp⟩ := hsends
    rw [message_silent .p0 _ _ hi] at hm0
    rw [message_silent .p1 _ _ hi] at hm1
    obtain ⟨a, b, ha, hb, hrel⟩ := hp.delivers s.e0.online.wires s.e1.online.wires
      ⟨fun _ => hv.related, fun ht => by
        rcases ht with ht | ht <;> simp [Gate.interactive, ht] at hi⟩
    rw [← Option.some.inj hm0, ← Option.some.inj hm1] at ha hb
    rw [h0, h1]
    exact ⟨v, a, b, hv.ready, hv.output hout, ha, hb, hrel⟩

omit hin
include ho hopen

theorem Receiving.recv_output (hout : x.gate.type = .output) :
    ∃ s', Servers.step conf s (recv x.gate) = some s' ∧
      Receiving P S inp0 inp1 (pre ++ [recv x.gate]) sent (recvd ++ [x.gate]) s' l := by
  obtain ⟨hpend, hsent⟩ := h.pending x (List.mem_cons_self ..)
  obtain ⟨d0, d1, hd0, hd1, hstock⟩ := S.recv ho hsent h.stock
  have hmul : x.gate.type ≠ .mul := by simp [hout]
  obtain ⟨_, _, _, _, hr0, hrest0⟩ := readGate_spec hmul (hpend.fits0.combine hpend.fits1)
    h.reading0
  obtain ⟨_, _, _, _, hr1, hrest1⟩ := readGate_spec hmul (hpend.fits1.combine hpend.fits0)
    h.reading1
  simp only [readGate, hout, Option.some.injEq, Prod.mk.injEq] at hr0 hr1
  rw [← hr0.2] at hrest0
  rw [← hr1.2] at hrest1
  have hreads : ∀ r ∈ x.gate.reads conf.nodes, r ∈ (recv x.gate).reads conf.nodes := fun r hr => by
    rwa [Action.reads, if_neg (by simp [Gate.interactive, hout])]
  have hx : x.gate.in1Idx ∈ x.gate.reads conf.nodes := by simp [Gate.reads, hout]
  obtain ⟨v, hv⟩ := P.exists_values (P.mem_gates hs rfl) fun r hr => h.operand hs rfl (hreads r hr)
  have hfull : Full conf v P.kd x.gate.in1Idx := by simpa only [Ready, hout] using hv.ready
  have hs1 := hfull.shares (hv.related _ hx)
  obtain ⟨hn0, hn1⟩ := hs1.le_length hfull.2
  have hstep : Servers.step conf s (recv x.gate) =
      some ⟨afterOutput conf x.gate d0 s.e0, afterOutput conf x.gate d1 s.e1⟩ := by
    simp only [Servers.step, evaluateRecv_output hout hd0 hn0, evaluateRecv_output hout hd1 hn1,
      Option.bind_eq_bind, Option.bind_some, Option.pure_def]
  have hframe : ∀ w, P.Live (pre ++ [recv x.gate]) w →
      (afterOutput conf x.gate d0 s.e0).online.wires w = s.e0.online.wires w ∧
        (afterOutput conf x.gate d1 s.e1).online.wires w = s.e1.online.wires w :=
    fun w hl => ⟨release_live (o := { s.e0.online with output := _ }) h.waiting0 hl,
      release_live (o := { s.e1.online with output := _ }) h.waiting1 hl⟩
  obtain ⟨out, hout', hshares⟩ := h.output
  have hsnoc := hout'.snoc (not_received ho) fun _ => hv.inputs _ hx
  rw [if_pos hout] at hsnoc
  refine ⟨_, hstep, h.toRunning.step (fun _ => rfl) (fun _ => rfl) (fun w _ hl hw => ?_) ?_
    ⟨rfl, rfl⟩ ⟨_, hsnoc, hshares.append (hs1.take hfull.2)⟩ (received_snoc h.toRunning) hstock,
    ⟨hrest0.1, hrest0.2, hrest0.3, hrest0.4⟩, ⟨hrest1.1, hrest1.2, hrest1.3, hrest1.4⟩, ?_⟩
  · obtain ⟨h0, h1⟩ := hframe w hl
    rwa [Plan.Shared, h0, h1]
  · intro w hw
    simp [effects, Action.writes, hout] at hw
  · intro y hy
    obtain ⟨hp, hs'⟩ := h.pending y (List.mem_cons_of_mem _ hy)
    exact ⟨hp.step hs (hopen y hy) fun _ _ hl => hframe _ hl, hs'⟩

include hin in
theorem Receiving.recv_value (hout : x.gate.type ≠ .output) :
    ∃ s', Servers.step conf s (recv x.gate) = some s' ∧
      Receiving P S inp0 inp1 (pre ++ [recv x.gate]) sent (recvd ++ [x.gate]) s' l := by
  obtain ⟨hpend, hsent⟩ := h.pending x (List.mem_cons_self ..)
  obtain ⟨d0, d1, hd0, hd1, hstock⟩ := S.recv ho hsent h.stock
  obtain ⟨v, a, b, hready, hv, ha, hb, hrel⟩ := h.delivers hs hin hout
  have hfresh := not_written_out P hs rfl
  have hmul : x.gate.type ≠ .mul := fun ht => by simp only [Ready, ht] at hready
  obtain ⟨i0, j0, k0, l0, hr0, hrest0⟩ := readGate_spec hmul (hpend.fits0.combine hpend.fits1)
    h.reading0
  obtain ⟨i1, j1, k1, l1, hr1, hrest1⟩ := readGate_spec hmul (hpend.fits1.combine hpend.fits0)
    h.reading1
  have hsame := hpend.fits0.sameLengths hpend.fits1
  rw [Message.receive_eq_combine hsame, ← h.input0] at ha
  rw [Message.receive_eq_combine hsame.symm, ← h.input1] at hb
  have htypes : x.gate.type ≠ .output ∧ x.gate.type ≠ .and ∧ x.gate.type ≠ .andSIMD ∧
      x.gate.type ≠ .xor ∧ x.gate.type ≠ .xorSIMD := by
    refine ⟨hout, ?_, ?_, ?_, ?_⟩ <;> intro ht <;> simp only [Ready, ht] at hready
  have hstep : Servers.step conf s (recv x.gate) = some
      ⟨afterRecv x.gate a (s.e0.online.moved i0 j0 k0 l0) d0 s.e0,
        afterRecv x.gate b (s.e1.online.moved i1 j1 k1 l1) d1 s.e1⟩ := by
    simp only [Servers.step, evaluateRecv_eq htypes hd0 hr0 ha, evaluateRecv_eq htypes hd1 hr1 hb,
      Option.bind_eq_bind, Option.bind_some, Option.pure_def]
  have hlive : ∀ w, P.Live (pre ++ [recv x.gate]) w →
      (afterRecv x.gate a (s.e0.online.moved i0 j0 k0 l0) d0 s.e0).online.wires w =
        Function.update s.e0.online.wires x.gate.outIdx a w ∧
      (afterRecv x.gate b (s.e1.online.moved i1 j1 k1 l1) d1 s.e1).online.wires w =
        Function.update s.e1.online.wires x.gate.outIdx b w := fun w hl =>
    ⟨release_live (o := (s.e0.online.moved i0 j0 k0 l0).setWire x.gate.outIdx a) h.waiting0 hl,
      release_live (o := (s.e1.online.moved i1 j1 k1 l1).setWire x.gate.outIdx b) h.waiting1 hl⟩
  have hframe : ∀ w, effects.Written pre w → P.Live (pre ++ [recv x.gate]) w →
      (afterRecv x.gate a (s.e0.online.moved i0 j0 k0 l0) d0 s.e0).online.wires w =
        s.e0.online.wires w ∧
      (afterRecv x.gate b (s.e1.online.moved i1 j1 k1 l1) d1 s.e1).online.wires w =
        s.e1.online.wires w := by
    intro w hw hl
    have hne : w ≠ x.gate.outIdx := fun he => hfresh (he ▸ hw)
    obtain ⟨h0, h1⟩ := hlive w hl
    rw [h0, h1, Function.update_of_ne hne, Function.update_of_ne hne]
    exact ⟨rfl, rfl⟩
  obtain ⟨out, hout', hshares⟩ := h.output
  have hsnoc := hout'.snoc (x := []) (not_received ho) fun he => absurd he hout
  rw [if_neg hout, List.append_nil] at hsnoc
  refine ⟨_, hstep, h.toRunning.step (fun _ => rfl) (fun _ => rfl) (fun w hw hl hold => ?_) ?_
    ⟨rfl, rfl⟩ ⟨out, hsnoc, hshares⟩ (received_snoc h.toRunning) hstock,
    ⟨hrest0.1, hrest0.2, hrest0.3, hrest0.4⟩, ⟨hrest1.1, hrest1.2, hrest1.3, hrest1.4⟩, ?_⟩
  · obtain ⟨h0, h1⟩ := hframe w hw hl
    rwa [Plan.Shared, h0, h1]
  · intro w hw hl
    obtain rfl : w = x.gate.outIdx := by simpa [effects, Action.writes, hout] using hw
    obtain ⟨h0, h1⟩ := hlive _ hl
    refine ⟨_, hv, ?_⟩
    rw [h0, h1, Function.update_self, Function.update_self]
    exact hrel
  · intro y hy
    obtain ⟨hp, hs'⟩ := h.pending y (List.mem_cons_of_mem _ hy)
    exact ⟨hp.step hs (hopen y hy) fun _ hw hl => hframe _ hw hl, hs'⟩

include hin in
theorem Receiving.recv_gate : ∃ s', Servers.step conf s (recv x.gate) = some s' ∧
    Receiving P S inp0 inp1 (pre ++ [recv x.gate]) sent (recvd ++ [x.gate]) s' l := by
  by_cases hout : x.gate.type = .output
  · exact h.recv_output hs ho hopen hout
  · exact h.recv_value hs ho hopen hin hout

end receive

theorem Receiving.clear_vals (h : Receiving P S inp0 inp1 pre sent recvd s []) :
    ∃ s', Servers.step conf s clear = some s' ∧
      Sending P S inp0 inp1 (pre ++ [clear]) sent recvd s' [] := by
  have h0 := Reading.idle h.reading0
  have h1 := Reading.idle h.reading1
  refine ⟨_, rfl, h.toRunning.step (fun w => (sub_zero _).symm) (fun w => (sub_zero _).symm)
    (fun _ _ _ hw => hw) ?_ ⟨rfl, rfl⟩ h.output ?_ h.stock, ⟨h0.1, h0.2, h0.3, h0.4⟩,
    ⟨h1.1, h1.2, h1.3, h1.4⟩, rfl, rfl, by simp⟩
  · intro w hw
    cases hw
  · intro g hg
    rcases List.mem_append.mp hg with hg | hg
    · exact h.received g hg
    · cases List.mem_singleton.mp hg

end steps

section run

variable {conf : ProtocolConfig} {P : Plan conf}
  {S : Supply conf P.perm (layersOf P.gates).flatten} {inp0 inp1 : ℕ → Vec}
  (hin : ∀ f ∈ P.gates, f.type = .input →
    Shares (inp0 f.outIdx) (inp1 f.outIdx) (P.inp f.outIdx))

variable (P S inp0 inp1) in
def InRun (pre : List Action) (s : Servers) : Prop :=
  ∃ sent recvd, Running P S inp0 inp1 pre sent recvd s

variable (P S inp0 inp1) in
abbrev Drives (pre : List Action) (s : Servers) (l : List Action) (s' : Servers) : Prop :=
  Trace.Through (Servers.step conf) (InRun P S inp0 inp1) pre s l s'

theorem Sending.inRun {pre : List Action} {sent recvd : List Gate} {s : Servers}
    {l : List InFlight} (h : Sending P S inp0 inp1 pre sent recvd s l) :
    InRun P S inp0 inp1 pre s := ⟨sent, recvd, h.toRunning⟩

theorem Receiving.inRun {pre : List Action} {sent recvd : List Gate} {s : Servers}
    {l : List InFlight} (h : Receiving P S inp0 inp1 pre sent recvd s l) :
    InRun P S inp0 inp1 pre s := ⟨sent, recvd, h.toRunning⟩

include hin in
theorem Sending.send_layer {pre post : List Action} {sent recvd rest : List Gate} {s : Servers}
    {l : List InFlight} (L : List Gate) (h : Sending P S inp0 inp1 pre sent recvd s l)
    (hs : schedule (layersOf P.gates) = pre ++ (L.map send ++ post))
    (ho : (layersOf P.gates).flatten = sent ++ (L ++ rest))
    (hopen : ∀ x ∈ l, recv x.gate ∈ post) :
    ∃ s' l', Drives P S inp0 inp1 pre s (L.map send) s' ∧
      Sending P S inp0 inp1 (pre ++ L.map send) (sent ++ L) recvd s' (l ++ l') ∧
        l'.map InFlight.gate = L := by
  induction L generalizing pre sent s l with
  | nil => exact ⟨s, [], .nil h.inRun, by simpa using h, rfl⟩
  | cons f L ih =>
    have hs' : schedule (layersOf P.gates) = pre ++ send f :: (L.map send ++ post) := hs
    have hf := P.mem_gates hs' rfl
    obtain ⟨s1, m0, m1, hstep, h1⟩ := h.send_gate hs' ho
      (fun x hx => List.mem_append_right _ (hopen x hx)) (hin f hf)
    have hopen' : ∀ x ∈ l ++ [⟨f, m0, m1⟩], recv x.gate ∈ post := by
      intro x hx
      rcases List.mem_append.mp hx with hx | hx
      · exact hopen x hx
      · obtain rfl := List.mem_singleton.mp hx
        have hmem := recv_after_send P.wellFormed hs' rfl
        simpa using hmem
    obtain ⟨s2, l', hrun, h2, hl⟩ := ih h1 (by rw [hs']; simp) (by rw [ho]; simp) hopen'
    refine ⟨s2, ⟨f, m0, m1⟩ :: l', hrun.cons h.inRun hstep, ?_, by rw [List.map_cons, hl]⟩
    simpa using h2

include hin in
theorem Receiving.recv_layer {pre post : List Action} {sent recvd rest : List Gate} {s : Servers}
    (l : List InFlight) (h : Receiving P S inp0 inp1 pre sent recvd s l)
    (hs : schedule (layersOf P.gates) = pre ++ ((l.map InFlight.gate).map recv ++ post))
    (ho : (layersOf P.gates).flatten = recvd ++ (l.map InFlight.gate ++ rest)) :
    ∃ s', Drives P S inp0 inp1 pre s ((l.map InFlight.gate).map recv) s' ∧
      Receiving P S inp0 inp1 (pre ++ (l.map InFlight.gate).map recv) sent
        (recvd ++ l.map InFlight.gate) s' [] := by
  induction l generalizing pre recvd s with
  | nil => exact ⟨s, .nil h.inRun, by simpa using h⟩
  | cons x l ih =>
    have hs' : schedule (layersOf P.gates) =
        pre ++ recv x.gate :: ((l.map InFlight.gate).map recv ++ post) := hs
    obtain ⟨s1, hstep, h1⟩ := h.recv_gate hs' ho
      (fun y hy => List.mem_append_left _ (by simpa using ⟨y, hy, rfl⟩)) hin
    obtain ⟨s2, hrun, h2⟩ := ih h1 (by rw [hs']; simp) (by rw [ho]; simp)
    exact ⟨s2, hrun.cons h.inRun hstep, by simpa using h2⟩

include hin in
theorem Sending.run_layer {pre post : List Action} {done rest : List Gate} {s : Servers}
    (L : List Gate) (h : Sending P S inp0 inp1 pre done done s [])
    (hs : schedule (layersOf P.gates) = pre ++ (layerSchedule L ++ post))
    (ho : (layersOf P.gates).flatten = done ++ (L ++ rest)) :
    ∃ s', Drives P S inp0 inp1 pre s (layerSchedule L) s' ∧
      Sending P S inp0 inp1 (pre ++ layerSchedule L) (done ++ L) (done ++ L) s' [] := by
  have hs1 : schedule (layersOf P.gates) =
      pre ++ (L.map send ++ ([exchange] ++ L.map recv ++ [clear] ++ post)) := by
    rw [hs]
    simp [layerSchedule]
  obtain ⟨s1, l, hr1, h1, hl⟩ := h.send_layer hin L hs1 ho (by simp)
  rw [List.nil_append] at h1
  have hs2 : schedule (layersOf P.gates) =
      (pre ++ L.map send) ++ exchange :: (L.map recv ++ ([clear] ++ post)) := by
    rw [hs1]
    simp
  obtain ⟨s2, hr2, h2⟩ := h1.exchange_messages hs2 (by
    intro x hx
    rw [← hl]
    exact List.mem_append_left _ (by simpa using ⟨x, hx, rfl⟩))
  have hs3 : schedule (layersOf P.gates) = (pre ++ L.map send ++ [exchange]) ++
      ((l.map InFlight.gate).map recv ++ ([clear] ++ post)) := by
    rw [hs2, hl]
    simp
  obtain ⟨s3, hr3, h3⟩ := h2.recv_layer hin l hs3 (by rw [hl, ho])
  rw [hl] at hr3 h3
  obtain ⟨s4, hr4, h4⟩ := h3.clear_vals
  refine ⟨s4, ?_, ?_⟩
  · have hsent := hr1.append ((Trace.Through.nil h2.inRun).cons h1.inRun hr2)
    rw [List.append_assoc] at hr3
    have hrecvd := hsent.append hr3
    rw [List.append_assoc pre, List.append_assoc pre] at h3 h4
    exact hrecvd.append ((Trace.Through.nil h4.inRun).cons h3.inRun hr4)
  · simpa [layerSchedule] using h4

include hin in
theorem Sending.run_layers {pre : List Action} {done : List Gate} {s : Servers}
    (Ls : List (List Gate)) (h : Sending P S inp0 inp1 pre done done s [])
    (hs : schedule (layersOf P.gates) = pre ++ schedule Ls)
    (ho : (layersOf P.gates).flatten = done ++ Ls.flatten) :
    ∃ s', Drives P S inp0 inp1 pre s (schedule Ls) s' ∧
      Sending P S inp0 inp1 (pre ++ schedule Ls) (done ++ Ls.flatten) (done ++ Ls.flatten)
        s' [] := by
  induction Ls generalizing pre done s with
  | nil => exact ⟨s, .nil h.inRun, by simpa [schedule] using h⟩
  | cons L Ls ih =>
    obtain ⟨s1, hr1, h1⟩ := h.run_layer hin L hs ho
    obtain ⟨s2, hr2, h2⟩ := ih h1 (by rw [hs]; simp [schedule]) (by rw [ho]; simp)
    refine ⟨s2, hr1.append hr2, ?_⟩
    simpa [schedule] using h2

include hin in
theorem run_plan {s0 s1 : Storage} (hstock : S.Stocked [] [] s0 s1) :
    ∃ s', Drives P S inp0 inp1 [] ⟨⟨Online.initWaiting {} (layersOf P.gates), s0, inp0⟩,
        ⟨Online.initWaiting {} (layersOf P.gates), s1, inp1⟩⟩ (schedule (layersOf P.gates)) s' ∧
      ∃ out, P.Outputs (layersOf P.gates).flatten out ∧
        Shares s'.e0.online.output s'.e1.online.output out := by
  have hstart : Sending P S inp0 inp1 [] [] []
      ⟨⟨Online.initWaiting {} (layersOf P.gates), s0, inp0⟩,
        ⟨Online.initWaiting {} (layersOf P.gates), s1, inp1⟩⟩ [] := by
    refine ⟨⟨fun w => ?_, fun w => ?_, ?_, rfl, rfl,
      ⟨[], ⟨fun _ => [], by simp, rfl⟩, rfl, rfl, fun _ => add_zero 0⟩, by simp, hstock⟩,
      ⟨rfl, rfl, rfl, rfl⟩, ⟨rfl, rfl, rfl, rfl⟩, rfl, rfl, by simp⟩
    · rw [initWaiting_waiting]
      exact (sub_zero _).symm
    · rw [initWaiting_waiting]
      exact (sub_zero _).symm
    · rintro w ⟨a, ha, -⟩
      cases ha
  obtain ⟨s', hrun, h⟩ := hstart.run_layers hin (layersOf P.gates) rfl rfl
  exact ⟨s', hrun, h.output⟩

end run

end GraphMpc
