import GraphMpc.Backends
import GraphMpc.Schedule
import GraphMpc.Dealer

namespace GraphMpc

open Tabulate Refinement Backend

variable {S T : Type} [Backend S] [Backend T]

-- what two backends of one party owe each other: R l holds once the gates l are preprocessed
structure Mirrors (conf : ProtocolConfig) (order : List Gate) (id : Party)
    (idle seeded : S → T → Prop) (R : List Gate → S → T → Prop) : Prop where
  createRngs (g : RandomGenerators) :
    Follows idle (createRngs id g) (createRngs id g) fun _ => seeded
  start (hid : id = .d) : ∀ s t, seeded s t → R [] s t
  recvVec (hid : id ≠ .d) (blockSize : ℕ) (v : Vec) :
    Follows seeded (recvVec blockSize id v) (recvVec blockSize id v) fun _ => R []
  onRegs (l : List Gate) {A : Type} (f : Storage → A × Storage) :
    Follows (R l) (onRegs f) (onRegs f) fun _ => R l
  draw (l : List Gate) (server : Party) (stream : Stream) (role : Role) (n : ℕ) :
    Follows (R l) (draw id server stream role n) (draw id server stream role n)
      fun ws s t => ws.length = n ∧ R l s t
  readPreproc (hid : id ≠ .d) (l : List Gate) (n : ℕ) :
    Follows (R l) (readPreproc id n) (readPreproc id n) fun v s t => v.length = n ∧ R l s t
  storeB (hid : id = .d) (l : List Gate) (dst : Party) (v : Vec) :
    Follows (R l) (storeB dst v) (storeB dst v) fun _ => R l
  storeVec (hid : id = .d) (l : List Gate) (dst : Party) (v : Vec) :
    Follows (R l) (storeVec dst v) (storeVec dst v) fun _ => R l
  takeDealt (hid : id = .d) (dst : Party) (hdst : dst ≠ .d) :
    Follows (R order) (takeDealt dst) (takeDealt dst) fun _ => R order
  storeTriples (hid : id ≠ .d) {l r : List Gate} {f : Gate} (ho : order = l ++ f :: r)
    (hf : f.takesTriple = true) {a b c : Vec} (ha : a.length = f.tripleLen conf)
    (hb : b.length = f.tripleLen conf) (hc : c.length = f.tripleLen conf) :
    Follows (R l) (storeTriples a b c f.multIdx) (storeTriples a b c f.multIdx)
      fun _ => R (l ++ [f])
  skip {l r : List Gate} {f : Gate} (ho : order = l ++ f :: r)
    (hf : id = .d ∨ f.takesTriple = false) : ∀ s t, R l s t → R (l ++ [f]) s t
  loadTriples (hid : id ≠ .d) {f : Gate} (hf : f ∈ order) (ht : f.takesTriple = true) :
    Follows (R order) (loadTriples f.multIdx (f.tripleLen conf))
      (loadTriples f.multIdx (f.tripleLen conf)) fun _ => R order

namespace Mirrors

variable {conf : ProtocolConfig} {order l r : List Gate} {id recv : Party} {f : Gate}
  {idle seeded : S → T → Prop} {R : List Gate → S → T → Prop}

section preprocessing

variable (h : Mirrors conf order id idle seeded R)

include h

theorem drawVec (l : List Gate) (server : Party) (stream : Stream) (role : Role) (n : ℕ) :
    Follows (R l) (drawVec id server stream role n) (drawVec id server stream role n)
      fun v s t => v.length = n ∧ R l s t :=
  (h.draw l server stream role n).bind fun _ =>
    .pure fun _ _ hr => ⟨(List.length_map _).trans hr.1, hr.2⟩

theorem drawMask (l : List Gate) (server : Party) (stream : Stream) (role : Role) (n : ℕ) :
    Follows (R l) (Backend.drawVec id server stream role n)
      (Backend.drawVec id server stream role n) fun _ => R l :=
  (h.drawVec l server stream role n).mono (fun _ _ hr => hr) fun _ _ _ hq => hq.2

theorem drawPerm (l : List Gate) (server : Party) (stream : Stream) (role : Role) (n : ℕ) :
    Follows (R l) (drawPerm id server stream role n) (drawPerm id server stream role n)
      fun _ => R l :=
  (h.draw l server stream role n).bind fun _ => .pure fun _ _ hr => hr.2

theorem dealMasks (hid : id = .d) (l : List Gate) (size : ℕ) :
    Follows (R l) (dealMasks size) (dealMasks size) fun _ => R l := by
  subst hid
  exact (h.drawMask l _ _ _ _).bind fun _ => (h.drawMask l _ _ _ _).bind fun _ =>
    .pure fun _ _ hr => hr

theorem dealPerms (hid : id = .d) (l : List Gate) (size idx : ℕ) :
    Follows (R l) (dealPerms size recv idx) (dealPerms size recv idx) fun _ => R l := by
  subst hid
  refine .ite (fun _ => ?_) fun _ => ?_
  · exact (h.drawPerm l _ _ _ _).bind fun _ => (h.drawPerm l _ _ _ _).bind fun _ =>
      (h.drawPerm l _ _ _ _).bind fun _ => (h.storeVec rfl l _ _).bind fun _ => h.onRegs l _
  · exact (h.drawPerm l _ _ _ _).bind fun _ => (h.drawPerm l _ _ _ _).bind fun _ =>
      (h.drawPerm l _ _ _ _).bind fun _ => (h.storeVec rfl l _ _).bind fun _ => h.onRegs l _

theorem dealMergedPerms (hid : id = .d) (l : List Gate) (size idx piIdx omegaIdx : ℕ) :
    Follows (R l) (dealMergedPerms size idx piIdx omegaIdx)
      (dealMergedPerms size idx piIdx omegaIdx) fun _ => R l := by
  subst hid
  exact (h.onRegs l _).bind fun _ => (h.onRegs l _).bind fun _ =>
    (h.drawPerm l _ _ _ _).bind fun _ => (h.drawPerm l _ _ _ _).bind fun _ =>
      (h.onRegs l _).bind fun _ => (h.storeVec rfl l _ _).bind fun _ => h.storeVec rfl l _ _

theorem ifFresh (l : List Gate) (idx : ℕ) {deal : Prog S Unit} {deal' : Prog T Unit}
    (hd : Follows (R l) deal deal' fun _ => R l) :
    Follows (R l) (ifFresh idx deal) (ifFresh idx deal') fun _ => R l :=
  (h.onRegs l _).bind fun _ => .ite (fun _ => hd) fun _ => .pure fun _ _ hr => hr

theorem dealCorrection (hid : id = .d) (l : List Gate) (pi : Permutation) (r0 r1 : Vec) :
    Follows (R l) (dealCorrection pi r0 r1) (dealCorrection pi r0 r1) fun _ => R l :=
  (h.onRegs l _).bind fun _ => (h.storeB hid l _ _).bind fun _ => h.storeB hid l _ _

theorem dealShuffle (hid : id = .d) (l : List Gate) (size : ℕ) :
    Follows (R l) (dealShuffle size recv f) (dealShuffle size recv f) fun _ => R l :=
  (h.dealMasks hid l _).bind fun _ => (h.ifFresh l _ (h.dealPerms hid l _ _)).bind fun _ =>
    (h.onRegs l _).bind fun _ => h.dealCorrection hid l _ _ _

theorem dealMergedShuffle (hid : id = .d) (l : List Gate) (size : ℕ) :
    Follows (R l) (dealMergedShuffle size f) (dealMergedShuffle size f) fun _ => R l :=
  (h.dealMasks hid l _).bind fun _ => (h.ifFresh l _ (h.dealMergedPerms hid l _ _ _ _)).bind fun _ =>
    (h.onRegs l _).bind fun _ => h.dealCorrection hid l _ _ _

theorem dealUnshuffle (hid : id = .d) (l : List Gate) (size : ℕ) :
    Follows (R l) (dealUnshuffle size f) (dealUnshuffle size f) fun _ => R l :=
  (h.dealMasks hid l _).bind fun _ => (h.onRegs l _).bind fun _ => h.dealCorrection hid l _ _ _

theorem readPerm (hid : id ≠ .d) (l : List Gate) (size idx : ℕ) (due : Bool)
    (set : Storage → ℕ → Vec → Unit × Storage) :
    Follows (R l) (readPerm size id idx due set) (readPerm size id idx due set) fun _ => R l :=
  (h.onRegs l _).bind fun _ => .ite
    (fun _ => ((h.readPreproc hid l _).mono (fun _ _ hr => hr) fun _ _ _ hq => hq.2).bind
      fun _ => h.onRegs l _)
    fun _ => .pure fun _ _ hr => hr

theorem randomShareVec3P (l : List Gate) (role : Role) (n : ℕ) (binary : Bool) :
    Follows (R l) (Backend.randomShareVec3P id role n binary)
      (Backend.randomShareVec3P id role n binary) fun v s t => v.length = n ∧ R l s t := by
  refine .ite (fun hid => ?_) fun _ => h.drawVec l _ _ _ _
  subst hid
  exact (h.drawMask l _ _ _ _).bind fun _ => (h.drawMask l _ _ _ _).bind fun _ =>
    .pure fun _ _ hr => ⟨tab_length .., hr⟩

theorem randomShareSecretVec3P (l : List Gate) (secret : Vec) (binary : Bool) :
    Follows (R l) (randomShareSecretVec3P id recv secret binary)
      (randomShareSecretVec3P id recv secret binary)
      fun v s t => (id ≠ .d → v.length = secret.length) ∧ R l s t := by
  refine .ite (fun hid => ?_) fun hid => .ite (fun _ => ?_) fun _ => ?_
  · subst hid
    refine (h.drawMask l _ _ _ _).bind fun _ => (h.storeVec rfl l _ _).bind fun _ =>
      .pure fun _ _ hr => ?_
    exact ⟨fun hne => absurd rfl hne, hr⟩
  · exact (h.readPreproc hid l _).mono (fun _ _ hr => hr) fun _ _ _ hq => ⟨fun _ => hq.1, hq.2⟩
  · exact (h.drawVec l _ _ _ _).mono (fun _ _ hr => hr) fun _ _ _ hq => ⟨fun _ => hq.1, hq.2⟩

theorem dealTriples (ho : order = l ++ f :: r) (hf : f.takesTriple = true) {n : ℕ}
    (hn : n = f.tripleLen conf) : Follows (R l) (dealTriples id recv n f)
      (dealTriples id recv n f) fun _ => R (l ++ [f]) := by
  intro s t hr
  refine (h.randomShareVec3P l _ n f.binary).bind (fun a => ?_) s t hr
  refine Follows.of_value fun ha => (h.randomShareVec3P l _ n f.binary).bind fun b => ?_
  refine Follows.of_value fun hb => (h.randomShareSecretVec3P l _ _).bind fun c => ?_
  refine Follows.of_value fun hc => .ite (fun hid => ?_) fun hid => ?_
  · exact .pure fun s t => h.skip ho (Or.inl hid) s t
  · exact h.storeTriples hid ho hf (ha.trans hn) (hb.trans hn)
      ((hc hid).trans ((tab_length ..).trans hn))

theorem skips (ho : order = l ++ f :: r) (hf : f.takesTriple = false) (recv : Party) :
    Follows (R l) (pure recv) (pure recv) fun _ => R (l ++ [f]) :=
  .pure fun s t => h.skip ho (Or.inr hf) s t

theorem preprocessGate (ho : order = l ++ f :: r) :
    Follows (R l) (preprocessGate conf.size id recv f) (preprocessGate conf.size id recv f)
      fun _ => R (l ++ [f]) := by
  unfold Backend.preprocessGate
  cases ht : f.type
  case shuffle =>
    have hf : f.takesTriple = false := by simp [Gate.takesTriple, ht]
    refine Follows.bind (Q := fun _ => R l) ?_ fun _ => (h.onRegs l _).bind fun _ => h.skips ho hf _
    cases id with
    | d => exact h.dealShuffle rfl l _
    | p0 | p1 => exact h.readPerm (by decide) l _ _ _ _
  case mergedShuffle =>
    have hf : f.takesTriple = false := by simp [Gate.takesTriple, ht]
    refine Follows.bind (Q := fun _ => R l) ?_ fun _ => (h.onRegs l _).bind fun _ => h.skips ho hf _
    cases id with
    | d => exact h.dealMergedShuffle rfl l _
    | p0 | p1 => exact h.readPerm (by decide) l _ _ _ _
  case unshuffle =>
    have hf : f.takesTriple = false := by simp [Gate.takesTriple, ht]
    exact .ite (fun hid => (h.dealUnshuffle hid l _).bind fun _ => h.skips ho hf _)
      fun _ => h.skips ho hf _
  case compaction | mulSIMD | eqz | bit2A =>
    have hf : f.takesTriple = true := by simp [Gate.takesTriple, ht]
    exact (h.dealTriples ho hf (by simp [Gate.tripleLen, ht])).bind fun _ => .pure fun _ _ hr => hr
  all_goals exact h.skips ho (by simp [Gate.takesTriple, ht]) _

theorem samplePerm (l : List Gate) (size : ℕ) (stream : Stream) (role : Role) (idx : ℕ)
    (get : Storage → ℕ → Permutation × Storage) (set : Storage → ℕ → Vec → Unit × Storage) :
    Follows (R l) (samplePerm size id stream role idx get set)
      (samplePerm size id stream role idx get set) fun _ => R l :=
  (h.onRegs l _).bind fun _ => .ite
    (fun _ => (h.drawPerm l _ _ _ _).bind fun _ => (h.onRegs l _).bind fun _ =>
      .pure fun _ _ hr => hr)
    fun _ => .pure fun _ _ hr => hr

theorem sendPerm (l : List Gate) (size idx : ℕ) :
    Follows (R l) (sendPerm size id idx) (sendPerm size id idx) fun _ => R l :=
  .ite (fun _ => h.samplePerm l _ _ _ _ _ _) fun _ => h.samplePerm l _ _ _ _ _ _

theorem recvPerm (l : List Gate) (size idx : ℕ) :
    Follows (R l) (recvPerm size id idx) (recvPerm size id idx) fun _ => R l :=
  .ite (fun _ => h.samplePerm l _ _ _ _ _ _) fun _ => h.samplePerm l _ _ _ _ _ _

end preprocessing

section evaluation

variable (h : Mirrors conf order id idle seeded R) (hid : id ≠ .d) (hf : f ∈ order)
  (hm : f.type ≠ .mul)

include h hid hf hm

theorem sendCorrelation : Follows (R order) (sendCorrelation conf.size id f)
    (sendCorrelation conf.size id f) fun _ => R order := by
  have hload : f.takesTriple = true → Follows (R order)
      (Backend.loadTriples f.multIdx (f.tripleLen conf) : Prog S Correlation)
      (Backend.loadTriples f.multIdx (f.tripleLen conf)) fun _ => R order := h.loadTriples hid hf
  unfold Backend.sendCorrelation
  cases ht : f.type
  case shuffle | mergedShuffle =>
    exact (h.drawMask order _ _ _ _).bind fun _ => (h.sendPerm order _ _).bind fun _ =>
      .pure fun _ _ hr => hr
  case unshuffle =>
    exact (h.drawMask order _ _ _ _).bind fun _ => (h.onRegs order _).bind fun _ =>
      .pure fun _ _ hr => hr
  case compaction | mulSIMD | eqz | bit2A => simpa [Gate.tripleLen, Gate.takesTriple, ht] using hload
  case mul => exact absurd ht hm
  all_goals exact .pure fun _ _ hr => hr

theorem recvCorrelation : Follows (R order) (recvCorrelation conf.size id f)
    (recvCorrelation conf.size id f) fun _ => R order := by
  have hload : f.takesTriple = true → Follows (R order)
      (Backend.loadTriples f.multIdx (f.tripleLen conf) : Prog S Correlation)
      (Backend.loadTriples f.multIdx (f.tripleLen conf)) fun _ => R order := h.loadTriples hid hf
  have hread : Follows (R order) (Backend.readPreproc id conf.size : Prog S Vec)
      (Backend.readPreproc id conf.size) fun _ => R order :=
    (h.readPreproc hid order _).mono (fun _ _ hr => hr) fun _ _ _ hq => hq.2
  unfold Backend.recvCorrelation
  cases ht : f.type
  case shuffle | mergedShuffle =>
    exact (h.recvPerm order _ _).bind fun _ => hread.bind fun _ => .pure fun _ _ hr => hr
  case unshuffle =>
    exact (h.onRegs order _).bind fun _ => hread.bind fun _ => .pure fun _ _ hr => hr
  case setConstVecSIMD => exact (h.onRegs order _).bind fun _ => .pure fun _ _ hr => hr
  case compaction | mulSIMD | eqz | bit2A => simpa [Gate.tripleLen, Gate.takesTriple, ht] using hload
  case mul => exact absurd ht hm
  all_goals exact .pure fun _ _ hr => hr

theorem evaluateSend (o : Online) : Follows (R order) (evaluateSend conf id o f)
    (evaluateSend conf id o f) fun _ => R order :=
  (h.sendCorrelation hid hf hm).bind fun _ => .ofOption _ fun _ _ _ _ hr => hr

theorem evaluateRecv (inp : ℕ → Vec) (o : Online) : Follows (R order)
    (evaluateRecv conf id inp o f) (evaluateRecv conf id inp o f) fun _ => R order :=
  (h.recvCorrelation hid hf hm).bind fun _ => .ofOption _ fun _ _ _ _ hr => hr

end evaluation

end Mirrors

section rounds

variable {conf : ProtocolConfig} {circ : Circuit} {idle seeded : Party → S → T → Prop}
  {R : Party → List Gate → S → T → Prop} {graphs : Party → Graph} {g : Streams}
  (h : ∀ id, Mirrors conf circ.circ.flatten id (idle id) (seeded id) (R id))

include h

theorem preprocess_follows (id : Party) : Follows (R id []) (preprocess conf.size id circ.circ)
    (preprocess conf.size id circ.circ) fun _ => R id circ.circ.flatten :=
  Follows.foldlM (fun _ _ _ ho _ => (h id).preprocessGate ho) _

theorem runDealer_follows : Follows (idle .d) (runDealer conf circ.circ g)
    (runDealer conf circ.circ g) fun _ => R .d circ.circ.flatten :=
  ((h .d).createRngs _).bind fun _ =>
    ((preprocess_follows h .d).mono ((h .d).start rfl) fun _ _ _ hr => hr).bind
      fun _ => .pure fun _ _ hr => hr

theorem runParty_follows {id : Party} (hid : id ≠ .d) (blockSize : ℕ) (dealt : Vec) :
    Follows (idle id) (runParty blockSize conf circ.circ g id dealt)
      (runParty blockSize conf circ.circ g id dealt) fun _ => R id circ.circ.flatten :=
  ((h id).createRngs _).bind fun _ => ((h id).recvVec hid _ _).bind fun _ =>
    (preprocess_follows h id).bind fun _ => .pure fun _ _ hr => hr

theorem step_follows (inp : Party → ℕ → Vec) {a : Servers.Action}
    (ha : ∀ f, a = .send f ∨ a = .recv f → f ∈ circ.circ.flatten ∧ f.type ≠ .mul)
    (o : Online × Online) :
    Follows (Each fun id => R id circ.circ.flatten) (step conf inp o a) (step conf inp o a)
      fun _ => Each fun id => R id circ.circ.flatten := by
  have hpart : ∀ id {f : Prog S Online} {g : Prog T Online},
      Follows (R id circ.circ.flatten) f g (fun _ => R id circ.circ.flatten) →
        Follows (Each fun id => R id circ.circ.flatten) (onPart id f) (onPart id g)
          fun _ => Each fun id => R id circ.circ.flatten := fun id _ _ hp =>
    Follows.onPart_same (R := fun id => R id circ.circ.flatten) hp
  have h0 : Party.p0 ≠ .d := by decide
  have h1 : Party.p1 ≠ .d := by decide
  cases a with
  | send f =>
    obtain ⟨hf, hm⟩ := ha f (Or.inl rfl)
    refine (hpart .p0 ((h .p0).evaluateSend h0 hf hm _)).bind fun _ => ?_
    exact (hpart .p1 ((h .p1).evaluateSend h1 hf hm _)).bind fun _ => .pure fun _ _ hr => hr
  | exchange => exact .ofOption _ fun _ _ _ _ hr => hr
  | recv f =>
    obtain ⟨hf, hm⟩ := ha f (Or.inr rfl)
    refine (hpart .p0 ((h .p0).evaluateRecv h0 hf hm _ _)).bind fun _ => ?_
    exact (hpart .p1 ((h .p1).evaluateRecv h1 hf hm _ _)).bind fun _ => .pure fun _ _ hr => hr
  | clear => exact .pure fun _ _ hr => hr

theorem evaluate_follows (hm : ∀ f ∈ circ.circ.flatten, f.type ≠ .mul) :
    Follows (Each fun id => R id circ.circ.flatten) (evaluate conf circ graphs)
      (evaluate conf circ graphs) fun _ => Each fun id => R id circ.circ.flatten := by
  refine Follows.foldlM (I := fun _ => Each fun id => R id circ.circ.flatten)
    (fun l a r ho o => step_follows h _ (fun f ha => ?_) o) _
  have hmem : a ∈ Servers.schedule circ.circ := by simp [ho]
  have hf : f ∈ circ.circ.flatten := by
    rcases ha with rfl | rfl
    · exact Servers.mem_schedule_send.mp hmem
    · exact Servers.mem_schedule_recv.mp hmem
  exact ⟨hf, hm f hf⟩

theorem prepare_follows (blockSize : ℕ) :
    Follows (Each idle) (prepare blockSize conf circ.circ g) (prepare blockSize conf circ.circ g)
      fun _ => Each fun id => R id circ.circ.flatten := by
  let afterD : Party → S → T → Prop := fun id =>
    if id = .d then R .d circ.circ.flatten else idle id
  let afterP0 : Party → S → T → Prop := fun id =>
    if id = .p1 then idle .p1 else R id circ.circ.flatten
  have hd : Follows (Each idle) (onPart .d (runDealer conf circ.circ g) : Prog (Party → S) Unit)
      (onPart .d (runDealer conf circ.circ g)) fun _ => Each afterD :=
    Follows.onPart (runDealer_follows h) fun id hid s t hr => by simpa [afterD, hid] using hr
  have htake : ∀ dst, dst ≠ .d → Follows (Each afterD)
      (onPart .d (takeDealt dst) : Prog (Party → S) Vec) (onPart .d (takeDealt dst))
      fun _ => Each afterD := fun dst hdst =>
    Follows.onPart_same ((h .d).takeDealt rfl dst hdst)
  have h0 : ∀ v, Follows (Each afterD)
      (onPart .p0 (runParty blockSize conf circ.circ g .p0 v) : Prog (Party → S) Unit)
      (onPart .p0 (runParty blockSize conf circ.circ g .p0 v)) fun _ => Each afterP0 := fun v =>
    Follows.onPart (runParty_follows h (by decide) blockSize v) fun id hid s t hr => by
      cases id <;> simp_all [afterD, afterP0]
  have h1 : ∀ v, Follows (Each afterP0)
      (onPart .p1 (runParty blockSize conf circ.circ g .p1 v) : Prog (Party → S) Unit)
      (onPart .p1 (runParty blockSize conf circ.circ g .p1 v))
      fun _ => Each fun id => R id circ.circ.flatten := fun v =>
    Follows.onPart (runParty_follows h (by decide) blockSize v) fun id hid s t hr => by
      simpa [afterP0, hid] using hr
  refine hd.bind fun _ => (htake .p0 (by decide)).bind fun _ => (htake .p1 (by decide)).bind fun _ => ?_
  exact (h0 _).bind fun _ => (h1 _).bind fun _ => .pure fun _ _ hr => hr

theorem round_follows (hm : ∀ f ∈ circ.circ.flatten, f.type ≠ .mul) (blockSize : ℕ) :
    Follows (Each idle) (round blockSize conf circ graphs g) (round blockSize conf circ graphs g)
      fun _ => Each fun id => R id circ.circ.flatten :=
  (prepare_follows h blockSize).bind fun _ => (evaluate_follows h hm).bind fun _ =>
    .pure fun _ _ hr => hr

end rounds

end GraphMpc
