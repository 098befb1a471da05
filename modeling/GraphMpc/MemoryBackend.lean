import GraphMpc.Backends

namespace GraphMpc

open Tabulate Refinement Backend

namespace Backend

section preprocessing

variable {size n idx piIdx omegaIdx : ℕ} {id recv : Party} {f : Gate} {s : Storage} {A B : Type}

def Local (f : Storage → A × Storage) : Prop :=
  ∀ s, ((f s.regs.storage).1, s.withRegs (f s.regs.storage).2.regs) = f s

theorem onRegs_memory {f : Storage → A × Storage} (h : Local f) (s : Storage) :
    (onRegs f : Prog Storage A) s = some (f s) := congrArg some (h s)

theorem onRegs_bind {f : Storage → A × Storage} (h : Local f) (k : A → Prog Storage B)
    (s : Storage) : ((onRegs f : Prog Storage A) >>= k) s = k (f s).1 (f s).2 := by
  rw [bind_apply, onRegs_memory h, Option.bind_some]

theorem dealMasks_memory (s : Storage) : (dealMasks size : Prog Storage (Vec × Vec)) s =
    some (((s.dealMasks size).1, (s.dealMasks size).2.1), (s.dealMasks size).2.2) := by
  simp only [Storage.dealMasks, ← PRG.vec_words]
  rfl

theorem dealPerms_memory (s : Storage) : (dealPerms size recv idx : Prog Storage Unit) s =
    some ((), s.dealPerms size recv idx) := by
  unfold dealPerms Storage.dealPerms
  simp only [Permutation.random_words]
  split <;> rfl

theorem drawPerm_bind {server : Party} {stream : Stream} {role : Role}
    (k : Permutation → Prog Storage A) (s : Storage) :
    ((drawPerm id server stream role n : Prog Storage Permutation) >>= k) s =
      k (.ofWords (s.draw id server stream n).1) (s.draw id server stream n).2 := rfl

theorem storeVec_memory (dst : Party) (v : Vec) (s : Storage) :
    (storeVec dst v : Prog Storage Unit) s = some ((), s.storeVec dst v) := rfl

theorem draw_dealer (s : Storage) (server : Party) (stream : Stream) (n : ℕ) :
    s.draw .d server stream n = ((s.rngs.withServer server stream).words n,
      { s with rngs := s.rngs.skipServer n server stream }) := rfl

theorem dealMergedPerms_memory (s : Storage) :
    (dealMergedPerms size idx piIdx omegaIdx : Prog Storage Unit) s =
      some ((), s.dealMergedPerms size idx piIdx omegaIdx) := by
  rw [dealMergedPerms, onRegs_bind fun _ => rfl, onRegs_bind fun _ => rfl, drawPerm_bind,
    drawPerm_bind, onRegs_bind fun _ => rfl, bind_apply, storeVec_memory, Option.bind_some,
    storeVec_memory]
  unfold Storage.dealMergedPerms
  simp only [Permutation.random_words, draw_dealer, Storage.getPi, Storage.setPi01,
    RandomGenerators.withServer, RandomGenerators.skipServer, Storage.storeVec]

theorem dealCorrection_memory (pi : Permutation) (r0 r1 : Vec) (s : Storage) :
    (dealCorrection pi r0 r1 : Prog Storage Unit) s = some ((), s.dealCorrection pi r0 r1) := by
  rw [dealCorrection, onRegs_bind fun _ => rfl]
  rfl

theorem ifFresh_memory {deal : Prog Storage Unit} {x : Storage} (h : deal s = some ((), x)) :
    ifFresh idx deal s = some ((), if (s.pi0 idx).size = 0 then x else s) := by
  rw [ifFresh, onRegs_bind fun _ => rfl]
  by_cases hp : (s.pi0 idx).size = 0
  · exact (congrFun (if_pos hp) s).trans (h.trans (by rw [if_pos hp]))
  · exact (congrFun (if_neg hp) s).trans (by rw [if_neg hp]; rfl)

theorem dealShuffle_memory : (dealShuffle size recv f : Prog Storage Unit) s =
    some ((), s.dealShuffle size recv f) := by
  rw [dealShuffle, bind_apply, dealMasks_memory, Option.bind_some, bind_apply,
    ifFresh_memory (dealPerms_memory _), Option.bind_some, onRegs_bind fun _ => rfl,
    dealCorrection_memory]
  rfl

theorem dealMergedShuffle_memory : (dealMergedShuffle size f : Prog Storage Unit) s =
    some ((), s.dealMergedShuffle size f) := by
  rw [dealMergedShuffle, bind_apply, dealMasks_memory, Option.bind_some, bind_apply,
    ifFresh_memory (dealMergedPerms_memory _), Option.bind_some, onRegs_bind fun _ => rfl,
    dealCorrection_memory]
  rfl

theorem dealUnshuffle_memory : (dealUnshuffle size f : Prog Storage Unit) s =
    some ((), s.dealUnshuffle size f) := by
  rw [dealUnshuffle, bind_apply, dealMasks_memory, Option.bind_some, onRegs_bind fun _ => rfl,
    dealCorrection_memory]
  rfl

theorem randomShareVec3P_memory {role : Role} {binary : Bool} (s : Storage) :
    (randomShareVec3P id role n binary : Prog Storage Vec) s =
      some ((GraphMpc.randomShareVec3P id s.rngs n binary).1,
        { s with rngs := (GraphMpc.randomShareVec3P id s.rngs n binary).2 }) := by
  unfold randomShareVec3P GraphMpc.randomShareVec3P
  simp only [← PRG.vec_words]
  cases id <;> rfl

theorem randomShareSecretVec3P_memory {secret : Vec} {binary : Bool} (s : Storage) :
    (randomShareSecretVec3P id recv secret binary : Prog Storage Vec) s =
      s.randomShareSecretVec3P id recv secret binary := by
  unfold randomShareSecretVec3P Storage.randomShareSecretVec3P
  simp only [← PRG.vec_words]
  by_cases hd : id = .d
  · rw [if_pos hd, if_pos hd]
    by_cases hr : recv = .p1
    · simp only [if_pos hr]
      rfl
    · simp only [if_neg hr]
      rfl
  · rw [if_neg hd, if_neg hd]
    by_cases hr : id = recv
    · rw [if_pos hr, if_pos hr]
      rfl
    · rw [if_neg hr, if_neg hr]
      cases id <;> first
        | exact absurd rfl hd
        | rfl

theorem dealTriples_memory : (dealTriples id recv n f : Prog Storage Unit) s =
    (s.dealTriples id recv n f).map fun s => ((), s) := by
  rw [dealTriples, bind_apply, randomShareVec3P_memory, Option.bind_some, bind_apply,
    randomShareVec3P_memory, Option.bind_some, bind_apply, randomShareSecretVec3P_memory]
  unfold Storage.dealTriples
  simp only [Option.bind_eq_bind, Option.map_bind]
  refine congrArg₂ Option.bind rfl (funext fun p => ?_)
  by_cases hd : id = .d
  · simp only [if_pos hd]
    rfl
  · simp only [if_neg hd]
    rfl

theorem readPerm_memory {due : Bool} {set : Storage → ℕ → Vec → Unit × Storage}
    (hl : ∀ v, Local (set · idx v)) : (readPerm size id idx due set : Prog Storage Unit) s =
      if due = true ∧ s.preprocessed idx = false then
        (s.readPreproc id size).map fun p => ((), (set p.2 idx p.1).2)
      else some ((), s) := by
  rw [readPerm, onRegs_bind fun _ => rfl]
  by_cases hp : due = true ∧ s.preprocessed idx = false
  · rw [if_pos hp]
    refine (congrFun (if_pos hp) s).trans ?_
    rw [bind_apply, Option.map_eq_bind]
    exact congrArg _ (funext fun p => onRegs_memory (hl p.1) p.2)
  · rw [if_neg hp]
    exact (congrFun (if_neg hp) s).trans rfl

theorem preprocessGate_memory : (preprocessGate size id recv f : Prog Storage Party) s =
    (Preprocessor.preprocessGate size id ⟨s, recv⟩ f).map fun p => (p.recv, p.data) := by
  have h0p : ∀ v, Local (Storage.setPi0p · f.shuffleIdx v) := fun _ _ => rfl
  have h1p : ∀ v, Local (Storage.setPi1p · f.shuffleIdx v) := fun _ _ => rfl
  have h1 : ∀ v, Local (Storage.setPi1 · f.shuffleIdx v) := fun _ _ => rfl
  unfold preprocessGate Preprocessor.preprocessGate
  cases ht : f.type
  case compaction | mulSIMD | eqz | bit2A =>
    simp only [bind_apply, dealTriples_memory, Option.bind_map, Option.bind_eq_bind, Option.map_bind]
    rfl
  case unshuffle =>
    by_cases hd : id = .d
    · simp only [if_pos hd, bind_apply, dealUnshuffle_memory]
      rfl
    · simp only [if_neg hd]
      rfl
  case shuffle =>
    cases id with
    | d =>
      simp only [shuffleGate, bind_apply, dealShuffle_memory]
      rfl
    | p0 | p1 =>
      simp only [shuffleGate, bind_apply, readPerm_memory h0p, readPerm_memory h1p,
        decide_eq_true_eq]
      split_ifs
      · simp only [Option.bind_map, Option.bind_eq_bind, Option.map_bind]
        rfl
      · rfl
  case mergedShuffle =>
    cases id with
    | d =>
      simp only [mergedShuffleGate, bind_apply, dealMergedShuffle_memory]
      rfl
    | p0 | p1 =>
      simp only [mergedShuffleGate, bind_apply, readPerm_memory h0p, readPerm_memory h1, true_and]
      split_ifs
      · simp only [Option.bind_map, Option.bind_eq_bind, Option.map_bind]
        rfl
      · rfl
  all_goals rfl

theorem preprocess_memory (circ : List (List Gate)) (s : Storage) :
    (preprocess size id circ : Prog Storage Party) s =
      (Preprocessor.preprocess size id ⟨s, .p0⟩ circ).map fun p => (p.recv, p.data) := by
  rw [preprocess, Preprocessor.preprocess]
  generalize circ.flatten = l
  suffices h : ∀ p : Preprocessor, (l.foldlM (preprocessGate size id) p.recv : Prog Storage Party)
      p.data = (l.foldlM (Preprocessor.preprocessGate size id) p).map fun p => (p.recv, p.data) from
    h ⟨s, .p0⟩
  induction l with
  | nil => intro p; rfl
  | cons f l ih =>
    intro p
    rw [List.foldlM_cons, List.foldlM_cons, bind_apply, preprocessGate_memory, Option.bind_map,
      Option.bind_eq_bind, Option.map_bind]
    exact congrArg _ (funext fun p' => ih p')

end preprocessing

section evaluation

variable {size : ℕ} {id : Party} {f : Gate} {conf : ProtocolConfig}

theorem drawVec_memory {server : Party} {stream : Stream} {role : Role} {n : ℕ} (hid : id ≠ .d)
    (s : Storage) : (drawVec id server stream role n : Prog Storage Vec) s =
      some ((s.rngs.withDealer stream).vec n,
        { s with rngs := s.rngs.skipDealer n stream }) := by
  rw [← PRG.vec_words]
  cases id <;> first
    | exact absurd rfl hid
    | rfl

theorem drawPerm_memory {server : Party} {stream : Stream} {role : Role} {n : ℕ} (hid : id ≠ .d)
    (s : Storage) : (drawPerm id server stream role n : Prog Storage Permutation) s =
      some ((Permutation.random n (s.rngs.withDealer stream)).1,
        { s with rngs := s.rngs.skipDealer n stream }) := by
  rw [Permutation.random_words]
  cases id <;> first
    | exact absurd rfl hid
    | rfl

theorem samplePerm_memory {stream : Stream} {role : Role} {idx : ℕ} {p : Permutation}
    {get : Storage → ℕ → Permutation × Storage} {set : Storage → ℕ → Vec → Unit × Storage}
    (hid : id ≠ .d) (hg : Local (get · idx)) (hs : ∀ v, Local (set · idx v)) (s : Storage)
    (hget : get s idx = (p, s)) :
    (samplePerm size id stream role idx get set : Prog Storage Permutation) s =
      some (if p.size = 0 then
        ((Permutation.random size (s.rngs.withDealer stream)).1,
          (set { s with rngs := s.rngs.skipDealer size stream } idx
            (Permutation.random size (s.rngs.withDealer stream)).1.permVec).2)
      else (p, s)) := by
  rw [samplePerm, onRegs_bind hg, hget]
  by_cases hp : p.size = 0
  · refine (congrFun (if_pos hp) s).trans ?_
    rw [bind_apply, drawPerm_memory hid, Option.bind_some, onRegs_bind (hs _), if_pos hp]
    rfl
  · refine (congrFun (if_neg hp) s).trans ?_
    rw [if_neg hp]
    rfl

theorem sendPerm_memory {idx : ℕ} (hid : id ≠ .d) (s : Storage) :
    (sendPerm size id idx : Prog Storage Permutation) s = some (s.sendPerm size id idx) := by
  unfold sendPerm Storage.sendPerm
  split
  · rw [samplePerm_memory hid (fun _ => rfl) (fun _ _ => rfl) s rfl]
    split
    · simp only [Storage.sampleSend, Permutation.random_words]
      rfl
    · rfl
  · rw [samplePerm_memory hid (fun _ => rfl) (fun _ _ => rfl) s rfl]
    split
    · simp only [Storage.sampleSend, Permutation.random_words]
      rfl
    · rfl

theorem recvPerm_memory {idx : ℕ} (hid : id ≠ .d) (s : Storage) :
    (recvPerm size id idx : Prog Storage Permutation) s = some (s.recvPerm size id idx) := by
  unfold recvPerm Storage.recvPerm
  split
  · rw [samplePerm_memory hid (fun _ => rfl) (fun _ _ => rfl) s rfl]
    split
    · simp only [Storage.sampleRecv, Permutation.random_words]
      rfl
    · rfl
  · rw [samplePerm_memory hid (fun _ => rfl) (fun _ _ => rfl) s rfl]
    split
    · simp only [Storage.sampleRecv, Permutation.random_words]
      rfl
    · rfl

theorem sendCorrelation_memory (hid : id ≠ .d) (s : Storage) :
    (sendCorrelation size id f : Prog Storage Correlation) s =
      some (s.sendCorrelation size id f) := by
  unfold sendCorrelation Storage.sendCorrelation
  cases f.type
  case shuffle | mergedShuffle =>
    dsimp only
    rw [bind_apply, drawVec_memory hid, Option.bind_some, bind_apply, sendPerm_memory hid]
    rfl
  case unshuffle =>
    dsimp only
    rw [bind_apply, drawVec_memory hid, Option.bind_some, onRegs_bind fun _ => rfl]
    rfl
  all_goals rfl

theorem recvCorrelation_memory (hid : id ≠ .d) (s : Storage) :
    (recvCorrelation size id f : Prog Storage Correlation) s = s.recvCorrelation size id f := by
  unfold recvCorrelation Storage.recvCorrelation
  cases f.type
  case shuffle | mergedShuffle =>
    dsimp only
    rw [bind_apply, recvPerm_memory hid]
    rfl
  case unshuffle =>
    dsimp only
    rw [onRegs_bind fun _ => rfl, bind_apply]
    have hread : ∀ p, s.readPreproc id size = some p → p.2.pi0p = s.pi0p ∧ p.2.pi1 = s.pi1 := by
      intro p hp
      obtain ⟨c, -, hc⟩ := Option.bind_eq_some_iff.mp hp
      cases hc
      exact ⟨rfl, rfl⟩
    refine Option.bind_congr fun p hp => ?_
    rw [(hread p hp).1, (hread p hp).2]
    rfl
  case setConstVecSIMD =>
    dsimp only
    rw [onRegs_bind fun _ => rfl]
    rfl
  all_goals rfl

theorem evaluateSend_memory (hid : id ≠ .d) {e e' : Evaluator}
    (h : e.evaluateSend conf id f = some e') :
    (evaluateSend conf id e.online f : Prog Storage Online) e.data = some (e'.online, e'.data) ∧
      e'.inputToVal = e.inputToVal := by
  obtain ⟨o, ho, he⟩ := Option.bind_eq_some_iff.mp h
  have ho' : e.online.sendGate conf id f (e.data.sendCorrelation conf.size id f).1 = some o := ho
  have he' : e' = { e with online := o, data := (e.data.sendCorrelation conf.size id f).2 } :=
    (Option.some.inj he).symm
  rw [evaluateSend, bind_apply, sendCorrelation_memory hid, Option.bind_some, ofOption, ho', he']
  exact ⟨rfl, rfl⟩

theorem evaluateRecv_memory (hid : id ≠ .d) {e e' : Evaluator}
    (h : e.evaluateRecv conf id f = some e') :
    (evaluateRecv conf id e.inputToVal e.online f : Prog Storage Online) e.data =
      some (e'.online, e'.data) ∧ e'.inputToVal = e.inputToVal := by
  obtain ⟨⟨k, data⟩, hk, h⟩ := Option.bind_eq_some_iff.mp h
  obtain ⟨o, ho, he⟩ := Option.bind_eq_some_iff.mp h
  cases he
  rw [evaluateRecv, bind_apply, recvCorrelation_memory hid, hk, Option.bind_some, ofOption, ho]
  exact ⟨rfl, rfl⟩

end evaluation

section rounds

variable {conf : ProtocolConfig} {circ : Circuit} {graphs : Party → Graph} {g : Streams}
  {dealer : Storage}

def seats (dealer s0 s1 : Storage) : Party → Storage
  | .p0 => s0
  | .p1 => s1
  | .d => dealer

def onlines (s : Servers) : Online × Online := (s.e0.online, s.e1.online)

theorem onPart_p0 {A : Type} {prog : Prog Storage A} {dealer s0 s1 s0' : Storage} {a : A}
    (h : prog s0 = some (a, s0')) :
    onPart .p0 prog (seats dealer s0 s1) = some (a, seats dealer s0' s1) := by
  have hseat : seats dealer s0 s1 .p0 = s0 := rfl
  rw [onPart, hseat, h]
  refine congrArg (fun t => some (a, t)) (funext fun id => ?_)
  cases id <;> rfl

theorem onPart_p1 {A : Type} {prog : Prog Storage A} {dealer s0 s1 s1' : Storage} {a : A}
    (h : prog s1 = some (a, s1')) :
    onPart .p1 prog (seats dealer s0 s1) = some (a, seats dealer s0 s1') := by
  have hseat : seats dealer s0 s1 .p1 = s1 := rfl
  rw [onPart, hseat, h]
  refine congrArg (fun t => some (a, t)) (funext fun id => ?_)
  cases id <;> rfl

theorem onPart_d {A : Type} {prog : Prog Storage A} {dealer s0 s1 dealer' : Storage} {a : A}
    (h : prog dealer = some (a, dealer')) :
    onPart .d prog (seats dealer s0 s1) = some (a, seats dealer' s0 s1) := by
  have hseat : seats dealer s0 s1 .d = dealer := rfl
  rw [onPart, hseat, h]
  refine congrArg (fun t => some (a, t)) (funext fun id => ?_)
  cases id <;> rfl

def Feeds (inputToVal : Party → ℕ → Vec) (s : Servers) : Prop :=
  inputToVal .p0 = s.e0.inputToVal ∧ inputToVal .p1 = s.e1.inputToVal

theorem step_memory {inp : Party → ℕ → Vec} {s t : Servers} {a : Servers.Action}
    (hi : Feeds inp s) (h : s.step conf a = some t) :
    step conf inp (onlines s) a (seats dealer s.e0.data s.e1.data) =
      some (onlines t, seats dealer t.e0.data t.e1.data) ∧ Feeds inp t := by
  cases a with
  | send f =>
    obtain ⟨e0, h0, h⟩ := Option.bind_eq_some_iff.mp h
    obtain ⟨e1, h1, he⟩ := Option.bind_eq_some_iff.mp h
    cases he
    obtain ⟨hr0, hi0⟩ := evaluateSend_memory (by decide) h0
    obtain ⟨hr1, hi1⟩ := evaluateSend_memory (by decide) h1
    refine ⟨?_, hi.1.trans hi0.symm, hi.2.trans hi1.symm⟩
    rw [step, bind_apply, onlines, onPart_p0 hr0, Option.bind_some, bind_apply, onPart_p1 hr1]
    rfl
  | exchange =>
    simp only [Servers.step, Servers.onlineCommunication] at h
    split at h
    · rename_i hl
      cases h
      refine ⟨?_, hi⟩
      rw [step, ofOption, onlineCommunication]
      exact congrArg (Option.map _) (if_pos hl)
    · cases h
  | recv f =>
    obtain ⟨e0, h0, h⟩ := Option.bind_eq_some_iff.mp h
    obtain ⟨e1, h1, he⟩ := Option.bind_eq_some_iff.mp h
    cases he
    obtain ⟨hr0, hi0⟩ := evaluateRecv_memory (by decide) h0
    obtain ⟨hr1, hi1⟩ := evaluateRecv_memory (by decide) h1
    refine ⟨?_, hi.1.trans hi0.symm, hi.2.trans hi1.symm⟩
    rw [step, bind_apply, onlines, hi.1, hi.2, onPart_p0 hr0, Option.bind_some, bind_apply,
      onPart_p1 hr1]
    rfl
  | clear =>
    cases h
    exact ⟨rfl, hi⟩

theorem run_memory {inp : Party → ℕ → Vec} {s t : Servers} {l : List Servers.Action}
    (hi : Feeds inp s) (h : s.run conf l = some t) :
    (l.foldlM (step conf inp) (onlines s)) (seats dealer s.e0.data s.e1.data) =
      some (onlines t, seats dealer t.e0.data t.e1.data) := by
  induction l generalizing s with
  | nil =>
    cases h
    rfl
  | cons a l ih =>
    obtain ⟨s', hs, h⟩ := Option.bind_eq_some_iff.mp h
    obtain ⟨hstep, hi'⟩ : step conf inp (onlines s) a (seats dealer s.e0.data s.e1.data) =
        some (onlines s', seats dealer s'.e0.data s'.e1.data) ∧ Feeds inp s' := step_memory hi hs
    rw [List.foldlM_cons, bind_apply, hstep, Option.bind_some]
    exact ih hi' h

theorem runDealer_memory (rngs : RandomGenerators) {dealer : Storage}
    (h : Preprocessor.runDealer conf circ.circ g = some dealer) :
    (runDealer conf circ.circ g : Prog Storage Unit) (Storage.init rngs) = some ((), dealer) := by
  obtain ⟨p, hp, he⟩ := Option.bind_eq_some_iff.mp h
  cases he
  have hrngs : (createRngs .d (g.generators .d) : Prog Storage Unit) (Storage.init rngs) =
      some ((), Storage.init (g.generators .d)) := rfl
  rw [runDealer, bind_apply, hrngs, Option.bind_some, bind_apply, preprocess_memory, hp]
  rfl

theorem runParty_memory (blockSize : ℕ) (rngs : RandomGenerators) {dealer s : Storage} {id : Party}
    (h : Preprocessor.runParty conf circ.circ g dealer id = some s) :
    (runParty blockSize conf circ.circ g id (Preprocessor.dealt dealer id) : Prog Storage Unit)
      (Storage.init rngs) = some ((), s) := by
  obtain ⟨p, hp, he⟩ := Option.bind_eq_some_iff.mp h
  cases he
  have hrngs : (createRngs id (g.generators id) : Prog Storage Unit) (Storage.init rngs) =
      some ((), Storage.init (g.generators id)) := rfl
  have hrecv : (recvVec blockSize id (Preprocessor.dealt dealer id) : Prog Storage Unit)
      (Storage.init (g.generators id)) = some ((), { Storage.init (g.generators id) with
        preproc := Function.update (Storage.init (g.generators id)).preproc id
          (Preprocessor.dealt dealer id) }) := rfl
  rw [runParty, bind_apply, hrngs, Option.bind_some, bind_apply, hrecv, Option.bind_some, bind_apply,
    preprocess_memory, hp]
  rfl

theorem prepare_memory (blockSize : ℕ) (rngs : Party → RandomGenerators) {dealer s0 s1 : Storage}
    (hd : Preprocessor.runDealer conf circ.circ g = some dealer)
    (h0 : Preprocessor.runParty conf circ.circ g dealer .p0 = some s0)
    (h1 : Preprocessor.runParty conf circ.circ g dealer .p1 = some s1) :
    prepare blockSize conf circ.circ g (fun id => Storage.init (rngs id)) =
      some ((Preprocessor.dealt dealer .p0, Preprocessor.dealt dealer .p1),
        seats ((dealer.sentTo .p0).sentTo .p1) s0 s1) := by
  have hseats : (fun id => Storage.init (rngs id)) =
      seats (Storage.init (rngs .d)) (Storage.init (rngs .p0)) (Storage.init (rngs .p1)) := by
    funext id
    cases id <;> rfl
  have htake0 : (takeDealt .p0 : Prog Storage Vec) dealer =
      some (Preprocessor.dealt dealer .p0, dealer.sentTo .p0) := rfl
  have htake1 : (takeDealt .p1 : Prog Storage Vec) (dealer.sentTo .p0) =
      some (Preprocessor.dealt dealer .p1, (dealer.sentTo .p0).sentTo .p1) := rfl
  rw [hseats, prepare, bind_apply, onPart_d (runDealer_memory _ hd), Option.bind_some, bind_apply,
    onPart_d htake0, Option.bind_some, bind_apply, onPart_d htake1, Option.bind_some, bind_apply,
    onPart_p0 (runParty_memory _ _ h0), Option.bind_some, bind_apply,
    onPart_p1 (runParty_memory _ _ h1)]
  rfl

theorem evaluate_memory {dealer s0 s1 : Storage} {t : Servers}
    (h : Servers.run conf ⟨Evaluator.init circ s0 (graphs .p0), Evaluator.init circ s1 (graphs .p1)⟩
      (Servers.schedule circ.circ) = some t) :
    evaluate conf circ graphs (seats dealer s0 s1) =
      some (onlines t, seats dealer t.e0.data t.e1.data) :=
  run_memory (s := ⟨Evaluator.init circ s0 (graphs .p0), Evaluator.init circ s1 (graphs .p1)⟩)
    ⟨rfl, rfl⟩ h

theorem round_memory (blockSize : ℕ) (rngs : Party → RandomGenerators) {r : Result}
    (h : secureRun conf circ (graphs .p0) (graphs .p1) g = some r) :
    round blockSize conf circ graphs g (fun id => Storage.init (rngs id)) =
      some (⟨Preprocessor.dealt r.dealer .p0, Preprocessor.dealt r.dealer .p1,
        r.servers.e0.online.output, r.servers.e1.online.output⟩,
          seats ((r.dealer.sentTo .p0).sentTo .p1) r.servers.e0.data r.servers.e1.data) := by
  obtain ⟨dealer, hd, h⟩ := Option.bind_eq_some_iff.mp h
  obtain ⟨s0, h0, h⟩ := Option.bind_eq_some_iff.mp h
  obtain ⟨s1, h1, h⟩ := Option.bind_eq_some_iff.mp h
  obtain ⟨t, ht, h⟩ := Option.bind_eq_some_iff.mp h
  cases h
  rw [round, bind_apply, prepare_memory blockSize rngs hd h0 h1, Option.bind_some, bind_apply,
    evaluate_memory ht]
  rfl

end rounds

end Backend

end GraphMpc
