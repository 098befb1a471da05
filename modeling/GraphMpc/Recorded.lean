import GraphMpc.Draws
import GraphMpc.MemoryBackend

namespace GraphMpc

open Tabulate Refinement Backend

inductive Event where
  | draw (server : Party) (stream : Stream) (role : Role) (words : List (BitVec 64))
  | read (v : Vec)
  | storeVec (dst : Party) (v : Vec)
  | storeB (dst : Party) (v : Vec)
  deriving DecidableEq, Repr

structure Recorded where
  store : Storage
  events : List Event

namespace Recorded

def record {A : Type} (entry : A → List Event) (f : Prog Storage A) : Prog Recorded A := fun o =>
  (f o.store).map fun p => (p.1, ⟨p.2, o.events ++ entry p.1⟩)

def silent {A : Type} (f : Prog Storage A) : Prog Recorded A := record (fun _ => []) f

end Recorded

open Recorded

instance : Backend Recorded where
  regs o := regs o.store
  withRegs o r := { o with store := withRegs o.store r }
  createRngs id g := silent (createRngs id g)
  draw id server stream role n :=
    record (fun ws => [.draw server stream role ws]) (draw id server stream role n)
  readPreproc id n := record (fun v => [.read v]) (readPreproc id n)
  storeB dst v := record (fun _ => [.storeB dst v]) (storeB dst v)
  storeVec dst v := record (fun _ => [.storeVec dst v]) (storeVec dst v)
  storeTriples a b c idx := silent (storeTriples a b c idx)
  loadTriples idx n := silent (loadTriples idx n)
  takeDealt dst := silent (takeDealt dst)
  recvVec blockSize id v := silent (recvVec blockSize id v)
  reset id := silent (reset id)

structure Logs {A : Type} (f : Prog Recorded A) (g : Prog Storage A) (s : Storage)
    (l : List Event) : Prop where
  run : ∀ pre, f ⟨s, pre⟩ = (g s).map fun p => (p.1, ⟨p.2, pre ++ l⟩)

namespace Logs

variable {A B : Type} {f f' : Prog Recorded A} {g g' : Prog Storage A} {k : A → Prog Recorded B}
  {k' : A → Prog Storage B} {s s' : Storage} {a : A} {l l' : List Event}

theorem pure (a : A) (s : Storage) : Logs (Pure.pure a) (Pure.pure a) s [] where
  run pre := by
    rw [List.append_nil]
    rfl

theorem bind (hf : Logs f g s l) (hk : ∀ a s', g s = some (a, s') → Logs (k a) (k' a) s' l') :
    Logs (f >>= k) (g >>= k') s (l ++ l') where
  run pre := by
    rw [bind_apply, bind_apply, hf.run]
    cases hg : g s with
    | none => rfl
    | some p =>
      rw [Option.map_some, Option.bind_some, Option.bind_some, (hk p.1 p.2 hg).run,
        List.append_assoc]

theorem next (hf : Logs f g s l) (hg : g s = some (a, s')) (hk : Logs (k a) (k' a) s' l') :
    Logs (f >>= k) (g >>= k') s (l ++ l') :=
  hf.bind fun b t hb => by
    rw [hg] at hb
    cases hb
    exact hk

theorem of_eq (hf : Logs f g s l) (hl : l = l') : Logs f g s l' := hl ▸ hf

theorem ite {p : Prop} [Decidable p] (h : p → Logs f g s l) (h' : ¬ p → Logs f' g' s l) :
    Logs (if p then f else f') (if p then g else g') s l := by
  split
  · exact h ‹p›
  · exact h' ‹¬ p›

theorem record (g : Prog Storage A) (entry : A → List Event) (s : Storage) :
    Logs (Recorded.record entry g) g s ((g s).toList.flatMap fun p => entry p.1) where
  run pre := by
    rw [Recorded.record]
    cases g s with
    | none => rfl
    | some p => rw [Option.toList_some, List.flatMap_singleton]; rfl

theorem silent (g : Prog Storage A) (s : Storage) : Logs (Recorded.silent g) g s [] :=
  (record g (fun _ => []) s).of_eq (by simp)

theorem onRegs (f : Storage → A × Storage) (s : Storage) :
    Logs (Backend.onRegs f) (Backend.onRegs f) s [] where
  run pre := by
    rw [List.append_nil]
    rfl

theorem draw (id server : Party) (stream : Stream) (role : Role) (n : ℕ) (s : Storage) :
    Logs (Backend.draw id server stream role n) (Backend.draw id server stream role n) s
      [.draw server stream role (s.rngs.draw id server stream n).1] :=
  record _ (fun ws => [.draw server stream role ws]) s

theorem ofOption (x : Option A) (s : Storage) :
    Logs (Refinement.ofOption x) (Refinement.ofOption x) s [] where
  run pre := by
    rw [List.append_nil]
    cases x <;> rfl

theorem drawVec (id server : Party) (stream : Stream) (role : Role) (n : ℕ) (s : Storage) :
    Logs (Backend.drawVec id server stream role n) (Backend.drawVec id server stream role n) s
      [.draw server stream role (s.rngs.draw id server stream n).1] :=
  (draw id server stream role n s).next rfl (pure _ _)

theorem drawPerm (id server : Party) (stream : Stream) (role : Role) (n : ℕ) (s : Storage) :
    Logs (Backend.drawPerm id server stream role n) (Backend.drawPerm id server stream role n) s
      [.draw server stream role (s.rngs.draw id server stream n).1] :=
  (draw id server stream role n s).next rfl (pure _ _)

theorem vec {id server : Party} {stream : Stream} {role : Role} {n : ℕ}
    {k : Vec → Prog Recorded B} {k' : Vec → Prog Storage B}
    (hk : Logs (k ((s.draw id server stream n).1.map (·.setWidth 32)))
      (k' ((s.draw id server stream n).1.map (·.setWidth 32))) (s.draw id server stream n).2 l) :
    Logs (Backend.drawVec id server stream role n >>= k)
      (Backend.drawVec id server stream role n >>= k') s
      (.draw server stream role (s.rngs.draw id server stream n).1 :: l) :=
  (drawVec id server stream role n s).next
    (show _ = some (_, (s.draw id server stream n).2) from rfl) hk

theorem perm {id server : Party} {stream : Stream} {role : Role} {n : ℕ}
    {k : Permutation → Prog Recorded B} {k' : Permutation → Prog Storage B}
    (hk : Logs (k (.ofWords (s.draw id server stream n).1))
      (k' (.ofWords (s.draw id server stream n).1)) (s.draw id server stream n).2 l) :
    Logs (Backend.drawPerm id server stream role n >>= k)
      (Backend.drawPerm id server stream role n >>= k') s
      (.draw server stream role (s.rngs.draw id server stream n).1 :: l) :=
  (drawPerm id server stream role n s).next
    (show _ = some (_, (s.draw id server stream n).2) from rfl) hk

theorem storeVec (dst : Party) (v : Vec) (s : Storage) :
    Logs (Backend.storeVec dst v) (Backend.storeVec dst v) s [.storeVec dst v] :=
  record _ (fun _ => [.storeVec dst v]) s

theorem storeB (dst : Party) (v : Vec) (s : Storage) :
    Logs (Backend.storeB dst v) (Backend.storeB dst v) s [.storeB dst v] :=
  record _ (fun _ => [.storeB dst v]) s

theorem stored {dst : Party} {v : Vec} {k : Unit → Prog Recorded B} {k' : Unit → Prog Storage B}
    (hk : Logs (k ()) (k' ()) (s.storeVec dst v) l) :
    Logs (Backend.storeVec dst v >>= k) (Backend.storeVec dst v >>= k') s (.storeVec dst v :: l) :=
  (storeVec dst v s).next rfl hk

theorem storedB {dst : Party} {v : Vec} {k : Unit → Prog Recorded B} {k' : Unit → Prog Storage B}
    (hk : Logs (k ()) (k' ()) (s.storeB dst v) l) :
    Logs (Backend.storeB dst v >>= k) (Backend.storeB dst v >>= k') s (.storeB dst v :: l) :=
  (storeB dst v s).next rfl hk

theorem regs {f : Storage → A × Storage} (h : Local f)
    (hk : Logs (k (f s).1) (k' (f s).1) (f s).2 l) :
    Logs (Backend.onRegs f >>= k) (Backend.onRegs f >>= k') s l :=
  (onRegs f s).next (onRegs_memory h s) hk

end Logs

def drawEvents (id : Party) : RandomGenerators → List Draw → List Event
  | _, [] => []
  | g, d :: l => .draw d.server d.stream d.role (g.draw id d.server d.stream d.words).1 ::
      drawEvents id (g.draw id d.server d.stream d.words).2 l

def afterDraws (id : Party) (g : RandomGenerators) (l : List Draw) : RandomGenerators :=
  l.foldl (fun g d => (g.draw id d.server d.stream d.words).2) g

theorem drawEvents_append (id : Party) (g : RandomGenerators) (l l' : List Draw) :
    drawEvents id g (l ++ l') = drawEvents id g l ++ drawEvents id (afterDraws id g l) l' := by
  induction l generalizing g with
  | nil => rfl
  | cons d l ih => rw [List.cons_append, drawEvents, drawEvents, ih]; rfl

theorem appended_append (before new : Vec) : Preprocessor.appended before (before ++ new) = new := by
  rw [Preprocessor.appended, List.drop_left]

theorem storeVec_preproc (s : Storage) (dst : Party) (v : Vec) :
    (s.storeVec dst v).preproc dst = s.preproc dst ++ v := Function.update_self ..

def vecEvent (before after : Storage) (dst : Party) : Event :=
  .storeVec dst (Preprocessor.appended (before.preproc dst) (after.preproc dst))

def bEvent (before after : Storage) (dst : Party) : Event :=
  .storeB dst (Preprocessor.appended (before.B dst) (after.B dst))

theorem vecEvent_eq {before after : Storage} {dst : Party} {v : Vec}
    (h : after.preproc dst = before.preproc dst ++ v) :
    vecEvent before after dst = .storeVec dst v := by
  rw [vecEvent, h, appended_append]

theorem bEvent_eq {before after : Storage} {dst : Party} {v : Vec}
    (h : after.B dst = before.B dst ++ v) : bEvent before after dst = .storeB dst v := by
  rw [bEvent, h, appended_append]

theorem bEvent_congr {before before' : Storage} (h : before.B = before'.B) (after : Storage) :
    bEvent before after = bEvent before' after :=
  funext fun dst => by rw [bEvent, bEvent, h]

section dealer

open Preprocessor

variable {size n idx piIdx omegaIdx : ℕ} {recv : Party} {f : Gate}

variable (f) in
theorem dealMasks_logs (s : Storage) : Logs (dealMasks size) (dealMasks size) s
    (drawEvents .d s.rngs (maskDraws size f)) :=
  .vec (.vec (.pure _ _))

variable (f) in
theorem dealPerms_logs (s : Storage) : Logs (dealPerms size recv idx) (dealPerms size recv idx) s
    (drawEvents .d s.rngs (permDraws size recv f) ++
      [vecEvent s (s.dealPerms size recv idx) (if recv = .p1 then .p1 else .p0)]) := by
  by_cases hr : recv = .p1
  · simp only [dealPerms, permDraws, if_pos hr]
    rw [vecEvent_eq]
    · exact .perm (.perm (.perm (.stored (.onRegs ..))))
    · simp only [Storage.dealPerms, if_pos hr, Permutation.random_words]
      exact storeVec_preproc ..
  · simp only [dealPerms, permDraws, if_neg hr]
    rw [vecEvent_eq]
    · exact .perm (.perm (.perm (.stored (.onRegs ..))))
    · simp only [Storage.dealPerms, if_neg hr, Permutation.random_words]
      exact storeVec_preproc ..

theorem dealPerms_B (s : Storage) : (s.dealPerms size recv idx).B = s.B := by
  unfold Storage.dealPerms
  split <;> rfl

variable (f) in
theorem dealMergedPerms_logs (s : Storage) :
    Logs (dealMergedPerms size idx piIdx omegaIdx) (dealMergedPerms size idx piIdx omegaIdx) s
      (drawEvents .d s.rngs (mergedPermDraws size f) ++
        [.p0, .p1].map (vecEvent s (s.dealMergedPerms size idx piIdx omegaIdx))) := by
  rw [List.map_cons, List.map_singleton, vecEvent_eq, vecEvent_eq]
  · exact .regs (fun _ => rfl) (.regs (fun _ => rfl) (.perm (.perm (.regs (fun _ => rfl)
      (.stored (.storeVec ..))))))
  all_goals
    simp only [Storage.dealMergedPerms, Permutation.random_words]
    rfl

theorem ifFresh_logs {deal : Prog Recorded Unit} {deal' : Prog Storage Unit} {s : Storage}
    {l : List Event} (h : Logs deal deal' s l) :
    Logs (ifFresh idx deal) (ifFresh idx deal') s (if (s.pi0 idx).size = 0 then l else []) := by
  refine .regs (fun _ => rfl) ?_
  by_cases hp : (s.pi0 idx).size = 0
  · rw [if_pos hp]
    exact .ite (fun _ => h) fun hn => absurd hp hn
  · rw [if_neg hp]
    exact .ite (fun hy => absurd hy hp) fun _ => .pure _ _

theorem dealCorrection_logs (pi : Permutation) (r0 r1 : Vec) (s : Storage) :
    Logs (dealCorrection pi r0 r1) (dealCorrection pi r0 r1) s
      ([.p0, .p1].map (bEvent s (s.dealCorrection pi r0 r1))) := by
  rw [List.map_cons, List.map_singleton, bEvent_eq, bEvent_eq]
  · exact .regs (fun _ => rfl) (.storedB (.storeB ..))
  all_goals rfl

theorem dealShuffle_logs (s : Storage) : Logs (dealShuffle size recv f) (dealShuffle size recv f) s
    (drawEvents .d s.rngs (maskDraws size f ++
        if (s.pi0 f.shuffleIdx).size = 0 then permDraws size recv f else []) ++
      (if (s.pi0 f.shuffleIdx).size = 0 then [if recv = .p1 then .p1 else .p0] else []).map
        (vecEvent s (s.dealShuffle size recv f)) ++
      [.p0, .p1].map (bEvent s (s.dealShuffle size recv f))) := by
  refine Logs.of_eq ((dealMasks_logs f s).next (dealMasks_memory s)
    ((ifFresh_logs (dealPerms_logs f _)).next (ifFresh_memory (dealPerms_memory _))
      (.regs (fun _ => rfl) (dealCorrection_logs ..)))) ?_
  have hp : (s.dealMasks size).2.2.pi0 = s.pi0 := rfl
  simp only [hp, drawEvents_append, List.append_assoc, Storage.dealShuffle]
  by_cases hf : (s.pi0 f.shuffleIdx).size = 0
  · simp only [if_pos hf, List.append_assoc]
    have hB : ((s.dealMasks size).2.2.dealPerms size recv f.shuffleIdx).B = s.B := dealPerms_B ..
    simp only [Storage.getPi, bEvent_congr hB]
    rfl
  · simp only [if_neg hf]
    rfl

theorem dealMergedShuffle_logs (s : Storage) :
    Logs (dealMergedShuffle size f) (dealMergedShuffle size f) s
      (drawEvents .d s.rngs (maskDraws size f ++
          if (s.pi0 f.shuffleIdx).size = 0 then mergedPermDraws size f else []) ++
        (if (s.pi0 f.shuffleIdx).size = 0 then [.p0, .p1] else []).map
          (vecEvent s (s.dealMergedShuffle size f)) ++
        [.p0, .p1].map (bEvent s (s.dealMergedShuffle size f))) := by
  refine Logs.of_eq ((dealMasks_logs f s).next (dealMasks_memory s)
    ((ifFresh_logs (dealMergedPerms_logs f _)).next (ifFresh_memory (dealMergedPerms_memory _))
      (.regs (fun _ => rfl) (dealCorrection_logs ..)))) ?_
  have hp : (s.dealMasks size).2.2.pi0 = s.pi0 := rfl
  simp only [hp, drawEvents_append, List.append_assoc, Storage.dealMergedShuffle]
  by_cases hf : (s.pi0 f.shuffleIdx).size = 0
  · simp only [if_pos hf, List.append_assoc]
    rfl
  · simp only [if_neg hf]
    rfl

theorem dealUnshuffle_logs (s : Storage) : Logs (dealUnshuffle size f) (dealUnshuffle size f) s
    (drawEvents .d s.rngs (maskDraws size f) ++
      [.p0, .p1].map (bEvent s (s.dealUnshuffle size f))) :=
  (dealMasks_logs f s).next (dealMasks_memory s) (.regs (fun _ => rfl) (dealCorrection_logs ..))

theorem randomShareVec3P_dealer_logs {role : Role} {binary : Bool} (s : Storage) :
    Logs (Backend.randomShareVec3P .d role n binary) (Backend.randomShareVec3P .d role n binary) s
      (drawEvents .d s.rngs [⟨.p0, .prep, f, role, n⟩, ⟨.p1, .prep, f, role, n⟩]) :=
  .ite (fun _ => .vec (.vec (.pure _ _))) fun h => absurd rfl h

theorem randomShareSecretVec3P_dealer_logs {secret : Vec} {binary : Bool} {s s' : Storage} {v : Vec}
    (h : s.randomShareSecretVec3P .d recv secret binary = some (v, s')) :
    Logs (randomShareSecretVec3P .d recv secret binary)
      (randomShareSecretVec3P .d recv secret binary) s
      (drawEvents .d s.rngs [⟨if recv = .p1 then .p0 else .p1, .prep, f, .tripleC, secret.length⟩] ++
        [vecEvent s s' recv]) := by
  rw [Storage.randomShareSecretVec3P, if_pos rfl] at h
  by_cases hr : recv = .p1
  · simp only [if_pos hr, ← PRG.vec_words] at h ⊢
    obtain ⟨-, rfl⟩ := Prod.mk.inj (Option.some.inj h)
    rw [vecEvent_eq]
    · refine .ite (fun _ => ?_) fun h => absurd rfl h
      simp only [if_pos hr]
      exact .vec (.stored (.pure _ _))
    · exact storeVec_preproc ..
  · simp only [if_neg hr, ← PRG.vec_words] at h ⊢
    obtain ⟨-, rfl⟩ := Prod.mk.inj (Option.some.inj h)
    rw [vecEvent_eq]
    · refine .ite (fun _ => ?_) fun h => absurd rfl h
      simp only [if_neg hr]
      exact .vec (.stored (.pure _ _))
    · exact storeVec_preproc ..

theorem dealTriples_dealer_logs {s s' : Storage} (h : s.dealTriples .d recv n f = some s') :
    Logs (dealTriples .d recv n f) (dealTriples .d recv n f) s
      (drawEvents .d s.rngs (dealerTriple recv n f) ++ [vecEvent s s' recv]) := by
  unfold Storage.dealTriples at h
  obtain ⟨⟨c, t⟩, hc, ht⟩ := Option.bind_eq_some_iff.mp h
  have hs : s' = t := (Option.some.inj ht).symm
  refine Logs.of_eq ((randomShareVec3P_dealer_logs (f := f) _).next (randomShareVec3P_memory s)
    ((randomShareVec3P_dealer_logs (f := f) _).next (randomShareVec3P_memory _)
      ((randomShareSecretVec3P_dealer_logs (f := f) hc).next
        ((randomShareSecretVec3P_memory _).trans hc)
        (.ite (fun _ => .pure _ _) fun h => absurd rfl h)))) ?_
  rw [hs]
  simp only [tab_length, List.append_nil]
  rfl

end dealer

def readEvents (s : Storage) (id : Party) (n : Option ℕ) : List Event :=
  (n.bind fun n => s.readPreproc id n).toList.map fun p => .read p.1

section party

open Preprocessor

variable {size n idx : ℕ} {id recv : Party} {f : Gate}

theorem readPreproc_logs (id : Party) (n : ℕ) (s : Storage) :
    Logs (readPreproc id n) (readPreproc id n) s (readEvents s id (some n)) :=
  (Logs.record (readPreproc id n) (fun v => [.read v]) s).of_eq List.map_eq_flatMap.symm

theorem readEvents_congr {s s' : Storage} (hp : s'.preproc = s.preproc)
    (hi : s'.readIdx = s.readIdx) (n : Option ℕ) : readEvents s' id n = readEvents s id n := by
  cases n with
  | none => rfl
  | some n =>
    simp only [readEvents, Option.bind_some, Storage.readPreproc, hp, hi]
    cases readChunk (s.preproc id) n s.readIdx <;> rfl

theorem randomShareSecretVec3P_party_logs (hid : id ≠ .d) {secret : Vec} {binary : Bool}
    (s : Storage) : Logs (randomShareSecretVec3P id recv secret binary)
      (randomShareSecretVec3P id recv secret binary) s
      (drawEvents id s.rngs (if id = recv then [] else [⟨id, .prep, f, .tripleC, secret.length⟩]) ++
        readEvents s id (if id = recv then some secret.length else none)) := by
  refine .ite (fun h => absurd h hid) fun _ => .ite (fun hr => ?_) fun hr => ?_
  · rw [if_pos hr, if_pos hr]
    exact readPreproc_logs ..
  · rw [if_neg hr, if_neg hr]
    exact Logs.drawVec ..

theorem dealTriples_party_logs (hid : id ≠ .d) (s : Storage) :
    Logs (dealTriples id recv n f) (dealTriples id recv n f) s
      (drawEvents id s.rngs (partyTriple id recv n f) ++
        readEvents s id (if id = recv then some n else none)) := by
  have hshare : ∀ {S : Type} [Backend S] (role : Role),
      (Backend.randomShareVec3P id role n f.binary : Prog S Vec) = drawVec id id .prep role n :=
    fun role => if_neg hid
  simp only [dealTriples, hshare]
  refine Logs.of_eq (.vec (.vec ((randomShareSecretVec3P_party_logs (f := f) hid _).bind
    fun _ _ _ => .ite (fun h => absurd h hid) fun _ => .silent ..))) ?_
  simp only [tab_length, List.append_nil]
  by_cases hr : id = recv
  · simp only [if_pos hr, partyTriple]
    rw [readEvents_congr]
    all_goals rfl
  · simp only [if_neg hr, partyTriple]
    rfl

theorem readPerm_logs {due : Bool} {set : Storage → ℕ → Vec → Unit × Storage} (s : Storage) :
    Logs (readPerm size id idx due set) (readPerm size id idx due set) s
      (readEvents s id (if due = true ∧ s.preprocessed idx = false then some size else none)) := by
  refine .regs (fun _ => rfl) ?_
  by_cases hp : due = true ∧ s.preprocessed idx = false
  · rw [if_pos hp, ← List.append_nil (readEvents s id (some size))]
    exact .ite (fun _ => (readPreproc_logs ..).bind fun _ _ _ => .onRegs ..) fun hn => absurd hp hn
  · rw [if_neg hp]
    exact .ite (fun hy => absurd hy hp) fun _ => .pure _ _

end party

section gates

open Preprocessor

variable {size : ℕ} {id : Party} {p : Preprocessor} {f : Gate}

def dealerEvents (size : ℕ) (p : Preprocessor) (f : Gate) : List Event :=
  drawEvents .d p.data.rngs (dealerDraws size p f) ++
    (storesVec p f).map (vecEvent p.data (dealGate size p f).data) ++
    (storesB f).map (bEvent p.data (dealGate size p f).data)

def partyEvents (size : ℕ) (id : Party) (p : Preprocessor) (f : Gate) : List Event :=
  drawEvents id p.data.rngs (partyDraws size id p f) ++
    readEvents p.data id (readLength size id p f)

theorem triples_dealer_logs {n : ℕ} (hgate : dealGate size p f =
    ⟨(p.data.dealTriples .d p.recv n f).getD p.data, p.recv.other⟩) :
    Logs (do
      dealTriples .d p.recv n f
      return p.recv.other) (do
      dealTriples .d p.recv n f
      return p.recv.other) p.data
      (drawEvents .d p.data.rngs (dealerTriple p.recv n f) ++
        [vecEvent p.data (dealGate size p f).data p.recv]) := by
  have h := dealTriples_dealer p.data p.recv n f
  rw [hgate, h]
  exact ((dealTriples_dealer_logs h).bind fun _ _ _ => .pure _ _).of_eq (List.append_nil _)

theorem preprocessGate_dealer_logs : Logs (Backend.preprocessGate size .d p.recv f)
    (Backend.preprocessGate size .d p.recv f) p.data (dealerEvents size p f) := by
  unfold Backend.preprocessGate dealerEvents dealerDraws storesVec storesB
  cases ht : f.type
  case shuffle =>
    rw [dealGate_shuffle ht]
    exact ((dealShuffle_logs _).bind fun _ _ _ => (Logs.onRegs ..).bind fun _ _ _ =>
      .pure _ _).of_eq (List.append_nil _)
  case mergedShuffle =>
    rw [dealGate_merged ht]
    exact ((dealMergedShuffle_logs _).bind fun _ _ _ => (Logs.onRegs ..).bind fun _ _ _ =>
      .pure _ _).of_eq (List.append_nil _)
  case unshuffle =>
    rw [dealGate_unshuffle ht]
    refine .ite (fun _ => ?_) fun h => absurd rfl h
    exact ((dealUnshuffle_logs _).bind fun _ _ _ => .pure _ _).of_eq (by simp)
  case compaction =>
    have hgate : dealGate size p f =
        ⟨(p.data.dealTriples .d p.recv size f).getD p.data, p.recv.other⟩ := by
      simp [dealGate, Preprocessor.preprocessGate, ht, dealTriples_dealer]
    exact (triples_dealer_logs hgate).of_eq (by simp)
  case mulSIMD | eqz | bit2A =>
    have hgate : dealGate size p f =
        ⟨(p.data.dealTriples .d p.recv f.size f).getD p.data, p.recv.other⟩ := by
      simp [dealGate, Preprocessor.preprocessGate, ht, dealTriples_dealer]
    exact (triples_dealer_logs hgate).of_eq (by simp)
  all_goals exact .pure _ _

theorem preprocessGate_party_logs (hid : id ≠ .d) : Logs (Backend.preprocessGate size id p.recv f)
    (Backend.preprocessGate size id p.recv f) p.data (partyEvents size id p f) := by
  unfold Backend.preprocessGate partyEvents partyDraws readLength
  cases ht : f.type
  case shuffle =>
    cases id with
    | d => exact absurd rfl hid
    | p0 | p1 =>
      refine ((readPerm_logs _).bind fun _ _ _ => (Logs.onRegs ..).bind fun _ _ _ =>
        .pure _ _).of_eq ?_
      simp [drawEvents]
  case mergedShuffle =>
    cases id with
    | d => exact absurd rfl hid
    | p0 | p1 =>
      refine ((readPerm_logs _).bind fun _ _ _ => (Logs.onRegs ..).bind fun _ _ _ =>
        .pure _ _).of_eq ?_
      simp [drawEvents]
  case unshuffle => exact .ite (fun h => absurd h hid) fun _ => .pure _ _
  case compaction | mulSIMD | eqz | bit2A =>
    exact ((dealTriples_party_logs hid _).bind fun _ _ _ => .pure _ _).of_eq (List.append_nil _)
  all_goals exact .pure _ _

end gates

section evaluation

variable {size idx : ℕ} {id : Party} {f : Gate}

theorem samplePerm_logs {stream : Stream} {role : Role} {q : Permutation}
    {get : Storage → ℕ → Permutation × Storage} {set : Storage → ℕ → Vec → Unit × Storage}
    (hg : Local (get · idx)) (s : Storage) (hget : get s idx = (q, s)) :
    Logs (samplePerm size id stream role idx get set) (samplePerm size id stream role idx get set) s
      (drawEvents id s.rngs (if q.size = 0 then [⟨id, stream, f, role, size⟩] else [])) := by
  refine (Logs.onRegs _ s).next ((onRegs_memory hg s).trans (congrArg some hget)) ?_
  by_cases hq : q.size = 0
  · simp only [if_pos hq]
    refine .perm ?_
    exact (Logs.onRegs ..).bind fun _ _ _ => .pure _ _
  · simp only [if_neg hq]
    exact .pure _ _

theorem sendPerm_logs (s : Storage) : Logs (sendPerm size id idx) (sendPerm size id idx) s
    (drawEvents id s.rngs (if id = .p0 then
      if (s.pi0p idx).size = 0 then [⟨id, .send, f, .pi0p, size⟩] else []
      else if (s.pi1 idx).size = 0 then [⟨id, .send, f, .pi1, size⟩] else [])) := by
  refine .ite (fun h => ?_) fun h => ?_
  · rw [if_pos h]
    exact samplePerm_logs (fun _ => rfl) s rfl
  · rw [if_neg h]
    exact samplePerm_logs (fun _ => rfl) s rfl

theorem recvPerm_logs (s : Storage) : Logs (recvPerm size id idx) (recvPerm size id idx) s
    (drawEvents id s.rngs (if id = .p0 then
      if (s.pi0 idx).size = 0 then [⟨id, .recv, f, .pi0, size⟩] else []
      else if (s.pi1p idx).size = 0 then [⟨id, .recv, f, .pi1p, size⟩] else [])) := by
  refine .ite (fun h => ?_) fun h => ?_
  · rw [if_pos h]
    exact samplePerm_logs (fun _ => rfl) s rfl
  · rw [if_neg h]
    exact samplePerm_logs (fun _ => rfl) s rfl

theorem sendCorrelation_logs (s : Storage) : Logs (sendCorrelation size id f)
    (sendCorrelation size id f) s (drawEvents id s.rngs (s.sendDraws size id f)) := by
  unfold Backend.sendCorrelation Storage.sendDraws
  cases ht : f.type
  case shuffle | mergedShuffle =>
    exact (Logs.vec ((sendPerm_logs (f := f) _).bind fun _ _ _ => .pure _ _)).of_eq
      (congrArg _ (List.append_nil _))
  case unshuffle => exact .vec (.regs (fun _ => rfl) (.pure _ _))
  case compaction | mul | mulSIMD | eqz | bit2A => exact .silent ..
  all_goals exact .pure _ _

theorem recvPerm_keeps (s : Storage) : (s.recvPerm size id idx).2.preproc = s.preproc ∧
    (s.recvPerm size id idx).2.readIdx = s.readIdx := by
  unfold Storage.recvPerm
  split <;> split <;> exact ⟨rfl, rfl⟩

theorem recvCorrelation_logs (hid : id ≠ .d) (s : Storage) : Logs (recvCorrelation size id f)
    (recvCorrelation size id f) s (drawEvents id s.rngs (s.recvDraws size id f) ++
      readEvents s id (Storage.recvReadLength size f)) := by
  unfold Backend.recvCorrelation Storage.recvDraws Storage.recvReadLength
  cases ht : f.type
  case shuffle | mergedShuffle =>
    obtain ⟨hp, hi⟩ := @recvPerm_keeps size f.shuffleIdx id s
    have hperm : (recvPerm size id f.shuffleIdx : Prog Storage Permutation) s =
        some ((s.recvPerm size id f.shuffleIdx).1, (s.recvPerm size id f.shuffleIdx).2) :=
      recvPerm_memory hid s
    rw [← readEvents_congr hp hi]
    exact ((recvPerm_logs (f := f) s).next hperm
      ((readPreproc_logs ..).bind fun _ _ _ => .pure _ _)).of_eq
        (congrArg _ (List.append_nil _))
  case unshuffle =>
    exact (Logs.regs (fun _ => rfl) ((readPreproc_logs ..).bind fun _ _ _ => .pure _ _)).of_eq
      (List.append_nil _)
  case setConstVecSIMD => exact .regs (fun _ => rfl) (.pure _ _)
  case compaction | mul | mulSIMD | eqz | bit2A => exact .silent ..
  all_goals exact .pure _ _

end evaluation

structure LogEntry where
  gate : Gate
  event : Event
  deriving DecidableEq, Repr

def recordGate (size : ℕ) (id : Party) (p : Preprocessor) (f : Gate) :
    Option (Preprocessor × List LogEntry) := do
  let (recv, o) ← preprocessGate size id p.recv f (⟨p.data, []⟩ : Recorded)
  return (⟨o.store, recv⟩, o.events.map (LogEntry.mk f))

def recordAct (size : ℕ) (id : Party) (s : Storage) :
    Servers.Action → Option (Storage × List LogEntry)
  | .send f => (sendCorrelation size id f (⟨s, []⟩ : Recorded)).map fun p =>
      (p.2.store, p.2.events.map (LogEntry.mk f))
  | .recv f => (recvCorrelation size id f (⟨s, []⟩ : Recorded)).map fun p =>
      (p.2.store, p.2.events.map (LogEntry.mk f))
  | .exchange | .clear => some (s, [])

namespace LogEntry

def drawnOn (id : Party) (stream : Stream) : LogEntry → Option (Gate × Role × List (BitVec 64))
  | ⟨f, .draw server stream' role ws⟩ =>
      if server = id ∧ stream' = stream then some (f, role, ws) else none
  | _ => none

def readBack : LogEntry → Option Chunk
  | ⟨f, .read v⟩ => some ⟨f, v⟩
  | _ => none

def storedVec (id : Party) : LogEntry → Option Chunk
  | ⟨f, .storeVec dst v⟩ => if dst = id then some ⟨f, v⟩ else none
  | _ => none

def storedB (id : Party) : LogEntry → Option Chunk
  | ⟨f, .storeB dst v⟩ => if dst = id then some ⟨f, v⟩ else none
  | _ => none

end LogEntry

def fill : PRG → List Draw → List (Gate × Role × List (BitVec 64))
  | _, [] => []
  | g, d :: l => (d.gate, d.role, g.words d.words) :: fill (g.skip d.words) l

theorem fill_append (g : PRG) (l l' : List Draw) :
    fill g (l ++ l') = fill g l ++ fill (g.skip (l.map Draw.words).sum) l' := by
  induction l generalizing g with
  | nil => rfl
  | cons d l ih =>
    rw [List.cons_append, fill, fill, ih, PRG.skip_skip, List.map_cons, List.sum_cons,
      List.cons_append]

theorem fill_words (g : PRG) (l : List Draw) :
    (fill g l).flatMap (fun t => t.2.2) = g.words (l.map Draw.words).sum := by
  induction l generalizing g with
  | nil => rfl
  | cons d l ih => rw [fill, List.flatMap_cons, ih, List.map_cons, List.sum_cons, PRG.words_add]

structure Takes (g : PRG) (l : List Draw) (taken : List (Gate × Role × List (BitVec 64)))
    (g' : PRG) : Prop where
  taken : taken = fill g l
  rest : g' = g.skip (l.map Draw.words).sum

namespace Takes

variable {g g' g'' : PRG} {l l' : List Draw} {taken taken' : List (Gate × Role × List (BitVec 64))}

theorem nil (g : PRG) : Takes g [] [] g := ⟨rfl, rfl⟩

theorem append (h : Takes g l taken g') (h' : Takes g' l' taken' g'') :
    Takes g (l ++ l') (taken ++ taken') g'' where
  taken := by rw [fill_append, ← h.rest, ← h.taken, ← h'.taken]
  rest := by rw [h'.rest, h.rest, PRG.skip_skip, List.map_append, List.sum_append]

theorem yields (h : Takes g l taken g') : g.Yields (taken.flatMap fun t => t.2.2) g' := by
  have hwords : (taken.flatMap fun t => t.2.2) = g.words (l.map Draw.words).sum := by
    rw [h.taken, fill_words]
  exact ⟨by rw [hwords, PRG.words_length], by rw [hwords, PRG.words_length, h.rest]⟩

end Takes

def actEntries (size : ℕ) (id : Party) (s : Storage) : Servers.Action → List LogEntry
  | .send f => (drawEvents id s.rngs (s.sendDraws size id f)).map (LogEntry.mk f)
  | .recv f => (drawEvents id s.rngs (s.recvDraws size id f) ++
      readEvents s id (Storage.recvReadLength size f)).map (LogEntry.mk f)
  | .exchange | .clear => []

section entries

open Preprocessor

variable {size : ℕ} {id : Party} {stream : Stream} {p p' : Preprocessor} {f : Gate}

theorem recordGate_logs {l : List Event} (h : Logs (Backend.preprocessGate size id p.recv f)
      (Backend.preprocessGate size id p.recv f) p.data l)
    (hp : Preprocessor.preprocessGate size id p f = some p') :
    recordGate size id p f = some (p', l.map (LogEntry.mk f)) := by
  rw [recordGate, h.run, preprocessGate_memory, hp]
  rfl

theorem recordAct_logs {s s' : Storage} {a : Servers.Action} (hid : id ≠ .d)
    (h : s.act size id a = some s') :
    recordAct size id s a = some (s', actEntries size id s a) := by
  cases a with
  | send f =>
    rw [recordAct, (sendCorrelation_logs s).run, sendCorrelation_memory hid, ← Option.some.inj h]
    rfl
  | recv f =>
    obtain ⟨⟨k, t⟩, ht, rfl⟩ := Option.map_eq_some_iff.mp h
    rw [recordAct, (recvCorrelation_logs hid s).run, recvCorrelation_memory hid, ht]
    rfl
  | exchange | clear =>
    rw [← Option.some.inj h]
    rfl

theorem drawEvents_drawnOn {who : Party} {F : RandomGenerators → PRG} {l : List Draw}
    (hl : ∀ d ∈ l, d.gate = f)
    (hdraw : ∀ d ∈ l, ∀ g : RandomGenerators, F (g.draw who d.server d.stream d.words).2 =
      if Draw.on id stream d = true then (F g).skip d.words else F g)
    (hwords : ∀ d ∈ l, Draw.on id stream d = true → ∀ g : RandomGenerators,
      (g.draw who d.server d.stream d.words).1 = (F g).words d.words) (g : RandomGenerators) :
    ((drawEvents who g l).map (LogEntry.mk f)).filterMap (LogEntry.drawnOn id stream) =
      fill (F g) (l.filter (Draw.on id stream)) := by
  induction l generalizing g with
  | nil => rfl
  | cons d l ih =>
    have hmem := List.mem_cons_self (a := d) (l := l)
    have hrest := ih (fun e he => hl e (List.mem_cons_of_mem _ he))
      (fun e he => hdraw e (List.mem_cons_of_mem _ he))
      (fun e he => hwords e (List.mem_cons_of_mem _ he)) (g.draw who d.server d.stream d.words).2
    rw [hdraw d hmem] at hrest
    rw [drawEvents, List.map_cons, List.filterMap_cons, List.filter_cons, hrest]
    by_cases hon : Draw.on id stream d = true
    · rw [if_pos hon, if_pos hon, fill, hl d hmem, ← hwords d hmem hon g]
      rw [Draw.on, decide_eq_true_eq] at hon
      simp only [LogEntry.drawnOn, if_pos hon]
    · rw [if_neg hon, if_neg hon]
      rw [Draw.on, decide_eq_true_eq] at hon
      simp only [LogEntry.drawnOn, if_neg hon]

theorem dealer_drawnOn (hid : id ≠ .d) {l : List Draw}
    (hl : ∀ d ∈ l, d.server ≠ .d ∧ d.gate = f) (g : RandomGenerators) :
    ((drawEvents .d g l).map (LogEntry.mk f)).filterMap (LogEntry.drawnOn id stream) =
      fill (g.withServer id stream) (l.filter (Draw.on id stream)) := by
  refine drawEvents_drawnOn (F := fun g => g.withServer id stream) (fun d hd => (hl d hd).2)
    (fun d hd g => ?_) (fun d hd hon g => ?_) g
  · obtain ⟨hs, -⟩ := hl d hd
    obtain ⟨server, stream', gate, role, n⟩ := d
    cases server <;> cases id <;> cases stream' <;> cases stream <;> first
      | exact absurd rfl hs
      | exact absurd rfl hid
      | rfl
  · rw [Draw.on, decide_eq_true_eq] at hon
    rw [hon.1, hon.2]
    rfl

theorem party_drawnOn (hid : id ≠ .d) {l : List Draw} (hl : ∀ d ∈ l, d.server = id ∧ d.gate = f)
    (g : RandomGenerators) :
    ((drawEvents id g l).map (LogEntry.mk f)).filterMap (LogEntry.drawnOn id stream) =
      fill (g.withDealer stream) (l.filter (Draw.on id stream)) := by
  refine drawEvents_drawnOn (F := fun g => g.withDealer stream) (fun d hd => (hl d hd).2)
    (fun d hd g => ?_) (fun d hd hon g => ?_) g
  · obtain ⟨hs, -⟩ := hl d hd
    obtain ⟨server, stream', gate, role, n⟩ := d
    rw [RandomGenerators.draw, if_neg hid]
    cases stream' <;> cases stream <;> simp [Draw.on, show server = id from hs] <;> rfl
  · rw [Draw.on, decide_eq_true_eq] at hon
    rw [RandomGenerators.draw, if_neg hid, hon.2]

theorem dealerDraws_gate : ∀ d ∈ dealerDraws size p f, d.server ≠ .d ∧ d.gate = f := by
  unfold dealerDraws permDraws maskDraws mergedPermDraws dealerTriple
  split <;> (try split_ifs) <;> simp

theorem partyDraws_gate : ∀ d ∈ partyDraws size id p f, d.server = id ∧ d.gate = f := by
  unfold partyDraws partyTriple
  split <;> (try split_ifs) <;> simp

theorem sendDraws_gate (s : Storage) : ∀ d ∈ s.sendDraws size id f, d.server = id ∧ d.gate = f := by
  unfold Storage.sendDraws
  split <;> (try split_ifs) <;> simp

theorem recvDraws_gate (s : Storage) : ∀ d ∈ s.recvDraws size id f, d.server = id ∧ d.gate = f := by
  unfold Storage.recvDraws
  split <;> (try split_ifs) <;> simp

theorem drawEvents_chunks {who : Party} {pick : LogEntry → Option Chunk}
    (hp : ∀ f server stream role ws, pick ⟨f, .draw server stream role ws⟩ = none)
    (g : RandomGenerators) (l : List Draw) :
    ((drawEvents who g l).map (LogEntry.mk f)).filterMap pick = [] := by
  induction l generalizing g with
  | nil => rfl
  | cons d l ih => rw [drawEvents, List.map_cons, List.filterMap_cons, hp, ih]

theorem readEvents_readBack (s : Storage) (n : Option ℕ) :
    ((readEvents s id n).map (LogEntry.mk f)).filterMap LogEntry.readBack = s.readChunks id f n := by
  unfold readEvents Storage.readChunks
  cases n.bind fun n => s.readPreproc id n <;> rfl

theorem readEvents_drawnOn (s : Storage) (n : Option ℕ) :
    ((readEvents s id n).map (LogEntry.mk f)).filterMap (LogEntry.drawnOn id stream) = [] := by
  unfold readEvents
  cases n.bind fun n => s.readPreproc id n <;> rfl

theorem storesVec_nodup : (storesVec p f).Nodup := by
  unfold storesVec
  split <;> (try split_ifs) <;> simp

theorem storesB_nodup : (storesB f).Nodup := by
  unfold storesB
  split <;> simp

theorem pick_stored {l : List Party} (hl : l.Nodup) (chunk : Party → Chunk) :
    l.filterMap (fun dst => if dst = id then some (chunk dst) else none) =
      if id ∈ l then [chunk id] else [] := by
  induction l with
  | nil => rfl
  | cons dst l ih =>
    obtain ⟨hdst, hrest⟩ := List.nodup_cons.mp hl
    by_cases h : dst = id
    · subst h
      simp [ih hrest, hdst]
    · simp [ih hrest, h, Ne.symm h]

theorem dealerEvents_drawnOn (hid : id ≠ .d) :
    ((dealerEvents size p f).map (LogEntry.mk f)).filterMap (LogEntry.drawnOn id stream) =
      fill (p.data.rngs.withServer id stream)
        ((dealerDraws size p f).filter (Draw.on id stream)) := by
  simp only [dealerEvents, List.map_append, List.filterMap_append,
    dealer_drawnOn hid dealerDraws_gate]
  simp [List.filterMap_map, Function.comp_def, vecEvent, bEvent, LogEntry.drawnOn]

theorem dealerEvents_storedVec :
    ((dealerEvents size p f).map (LogEntry.mk f)).filterMap (LogEntry.storedVec id) =
      storedVec size id p f := by
  have hpick : _ = storedVec size id p f := pick_stored storesVec_nodup fun dst =>
    ⟨f, appended (p.data.preproc dst) ((dealGate size p f).data.preproc dst)⟩
  simp only [dealerEvents, List.map_append, List.filterMap_append]
  rw [drawEvents_chunks fun _ _ _ _ _ => rfl, ← hpick]
  simp [List.filterMap_map, Function.comp_def, vecEvent, bEvent, LogEntry.storedVec]

theorem dealerEvents_storedB :
    ((dealerEvents size p f).map (LogEntry.mk f)).filterMap (LogEntry.storedB id) =
      storedB size id p f := by
  have hpick : _ = storedB size id p f := pick_stored storesB_nodup fun dst =>
    ⟨f, appended (p.data.B dst) ((dealGate size p f).data.B dst)⟩
  simp only [dealerEvents, List.map_append, List.filterMap_append]
  rw [drawEvents_chunks fun _ _ _ _ _ => rfl, ← hpick]
  simp [List.filterMap_map, Function.comp_def, vecEvent, bEvent, LogEntry.storedB]

theorem partyEvents_drawnOn (hid : id ≠ .d) :
    ((partyEvents size id p f).map (LogEntry.mk f)).filterMap (LogEntry.drawnOn id stream) =
      fill (p.data.rngs.withDealer stream)
        ((partyDraws size id p f).filter (Draw.on id stream)) := by
  rw [partyEvents, List.map_append, List.filterMap_append, party_drawnOn hid partyDraws_gate,
    readEvents_drawnOn, List.append_nil]

theorem partyEvents_readBack :
    ((partyEvents size id p f).map (LogEntry.mk f)).filterMap LogEntry.readBack =
      p.data.readChunks id f (readLength size id p f) := by
  rw [partyEvents, List.map_append, List.filterMap_append, drawEvents_chunks fun _ _ _ _ _ => rfl,
    readEvents_readBack, List.nil_append]

theorem actEntries_drawnOn (hid : id ≠ .d) (s : Storage) (a : Servers.Action) :
    (actEntries size id s a).filterMap (LogEntry.drawnOn id stream) =
      fill (s.rngs.withDealer stream) ((s.actDraws size id a).filter (Draw.on id stream)) := by
  cases a with
  | send f => exact party_drawnOn hid (sendDraws_gate s) _
  | recv f =>
    rw [actEntries, List.map_append, List.filterMap_append, party_drawnOn hid (recvDraws_gate s),
      readEvents_drawnOn, List.append_nil]
    rfl
  | exchange | clear => rfl

theorem actEntries_readBack (s : Storage) (a : Servers.Action) :
    (actEntries size id s a).filterMap LogEntry.readBack = s.actReads size id a := by
  cases a with
  | send f => exact drawEvents_chunks (fun _ _ _ _ _ => rfl) _ _
  | recv f =>
    rw [actEntries, List.map_append, List.filterMap_append,
      drawEvents_chunks fun _ _ _ _ _ => rfl, readEvents_readBack, List.nil_append]
    rfl
  | exchange | clear => rfl

end entries

end GraphMpc
