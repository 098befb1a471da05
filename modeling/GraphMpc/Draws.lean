import GraphMpc.Backends
import GraphMpc.Dealer
import GraphMpc.Library.Trace

namespace GraphMpc

open Tabulate Permutation Preprocessor

structure Draw where
  server : Party
  stream : Stream
  gate : Gate
  role : Role
  words : ℕ
  deriving DecidableEq, Repr

def Draw.on (id : Party) (stream : Stream) (d : Draw) : Bool := d.server = id ∧ d.stream = stream

def drawn (id : Party) (stream : Stream) (l : List Draw) : ℕ :=
  ((l.filter (Draw.on id stream)).map Draw.words).sum

structure Chunk where
  gate : Gate
  vec : Vec
  deriving DecidableEq, Repr

namespace Preprocessor

def maskDraws (size : ℕ) (f : Gate) : List Draw :=
  [⟨.p0, .send, f, .mask, size⟩, ⟨.p1, .send, f, .mask, size⟩]

def permDraws (size : ℕ) (recv : Party) (f : Gate) : List Draw :=
  if recv = .p1 then
    [⟨.p0, .send, f, .pi0p, size⟩, ⟨.p0, .recv, f, .pi0, size⟩, ⟨.p1, .send, f, .pi1, size⟩]
  else
    [⟨.p1, .send, f, .pi1, size⟩, ⟨.p1, .recv, f, .pi1p, size⟩, ⟨.p0, .recv, f, .pi0, size⟩]

def mergedPermDraws (size : ℕ) (f : Gate) : List Draw :=
  [⟨.p0, .recv, f, .pi0, size⟩, ⟨.p1, .recv, f, .pi1p, size⟩]

def dealerTriple (recv : Party) (n : ℕ) (f : Gate) : List Draw :=
  [⟨.p0, .prep, f, .tripleA, n⟩, ⟨.p1, .prep, f, .tripleA, n⟩,
    ⟨.p0, .prep, f, .tripleB, n⟩, ⟨.p1, .prep, f, .tripleB, n⟩,
    ⟨if recv = .p1 then .p0 else .p1, .prep, f, .tripleC, n⟩]

def dealerDraws (size : ℕ) (p : Preprocessor) (f : Gate) : List Draw :=
  match f.type with
  | .shuffle => maskDraws size f ++
      if (p.data.pi0 f.shuffleIdx).size = 0 then permDraws size p.recv f else []
  | .mergedShuffle => maskDraws size f ++
      if (p.data.pi0 f.shuffleIdx).size = 0 then mergedPermDraws size f else []
  | .unshuffle => maskDraws size f
  | .compaction => dealerTriple p.recv size f
  | .mulSIMD | .eqz | .bit2A => dealerTriple p.recv f.size f
  | _ => []

def partyTriple (id recv : Party) (n : ℕ) (f : Gate) : List Draw :=
  [⟨id, .prep, f, .tripleA, n⟩, ⟨id, .prep, f, .tripleB, n⟩] ++
    if id = recv then [] else [⟨id, .prep, f, .tripleC, n⟩]

def partyDraws (size : ℕ) (id : Party) (p : Preprocessor) (f : Gate) : List Draw :=
  match f.type with
  | .compaction => partyTriple id p.recv size f
  | .mulSIMD | .eqz | .bit2A => partyTriple id p.recv f.size f
  | _ => []

def storesVec (p : Preprocessor) (f : Gate) : List Party :=
  match f.type with
  | .shuffle => if (p.data.pi0 f.shuffleIdx).size = 0 then
      [if p.recv = .p1 then .p1 else .p0] else []
  | .mergedShuffle => if (p.data.pi0 f.shuffleIdx).size = 0 then [.p0, .p1] else []
  | .compaction | .mulSIMD | .eqz | .bit2A => [p.recv]
  | _ => []

def storesB (f : Gate) : List Party :=
  match f.type with
  | .shuffle | .mergedShuffle | .unshuffle => [.p0, .p1]
  | _ => []

def appended (before after : Vec) : Vec := after.drop before.length

def storedVec (size : ℕ) (id : Party) (p : Preprocessor) (f : Gate) : List Chunk :=
  if id ∈ storesVec p f then
    [⟨f, appended (p.data.preproc id) ((dealGate size p f).data.preproc id)⟩] else []

def storedB (size : ℕ) (id : Party) (p : Preprocessor) (f : Gate) : List Chunk :=
  if id ∈ storesB f then [⟨f, appended (p.data.B id) ((dealGate size p f).data.B id)⟩] else []

def readLength (size : ℕ) (id : Party) (p : Preprocessor) (f : Gate) : Option ℕ :=
  match f.type with
  | .shuffle => if p.recv = id ∧ p.data.preprocessed f.shuffleIdx = false then some size else none
  | .mergedShuffle => if p.data.preprocessed f.shuffleIdx = false then some size else none
  | .compaction => if id = p.recv then some size else none
  | .mulSIMD | .eqz | .bit2A => if id = p.recv then some f.size else none
  | _ => none

end Preprocessor

namespace Storage

def readChunks (s : Storage) (id : Party) (f : Gate) (n : Option ℕ) : List Chunk :=
  (n.bind fun n => s.readPreproc id n).toList.map fun t => ⟨f, t.1⟩

def sendDraws (size : ℕ) (id : Party) (s : Storage) (f : Gate) : List Draw :=
  match f.type with
  | .mergedShuffle | .shuffle => ⟨id, .send, f, .mask, size⟩ ::
      if id = .p0 then
        if (s.pi0p f.shuffleIdx).size = 0 then [⟨id, .send, f, .pi0p, size⟩] else []
      else if (s.pi1 f.shuffleIdx).size = 0 then [⟨id, .send, f, .pi1, size⟩] else []
  | .unshuffle => [⟨id, .send, f, .mask, size⟩]
  | _ => []

def recvDraws (size : ℕ) (id : Party) (s : Storage) (f : Gate) : List Draw :=
  match f.type with
  | .mergedShuffle | .shuffle =>
      if id = .p0 then
        if (s.pi0 f.shuffleIdx).size = 0 then [⟨id, .recv, f, .pi0, size⟩] else []
      else if (s.pi1p f.shuffleIdx).size = 0 then [⟨id, .recv, f, .pi1p, size⟩] else []
  | _ => []

def recvReadLength (size : ℕ) (f : Gate) : Option ℕ :=
  match f.type with
  | .mergedShuffle | .shuffle | .unshuffle => some size
  | _ => none

def act (size : ℕ) (id : Party) (s : Storage) : Servers.Action → Option Storage
  | .send f => some (s.sendCorrelation size id f).2
  | .recv f => (s.recvCorrelation size id f).map Prod.snd
  | .exchange | .clear => some s

def actDraws (size : ℕ) (id : Party) (s : Storage) : Servers.Action → List Draw
  | .send f => s.sendDraws size id f
  | .recv f => s.recvDraws size id f
  | .exchange | .clear => []

def actReads (size : ℕ) (id : Party) (s : Storage) : Servers.Action → List Chunk
  | .recv f => s.readChunks id f (recvReadLength size f)
  | .send _ | .exchange | .clear => []

end Storage

section advance

variable {size : ℕ} {p : Preprocessor} {f : Gate} {id : Party} {stream : Stream}

theorem withServer_masks (s : Storage) (hid : id ≠ .d) :
    (s.dealMasks size).2.2.rngs.withServer id stream =
      (s.rngs.withServer id stream).skip (drawn id stream (maskDraws size f)) := by
  cases id <;> cases stream <;> first
    | exact absurd rfl hid
    | simp [Storage.dealMasks, RandomGenerators.withServer, drawn, maskDraws, Draw.on, PRG.skip_zero]

theorem withServer_correction (s : Storage) (pi : Permutation) (r0 r1 : Vec) :
    (s.dealCorrection pi r0 r1).rngs.withServer id stream = s.rngs.withServer id stream := by
  cases id <;> cases stream <;> rfl

theorem drawn_append (l l' : List Draw) :
    drawn id stream (l ++ l') = drawn id stream l + drawn id stream l' := by
  simp [drawn, List.filter_append]

theorem drawn_nil : drawn id stream [] = 0 := rfl

theorem withServer_perms (s : Storage) (recv : Party) (idx : ℕ) (hid : id ≠ .d) :
    (s.dealPerms size recv idx).rngs.withServer id stream =
      (s.rngs.withServer id stream).skip (drawn id stream (permDraws size recv f)) := by
  by_cases hr : recv = .p1
  · cases id <;> cases stream <;> first
      | exact absurd rfl hid
      | simp [Storage.dealPerms, Storage.storeVec, RandomGenerators.withServer, drawn, permDraws,
          Draw.on, hr, random_words, PRG.skip_zero]
  · cases id <;> cases stream <;> first
      | exact absurd rfl hid
      | simp [Storage.dealPerms, Storage.storeVec, RandomGenerators.withServer, drawn, permDraws,
          Draw.on, hr, random_words, PRG.skip_zero]

theorem withServer_mergedPerms (s : Storage) (idx piIdx omegaIdx : ℕ) (hid : id ≠ .d) :
    (s.dealMergedPerms size idx piIdx omegaIdx).rngs.withServer id stream =
      (s.rngs.withServer id stream).skip (drawn id stream (mergedPermDraws size f)) := by
  cases id <;> cases stream <;> first
    | exact absurd rfl hid
    | simp [Storage.dealMergedPerms, Storage.storeVec, RandomGenerators.withServer, drawn,
        mergedPermDraws, Draw.on, random_words, PRG.skip_zero]

theorem withServer_triples (s : Storage) (recv : Party) (n : ℕ) (hid : id ≠ .d) :
    ((s.dealTriples .d recv n f).getD s).rngs.withServer id stream =
      (s.rngs.withServer id stream).skip (drawn id stream (dealerTriple recv n f)) := by
  rw [dealTriples_dealer, Option.getD_some]
  by_cases hr : recv = .p1
  · cases id <;> cases stream <;> first
      | exact absurd rfl hid
      | simp [RandomGenerators.withServer, drawn, Draw.on, dealerTriple, PRG.skip_zero, PRG.skip_skip,
          PRG.skipTwice, Nat.add_assoc, hr]
  · cases id <;> cases stream <;> first
      | exact absurd rfl hid
      | simp [RandomGenerators.withServer, drawn, Draw.on, dealerTriple, PRG.skip_zero, PRG.skip_skip,
          PRG.skipTwice, Nat.add_assoc, hr]

theorem dealGate_drawn (p : Preprocessor) (f : Gate) (hid : id ≠ .d) :
    (dealGate size p f).data.rngs.withServer id stream =
      (p.data.rngs.withServer id stream).skip (drawn id stream (dealerDraws size p f)) := by
  have hmasks := @withServer_masks size f id stream p.data hid
  cases ht : f.type
  case shuffle =>
    rw [dealGate_shuffle ht]
    simp only [markPreprocessed, Storage.dealShuffle, withServer_correction, dealerDraws, ht,
      drawn_append]
    rw [← PRG.skip_skip, ← hmasks]
    by_cases hf : (p.data.pi0 f.shuffleIdx).size = 0
    · rw [if_pos hf, if_pos (show ((p.data.dealMasks size).2.2.pi0 f.shuffleIdx).size = 0 from hf),
        withServer_perms (f := f) _ _ _ hid]
    · rw [if_neg hf, if_neg (show ¬((p.data.dealMasks size).2.2.pi0 f.shuffleIdx).size = 0 from hf)]
      rfl
  case mergedShuffle =>
    rw [dealGate_merged ht]
    simp only [markPreprocessed, Storage.dealMergedShuffle, withServer_correction, dealerDraws, ht,
      drawn_append]
    rw [← PRG.skip_skip, ← hmasks]
    by_cases hf : (p.data.pi0 f.shuffleIdx).size = 0
    · rw [if_pos hf, if_pos (show ((p.data.dealMasks size).2.2.pi0 f.shuffleIdx).size = 0 from hf),
        withServer_mergedPerms (f := f) _ _ _ _ hid]
    · rw [if_neg hf, if_neg (show ¬((p.data.dealMasks size).2.2.pi0 f.shuffleIdx).size = 0 from hf)]
      rfl
  case unshuffle =>
    rw [dealGate_unshuffle ht]
    simp only [Storage.dealUnshuffle, withServer_correction, dealerDraws, ht]
    exact hmasks
  case compaction | mulSIMD | eqz | bit2A =>
    simp only [dealerDraws, ht]
    rw [← withServer_triples _ _ _ hid]
    simp [dealGate, preprocessGate, ht, dealTriples_dealer]
  all_goals
    simp [dealGate, preprocessGate, ht, dealerDraws, drawn_nil, PRG.skip_zero]

theorem readPreproc_some {s s' : Storage} {n : ℕ} {v : Vec} (h : s.readPreproc id n = some (v, s')) :
    s'.rngs = s.rngs := by
  simp only [Storage.readPreproc, Option.bind_eq_bind, Option.pure_def] at h
  obtain ⟨t, -, ht⟩ := Option.bind_eq_some_iff.mp h
  rw [← (Prod.mk.inj (Option.some.inj ht)).2]

theorem dealTriples_some {s s' : Storage} {recv : Party} {n : ℕ} (hid : id ≠ .d)
    (h : s.dealTriples id recv n f = some s') :
    s'.rngs.withDealer stream =
        (s.rngs.withDealer stream).skip (drawn id stream (partyTriple id recv n f)) ∧
      s'.readIdx = ((if id = recv then some n else none).bind fun n =>
        s.readPreproc id n).elim s.readIdx fun t => t.2.readIdx := by
  simp only [Storage.dealTriples, Storage.randomShareSecretVec3P, randomShareVec3P, if_neg hid,
    tab_length, Option.bind_eq_bind, Option.pure_def] at h
  by_cases hr : id = recv
  · rw [if_pos hr] at h
    obtain ⟨⟨v, d⟩, hd, hs⟩ := Option.bind_eq_some_iff.mp h
    have hd' : readChunk (s.preproc id) n s.readIdx = some (v, d.readIdx) ∧
        d.rngs.withDealer stream = (s.rngs.withDealer stream).skip
          (drawn id stream (partyTriple id recv n f)) := by
      simp only [Storage.readPreproc, Option.bind_eq_bind, Option.pure_def] at hd
      obtain ⟨⟨v', i⟩, ht, he⟩ := Option.bind_eq_some_iff.mp hd
      obtain ⟨rfl, rfl⟩ := Prod.mk.inj (Option.some.inj he)
      refine ⟨ht, ?_⟩
      cases stream <;> simp [partyTriple, hr, drawn, Draw.on, RandomGenerators.withDealer,
        PRG.skip_skip, PRG.skip_zero]
    rw [← Option.some.inj hs]
    refine ⟨hd'.2, ?_⟩
    simp only [if_pos hr, Option.bind_some, Storage.readPreproc, hd'.1, Option.bind_eq_bind,
      Option.pure_def, Option.elim_some]
    rfl
  · rw [if_neg hr, Option.bind_some] at h
    rw [← Option.some.inj h]
    refine ⟨?_, by rw [if_neg hr]; rfl⟩
    cases stream <;> simp [partyTriple, hr, drawn, Draw.on, RandomGenerators.withDealer,
      Storage.storeTriples, PRG.skip_skip, PRG.skip_zero, Nat.add_assoc]

theorem readPreproc_readIdx {s s' : Storage} {n : ℕ} {v : Vec}
    (h : s.readPreproc id n = some (v, s')) :
    s'.readIdx = ((some n).bind fun n => s.readPreproc id n).elim s.readIdx fun t => t.2.readIdx := by
  rw [Option.bind_some, h]
  rfl

theorem kept_drawn {n idx : ℕ} (upd : Vec → Storage → Storage) {recv : Party} {p' : Preprocessor}
    (hu : ∀ v s, (upd v s).rngs = s.rngs ∧ (upd v s).readIdx = s.readIdx)
    (h : ((p.data.readPreproc id n).bind fun t =>
      some (⟨markPreprocessed (upd t.1 t.2) idx, recv⟩ : Preprocessor)) = some p') :
    p'.data.rngs.withDealer stream = p.data.rngs.withDealer stream ∧
      p'.data.readIdx = ((some n).bind fun n => p.data.readPreproc id n).elim p.data.readIdx
        fun t => t.2.readIdx := by
  obtain ⟨⟨v, s⟩, hv, he⟩ := Option.bind_eq_some_iff.mp h
  rw [← Option.some.inj he]
  refine ⟨?_, (hu v s).2.trans (readPreproc_readIdx hv)⟩
  rw [← readPreproc_some hv, ← (hu v s).1]
  rfl

theorem preprocessGate_drawn {p' : Preprocessor} (hid : id ≠ .d)
    (h : preprocessGate size id p f = some p') :
    p'.data.rngs.withDealer stream =
        (p.data.rngs.withDealer stream).skip (drawn id stream (partyDraws size id p f)) ∧
      p'.data.readIdx = ((readLength size id p f).bind fun n =>
        p.data.readPreproc id n).elim p.data.readIdx fun t => t.2.readIdx := by
  have hidle : p.data.rngs = p'.data.rngs → p.data.readIdx = p'.data.readIdx →
      p'.data.rngs.withDealer stream = (p.data.rngs.withDealer stream).skip 0 ∧
        p'.data.readIdx = p.data.readIdx := fun h1 h2 => ⟨by rw [h1, PRG.skip_zero], h2.symm⟩
  cases ht : f.type
  case shuffle =>
    simp only [partyDraws, readLength, ht, drawn_nil]
    cases id with
    | d => exact absurd rfl hid
    | p0 =>
      simp only [preprocessGate, ht] at h
      split at h <;> rename_i hc
      · rw [if_pos hc]
        exact kept_drawn (fun v s =>
          { s with pi0p := Function.update s.pi0p f.shuffleIdx ⟨v⟩ }) (fun _ _ => ⟨rfl, rfl⟩) h
      · rw [if_neg hc]
        exact hidle (by rw [← Option.some.inj h]; rfl) (by rw [← Option.some.inj h]; rfl)
    | p1 =>
      simp only [preprocessGate, ht] at h
      split at h <;> rename_i hc
      · rw [if_pos hc]
        exact kept_drawn (fun v s =>
          { s with pi1p := Function.update s.pi1p f.shuffleIdx ⟨v⟩ }) (fun _ _ => ⟨rfl, rfl⟩) h
      · rw [if_neg hc]
        exact hidle (by rw [← Option.some.inj h]; rfl) (by rw [← Option.some.inj h]; rfl)
  case mergedShuffle =>
    simp only [partyDraws, readLength, ht, drawn_nil]
    cases id with
    | d => exact absurd rfl hid
    | p0 =>
      simp only [preprocessGate, ht] at h
      split at h <;> rename_i hc
      · rw [if_pos hc]
        exact kept_drawn (fun v s =>
          { s with pi0p := Function.update s.pi0p f.shuffleIdx ⟨v⟩ }) (fun _ _ => ⟨rfl, rfl⟩) h
      · rw [if_neg hc]
        exact hidle (by rw [← Option.some.inj h]; rfl) (by rw [← Option.some.inj h]; rfl)
    | p1 =>
      simp only [preprocessGate, ht] at h
      split at h <;> rename_i hc
      · rw [if_pos hc]
        exact kept_drawn (fun v s =>
          { s with pi1 := Function.update s.pi1 f.shuffleIdx ⟨v⟩ }) (fun _ _ => ⟨rfl, rfl⟩) h
      · rw [if_neg hc]
        exact hidle (by rw [← Option.some.inj h]; rfl) (by rw [← Option.some.inj h]; rfl)
  case compaction | mulSIMD | eqz | bit2A =>
    simp only [preprocessGate, ht] at h
    simp only [partyDraws, readLength, ht]
    obtain ⟨d, hd, he⟩ := Option.bind_eq_some_iff.mp h
    rw [← Option.some.inj he]
    exact dealTriples_some hid hd
  case unshuffle =>
    simp only [preprocessGate, ht, if_neg hid] at h
    simp only [partyDraws, readLength, ht]
    exact hidle (by rw [← Option.some.inj h]) (by rw [← Option.some.inj h])
  all_goals
    simp only [preprocessGate, ht] at h
    simp only [partyDraws, readLength, ht]
    exact hidle (by rw [← Option.some.inj h]) (by rw [← Option.some.inj h])

theorem sendCorrelation_drawn (s : Storage) (f : Gate) :
    (s.sendCorrelation size id f).2.rngs.withDealer stream =
        (s.rngs.withDealer stream).skip (drawn id stream (s.sendDraws size id f)) ∧
      (s.sendCorrelation size id f).2.readIdx = s.readIdx := by
  have hplain : s.rngs.withDealer stream = (s.rngs.withDealer stream).skip 0 := (PRG.skip_zero _).symm
  have hperm : ∀ idx, ((s.drawSend size).2.sendPerm size id idx).2.rngs.withDealer stream =
      (s.rngs.withDealer stream).skip (drawn id stream (⟨id, .send, f, .mask, size⟩ ::
        if id = .p0 then
          if (s.pi0p idx).size = 0 then [⟨id, .send, f, .pi0p, size⟩] else []
        else if (s.pi1 idx).size = 0 then [⟨id, .send, f, .pi1, size⟩] else [])) ∧
      ((s.drawSend size).2.sendPerm size id idx).2.readIdx = s.readIdx := by
    intro idx
    by_cases hi : id = .p0
    · by_cases hp : (s.pi0p idx).size = 0 <;> cases stream <;>
        simp [Storage.drawSend, Storage.sendPerm, Storage.sampleSend, drawn, Draw.on, hi, hp,
          RandomGenerators.withDealer, random_words, PRG.skip_skip, PRG.skip_zero]
    · by_cases hp : (s.pi1 idx).size = 0 <;> cases stream <;>
        simp [Storage.drawSend, Storage.sendPerm, Storage.sampleSend, drawn, Draw.on, hi, hp,
          RandomGenerators.withDealer, random_words, PRG.skip_skip, PRG.skip_zero]
  cases ht : f.type
  case shuffle | mergedShuffle =>
    simp only [Storage.sendCorrelation, Storage.sendDraws, ht]
    exact hperm f.shuffleIdx
  case unshuffle =>
    simp only [Storage.sendCorrelation, Storage.sendDraws, ht]
    cases stream <;> simp [Storage.drawSend, drawn, Draw.on, RandomGenerators.withDealer, PRG.skip_zero]
  all_goals
    simp only [Storage.sendCorrelation, Storage.sendDraws, ht]
    exact ⟨hplain, trivial⟩

theorem recvCorrelation_drawn {s s' : Storage} {k : Correlation}
    (h : s.recvCorrelation size id f = some (k, s')) :
    s'.rngs.withDealer stream =
        (s.rngs.withDealer stream).skip (drawn id stream (s.recvDraws size id f)) ∧
      s'.readIdx = ((Storage.recvReadLength size f).bind fun n =>
        s.readPreproc id n).elim s.readIdx fun t => t.2.readIdx := by
  have hplain : s.rngs.withDealer stream = (s.rngs.withDealer stream).skip 0 := (PRG.skip_zero _).symm
  have hperm : ∀ idx, (s.recvPerm size id idx).2.rngs.withDealer stream =
      (s.rngs.withDealer stream).skip (drawn id stream
        (if id = .p0 then
          if (s.pi0 idx).size = 0 then [⟨id, .recv, f, .pi0, size⟩] else []
        else if (s.pi1p idx).size = 0 then [⟨id, .recv, f, .pi1p, size⟩] else [])) ∧
      (s.recvPerm size id idx).2.readIdx = s.readIdx ∧
      (s.recvPerm size id idx).2.preproc = s.preproc := by
    intro idx
    by_cases hi : id = .p0
    · by_cases hp : (s.pi0 idx).size = 0 <;> cases stream <;>
        simp [Storage.recvPerm, Storage.sampleRecv, drawn, Draw.on, hi, hp,
          RandomGenerators.withDealer, random_words, PRG.skip_zero]
    · by_cases hp : (s.pi1p idx).size = 0 <;> cases stream <;>
        simp [Storage.recvPerm, Storage.sampleRecv, drawn, Draw.on, hi, hp,
          RandomGenerators.withDealer, random_words, PRG.skip_zero]
  cases ht : f.type
  case shuffle | mergedShuffle =>
    simp only [Storage.recvCorrelation, Storage.recvDraws, Storage.recvReadLength, ht] at h ⊢
    obtain ⟨⟨v, d⟩, hv, he⟩ := Option.bind_eq_some_iff.mp h
    obtain ⟨h1, h2, h3⟩ := hperm f.shuffleIdx
    obtain ⟨rfl, rfl⟩ := Prod.mk.inj (Option.some.inj he)
    refine ⟨by rw [readPreproc_some hv, h1], ?_⟩
    rw [readPreproc_readIdx hv]
    simp only [Option.bind_some, Storage.readPreproc, h2, h3]
    cases readChunk (s.preproc id) size s.readIdx <;> rfl
  case unshuffle =>
    simp only [Storage.recvCorrelation, Storage.recvDraws, Storage.recvReadLength, ht] at h ⊢
    obtain ⟨⟨v, d⟩, hv, he⟩ := Option.bind_eq_some_iff.mp h
    obtain ⟨rfl, rfl⟩ := Prod.mk.inj (Option.some.inj he)
    exact ⟨by rw [readPreproc_some hv, drawn_nil, PRG.skip_zero], readPreproc_readIdx hv⟩
  all_goals
    simp only [Storage.recvCorrelation, Storage.recvDraws, Storage.recvReadLength, ht] at h ⊢
    obtain ⟨rfl, rfl⟩ := Prod.mk.inj (Option.some.inj h)
    exact ⟨hplain, rfl⟩

end advance

end GraphMpc
