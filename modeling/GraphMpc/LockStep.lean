import GraphMpc.Consistency
import GraphMpc.Recorded
import GraphMpc.Programs

namespace GraphMpc

open Tabulate Permutation Preprocessor Servers Circuit

section views

variable {conf : ProtocolConfig} {g : Streams} {order l r : List Gate} {f : Gate} {id : Party}
  {stream : Stream}

theorem dealt_size (hn : 0 < conf.size) (h : Tables conf g order l) (idx : ℕ) :
    ((dealRun conf.size g l).data.pi0 idx).size = 0 ↔ dealt l idx = false := by
  rw [h.pi0]
  cases dealt l idx <;> simp [null_size, hn.ne']

theorem permIf_size (hn : 0 < conf.size) (given : Bool) (σ : Equiv.Perm ℕ) :
    (permIf conf.size given σ).size = 0 ↔ given = false := by
  cases given <;> simp [permIf, null_size, hn.ne']

structure Abreast (conf : ProtocolConfig) (g : Streams) (order : List Gate) (id : Party)
    (l : List Gate) (f : Gate) (p : Preprocessor) : Prop where
  recv : p.recv = recvAt conf g l
  marks : ∀ idx, p.data.preprocessed idx = dealt l idx
  read : ∃ rest, At (p.data.preproc id) p.data.readIdx (prepChunk conf g order id l f ++ rest)

theorem Prepared.abreast (h : Dealable conf order) (ho : order = l ++ f :: r) {p0 p1 : Preprocessor}
    (hp : Prepared conf g order l p0 p1) :
    Abreast conf g order .p0 l f p0 ∧ Abreast conf g order .p1 l f p1 := by
  obtain ⟨⟨rest0, -, hat0⟩, rest1, -, hat1⟩ := hp.chunks h ho
  exact ⟨⟨hp.recv0, hp.marks0, _, hat0⟩, ⟨hp.recv1, hp.marks1, _, hat1⟩⟩

theorem partyTriple_on (hid : id ≠ .d) {recv : Party} (hr : recv = .p0 ∨ recv = .p1) (n : ℕ) :
    (partyTriple id recv n f).filter (Draw.on id stream) =
      if stream = .prep then (dealerTriple recv n f).filter (Draw.on id .prep) else [] := by
  rcases hr with rfl | rfl <;> cases id <;> cases stream <;> first
    | exact absurd rfl hid
    | simp [partyTriple, dealerTriple, Draw.on]

theorem Abreast.draws {p : Preprocessor} (hid : id ≠ .d) (h : Abreast conf g order id l f p) :
    (partyDraws conf.size id p f).filter (Draw.on id stream) = if stream = .prep then
      (dealerDraws conf.size (dealRun conf.size g l) f).filter (Draw.on id .prep) else [] := by
  have hr := recvAt_cases conf g l
  have hrecv : p.recv = (dealRun conf.size g l).recv := h.recv
  rw [recvAt] at hr
  cases ht : f.type
  case compaction | mulSIMD | eqz | bit2A =>
    simp only [partyDraws, dealerDraws, ht, hrecv]
    exact partyTriple_on hid hr _
  case shuffle =>
    simp only [partyDraws, dealerDraws, ht]
    by_cases hf : ((dealRun conf.size g l).data.pi0 f.shuffleIdx).size = 0 <;>
      by_cases hp : (dealRun conf.size g l).recv = .p1 <;>
        simp [hf, hp, maskDraws, permDraws, Draw.on]
  case mergedShuffle =>
    simp only [partyDraws, dealerDraws, ht]
    by_cases hf : ((dealRun conf.size g l).data.pi0 f.shuffleIdx).size = 0 <;>
      simp [hf, maskDraws, mergedPermDraws, Draw.on]
  all_goals simp [partyDraws, dealerDraws, ht, maskDraws, Draw.on]

theorem dealGate_preproc (h : Dealable conf order) (ho : order = l ++ f :: r) (hid : id ≠ .d) :
    (dealGate conf.size (dealRun conf.size g l) f).data.preproc id =
        (dealRun conf.size g l).data.preproc id ++ prepChunk conf g order id l f ∧
      (dealGate conf.size (dealRun conf.size g l) f).data.B id =
        (dealRun conf.size g l).data.B id ++ bChunk conf g order id l f := by
  obtain ⟨_, _, _, _, hstep⟩ := dealerStep_exists (g := g) h ho
  rw [← dealRun_snoc]
  cases id with
  | p0 => exact ⟨hstep.preproc0, hstep.b0⟩
  | p1 => exact ⟨hstep.preproc1, hstep.b1⟩
  | d => exact absurd rfl hid

theorem Abreast.readLength_eq {p : Preprocessor} (hn : 0 < conf.size) (h : Dealable conf order)
    (ho : order = l ++ f :: r) (hid : id ≠ .d) (ha : Abreast conf g order id l f p) :
    readLength conf.size id p f = if id ∈ storesVec (dealRun conf.size g l) f then
      some (prepChunk conf g order id l f).length else none := by
  have hfresh := dealt_size hn (tables h (g := g) l (f :: r) ho) f.shuffleIdx
  have hmark := ha.marks f.shuffleIdx
  have hrecv := ha.recv
  have htriple : ∀ n, (n = f.tripleLen conf) → f.takesTriple = true →
      (if id = p.recv then some n else none) = if id ∈ [(dealRun conf.size g l).recv] then
        some (prepChunk conf g order id l f).length else none := by
    rintro n rfl ht
    obtain ⟨h1, h2, -⟩ := takesTriple_types ht
    obtain ⟨hl0, hl1⟩ := tripleShares_length (f.tripleLen conf) f.binary (recvAt conf g l)
      (dealerAt conf g l).rngs
    have hmem : id ∈ [(dealRun conf.size g l).recv] ↔ id = recvAt conf g l := List.mem_singleton
    rw [hrecv]
    by_cases hr : id = recvAt conf g l
    · rw [if_pos hr, if_pos (hmem.mpr hr), prepChunk, if_neg (by simp [h1, h2]), if_pos ht,
        tripleChunk, if_pos hr.symm]
      cases id with
      | p0 => rw [if_neg (by decide), triplesAt, hl0]
      | p1 => rw [if_pos rfl, triplesAt, hl1]
      | d => exact absurd rfl hid
    · rw [if_neg hr, if_neg (hmem.not.mpr hr)]
  cases ht : f.type
  case shuffle =>
    have hd : f.deals f.shuffleIdx = true := deals_iff.mpr ⟨Or.inl ht, rfl⟩
    simp only [readLength, storesVec, ht, hmark, hrecv]
    cases hdl : dealt l f.shuffleIdx with
    | true => simp [hfresh, hdl]
    | false =>
      have hr : (dealRun conf.size g l).recv = recvAt conf g l := rfl
      rcases @merged_or_shuffle_kind conf g _ _ _ _ _ ho hd hdl with
        ⟨ht', -⟩ | ⟨-, hr', hk⟩ | ⟨-, hr', hk⟩
      · rw [ht] at ht'
        cases ht'
      · cases id <;> simp [hfresh, hdl, hr, hr', prepChunk, ht, permChunk, hk]
      · cases id <;> simp [hfresh, hdl, hr, hr', prepChunk, ht, permChunk, hk]
  case mergedShuffle =>
    have hd : f.deals f.shuffleIdx = true := deals_iff.mpr ⟨Or.inr ht, rfl⟩
    simp only [readLength, storesVec, ht, hmark]
    cases hdl : dealt l f.shuffleIdx with
    | true => simp [hfresh, hdl]
    | false =>
      rcases @merged_or_shuffle_kind conf g _ _ _ _ _ ho hd hdl with ⟨-, hk⟩ | ⟨ht', -⟩ | ⟨ht', -⟩
      · cases id <;> first
          | exact absurd rfl hid
          | simp [hfresh, hdl, prepChunk, ht, permChunk, hk]
      all_goals
        rw [ht] at ht'
        cases ht'
  case compaction | mulSIMD | eqz | bit2A =>
    simp only [readLength, storesVec, ht]
    exact htriple _ (by simp [Gate.tripleLen, ht]) (by simp [Gate.takesTriple, ht])
  all_goals simp [readLength, storesVec, ht]

theorem Abreast.reads {p : Preprocessor} (hn : 0 < conf.size) (h : Dealable conf order)
    (ho : order = l ++ f :: r) (hid : id ≠ .d) (ha : Abreast conf g order id l f p) :
    p.data.readChunks id f (readLength conf.size id p f) =
      storedVec conf.size id (dealRun conf.size g l) f := by
  obtain ⟨rest, hat⟩ := ha.read
  obtain ⟨i, hread, -⟩ := readPreproc_spec hat rfl
  rw [ha.readLength_eq hn h ho hid, storedVec, (dealGate_preproc h ho hid).1, appended_append]
  split
  · rw [Storage.readChunks, Option.bind_some, hread]
    rfl
  · rfl

section evaluation

variable {s0 s1 d0 d1 : Storage} {sent recvd : List Gate}

theorem draw_cases (ho : order = l ++ f :: r) (hd : f.deals f.shuffleIdx = true) :
    dealt l f.shuffleIdx = true ∨ dealt l f.shuffleIdx = false ∧
      ((f.type = .mergedShuffle ∧ dealKind conf g order f.shuffleIdx = .merged) ∨
        (f.type = .shuffle ∧ (dealRun conf.size g l).recv = .p1 ∧
          dealKind conf g order f.shuffleIdx = .toP1) ∨
        (f.type = .shuffle ∧ (dealRun conf.size g l).recv = .p0 ∧
          dealKind conf g order f.shuffleIdx = .toP0)) := by
  cases hn : dealt l f.shuffleIdx with
  | true => exact Or.inl rfl
  | false => exact Or.inr ⟨rfl, merged_or_shuffle_kind ho hd hn⟩

theorem Stocked.send_draws (hn : 0 < conf.size) (h : Dealable conf order)
    (hs : Stocked conf g order s0 s1 l recvd d0 d1) (ho : order = l ++ f :: r) :
    (d0.sendDraws conf.size .p0 f).filter (Draw.on .p0 stream) = (if stream = .send then
        (dealerDraws conf.size (dealRun conf.size g l) f).filter (Draw.on .p0 .send) else []) ∧
      (d1.sendDraws conf.size .p1 f).filter (Draw.on .p1 stream) = if stream = .send then
        (dealerDraws conf.size (dealRun conf.size g l) f).filter (Draw.on .p1 .send) else [] := by
  have hfresh := dealt_size hn (tables h (g := g) l (f :: r) ho) f.shuffleIdx
  have hin : f.deals f.shuffleIdx = true → dealt order f.shuffleIdx = true := fun hd =>
    dealt_iff.mpr ⟨f, by rw [ho]; simp, hd⟩
  have hpi0p := permIf_size hn (dealt order f.shuffleIdx && !kindIs conf g order f.shuffleIdx .toP1 ||
    dealt l f.shuffleIdx) (deal conf g order f.shuffleIdx).pi0p
  have hpi1 := permIf_size hn (dealt order f.shuffleIdx && kindIs conf g order f.shuffleIdx .merged ||
    dealt l f.shuffleIdx) (deal conf g order f.shuffleIdx).pi1
  rw [← hs.pi0p] at hpi0p
  rw [← hs.pi1] at hpi1
  cases ht : f.type
  case shuffle | mergedShuffle =>
    have hd : f.deals f.shuffleIdx = true := by simp [deals_iff, ht]
    rw [hin hd, Bool.true_and] at hpi0p hpi1
    rcases @draw_cases conf g order l r f ho hd with
      hdl | ⟨hdl, ⟨ht', hk⟩ | ⟨ht', hr, hk⟩ | ⟨ht', hr, hk⟩⟩
    all_goals
      cases stream <;> simp_all [Storage.sendDraws, dealerDraws, maskDraws, permDraws,
        mergedPermDraws, Draw.on, kindIs]
  case compaction | mulSIMD | eqz | bit2A =>
    cases stream <;> simp [Storage.sendDraws, dealerDraws, dealerTriple, ht, Draw.on]
  all_goals cases stream <;> simp [Storage.sendDraws, dealerDraws, maskDraws, ht, Draw.on]

theorem Stocked.recv_draws (hn : 0 < conf.size) (h : Dealable conf order)
    (hs : Stocked conf g order s0 s1 sent l d0 d1) (ho : order = l ++ f :: r) :
    (d0.recvDraws conf.size .p0 f).filter (Draw.on .p0 stream) = (if stream = .recv then
        (dealerDraws conf.size (dealRun conf.size g l) f).filter (Draw.on .p0 .recv) else []) ∧
      (d1.recvDraws conf.size .p1 f).filter (Draw.on .p1 stream) = if stream = .recv then
        (dealerDraws conf.size (dealRun conf.size g l) f).filter (Draw.on .p1 .recv) else [] := by
  have hfresh := dealt_size hn (tables h (g := g) l (f :: r) ho) f.shuffleIdx
  have hin : f.deals f.shuffleIdx = true → dealt order f.shuffleIdx = true := fun hd =>
    dealt_iff.mpr ⟨f, by rw [ho]; simp, hd⟩
  have hpi0 := permIf_size hn (dealt l f.shuffleIdx) (deal conf g order f.shuffleIdx).pi0
  have hpi1p := permIf_size hn (dealt order f.shuffleIdx && kindIs conf g order f.shuffleIdx .toP1 ||
    dealt l f.shuffleIdx) (deal conf g order f.shuffleIdx).pi1p
  rw [← hs.pi0] at hpi0
  rw [← hs.pi1p] at hpi1p
  cases ht : f.type
  case shuffle | mergedShuffle =>
    have hd : f.deals f.shuffleIdx = true := by simp [deals_iff, ht]
    rw [hin hd, Bool.true_and] at hpi1p
    rcases @draw_cases conf g order l r f ho hd with
      hdl | ⟨hdl, ⟨ht', hk⟩ | ⟨ht', hr, hk⟩ | ⟨ht', hr, hk⟩⟩
    all_goals
      cases stream <;> simp_all [Storage.recvDraws, dealerDraws, maskDraws, permDraws,
        mergedPermDraws, Draw.on, kindIs]
  case compaction | mulSIMD | eqz | bit2A =>
    cases stream <;> simp [Storage.recvDraws, dealerDraws, dealerTriple, ht, Draw.on]
  all_goals cases stream <;> simp [Storage.recvDraws, dealerDraws, maskDraws, ht, Draw.on]

variable (g order l) in
theorem bChunk_length (hid : id ≠ .d) :
    Storage.recvReadLength conf.size f = if id ∈ storesB f then
      some (bChunk conf g order id l f).length else none := by
  have hkeeps := (deal conf g order f.shuffleIdx).pi_keeps
  have hmem : id ∈ [Party.p0, .p1] := by cases id <;> simp at hid ⊢
  cases ht : f.type
  case shuffle | mergedShuffle =>
    simp only [Storage.recvReadLength, storesB, ht, if_pos hmem, bChunk, reduceCtorEq, or_false,
      or_true, if_true, correctionAt_length id l hkeeps]
  case unshuffle =>
    simp only [Storage.recvReadLength, storesB, ht, if_pos hmem, bChunk, reduceCtorEq, or_self,
      if_false, if_true, correctionAt_length id l hkeeps.inv]
  all_goals simp [Storage.recvReadLength, storesB, ht]

theorem readChunks_storedB (h : Dealable conf order) (ho : order = l ++ f :: r) (hid : id ≠ .d)
    {d : Storage} {rest : Vec}
    (hat : At (d.preproc id) d.readIdx (bChunk conf g order id l f ++ rest)) :
    d.readChunks id f (Storage.recvReadLength conf.size f) =
      storedB conf.size id (dealRun conf.size g l) f := by
  obtain ⟨i, hread, -⟩ := readPreproc_spec hat rfl
  rw [bChunk_length g order l hid, storedB, (dealGate_preproc h ho hid).2,
    appended_append]
  split
  · rw [Storage.readChunks, Option.bind_some, hread]
    rfl
  · rfl

theorem Stocked.reads (h : Dealable conf order) (hs : Stocked conf g order s0 s1 sent l d0 d1)
    (ho : order = l ++ f :: r) :
    d0.readChunks .p0 f (Storage.recvReadLength conf.size f) =
        storedB conf.size .p0 (dealRun conf.size g l) f ∧
      d1.readChunks .p1 f (Storage.recvReadLength conf.size f) =
        storedB conf.size .p1 (dealRun conf.size g l) f := by
  obtain ⟨⟨rest0, -, hat0⟩, rest1, -, hat1⟩ := hs.chunks h ho
  exact ⟨readChunks_storedB h ho (by decide) hat0, readChunks_storedB h ho (by decide) hat1⟩

end evaluation

theorem storedVec_vec (hn : 0 < conf.size) (h : Dealable conf order) (ho : order = l ++ f :: r)
    (hid : id ≠ .d) :
    (storedVec conf.size id (dealRun conf.size g l) f).flatMap Chunk.vec =
      prepChunk conf g order id l f := by
  rw [storedVec, (dealGate_preproc h ho hid).1, appended_append]
  split
  · simp
  · rename_i hc
    have hfresh := dealt_size hn (tables h (g := g) l (f :: r) ho) f.shuffleIdx
    have htriple : id ≠ recvAt conf g l → f.takesTriple = true →
        prepChunk conf g order id l f = [] := by
      intro hr ht
      obtain ⟨h1, h2, -⟩ := takesTriple_types ht
      rw [prepChunk, if_neg (by simp [h1, h2]), if_pos ht, tripleChunk, if_neg hr.symm]
    cases ht : f.type
    case shuffle | mergedShuffle =>
      have hd : f.deals f.shuffleIdx = true := by simp [deals_iff, ht]
      rcases @draw_cases conf g order l r f ho hd with
        hdl | ⟨hdl, ⟨ht', hk⟩ | ⟨ht', hr, hk⟩ | ⟨ht', hr, hk⟩⟩
      all_goals cases id <;> simp_all [storesVec, prepChunk, permChunk]
    case compaction | mulSIMD | eqz | bit2A =>
      simp only [storesVec, ht, List.mem_singleton] at hc
      exact (htriple hc (by simp [Gate.takesTriple, ht])).symm
    all_goals simp [prepChunk, ht, Gate.takesTriple]

theorem storedB_vec (h : Dealable conf order) (ho : order = l ++ f :: r) (hid : id ≠ .d) :
    (storedB conf.size id (dealRun conf.size g l) f).flatMap Chunk.vec =
      bChunk conf g order id l f := by
  rw [storedB, (dealGate_preproc h ho hid).2, appended_append]
  have hmem : id ∈ [Party.p0, .p1] := by cases id <;> simp at hid ⊢
  cases ht : f.type
  case shuffle | mergedShuffle | unshuffle => simp only [storesB, ht, if_pos hmem]; simp
  all_goals simp [storesB, bChunk, ht]

end views

namespace Servers

def storage (s : Servers) : Party → Storage
  | .p1 => s.e1.data
  | _ => s.e0.data

theorem run_act {conf : ProtocolConfig} {id : Party} (hid : id ≠ .d) {l : List Action}
    {s s' : Servers} (h : s.run conf l = some s') :
    l.foldlM (Storage.act conf.size id) (s.storage id) = some (s'.storage id) := by
  induction l generalizing s with
  | nil => exact congrArg (fun t : Servers => some (t.storage id)) (Option.some.inj h)
  | cons a l ih =>
    obtain ⟨t, ht, hrun⟩ := Option.bind_eq_some_iff.mp h
    have hact : Storage.act conf.size id (s.storage id) a = some (t.storage id) := by
      cases a with
      | send f =>
        obtain ⟨e0, h0, ht⟩ := Option.bind_eq_some_iff.mp ht
        obtain ⟨e1, h1, ht⟩ := Option.bind_eq_some_iff.mp ht
        obtain ⟨o0, -, h0⟩ := Option.bind_eq_some_iff.mp h0
        obtain ⟨o1, -, h1⟩ := Option.bind_eq_some_iff.mp h1
        rw [← Option.some.inj ht, ← Option.some.inj h0, ← Option.some.inj h1]
        cases id <;> first
          | exact absurd rfl hid
          | rfl
      | recv f =>
        obtain ⟨e0, h0, ht⟩ := Option.bind_eq_some_iff.mp ht
        obtain ⟨e1, h1, ht⟩ := Option.bind_eq_some_iff.mp ht
        obtain ⟨⟨k0, d0⟩, hd0, h0⟩ := Option.bind_eq_some_iff.mp h0
        obtain ⟨⟨k1, d1⟩, hd1, h1⟩ := Option.bind_eq_some_iff.mp h1
        obtain ⟨o0, -, h0⟩ := Option.bind_eq_some_iff.mp h0
        obtain ⟨o1, -, h1⟩ := Option.bind_eq_some_iff.mp h1
        rw [← Option.some.inj ht, ← Option.some.inj h0, ← Option.some.inj h1]
        cases id with
        | p0 => exact congrArg (Option.map Prod.snd) hd0
        | p1 => exact congrArg (Option.map Prod.snd) hd1
        | d => exact absurd rfl hid
      | exchange =>
        simp only [step, onlineCommunication] at ht
        split at ht
        · rw [← Option.some.inj ht]
          cases id <;> rfl
        · cases ht
      | clear =>
        rw [← Option.some.inj ht]
        cases id <;> rfl
    rw [List.foldlM_cons, hact]
    exact ih hrun

def sentGate : Action → Option Gate
  | .send f => some f
  | _ => none

def recvdGate : Action → Option Gate
  | .recv f => some f
  | _ => none

theorem schedule_sent (circ : List (List Gate)) :
    (schedule circ).filterMap sentGate = circ.flatten := by
  have hlayer : ∀ layer : List Gate, (layerSchedule layer).filterMap sentGate = layer := by
    intro layer
    have hs : sentGate ∘ Action.send = some := rfl
    have hr : sentGate ∘ Action.recv = fun _ => none := rfl
    simp only [layerSchedule, List.filterMap_append, List.filterMap_map, hs, hr]
    simp [sentGate]
  rw [schedule, List.filterMap_flatMap]
  simp only [hlayer, List.flatMap_id']

theorem schedule_recvd (circ : List (List Gate)) :
    (schedule circ).filterMap recvdGate = circ.flatten := by
  have hlayer : ∀ layer : List Gate, (layerSchedule layer).filterMap recvdGate = layer := by
    intro layer
    have hs : recvdGate ∘ Action.send = fun _ => none := rfl
    have hr : recvdGate ∘ Action.recv = some := rfl
    simp only [layerSchedule, List.filterMap_append, List.filterMap_map, hs, hr]
    simp [List.filterMap_cons, recvdGate]
  rw [schedule, List.filterMap_flatMap]
  simp only [hlayer, List.flatMap_id']

end Servers

section logs

variable (conf : ProtocolConfig) (circ : List (List Gate)) (g : Streams) (dealer prepared : Storage)
  (id : Party)

def dealerRecord : Option (Storage × List LogEntry) :=
  (Trace.emits (recordGate conf.size .d) ⟨Storage.init (g.generators .d), .p0⟩ circ.flatten).map
    fun p => (p.1.data, p.2)

def partyRecord : Option (Storage × List LogEntry) := do
  let (p, pre) ← Trace.emits (recordGate conf.size id) (partyStart g dealer id) circ.flatten
  let (final, post) ← Trace.emits (recordAct conf.size id) p.data (schedule circ)
  return (final, pre ++ post)

def dealerLog : List LogEntry :=
  Trace.log (preprocessGate conf.size .d)
    (fun p f => (dealerEvents conf.size p f).map (LogEntry.mk f))
    ⟨Storage.init (g.generators .d), .p0⟩ circ.flatten

def partyLog : List LogEntry :=
  Trace.log (preprocessGate conf.size id)
      (fun p f => (partyEvents conf.size id p f).map (LogEntry.mk f)) (partyStart g dealer id)
      circ.flatten ++
    Trace.log (Storage.act conf.size id) (actEntries conf.size id) prepared (schedule circ)

structure InLockStep (final : Storage) (dealerLog partyLog : List LogEntry) : Prop where
  dealer_run : runDealer conf circ g = some dealer
  party_run : runParty conf circ g dealer id = some prepared
  evaluation : (schedule circ).foldlM (Storage.act conf.size id) prepared = some final
  servers : ∀ s s' : Servers, s.storage id = prepared → s.run conf (schedule circ) = some s' →
    s'.storage id = final
  dealer_record : dealerRecord conf circ g = some (dealer, dealerLog)
  party_record : partyRecord conf circ g dealer id = some (final, partyLog)
  draws : ∀ stream, partyLog.filterMap (LogEntry.drawnOn id stream) =
    dealerLog.filterMap (LogEntry.drawnOn id stream)
  dealer_words : ∀ stream, ((g.generators .d).withServer id stream).Yields
    ((dealerLog.filterMap (LogEntry.drawnOn id stream)).flatMap fun t => t.2.2)
    (dealer.rngs.withServer id stream)
  party_words : ∀ stream, ((g.generators id).withDealer stream).Yields
    ((partyLog.filterMap (LogEntry.drawnOn id stream)).flatMap fun t => t.2.2)
    (final.rngs.withDealer stream)
  chunks : partyLog.filterMap LogEntry.readBack =
    dealerLog.filterMap (LogEntry.storedVec id) ++ dealerLog.filterMap (LogEntry.storedB id)
  vectors : (partyLog.filterMap LogEntry.readBack).flatMap Chunk.vec = Preprocessor.dealt dealer id
  read_idx : final.readIdx = 0

end logs

section records

variable {conf : ProtocolConfig} {g : Streams} {order : List Gate} {p p' : Preprocessor}
  {s s' : Storage} {l : List Action} {id : Party} {stream : Stream}

theorem emits_dealer (h : order.foldlM (preprocessGate conf.size .d) p = some p') :
    Trace.emits (recordGate conf.size .d) p order = some (p', Trace.log
      (preprocessGate conf.size .d) (fun p f => (dealerEvents conf.size p f).map (LogEntry.mk f)) p
      order) :=
  Trace.emits_log (fun _ _ _ hs => recordGate_logs preprocessGate_dealer_logs hs) h

theorem emits_party (hid : id ≠ .d) (h : order.foldlM (preprocessGate conf.size id) p = some p') :
    Trace.emits (recordGate conf.size id) p order = some (p', Trace.log
      (preprocessGate conf.size id) (fun p f => (partyEvents conf.size id p f).map (LogEntry.mk f)) p
      order) :=
  Trace.emits_log (fun _ _ _ hs => recordGate_logs (preprocessGate_party_logs hid) hs) h

theorem emits_act (hid : id ≠ .d) (h : l.foldlM (Storage.act conf.size id) s = some s') :
    Trace.emits (recordAct conf.size id) s l =
      some (s', Trace.log (Storage.act conf.size id) (actEntries conf.size id) s l) :=
  Trace.emits_log (fun _ _ _ hs => recordAct_logs hid hs) h

theorem dealer_takes (hid : id ≠ .d) (h : order.foldlM (preprocessGate conf.size .d) p = some p') :
    Takes (p.data.rngs.withServer id stream)
      (Trace.log (preprocessGate conf.size .d)
        (fun p f => (dealerDraws conf.size p f).filter (Draw.on id stream)) p order)
      ((Trace.log (preprocessGate conf.size .d)
        (fun p f => (dealerEvents conf.size p f).map (LogEntry.mk f)) p order).filterMap
          (LogEntry.drawnOn id stream)) (p'.data.rngs.withServer id stream) := by
  rw [Trace.log_filterMap]
  refine Trace.log_related (fun p : Preprocessor => p.data.rngs.withServer id stream) Takes.nil
    Takes.append (fun p f p' hp => ⟨dealerEvents_drawnOn hid, ?_⟩) h
  rw [preprocessGate_dealer] at hp
  rw [← Option.some.inj hp]
  exact dealGate_drawn p f hid

theorem party_takes (hid : id ≠ .d) (h : order.foldlM (preprocessGate conf.size id) p = some p') :
    Takes (p.data.rngs.withDealer stream)
      (Trace.log (preprocessGate conf.size id)
        (fun p f => (partyDraws conf.size id p f).filter (Draw.on id stream)) p order)
      ((Trace.log (preprocessGate conf.size id)
        (fun p f => (partyEvents conf.size id p f).map (LogEntry.mk f)) p order).filterMap
          (LogEntry.drawnOn id stream)) (p'.data.rngs.withDealer stream) := by
  rw [Trace.log_filterMap]
  exact Trace.log_related (fun p : Preprocessor => p.data.rngs.withDealer stream) Takes.nil
    Takes.append (fun p f p' hp => ⟨partyEvents_drawnOn hid, (preprocessGate_drawn hid hp).1⟩) h

theorem act_takes (hid : id ≠ .d) (h : l.foldlM (Storage.act conf.size id) s = some s') :
    Takes (s.rngs.withDealer stream)
      (Trace.log (Storage.act conf.size id)
        (fun s a => (Storage.actDraws conf.size id s a).filter (Draw.on id stream)) s l)
      ((Trace.log (Storage.act conf.size id) (actEntries conf.size id) s l).filterMap
        (LogEntry.drawnOn id stream)) (s'.rngs.withDealer stream) := by
  rw [Trace.log_filterMap]
  refine Trace.log_related (fun s : Storage => s.rngs.withDealer stream) Takes.nil
    Takes.append (fun s a s' hs => ⟨actEntries_drawnOn hid s a, ?_⟩) h
  cases a with
  | send f =>
    rw [← Option.some.inj hs]
    exact (sendCorrelation_drawn s f).1
  | recv f =>
    obtain ⟨⟨k, t⟩, ht, rfl⟩ := Option.map_eq_some_iff.mp hs
    exact (recvCorrelation_drawn ht).1
  | exchange | clear =>
    rw [← Option.some.inj hs]
    rfl

variable {circ : List (List Gate)} {dealer prepared final : Storage}

theorem dealer_recorded (h : runDealer conf circ g = some dealer) :
    dealerRecord conf circ g = some (dealer, dealerLog conf circ g) := by
  obtain ⟨p, hp, he⟩ := Option.bind_eq_some_iff.mp h
  rw [dealerRecord, emits_dealer hp, ← Option.some.inj he]
  rfl

theorem party_recorded (hid : id ≠ .d) (hp : runParty conf circ g dealer id = some prepared)
    (he : (schedule circ).foldlM (Storage.act conf.size id) prepared = some final) :
    partyRecord conf circ g dealer id =
      some (final, partyLog conf circ g dealer prepared id) := by
  rw [runParty_eq] at hp
  obtain ⟨p, hrun, rfl⟩ := Option.map_eq_some_iff.mp hp
  rw [partyRecord, emits_party hid hrun]
  simp only [Option.bind_eq_bind, Option.bind_some, emits_act hid he]
  rfl

end records

section lockStep

variable {conf : ProtocolConfig} {g : Streams} {nodes m : ℕ} {G : List Gate} {id : Party}
  {stream : Stream}

theorem dealer_along {ε : Type} (emit : Preprocessor → Gate → List ε) (order : List Gate) :
    Trace.log (preprocessGate conf.size .d) emit ⟨Storage.init (g.generators .d), .p0⟩ order =
      Trace.along (fun l f => emit (dealRun conf.size g l) f) [] order :=
  (Trace.log_eq_along _ _ _ order (fun l p => p = dealRun conf.size g l)
    (fun l f _ p _ hp => ⟨by rw [hp], _, preprocessGate_dealer conf.size p f,
      by rw [hp, dealRun_snoc]⟩) (List.nil_append _).symm rfl).1

def Party.pick {α : Type} (id : Party) (a b : α) : α :=
  match id with
  | .p1 => b
  | _ => a

theorem prepared_along {order : List Gate} (h : Dealable conf order) (hid : id ≠ .d) {ε : Type}
    {emit : Preprocessor → Gate → List ε} {events : List Gate → Gate → List ε}
    (he : ∀ l f r p, order = l ++ f :: r → Abreast conf g order id l f p → emit p f = events l f) :
    Trace.log (preprocessGate conf.size id) emit (partyStart g (dealerAt conf g order) id) order =
      Trace.along events [] order := by
  refine (Trace.log_eq_along _ _ _ order (fun l p => ∃ p0 p1,
    Prepared conf g order l p0 p1 ∧ p = id.pick p0 p1) (fun l f r p ho hp => ?_)
    (List.nil_append _).symm ⟨_, _, Prepared.start, ?_⟩).1
  · obtain ⟨p0, p1, hp, rfl⟩ := hp
    obtain ⟨q0, q1, e0, e1, hq⟩ := hp.step h ho
    obtain ⟨h0, h1⟩ := hp.abreast h ho
    cases id with
    | p0 => exact ⟨he l f r _ ho h0, _, e0, _, _, hq, rfl⟩
    | p1 => exact ⟨he l f r _ ho h1, _, e1, _, _, hq, rfl⟩
    | d => exact absurd rfl hid
  · cases id <;> first
      | exact absurd rfl hid
      | rfl

theorem prepared_draws {order : List Gate} (h : Dealable conf order) (hid : id ≠ .d)
    (stream : Stream) :
    Trace.log (preprocessGate conf.size id)
        (fun p f => (partyDraws conf.size id p f).filter (Draw.on id stream))
        (partyStart g (dealerAt conf g order) id) order =
      Trace.along (fun l f => if stream = .prep then (dealerDraws conf.size
        (dealRun conf.size g l) f).filter (Draw.on id .prep) else []) [] order :=
  prepared_along h hid fun _ _ _ _ _ ha => ha.draws hid

theorem prepared_reads {order : List Gate} (hn : 0 < conf.size) (h : Dealable conf order)
    (hid : id ≠ .d) :
    Trace.log (preprocessGate conf.size id)
        (fun p f => p.data.readChunks id f (readLength conf.size id p f))
        (partyStart g (dealerAt conf g order) id) order =
      Trace.along (fun l f => storedVec conf.size id (dealRun conf.size g l) f) [] order :=
  prepared_along h hid fun _ _ _ _ ho ha => ha.reads hn h ho hid

section act

variable (hwf : WellFormed nodes G) (h : Dealable conf (layersOf G).flatten)
  (hd : ∀ f ∈ G, f.type = .unshuffle → ShuffledBefore G f.shuffleIdx f.outIdx)
  {s0 s1 d0 d1 : Storage}

include hwf h hd

theorem Stocked.act {pre post : List Action} {a : Action}
    (hs : schedule (layersOf G) = pre ++ a :: post)
    (hst : Stocked conf g (layersOf G).flatten s0 s1 (pre.filterMap sentGate)
      (pre.filterMap recvdGate) d0 d1) :
    ∃ d0' d1', d0.act conf.size .p0 a = some d0' ∧ d1.act conf.size .p1 a = some d1' ∧
      Stocked conf g (layersOf G).flatten s0 s1 ((pre ++ [a]).filterMap sentGate)
        ((pre ++ [a]).filterMap recvdGate) d0' d1' := by
  have hsent := schedule_sent (layersOf G)
  have hrecvd := schedule_recvd (layersOf G)
  rw [hs, List.filterMap_append] at hsent hrecvd
  rw [List.filterMap_append, List.filterMap_append]
  cases a with
  | send f =>
    have hsent : pre.filterMap sentGate ++ f :: post.filterMap sentGate = _ := hsent
    have hf : f ∈ G := (mem_layersOf hwf).mp (hsent ▸ by simp)
    obtain ⟨d0', d1', e0, e1, hst'⟩ := hst.send h hsent.symm fun ht => by
      obtain ⟨x, hx, hxt, hxi, hlt⟩ := hd f hf ht
      refine ⟨x, ?_, hxt, hxi⟩
      have hl : (levels G).layer x < (levels G).layer f := by
        rw [layer_eq hwf hx (by simp [hxt]), layer_eq hwf hf (by simp [ht])]
        exact hlt
      exact List.mem_filterMap.mpr ⟨_, recv_before_send hwf hs rfl hx hl, rfl⟩
    refine ⟨d0', d1', by rw [Storage.act, e0], by rw [Storage.act, e1], ?_⟩
    simpa [List.filterMap_cons, sentGate, recvdGate] using hst'
  | recv f =>
    have hrecvd : pre.filterMap recvdGate ++ f :: post.filterMap recvdGate = _ := hrecvd
    have hf : f ∈ pre.filterMap sentGate := by
      have hsend : Action.send f ∈ schedule (layersOf G) := by
        rw [mem_schedule_send, ← mem_schedule_recv, hs]
        simp
      refine List.mem_filterMap.mpr ⟨Action.send f, ?_, rfl⟩
      rcases mem_split hwf hs hsend with hb | hb | ⟨-, hb⟩
      · exact hb
      · cases hb
      · exact absurd hb (lt_irrefl _)
    obtain ⟨d0', d1', e0, e1, hst'⟩ := hst.recv h hrecvd.symm hf
    refine ⟨d0', d1', by rw [Storage.act, e0]; rfl, by rw [Storage.act, e1]; rfl, ?_⟩
    simpa [List.filterMap_cons, sentGate, recvdGate] using hst'
  | exchange => exact ⟨d0, d1, rfl, rfl, by simpa [List.filterMap_cons, sentGate, recvdGate] using hst⟩
  | clear => exact ⟨d0, d1, rfl, rfl, by simpa [List.filterMap_cons, sentGate, recvdGate] using hst⟩

theorem act_along (hid : id ≠ .d) {ε : Type} {emit : Storage → Action → List ε}
    {events : List Action → Action → List ε}
    (he : ∀ pre a post d0 d1, schedule (layersOf G) = pre ++ a :: post →
      Stocked conf g (layersOf G).flatten s0 s1 (pre.filterMap sentGate) (pre.filterMap recvdGate)
        d0 d1 → emit (id.pick d0 d1) a = events pre a)
    (hst : Stocked conf g (layersOf G).flatten s0 s1 [] [] s0 s1) :
    Trace.log (Storage.act conf.size id) emit (id.pick s0 s1) (schedule (layersOf G)) =
        Trace.along events [] (schedule (layersOf G)) ∧
      ∃ d0 d1, (schedule (layersOf G)).foldlM (Storage.act conf.size id) (id.pick s0 s1) =
          some (id.pick d0 d1) ∧
        Stocked conf g (layersOf G).flatten s0 s1 (layersOf G).flatten (layersOf G).flatten
          d0 d1 := by
  obtain ⟨hlog, s', hrun, d0, d1, hfin, rfl⟩ := Trace.log_eq_along
    (Storage.act conf.size id) emit events (schedule (layersOf G)) (fun pre s => ∃ d0 d1,
      Stocked conf g (layersOf G).flatten s0 s1 (pre.filterMap sentGate) (pre.filterMap recvdGate)
        d0 d1 ∧ s = id.pick d0 d1) (fun pre a post s ho hs => by
      obtain ⟨d0, d1, hs, rfl⟩ := hs
      obtain ⟨d0', d1', e0, e1, hs'⟩ := hs.act hwf h hd ho
      refine ⟨he pre a post d0 d1 ho hs, id.pick d0' d1', ?_, d0', d1', hs', rfl⟩
      cases id with
      | p0 => exact e0
      | p1 => exact e1
      | d => exact absurd rfl hid) (List.nil_append _).symm ⟨s0, s1, hst, rfl⟩
  rw [schedule_sent, schedule_recvd] at hfin
  exact ⟨hlog, d0, d1, hrun, hfin⟩

omit hwf hd in
theorem pick_draws (hn : 0 < conf.size) (hid : id ≠ .d) {pre post : List Action} {a : Action}
    (hs : schedule (layersOf G) = pre ++ a :: post)
    (hst : Stocked conf g (layersOf G).flatten s0 s1 (pre.filterMap sentGate)
      (pre.filterMap recvdGate) d0 d1) :
    (Storage.actDraws conf.size id (id.pick d0 d1) a).filter (Draw.on id stream) =
      (sentGate a).elim [] (fun f => if stream = .send then (dealerDraws conf.size
        (dealRun conf.size g (pre.filterMap sentGate)) f).filter (Draw.on id .send) else []) ++
      (recvdGate a).elim [] (fun f => if stream = .recv then (dealerDraws conf.size
        (dealRun conf.size g (pre.filterMap recvdGate)) f).filter (Draw.on id .recv) else []) := by
  have hsent := schedule_sent (layersOf G)
  have hrecvd := schedule_recvd (layersOf G)
  rw [hs, List.filterMap_append] at hsent hrecvd
  cases a with
  | send f =>
    have hsent : pre.filterMap sentGate ++ f :: post.filterMap sentGate = _ := hsent
    obtain ⟨h0, h1⟩ := @Stocked.send_draws _ _ _ _ _ _ stream _ _ _ _ _ hn h hst hsent.symm
    simp only [Storage.actDraws, sentGate, recvdGate, Option.elim_some, Option.elim_none,
      List.append_nil]
    cases id with
    | p0 => exact h0
    | p1 => exact h1
    | d => exact absurd rfl hid
  | recv f =>
    have hrecvd : pre.filterMap recvdGate ++ f :: post.filterMap recvdGate = _ := hrecvd
    obtain ⟨h0, h1⟩ := @Stocked.recv_draws _ _ _ _ _ _ stream _ _ _ _ _ hn h hst hrecvd.symm
    simp only [Storage.actDraws, sentGate, recvdGate, Option.elim_some, Option.elim_none,
      List.nil_append]
    cases id with
    | p0 => exact h0
    | p1 => exact h1
    | d => exact absurd rfl hid
  | exchange => rfl
  | clear => rfl

omit hwf hd in
theorem pick_reads (hid : id ≠ .d) {pre post : List Action} {a : Action}
    (hs : schedule (layersOf G) = pre ++ a :: post)
    (hst : Stocked conf g (layersOf G).flatten s0 s1 (pre.filterMap sentGate)
      (pre.filterMap recvdGate) d0 d1) :
    Storage.actReads conf.size id (id.pick d0 d1) a = (recvdGate a).elim []
      fun f => storedB conf.size id (dealRun conf.size g (pre.filterMap recvdGate)) f := by
  have hrecvd := schedule_recvd (layersOf G)
  rw [hs, List.filterMap_append] at hrecvd
  cases a with
  | recv f =>
    have hrecvd : pre.filterMap recvdGate ++ f :: post.filterMap recvdGate = _ := hrecvd
    obtain ⟨h0, h1⟩ := hst.reads h hrecvd.symm
    cases id with
    | p0 => exact h0
    | p1 => exact h1
    | d => exact absurd rfl hid
  | send f | exchange | clear => rfl

end act

theorem along_sent {ε : Type} (events : List Gate → Gate → List ε) (circ : List (List Gate)) :
    Trace.along (fun pre a => (sentGate a).elim [] fun f => events (pre.filterMap sentGate) f) []
      (schedule circ) = Trace.along events [] circ.flatten := by
  have hmap := Trace.along_filterMap events sentGate [] (schedule circ)
  rwa [schedule_sent] at hmap

theorem along_recvd {ε : Type} (events : List Gate → Gate → List ε) (circ : List (List Gate)) :
    Trace.along (fun pre a => (recvdGate a).elim [] fun f => events (pre.filterMap recvdGate) f) []
      (schedule circ) = Trace.along events [] circ.flatten := by
  have hmap := Trace.along_filterMap events recvdGate [] (schedule circ)
  rwa [schedule_recvd] at hmap

theorem dealerLog_takes (hid : id ≠ .d) {circ : List (List Gate)} {dealer : Storage}
    (h : runDealer conf circ g = some dealer) (stream : Stream) :
    Takes ((g.generators .d).withServer id stream)
      (Trace.along (fun l f => (dealerDraws conf.size (dealRun conf.size g l) f).filter
        (Draw.on id stream)) [] circ.flatten)
      ((dealerLog conf circ g).filterMap (LogEntry.drawnOn id stream))
      (dealer.rngs.withServer id stream) := by
  obtain ⟨p, hp, he⟩ := Option.bind_eq_some_iff.mp h
  have htakes := @dealer_takes conf circ.flatten _ _ id stream hid hp
  rw [dealer_along (fun p f => (dealerDraws conf.size p f).filter (Draw.on id stream))] at htakes
  rw [← Option.some.inj he]
  exact htakes

theorem dealerLog_stored (circ : List (List Gate)) :
    (dealerLog conf circ g).filterMap (LogEntry.storedVec id) ++
        (dealerLog conf circ g).filterMap (LogEntry.storedB id) =
      Trace.along (fun l f => storedVec conf.size id (dealRun conf.size g l) f) [] circ.flatten ++
        Trace.along (fun l f => storedB conf.size id (dealRun conf.size g l) f) [] circ.flatten := by
  rw [dealerLog, Trace.log_filterMap, Trace.log_filterMap]
  simp only [dealerEvents_storedVec, dealerEvents_storedB]
  rw [dealer_along, dealer_along]

section party

variable (hwf : WellFormed nodes G) (h : Dealable conf (layersOf G).flatten)
  (hd : ∀ f ∈ G, f.type = .unshuffle → ShuffledBefore G f.shuffleIdx f.outIdx)
  {s0 s1 final : Storage}

include hwf h hd

theorem partyLog_takes (hn : 0 < conf.size) (hid : id ≠ .d)
    (hst : Stocked conf g (layersOf G).flatten s0 s1 [] [] s0 s1)
    (hp : runParty conf (layersOf G) g (dealerAt conf g (layersOf G).flatten) id =
      some (id.pick s0 s1))
    (hrun : (schedule (layersOf G)).foldlM (Storage.act conf.size id) (id.pick s0 s1) = some final)
    (stream : Stream) :
    Takes ((g.generators id).withDealer stream)
      (Trace.along (fun l f => (dealerDraws conf.size (dealRun conf.size g l) f).filter
        (Draw.on id stream)) [] (layersOf G).flatten)
      ((partyLog conf (layersOf G) g (dealerAt conf g (layersOf G).flatten) (id.pick s0 s1)
        id).filterMap (LogEntry.drawnOn id stream)) (final.rngs.withDealer stream) := by
  have hnone : ∀ o : Option Gate, o.elim ([] : List Draw) (fun _ => []) = [] := by
    intro o
    cases o <;> rfl
  rw [runParty_eq] at hp
  obtain ⟨p, hpre, he⟩ := Option.map_eq_some_iff.mp hp
  have hprep := @party_takes conf _ _ _ id stream hid hpre
  rw [he, prepared_draws h hid] at hprep
  have hact := @act_takes conf _ _ _ id stream hid hrun
  rw [(act_along hwf h hd hid (fun _ _ _ _ _ hs hst => pick_draws h hn hid hs hst) hst).1] at hact
  have htakes := hprep.append hact
  rw [← List.filterMap_append] at htakes
  cases stream
  · simp only [reduceCtorEq, if_true, if_false, hnone, List.append_nil, Trace.along_nil] at htakes
    exact htakes
  · simp only [reduceCtorEq, if_true, if_false, hnone, List.append_nil, Trace.along_nil,
      List.nil_append] at htakes
    rw [along_sent (fun l f =>
      (dealerDraws conf.size (dealRun conf.size g l) f).filter (Draw.on id .send))] at htakes
    exact htakes
  · simp only [reduceCtorEq, if_true, if_false, hnone, Trace.along_nil, List.nil_append] at htakes
    rw [along_recvd (fun l f =>
      (dealerDraws conf.size (dealRun conf.size g l) f).filter (Draw.on id .recv))] at htakes
    exact htakes

theorem partyLog_read (hn : 0 < conf.size) (hid : id ≠ .d)
    (hst : Stocked conf g (layersOf G).flatten s0 s1 [] [] s0 s1) :
    (partyLog conf (layersOf G) g (dealerAt conf g (layersOf G).flatten) (id.pick s0 s1)
        id).filterMap LogEntry.readBack =
      Trace.along (fun l f => storedVec conf.size id (dealRun conf.size g l) f) []
          (layersOf G).flatten ++
        Trace.along (fun l f => storedB conf.size id (dealRun conf.size g l) f) []
          (layersOf G).flatten := by
  rw [partyLog, List.filterMap_append, Trace.log_filterMap, Trace.log_filterMap]
  simp only [partyEvents_readBack, actEntries_readBack]
  rw [prepared_reads hn h hid,
    (act_along hwf h hd hid (fun _ _ _ _ _ hs hst => pick_reads h hid hs hst) hst).1]
  exact congrArg _ (along_recvd (fun l f => storedB conf.size id (dealRun conf.size g l) f) _)

end party

theorem along_dealt {order : List Gate} (hn : 0 < conf.size) (h : Dealable conf order)
    (hid : id ≠ .d) :
    (Trace.along (fun l f => storedVec conf.size id (dealRun conf.size g l) f) [] order ++
        Trace.along (fun l f => storedB conf.size id (dealRun conf.size g l) f) [] order).flatMap
          Chunk.vec = Preprocessor.dealt (dealerAt conf g order) id := by
  have hvec := Trace.along_flatMap (fun l f => storedVec conf.size id (dealRun conf.size g l) f)
    Chunk.vec (fun l => (dealerAt conf g l).preproc id) [] order fun mid f rest ho => by
      rw [List.nil_append, storedVec_vec hn h ho hid]
      have := (dealGate_preproc (g := g) h ho hid).1
      rwa [← dealRun_snoc] at this
  have hb := Trace.along_flatMap (fun l f => storedB conf.size id (dealRun conf.size g l) f)
    Chunk.vec (fun l => (dealerAt conf g l).B id) [] order fun mid f rest ho => by
      rw [List.nil_append, storedB_vec h ho hid]
      have := (dealGate_preproc (g := g) h ho hid).2
      rwa [← dealRun_snoc] at this
  rw [List.flatMap_append, Preprocessor.dealt]
  exact (congrArg₂ _ hvec hb).symm

theorem lock_step (conf : ProtocolConfig) (hn : 0 < conf.size) {alg : Algorithm} (hl : alg.Lawful)
    (columns : ℕ) (inInputOrder reverse dedup : Bool) (g : Streams) {id : Party} (hid : id ≠ .d) :
    ∃ dealer prepared final dealerLog partyLog, InLockStep conf
      (build alg (start conf columns inInputOrder reverse dedup)).2.circ g dealer prepared id
      final dealerLog partyLog := by
  obtain ⟨ctx, hc⟩ := construct_spec conf columns inInputOrder reverse dedup hl
  rw [build_circ]
  generalize (construct alg (start conf columns inInputOrder reverse dedup)).2 = c at *
  have hwf := hc.built.laid.wellFormed
  have hdeal : Dealable conf (layersOf c.gates).flatten :=
    dealable_layers conf hc.built.laid hc.disciplined
  have hsh : ∀ f ∈ c.gates, f.type = .unshuffle → ShuffledBefore c.gates f.shuffleIdx f.outIdx :=
    fun f hf => (hc.disciplined f hf).unshuffle
  obtain ⟨s0, s1, recv, e0, e1, hp⟩ := runParty_prepared (g := g) hdeal rfl
  have hst := hp.stocked
  have hdealer : runDealer conf (layersOf c.gates) g =
      some (dealerAt conf g (layersOf c.gates).flatten) := runDealer_eq _ _ _
  have hparty : runParty conf (layersOf c.gates) g (dealerAt conf g (layersOf c.gates).flatten) id =
      some (id.pick s0 s1) := by
    cases id with
    | p0 => exact e0
    | p1 => exact e1
    | d => exact absurd rfl hid
  obtain ⟨-, d0, d1, hrun, hfin⟩ := act_along hwf hdeal hsh hid
    (fun _ _ _ _ _ hs hst => pick_reads hdeal hid hs hst) hst
  have hdealt := dealerLog_takes hid hdealer
  have htaken := partyLog_takes hwf hdeal hsh hn hid hst hparty hrun
  have hread := partyLog_read hwf hdeal hsh hn hid hst
  have hsame : ∀ stream, (g.generators id).withDealer stream =
      (g.generators .d).withServer id stream := by
    intro stream
    cases id <;> cases stream <;> first
      | exact absurd rfl hid
      | rfl
  refine ⟨dealerAt conf g (layersOf c.gates).flatten, id.pick s0 s1, id.pick d0 d1,
    dealerLog conf (layersOf c.gates) g, partyLog conf (layersOf c.gates) g _ (id.pick s0 s1) id,
    { dealer_run := hdealer
      party_run := hparty
      evaluation := hrun
      servers := fun s s' hs hrun' => ?_
      dealer_record := dealer_recorded hdealer
      party_record := party_recorded hid hparty hrun
      draws := fun stream => by rw [(htaken stream).taken, (hdealt stream).taken, hsame]
      dealer_words := fun stream => (hdealt stream).yields
      party_words := fun stream => (htaken stream).yields
      chunks := by rw [hread, dealerLog_stored]
      vectors := by rw [hread, along_dealt hn hdeal hid]
      read_idx := ?_ }⟩
  · have hact := run_act hid hrun'
    rw [hs, hrun] at hact
    exact (Option.some.inj hact).symm
  · obtain ⟨rest0, hr0, hat0⟩ := hfin.read0
    obtain ⟨rest1, hr1, hat1⟩ := hfin.read1
    obtain rfl := List.append_right_eq_self.mp hr0.symm
    obtain rfl := List.append_right_eq_self.mp hr1.symm
    obtain ⟨_, _, hi0⟩ := hat0
    obtain ⟨_, _, hi1⟩ := hat1
    cases id with
    | p0 => exact hi0
    | p1 => exact hi1
    | d => exact absurd rfl hid

theorem lock_step_bfs : ∃ dealer prepared final dealerLog partyLog,
    InLockStep ⟨3, 2, 1, 2, by decide⟩
      (build bfs.algorithm (start ⟨3, 2, 1, 2, by decide⟩ 1 true false true)).2.circ
      countingStreams dealer prepared .p0 final dealerLog partyLog :=
  lock_step ⟨3, 2, 1, 2, by decide⟩ (by decide) bfs.algorithm_lawful 1 true false true _ (by decide)

end lockStep

end GraphMpc
