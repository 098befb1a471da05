import GraphMpc.Interaction

namespace GraphMpc

open Tabulate

-- rest is what is still to be read; the index starts over once the buffer is used up
def At (buffer : Vec) (idx : ℕ) (rest : Vec) : Prop :=
  ∃ used, buffer = used ++ rest ∧ idx = if rest = [] then 0 else used.length

namespace At

theorem start (buffer : Vec) : At buffer 0 buffer := by
  refine ⟨[], rfl, ?_⟩
  split <;> rfl

theorem read {buffer chunk rest : Vec} {idx n : ℕ} (h : At buffer idx (chunk ++ rest))
    (hn : chunk.length = n) :
    ∃ idx', readChunk buffer n idx = some (chunk, idx') ∧ At buffer idx' rest := by
  obtain ⟨used, rfl, rfl⟩ := h
  by_cases hc : chunk = []
  · obtain rfl : n = 0 := by rw [← hn, hc, List.length_nil]
    subst hc
    refine ⟨if rest = [] then 0 else used.length, ?_, used, rfl, rfl⟩
    by_cases hr : rest = []
    · simp [readChunk, hr]
    · have hpos := List.length_pos_iff.mpr hr
      simp [readChunk, hr]
  · have hne : chunk ++ rest ≠ [] := fun he => hc (List.append_eq_nil_iff.mp he).1
    refine ⟨if rest = [] then 0 else (used ++ chunk).length, ?_, used ++ chunk,
      (List.append_assoc ..).symm, rfl⟩
    have hlen : ¬ (used ++ (chunk ++ rest)).length < used.length + n := by
      simp only [List.length_append]
      omega
    have hchunk : ((used ++ (chunk ++ rest)).drop used.length).take n = chunk := by
      rw [List.drop_left, ← hn, List.take_left]
    rw [readChunk, if_neg hne, if_neg hlen, hchunk]
    by_cases hr : rest = []
    · simp [hr, hn]
    · have hpos := List.length_pos_iff.mpr hr
      simp [hr, hn]

end At

namespace Message

structure SameLengths (m m' : Message) : Prop where
  mulVals : m.mulVals.length = m'.mulVals.length
  andVals : m.andVals.length = m'.andVals.length
  shuffleVals : m.shuffleVals.length = m'.shuffleVals.length
  revealVals : m.revealVals.length = m'.revealVals.length

def combine (own other : Message) : Message where
  mulVals := received (· + ·) own.mulVals other.mulVals
  andVals := received (· ^^^ ·) own.andVals other.andVals
  shuffleVals := other.shuffleVals
  revealVals := received (· + ·) own.revealVals other.revealVals

theorem SameLengths.symm {m m' : Message} (h : m.SameLengths m') : m'.SameLengths m :=
  ⟨h.mulVals.symm, h.andVals.symm, h.shuffleVals.symm, h.revealVals.symm⟩

theorem SameLengths.append {m m' n n' : Message} (h : m.SameLengths m') (h' : n.SameLengths n') :
    (m.append n).SameLengths (m'.append n') := by
  constructor <;>
    simp [Message.append, h.mulVals, h.andVals, h.shuffleVals, h.revealVals, h'.mulVals,
      h'.andVals, h'.shuffleVals, h'.revealVals]

theorem SameLengths.dataSend {m m' : Message} (h : m.SameLengths m') :
    m.dataSend.length = m'.dataSend.length := by
  simp [Message.dataSend, h.mulVals, h.andVals, h.shuffleVals, h.revealVals]

theorem Fits.sameLengths {conf : ProtocolConfig} {f : Gate} {m m' : Message} (h : m.Fits conf f)
    (h' : m'.Fits conf f) : m.SameLengths m' :=
  ⟨h.mulVals.trans h'.mulVals.symm, h.andVals.trans h'.andVals.symm,
    h.shuffleVals.trans h'.shuffleVals.symm, h.revealVals.trans h'.revealVals.symm⟩

theorem Fits.combine {conf : ProtocolConfig} {f : Gate} {m m' : Message} (h : m.Fits conf f)
    (h' : m'.Fits conf f) : (m.combine m').Fits conf f :=
  ⟨(tab_length ..).trans h.mulVals, (tab_length ..).trans h.andVals, h'.shuffleVals,
    (tab_length ..).trans h.revealVals⟩

theorem received_append {op : Ring → Ring → Ring} {t t' u u' : Vec} (h : t.length = t'.length) :
    received op (t ++ u) (t' ++ u') = received op t t' ++ received op u u' := by
  symm
  apply eq_tab 0 (by simp [received])
  intro i hi
  rw [List.length_append] at hi
  simp only [received]
  by_cases hlt : i < t.length
  · rw [List.getD_append _ _ _ _ (by simpa using hlt), List.getD_append _ _ _ _ hlt,
      List.getD_append _ _ _ _ (h ▸ hlt), tab_getD_lt _ _ hlt]
  · have hge : t.length ≤ i := not_lt.mp hlt
    rw [List.getD_append_right _ _ _ _ (by simpa using hge), List.getD_append_right _ _ _ _ hge,
      List.getD_append_right _ _ _ _ (h ▸ hge), tab_length, ← h, tab_getD_lt _ _ (by omega)]

theorem combine_append {m m' n n' : Message} (h : m.SameLengths m') :
    (m.append n).combine (m'.append n') = (m.combine m').append (n.combine n') := by
  simp only [combine, append, received_append h.mulVals, received_append h.andVals,
    received_append h.revealVals]

theorem receive_eq_combine {m m' : Message} (h : m.SameLengths m') :
    m.receive m'.dataSend = m.combine m' := by
  have hand : ∀ i < m.andVals.length, m'.dataSend.getD (m.mulVals.length + i) 0 =
      m'.andVals.getD i 0 := by
    intro i hi
    rw [dataSend, List.append_assoc, List.append_assoc,
      List.getD_append_right _ _ _ _ (by rw [h.mulVals]; omega), h.mulVals,
      Nat.add_sub_cancel_left, List.getD_append _ _ _ _ (h.andVals ▸ hi)]
  have hmul : ∀ i < m.mulVals.length, m'.dataSend.getD i 0 = m'.mulVals.getD i 0 := by
    intro i hi
    rw [dataSend, List.append_assoc, List.append_assoc,
      List.getD_append _ _ _ _ (h.mulVals ▸ hi)]
  have hshuffle : ∀ i < m.shuffleVals.length,
      m'.dataSend.getD (m.mulVals.length + m.andVals.length + i) 0 = m'.shuffleVals.getD i 0 := by
    intro i hi
    rw [dataSend, List.append_assoc, List.getD_append_right _ _ _ _
      (by rw [List.length_append, h.mulVals, h.andVals]; omega), List.length_append, h.mulVals,
      h.andVals, Nat.add_sub_cancel_left, List.getD_append _ _ _ _ (h.shuffleVals ▸ hi)]
  have hreveal : ∀ i < m.revealVals.length, m'.dataSend.getD
      (m.mulVals.length + m.andVals.length + m.shuffleVals.length + i) 0 =
        m'.revealVals.getD i 0 := by
    intro i hi
    rw [dataSend, List.getD_append_right _ _ _ _
      (by simp only [List.length_append, h.mulVals, h.andVals, h.shuffleVals]; omega)]
    simp only [List.length_append, h.mulVals, h.andVals, h.shuffleVals, Nat.add_sub_cancel_left]
  have hm := tab_congr fun i hi => congrArg (m.mulVals.getD i 0 + ·) (hmul i hi)
  have ha := tab_congr fun i hi => congrArg (m.andVals.getD i 0 ^^^ ·) (hand i hi)
  have hv := tab_congr fun i hi => congrArg (m.revealVals.getD i 0 + ·) (hreveal i hi)
  have hs : tab m.shuffleVals.length (fun i => m'.shuffleVals.getD i 0) = m'.shuffleVals :=
    (eq_tab 0 h.shuffleVals.symm fun _ _ => rfl).symm
  simp only [receive, combine, received, tab_congr hshuffle, hs]
  rw [hm, ha, hv]

end Message

namespace Online

-- rest is the part of the received messages that later gates of the layer still read
structure Reading (o : Online) (rest : Message) : Prop where
  mulVals : At o.vals.mulVals o.mulIdx rest.mulVals
  andVals : At o.vals.andVals o.andIdx rest.andVals
  shuffleVals : At o.vals.shuffleVals o.shuffleIdx rest.shuffleVals
  revealVals : At o.vals.revealVals o.revealIdx rest.revealVals

structure Idle (o : Online) : Prop where
  mulIdx : o.mulIdx = 0
  andIdx : o.andIdx = 0
  shuffleIdx : o.shuffleIdx = 0
  revealIdx : o.revealIdx = 0

theorem Idle.reading {o : Online} (h : o.Idle) : o.Reading o.vals := by
  constructor
  · exact h.mulIdx ▸ At.start _
  · exact h.andIdx ▸ At.start _
  · exact h.shuffleIdx ▸ At.start _
  · exact h.revealIdx ▸ At.start _

theorem Reading.idle {o : Online} (h : o.Reading {}) : o.Idle := by
  have hz : ∀ {buffer idx}, At buffer idx [] → idx = 0 := fun ⟨_, _, hi⟩ => hi
  exact ⟨hz h.mulVals, hz h.andVals, hz h.shuffleVals, hz h.revealVals⟩

def moved (o : Online) (mulIdx andIdx shuffleIdx revealIdx : ℕ) : Online :=
  { o with mulIdx := mulIdx, andIdx := andIdx, shuffleIdx := shuffleIdx, revealIdx := revealIdx }

section reading

variable {o : Online} {rest : Message} {t : Vec} {n : ℕ}

theorem readMul_spec (hr : o.Reading (Message.append { mulVals := t } rest)) (hn : t.length = n) :
    ∃ i, o.readMul n = some ({ mulVals := t }, o.moved i o.andIdx o.shuffleIdx o.revealIdx) ∧
      (o.moved i o.andIdx o.shuffleIdx o.revealIdx).Reading rest := by
  obtain ⟨i, hi, hat⟩ := hr.mulVals.read hn
  refine ⟨i, ?_, hat, hr.andVals, hr.shuffleVals, hr.revealVals⟩
  simp only [readMul, hi, Option.bind_eq_bind, Option.bind_some]
  rfl

theorem readAnd_spec (hr : o.Reading (Message.append { andVals := t } rest)) (hn : t.length = n) :
    ∃ i, o.readAnd n = some ({ andVals := t }, o.moved o.mulIdx i o.shuffleIdx o.revealIdx) ∧
      (o.moved o.mulIdx i o.shuffleIdx o.revealIdx).Reading rest := by
  obtain ⟨i, hi, hat⟩ := hr.andVals.read hn
  refine ⟨i, ?_, hr.mulVals, hat, hr.shuffleVals, hr.revealVals⟩
  simp only [readAnd, hi, Option.bind_eq_bind, Option.bind_some]
  rfl

theorem readShuffle_spec (hr : o.Reading (Message.append { shuffleVals := t } rest))
    (hn : t.length = n) : ∃ i, o.readShuffle n = some ({ shuffleVals := t },
      o.moved o.mulIdx o.andIdx i o.revealIdx) ∧
    (o.moved o.mulIdx o.andIdx i o.revealIdx).Reading rest := by
  obtain ⟨i, hi, hat⟩ := hr.shuffleVals.read hn
  refine ⟨i, ?_, hr.mulVals, hr.andVals, hat, hr.revealVals⟩
  simp only [readShuffle, hi, Option.bind_eq_bind, Option.bind_some]
  rfl

theorem readReveal_spec (hr : o.Reading (Message.append { revealVals := t } rest))
    (hn : t.length = n) : ∃ i, o.readReveal n = some ({ revealVals := t },
      o.moved o.mulIdx o.andIdx o.shuffleIdx i) ∧
    (o.moved o.mulIdx o.andIdx o.shuffleIdx i).Reading rest := by
  obtain ⟨i, hi, hat⟩ := hr.revealVals.read hn
  refine ⟨i, ?_, hr.mulVals, hr.andVals, hr.shuffleVals, hat⟩
  simp only [readReveal, hi, Option.bind_eq_bind, Option.bind_some]
  rfl

end reading

variable {conf : ProtocolConfig} {f : Gate} {o : Online} {m rest : Message}

theorem readGate_spec (hm : f.type ≠ .mul) (hf : m.Fits conf f) (hr : o.Reading (m.append rest)) :
    ∃ i j k l, o.readGate conf f = some (m, o.moved i j k l) ∧ (o.moved i j k l).Reading rest := by
  obtain ⟨tm, ta, ts, tr⟩ := m
  obtain ⟨h1, h2, h3, h4⟩ := hf
  dsimp only at h1 h2 h3 h4
  cases ht : f.type
  case mul => exact absurd ht hm
  case shuffle | unshuffle | mergedShuffle =>
    simp only [Gate.mulLen, Gate.andLen, Gate.shuffleLen, Gate.revealLen, ht, reduceCtorEq,
      if_false, List.length_eq_zero_iff] at h1 h2 h3 h4
    subst h1 h2 h4
    obtain ⟨k, he, hrest⟩ := readShuffle_spec hr h3
    exact ⟨o.mulIdx, o.andIdx, k, o.revealIdx, by simpa only [readGate, ht] using he, hrest⟩
  case compaction | bit2A =>
    simp only [Gate.mulLen, Gate.andLen, Gate.shuffleLen, Gate.revealLen, ht, reduceCtorEq,
      if_false, List.length_eq_zero_iff] at h1 h2 h3 h4
    subst h2 h3 h4
    obtain ⟨k, he, hrest⟩ := readMul_spec hr h1
    exact ⟨k, o.andIdx, o.shuffleIdx, o.revealIdx, by simpa only [readGate, ht] using he, hrest⟩
  case mulSIMD =>
    cases hb : f.binary with
    | false =>
      simp only [Gate.mulLen, Gate.andLen, Gate.shuffleLen, Gate.revealLen, ht, hb, reduceCtorEq,
        Bool.false_eq_true, if_false, List.length_eq_zero_iff] at h1 h2 h3 h4
      subst h2 h3 h4
      obtain ⟨k, he, hrest⟩ := readMul_spec hr h1
      refine ⟨k, o.andIdx, o.shuffleIdx, o.revealIdx, ?_, hrest⟩
      simpa only [readGate, ht, hb, Bool.false_eq_true, if_false] using he
    | true =>
      simp only [Gate.mulLen, Gate.andLen, Gate.shuffleLen, Gate.revealLen, ht, hb, reduceCtorEq,
        if_true, if_false, List.length_eq_zero_iff] at h1 h2 h3 h4
      subst h1 h3 h4
      obtain ⟨k, he, hrest⟩ := readAnd_spec hr h2
      refine ⟨o.mulIdx, k, o.shuffleIdx, o.revealIdx, ?_, hrest⟩
      simpa only [readGate, ht, hb, if_true] using he
  case eqz =>
    simp only [Gate.mulLen, Gate.andLen, Gate.shuffleLen, Gate.revealLen, ht, reduceCtorEq,
      if_false, List.length_eq_zero_iff] at h1 h2 h3 h4
    subst h1 h3 h4
    obtain ⟨k, he, hrest⟩ := readAnd_spec hr h2
    exact ⟨o.mulIdx, k, o.shuffleIdx, o.revealIdx, by simpa only [readGate, ht] using he, hrest⟩
  case reveal =>
    simp only [Gate.mulLen, Gate.andLen, Gate.shuffleLen, Gate.revealLen, ht, if_true,
      List.length_eq_zero_iff] at h1 h2 h3 h4
    subst h1 h2 h3
    obtain ⟨k, he, hrest⟩ := readReveal_spec hr h4
    exact ⟨o.mulIdx, o.andIdx, o.shuffleIdx, k, by simpa only [readGate, ht] using he, hrest⟩
  all_goals
    simp only [Gate.mulLen, Gate.andLen, Gate.shuffleLen, Gate.revealLen, ht, reduceCtorEq,
      if_false, List.length_eq_zero_iff] at h1 h2 h3 h4
    subst h1 h2 h3 h4
    exact ⟨o.mulIdx, o.andIdx, o.shuffleIdx, o.revealIdx, by simp only [readGate, ht]; rfl, hr⟩

end Online

end GraphMpc
