import GraphMpc.Construction
import Mathlib.Tactic.IntervalCases

namespace GraphMpc

open Circuit

def Gate.DependsOn (f g : Gate) : Prop :=
  g.outIdx < f.outIdx ∧ (g.outIdx = f.in1Idx ∨ g.outIdx = f.in2Idx)

-- a dependency path, from its last gate to its first one
structure Path (gates : List Gate) (p : List Gate) : Prop where
  mem : ∀ f ∈ p, f ∈ gates
  chain : p.IsChain Gate.DependsOn

def interactions (p : List Gate) : ℕ := p.countP Gate.interactive

-- a gate list as the builder leaves it: wire 0 is an input and stands for unused operands
structure Numbered (gates : List Gate) : Prop where
  ids : ∀ k (f : Gate), gates[k]? = some f → f.gId = k ∧ f.outIdx = k
  first : ∃ f : Gate, gates[0]? = some f ∧ f.type = .input
  operand : ∀ k (f : Gate), gates[k]? = some f → ∀ w ∈ [f.in1Idx, f.in2Idx],
    w = 0 ∨ w < k ∧ ∃ g : Gate, gates[w]? = some g ∧ g.type ≠ .output

structure Rounds (gates : List Gate) (round : Gate → ℕ) : Prop where
  interactive : ∀ f ∈ gates, f.interactive = true → 1 ≤ round f
  after : ∀ f ∈ gates, ∀ g ∈ gates, f.DependsOn g → g.outIdx ≠ 0 → round g + f.delay ≤ round f

theorem depth_attained {nodes : ℕ} {gates : List Gate} (h : WellFormed nodes gates) :
    (levels gates).depth = 0 ∨
      ∃ f ∈ gates, f.type ≠ .output ∧ level gates f.outIdx = (levels gates).depth := by
  induction gates using List.reverseRecOn with
  | nil => exact Or.inl rfl
  | append_singleton gates g ih =>
    have hg := h.last
    simp only [level, levels_snoc]
    by_cases ho : g.type = .output
    · rw [levelStep, if_pos ho]
      refine (ih h.of_append).imp_right ?_
      rintro ⟨f, hf, hfo, he⟩
      exact ⟨f, List.mem_append_left _ hf, hfo, he⟩
    · have hdepth : (levelStep (levels gates) g).depth =
          max (levels gates).depth ((levelStep (levels gates) g).wireLevel g.outIdx) := by
        rw [levelStep_wireLevel ho, if_pos rfl]
        simp only [levelStep, if_neg ho, Gate.delay]
        split <;> rfl
      rcases le_total (levels gates).depth ((levelStep (levels gates) g).wireLevel g.outIdx)
        with hle | hle
      · exact Or.inr ⟨g, List.mem_append_right _ (List.mem_singleton_self g), ho,
          by rw [hdepth, max_eq_right hle]⟩
      · rw [hdepth, max_eq_left hle]
        refine (ih h.of_append).imp_right ?_
        rintro ⟨f, hf, hfo, he⟩
        have hlt := (h.of_append.wired_of_mem hf).2
        refine ⟨f, List.mem_append_left _ hf, hfo, ?_⟩
        rw [levelStep_wireLevel ho, if_neg (by rw [hg.outIdx]; omega)]
        exact he

theorem Laid.numbered {nodes m : ℕ} {gates : List Gate} (h : Laid nodes m gates)
    (hne : gates ≠ []) : Numbered gates := by
  have hw := h.wellFormed
  refine ⟨fun k f hk => ⟨(hw k f hk).gId, (hw k f hk).outIdx⟩, ?_, fun k f hk w hfw => ?_⟩
  · obtain ⟨f, l, rfl⟩ := List.exists_cons_of_ne_nil hne
    exact ⟨f, rfl, (hw 0 f rfl).first rfl⟩
  · obtain hw0 | ⟨g, hg, rfl, ho⟩ := h.operands f (List.mem_of_getElem? hk) w hfw
    · exact Or.inl hw0
    · rcases Nat.eq_zero_or_pos g.outIdx with h0 | hpos
      · exact Or.inl h0
      · have hle : g.outIdx ≤ k - 1 := by
          rcases List.mem_pair.mp hfw with he | he
          · exact he ▸ (hw k f hk).in1
          · exact he ▸ (hw k f hk).in2
        exact Or.inr ⟨by omega, g, hw.getElem?_outIdx hg, ho⟩

section numbered

variable {gates : List Gate} {f g : Gate} {p : List Gate}

theorem interactions_cons (f : Gate) (p : List Gate) :
    interactions (f :: p) = interactions p + f.delay := by
  rw [interactions, List.countP_cons]
  rfl

namespace Numbered

variable (h : Numbered gates)

include h

theorem input_first (hf : gates[0]? = some f) : f.type = .input := by
  obtain ⟨f', hf', ht⟩ := h.first
  obtain rfl := Option.some.inj (hf.symm.trans hf')
  exact ht

theorem wellFormed : WellFormed 0 gates := by
  intro k f hk
  obtain ⟨hg, ho⟩ := h.ids k f hk
  have hle : ∀ w ∈ [f.in1Idx, f.in2Idx], w ≤ k - 1 := fun w hw => by
    rcases h.operand k f hk w hw with rfl | ⟨hlt, -⟩ <;> omega
  refine ⟨hg, ho, hle _ (by simp), hle _ (by simp), fun r hr => ?_, fun h0 => ?_⟩
  · rcases Nat.eq_zero_or_pos k with rfl | hk0
    · simp [Gate.reads, h.input_first hk] at hr
    · have hr' : r ∈ [f.in1Idx, f.in2Idx] := by
        by_cases hc : f.type = .columnSumsToNodes
        · simp [Gate.reads, hc] at hr
        · rcases reads_cases hc hr with rfl | rfl <;> simp
      have := hle r hr'
      omega
  · subst h0
    exact h.input_first hk

theorem operand_gate (hf : f ∈ gates) {w : ℕ} (hw : w = f.in1Idx ∨ w = f.in2Idx)
    (hlt : w < f.outIdx) : ∃ g ∈ gates, g.outIdx = w ∧ g.type ≠ .output ∧ f.DependsOn g := by
  obtain ⟨k, hk⟩ := List.mem_iff_getElem?.mp hf
  have hout := (h.ids k f hk).2
  have hpos : w < gates.length := hlt.trans (hout ▸ (List.getElem?_eq_some_iff.mp hk).1)
  have hwire := (h.ids w _ (List.getElem?_eq_getElem hpos)).2
  have hsome : ∃ g : Gate, gates[w]? = some g ∧ g.type ≠ .output := by
    rcases h.operand k f hk w (by simpa using hw) with rfl | ⟨-, hg⟩
    · refine ⟨gates[0], List.getElem?_eq_getElem hpos, ?_⟩
      rw [h.input_first (List.getElem?_eq_getElem hpos)]
      decide
    · exact hg
  obtain ⟨g, hg, ho⟩ := hsome
  obtain rfl : gates[w] = g := Option.some.inj ((List.getElem?_eq_getElem hpos).symm.trans hg)
  refine ⟨gates[w], List.getElem_mem _, hwire, ho, hwire.trans_lt hlt, ?_⟩
  rwa [hwire]

theorem exists_path (n : ℕ) (hn : f.outIdx = n) (hf : f ∈ gates) (ho : f.type ≠ .output) :
    ∃ p, Path gates (f :: p) ∧ interactions (f :: p) = level gates f.outIdx := by
  induction n using Nat.strong_induction_on generalizing f with
  | _ n ih =>
    have hwf := h.wellFormed
    obtain ⟨hw, -⟩ := hwf.wired_of_mem hf
    have hlevel := level_out hwf hf ho
    obtain ⟨w, hop, hmax⟩ : ∃ w, (w = f.in1Idx ∨ w = f.in2Idx) ∧
        level gates f.outIdx = level gates w + f.delay := by
      rcases le_total (level gates f.in1Idx) (level gates f.in2Idx) with hle | hle
      · exact ⟨f.in2Idx, Or.inr rfl, by rw [hlevel, max_eq_right hle]⟩
      · exact ⟨f.in1Idx, Or.inl rfl, by rw [hlevel, max_eq_left hle]⟩
    rcases Nat.eq_zero_or_pos f.outIdx with h0 | hpos
    · -- the first gate is an input
      refine ⟨[], ⟨by simpa using hf, .singleton f⟩, ?_⟩
      have hd : f.delay = 0 := by simp [Gate.delay, Gate.interactive, hw.first h0]
      rw [interactions_cons, hd, h0, level_zero hwf]
      rfl
    · have hlt : w < f.outIdx := by
        have h1 := hw.in1
        have h2 := hw.in2
        omega
      obtain ⟨g, hg, hgw, hgo, hdep⟩ := h.operand_gate hf hop hlt
      obtain ⟨p, hp, hi⟩ := ih w (hn ▸ hlt) hgw hg hgo
      refine ⟨g :: p, ⟨List.forall_mem_cons.mpr ⟨hf, hp.mem⟩, .cons_cons hdep hp.chain⟩, ?_⟩
      rw [interactions_cons, hi, hmax, hgw]

theorem source_value (hf : f ∈ gates) (hg : g ∈ gates) (hd : f.DependsOn g) :
    g.type ≠ .output := by
  obtain ⟨hlt, hw⟩ := hd
  obtain ⟨g', hg', he, ho, -⟩ := h.operand_gate hf hw hlt
  rwa [h.wellFormed.eq_of_outIdx hg hg' he.symm]

theorem level_dependency (hf : f ∈ gates) (ho : f.type ≠ .output) (hd : f.DependsOn g) :
    level gates g.outIdx + f.delay ≤ level gates f.outIdx := by
  rw [level_out h.wellFormed hf ho]
  refine Nat.add_le_add_right ?_ _
  rcases hd.2 with he | he
  · exact he ▸ le_max_left _ _
  · exact he ▸ le_max_right _ _

theorem interactions_le (hp : Path gates (f :: p)) (ho : f.type ≠ .output) :
    interactions (f :: p) ≤ level gates f.outIdx := by
  induction p generalizing f with
  | nil =>
    rw [interactions_cons, level_out h.wellFormed (hp.mem f (List.mem_singleton_self f)) ho]
    exact Nat.add_le_add_right (Nat.zero_le _) _
  | cons g p ih =>
    obtain ⟨hd, hc⟩ := List.isChain_cons_cons.mp hp.chain
    obtain ⟨hf, hmem⟩ := List.forall_mem_cons.mp hp.mem
    have hg := hmem g (List.mem_cons_self ..)
    rw [interactions_cons]
    exact (Nat.add_le_add_right (ih ⟨hmem, hc⟩ (h.source_value hf hg hd)) _).trans
      (h.level_dependency hf ho hd)

theorem interactions_le_depth (hp : Path gates p) : interactions p ≤ (levels gates).depth := by
  have hle : ∀ {f p}, Path gates (f :: p) → f.type ≠ .output →
      interactions (f :: p) ≤ (levels gates).depth := fun hp ho =>
    (h.interactions_le hp ho).trans (wireLevel_le_depth h.wellFormed _)
  cases p with
  | nil => exact Nat.zero_le _
  | cons f p =>
    by_cases ho : f.type = .output
    · have hd : f.delay = 0 := by simp [Gate.delay, Gate.interactive, ho]
      rw [interactions_cons, hd]
      cases p with
      | nil => exact Nat.zero_le _
      | cons g p =>
        obtain ⟨hdep, hc⟩ := List.isChain_cons_cons.mp hp.chain
        obtain ⟨hf, hmem⟩ := List.forall_mem_cons.mp hp.mem
        exact hle ⟨hmem, hc⟩ (h.source_value hf (hmem g (List.mem_cons_self ..)) hdep)
    · exact hle hp ho

theorem interactions_le_round {round : Gate → ℕ} (hr : Rounds gates round)
    (hp : Path gates (f :: p)) : interactions (f :: p) ≤ round f := by
  have hdelay : ∀ f ∈ gates, f.delay ≤ round f := fun f hf => by
    rw [Gate.delay]
    split
    · exact hr.interactive f hf ‹_›
    · exact Nat.zero_le _
  induction p generalizing f with
  | nil =>
    rw [interactions_cons]
    exact (Nat.zero_add _).trans_le (hdelay f (hp.mem f (List.mem_singleton_self f)))
  | cons g p ih =>
    obtain ⟨hd, hc⟩ := List.isChain_cons_cons.mp hp.chain
    obtain ⟨hf, hmem⟩ := List.forall_mem_cons.mp hp.mem
    have hg := hmem g (List.mem_cons_self ..)
    rw [interactions_cons]
    by_cases h0 : g.outIdx = 0
    · -- an input, with which a path starts
      have hnil : interactions (g :: p) = 0 := by
        have hle := h.interactions_le ⟨hmem, hc⟩ (h.source_value hf hg hd)
        rwa [h0, level_zero h.wellFormed, Nat.le_zero] at hle
      rw [hnil, Nat.zero_add]
      exact hdelay f hf
    · exact (Nat.add_le_add_right (ih ⟨hmem, hc⟩) _).trans (hr.after f hf g hg hd h0)

theorem exists_deepest : ∃ f ∈ gates, ∃ p, Path gates (f :: p) ∧
    interactions (f :: p) = (levels gates).depth := by
  rcases depth_attained h.wellFormed with h0 | ⟨f, hf, ho, he⟩
  · obtain ⟨f, hf, ht⟩ := h.first
    have hmem : f ∈ gates := List.mem_of_getElem? hf
    have hd : f.delay = 0 := by simp [Gate.delay, Gate.interactive, ht]
    refine ⟨f, hmem, [], ⟨by simpa using hmem, .singleton f⟩, ?_⟩
    rw [interactions_cons, hd, h0]
    rfl
  · obtain ⟨p, hp, hi⟩ := h.exists_path _ rfl hf ho
    exact ⟨f, hf, p, hp, hi.trans he⟩

end Numbered

end numbered

structure CriticalLayers (gates : List Gate) (layers : List (List Gate)) : Prop where
  perm : layers.flatten.Perm gates
  layer : ∀ f ∈ gates, ∃! l : ℕ, ∃ L, layers[l]? = some L ∧ f ∈ L
  ordered : ∀ L ∈ layers, L.Sublist gates
  critical : ∀ l L, layers[l]? = some L → ∀ f ∈ L, f.type ≠ .output →
    (∃ p, Path gates (f :: p) ∧ interactions (f :: p) = l) ∧
      ∀ p, Path gates (f :: p) → interactions (f :: p) ≤ l
  outputs : ∀ l L, layers[l]? = some L → ∀ f ∈ L, f.type = .output → l + 1 = layers.length
  length : (∃ p, Path gates p ∧ layers.length = interactions p + 1) ∧
    ∀ p, Path gates p → interactions p + 1 ≤ layers.length
  fewest : ∀ round, Rounds gates round → ∀ m, (∀ f ∈ gates, round f < m) → layers.length ≤ m

theorem getElem?_layersOf {gates L : List Gate} {l : ℕ} (h : (layersOf gates)[l]? = some L) :
    l ≤ (levels gates).depth ∧ L = layerGates gates l := by
  simp only [layersOf_eq, List.getElem?_map, Option.map_eq_some_iff,
    List.getElem?_eq_some_iff, List.length_range, List.getElem_range] at h
  obtain ⟨_, ⟨hl, rfl⟩, rfl⟩ := h
  exact ⟨Nat.lt_succ_iff.mp hl, rfl⟩

theorem levelOrder_critical {c : Circuit} (h : Numbered c.gates) :
    CriticalLayers c.gates (levelOrder c).2.circ := by
  have hwf := h.wellFormed
  have hcirc : (levelOrder c).2.circ = layersOf c.gates := rfl
  have hlen : (layersOf c.gates).length = (levels c.gates).depth + 1 := by simp [layersOf_eq]
  rw [hcirc]
  refine ⟨layersOf_perm hwf, fun f hf => ?_, fun L hL => ?_, fun l L hL f hf ho => ?_,
    fun l L hL f hf ho => ?_, ⟨?_, fun p hp => ?_⟩, fun round hr m hm => ?_⟩
  · have hle := layer_le_depth hwf hf
    refine ⟨(levels c.gates).layer f, ⟨layerGates c.gates ((levels c.gates).layer f), ?_,
      mem_layerGates.mpr ⟨hf, rfl⟩⟩, ?_⟩
    · simp [layersOf_eq, List.getElem?_range (Nat.lt_succ_of_le hle)]
    · rintro l ⟨L, hL, hfL⟩
      obtain ⟨-, rfl⟩ := getElem?_layersOf hL
      exact (mem_layerGates.mp hfL).2.symm
  · obtain ⟨l, hl⟩ := List.mem_iff_getElem?.mp hL
    obtain ⟨-, rfl⟩ := getElem?_layersOf hl
    exact List.filter_sublist
  · obtain ⟨-, rfl⟩ := getElem?_layersOf hL
    obtain ⟨hmem, hl⟩ := mem_layerGates.mp hf
    rw [layer_eq hwf hmem ho] at hl
    obtain ⟨p, hp, hi⟩ := h.exists_path _ rfl hmem ho
    exact ⟨⟨p, hp, hi.trans hl⟩, fun p hp => (h.interactions_le hp ho).trans hl.le⟩
  · obtain ⟨-, rfl⟩ := getElem?_layersOf hL
    obtain ⟨-, hl⟩ := mem_layerGates.mp hf
    rw [Levels.layer, if_pos ho] at hl
    rw [hlen, hl]
  · obtain ⟨f, -, p, hp, hi⟩ := h.exists_deepest
    exact ⟨f :: p, hp, by rw [hlen, hi]⟩
  · rw [hlen]
    exact Nat.succ_le_succ (h.interactions_le_depth hp)
  · obtain ⟨f, hf, p, hp, hi⟩ := h.exists_deepest
    rw [hlen, ← hi]
    exact (Nat.succ_le_succ (h.interactions_le_round hr hp)).trans (hm f hf)

def shuffledGates : List Gate :=
  [ { type := .input, gId := 0, outIdx := 0 },
    { type := .shuffle, gId := 1, in1Idx := 0, outIdx := 1 },
    { type := .output, gId := 2, in1Idx := 1, outIdx := 2 } ]

theorem shuffledGates_numbered : Numbered shuffledGates where
  ids k f hk := by
    have hlt := (List.getElem?_eq_some_iff.mp hk).1
    simp only [shuffledGates, List.length_cons, List.length_nil] at hlt
    interval_cases k <;> simp [shuffledGates] at hk <;> subst hk <;> exact ⟨rfl, rfl⟩
  first := ⟨_, rfl, rfl⟩
  operand k f hk := by
    have hlt := (List.getElem?_eq_some_iff.mp hk).1
    simp only [shuffledGates, List.length_cons, List.length_nil] at hlt
    interval_cases k <;> simp [shuffledGates] at hk <;> subst hk <;> simp [shuffledGates]

def shuffledCircuit : Circuit := { init ⟨3, 1, 0, 1, by decide⟩ 1 with gates := shuffledGates }

theorem levelOrder_critical_shuffled :
    CriticalLayers shuffledGates (levelOrder shuffledCircuit).2.circ :=
  levelOrder_critical (c := shuffledCircuit) shuffledGates_numbered

end GraphMpc
