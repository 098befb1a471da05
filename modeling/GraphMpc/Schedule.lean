import GraphMpc.Protocol
import GraphMpc.Layering
import GraphMpc.Library.RefCount

namespace GraphMpc

open Circuit RefCount

namespace Gate

-- the wires whose counters evaluate_send and evaluate_recv decrement
def sentFree (f : Gate) : List ℕ :=
  match f.type with
  | .mergedShuffle | .shuffle | .unshuffle | .eqz => [f.in1Idx]
  | .mul | .mulSIMD => [f.in1Idx, f.in2Idx]
  | _ => []

def receivedFree (f : Gate) : List ℕ :=
  match f.type with
  | .permute | .reversePermute | .add | .addSIMD | .sub | .subSIMD | .propagate2 =>
    [f.in1Idx, f.in2Idx]
  | .output | .compaction | .bit2A | .addConst | .addConstSIMD | .mulConst | .mulConstSIMD
  | .flip | .removeEdgeData | .propagate1 | .gather1 | .gather2 | .deduplicationSub | .insert =>
    [f.in1Idx]
  | _ => []

-- the wires that init_waiting counts for a gate; index 0 stands for no second operand
def counted (f : Gate) : List ℕ := f.in1Idx :: if f.in2Idx ≠ 0 then [f.in2Idx] else []

def binaryOperator (f : Gate) : Bool :=
  match f.type with
  | .permute | .reversePermute | .add | .addSIMD | .sub | .subSIMD | .propagate2 | .mul
  | .mulSIMD => true
  | _ => false

def Handled (f : Gate) : Prop := f.binaryOperator = true → f.in2Idx ≠ 0

variable {f : Gate}

theorem reads_counted {nodes : ℕ} (h : f.Handled) (hc : f.type ≠ .columnSumsToNodes) {r : ℕ}
    (hr : r ∈ f.reads nodes) : r ∈ f.counted := by
  by_cases h1 : r = f.in1Idx
  · rw [h1]
    exact List.mem_cons_self ..
  · have h2 : r = f.in2Idx := (reads_cases hc hr).resolve_left h1
    have hb : f.binaryOperator = true := by
      cases ht : f.type <;> simp_all [reads, binaryOperator]
    rw [counted, if_pos (h hb), h2]
    exact List.mem_cons_of_mem _ (List.mem_singleton_self _)

theorem frees_cases (f : Gate) :
    (f.sentFree = [] ∨ f.receivedFree = []) ∧ (f.sentFree ++ f.receivedFree = [] ∨
      f.sentFree ++ f.receivedFree = [f.in1Idx] ∨
        f.binaryOperator = true ∧ f.sentFree ++ f.receivedFree = [f.in1Idx, f.in2Idx]) := by
  cases ht : f.type <;> simp [sentFree, receivedFree, binaryOperator, ht]

theorem frees_le_counted (h : f.Handled) (w : ℕ) :
    f.sentFree.count w + f.receivedFree.count w ≤ f.counted.count w := by
  rw [← List.count_append, counted]
  obtain ⟨-, he | he | ⟨hb, he⟩⟩ := f.frees_cases <;> rw [he]
  · exact Nat.zero_le _
  · exact List.Sublist.count_le _ (List.Sublist.cons_cons _ (List.nil_sublist _))
  · rw [if_pos (h hb)]

theorem frees_reads (nodes : ℕ) {w : ℕ} :
    (w ∈ f.sentFree → f.interactive = true ∧ w ∈ f.reads nodes) ∧
      (w ∈ f.receivedFree → w ∈ f.reads nodes) := by
  cases ht : f.type <;> simp [sentFree, receivedFree, reads, interactive, ht]

theorem frees_columns {w : ℕ} (h : w ∈ f.sentFree ++ f.receivedFree) :
    f.type ≠ .columnSumsToNodes := by
  intro ht
  simp [sentFree, receivedFree, ht] at h

end Gate

namespace Online

variable {f : Gate} {o : Online}

def release (o : Online) (l : List ℕ) : Online :=
  { o with
    waiting := fun w => o.waiting w - l.count w
    wires := fun w => if w ∈ l ∧ o.waiting w - l.count w = 0 then [] else o.wires w }

theorem release_nil (o : Online) : o.release [] = o := by
  simp [release]

theorem freeIfDone_eq (o : Online) (w : ℕ) : o.freeIfDone w =
    { o with wires := fun v => if v = w ∧ o.waiting v = 0 then [] else o.wires v } := by
  unfold freeIfDone setWire
  split_ifs with hz
  · congr 1
    funext v
    by_cases hv : v = w <;> simp_all
  · rcases o with ⟨⟩
    congr 1
    funext v
    by_cases hv : v = w <;> simp_all

theorem updateWire_eq (o : Online) (w : ℕ) : o.updateWire w = o.release [w] := by
  simp only [updateWire, freeIfDone_eq, countDown, release]
  congr 1
  all_goals
    funext v
    by_cases hv : v = w <;> simp_all [List.count_cons]
  omega

theorem updateWires_eq (o : Online) (w1 w2 : ℕ) : o.updateWires w1 w2 = o.release [w1, w2] := by
  have hcount : ∀ v, o.waiting v - (List.count v [w1, w2] : ℕ) =
      ((o.countDown w1).countDown w2).waiting v := by
    intro v
    have hv : ((List.count v [w1, w2] : ℕ) : ℤ) =
        (if v = w1 then 1 else 0) + if v = w2 then 1 else 0 := by
      by_cases h1 : v = w1 <;> by_cases h2 : v = w2
      all_goals simp_all [Ne.symm]
    simp only [hv, countDown, Function.update_apply]
    split_ifs <;> simp_all
    omega
  simp only [updateWires, freeIfDone_eq, release, hcount]
  congr 1
  funext v
  by_cases h1 : v = w1 <;> by_cases h2 : v = w2
  all_goals simp_all [countDown]

theorem releaseSent_eq (f : Gate) (o : Online) : o.releaseSent f = o.release f.sentFree := by
  cases ht : f.type <;> simp only [releaseSent, Gate.sentFree, ht] <;>
    first | exact updateWire_eq .. | exact updateWires_eq .. | exact (release_nil o).symm

theorem releaseReceived_eq (f : Gate) (o : Online) :
    o.releaseReceived f = o.release f.receivedFree := by
  cases ht : f.type <;> simp only [releaseReceived, Gate.receivedFree, ht] <;>
    first | exact updateWire_eq .. | exact updateWires_eq .. | exact (release_nil o).symm

def total (circ : List (List Gate)) (w : ℕ) : ℕ := (circ.flatten.map fun f => f.counted.count w).sum

theorem initWaiting_waiting (o : Online) (circ : List (List Gate)) (w : ℕ) :
    (o.initWaiting circ).waiting w = total circ w := by
  simp only [initWaiting, total]
  induction circ.flatten with
  | nil => rfl
  | cons f l ih =>
    have hf : (f.counted.count w : ℤ) = (if f.in1Idx = w then 1 else 0) +
        if f.in2Idx = w ∧ f.in2Idx ≠ 0 then 1 else 0 := by
      by_cases h1 : f.in1Idx = w <;> by_cases h2 : f.in2Idx = w <;> by_cases h3 : f.in2Idx = 0
      all_goals simp_all [Gate.counted, List.count_cons]
    rw [List.map_cons, List.sum_cons, Nat.cast_add, ← ih, hf]
    simp only [List.countP_cons, decide_eq_true_eq]
    push_cast
    omega

end Online

namespace Servers

namespace Action

-- the wires an action looks at: interactive gates before the exchange, the others after it, and
-- compaction and bit2A in both phases
def reads (nodes : ℕ) : Action → List ℕ
  | send f => if f.interactive then f.reads nodes else []
  | recv f => if f.interactive ∧ f.type ≠ .compaction ∧ f.type ≠ .bit2A then [] else f.reads nodes
  | exchange | clear => []

def writes : Action → List ℕ
  | recv f => if f.type = .output then [] else [f.outIdx]
  | _ => []

def frees : Action → List ℕ
  | send f => f.sentFree
  | recv f => f.receivedFree
  | exchange | clear => []

def effects : Effects Action := ⟨writes, frees⟩

-- what init_waiting counts for a gate, minus the releases of its send phase, falls to its
-- receive phase, also when the code never releases it
def owed (a : Action) (w : ℕ) : ℕ :=
  match a with
  | send f => f.sentFree.count w
  | recv f => f.counted.count w - f.sentFree.count w
  | exchange | clear => 0

end Action

open GraphMpc.Servers.Action

variable {nodes : ℕ} {gates : List Gate}

theorem mem_schedule_send {circ : List (List Gate)} {f : Gate} :
    send f ∈ schedule circ ↔ f ∈ circ.flatten := by
  simp [schedule, layerSchedule]

theorem mem_schedule_recv {circ : List (List Gate)} {f : Gate} :
    recv f ∈ schedule circ ↔ f ∈ circ.flatten := by
  simp [schedule, layerSchedule]

theorem sum_schedule (φ : Action → ℕ) (he : φ exchange = 0) (hc : φ clear = 0)
    (circ : List (List Gate)) : ((schedule circ).map φ).sum =
      (circ.flatten.map fun f => φ (send f) + φ (recv f)).sum := by
  induction circ with
  | nil => rfl
  | cons L circ ih =>
    have hL : ((layerSchedule L).map φ).sum = (L.map fun f => φ (send f) + φ (recv f)).sum := by
      simp only [layerSchedule, List.map_append, List.map_map, List.sum_append, List.map_cons,
        List.map_nil, List.sum_cons, List.sum_nil, he, hc, List.sum_map_add]
      simp [Function.comp_def]
    simp only [schedule, List.flatMap_cons, List.map_append, List.sum_append,
      List.flatten_cons] at ih ⊢
    rw [hL, ih]

theorem sum_owed (h : ∀ f ∈ gates, f.Handled) (circ : List (List Gate))
    (hm : ∀ f, f ∈ circ.flatten → f ∈ gates) (w : ℕ) :
    ((schedule circ).map fun a => owed a w).sum = Online.total circ w := by
  rw [sum_schedule _ rfl rfl, Online.total]
  refine congrArg List.sum (List.map_congr_left fun f hf => ?_)
  have := f.frees_le_counted (h f (hm f hf)) w
  simp only [owed]
  omega

theorem frees_le_owed {a : Action} (h : ∀ f, a = recv f → f.Handled) (w : ℕ) :
    (effects.frees a).count w ≤ owed a w := by
  cases a with
  | send f => exact le_rfl
  | exchange => exact le_rfl
  | recv f =>
    have := f.frees_le_counted (h f rfl) w
    simp only [effects, frees, owed]
    omega
  | clear => exact le_rfl

def Precedes (gates : List Gate) : Action → Action → Prop
  | send f, send g | recv f, recv g => Earlier gates f g
  | send f, recv g => (levels gates).layer f ≤ (levels gates).layer g
  | recv f, send g => (levels gates).layer f < (levels gates).layer g
  | _, _ => True

theorem pairwise_schedule (h : WellFormed nodes gates) :
    (schedule (layersOf gates)).Pairwise (Precedes gates) := by
  have hlayer : ∀ l, (layerSchedule (layerGates gates l)).Pairwise (Precedes gates) := by
    intro l
    have hp := pairwise_layerGates h l
    have hl : ∀ {f}, f ∈ layerGates gates l → (levels gates).layer f = l :=
      fun hf => (mem_layerGates.mp hf).2
    have he : (layerGates gates l).Pairwise (Earlier gates) :=
      hp.imp_of_mem fun hf hg hlt => Or.inr ⟨(hl hf).trans (hl hg).symm, hlt⟩
    simp only [layerSchedule, List.pairwise_append, List.pairwise_map, List.pairwise_singleton,
      List.mem_map, List.mem_append, List.mem_singleton, true_and]
    refine ⟨⟨⟨he, ?_⟩, he, ?_⟩, ?_⟩
    · rintro _ ⟨f, hf, rfl⟩ _ rfl
      trivial
    · rintro a (⟨f, hf, rfl⟩ | rfl) _ ⟨g, hg, rfl⟩
      · exact ((hl hf).trans (hl hg).symm).le
      · trivial
    · rintro a ((⟨f, hf, rfl⟩ | rfl) | ⟨f, hf, rfl⟩) _ rfl <;> trivial
  rw [schedule, List.pairwise_flatMap, layersOf_eq]
  constructor
  · intro L hL
    obtain ⟨l, -, rfl⟩ := List.mem_map.mp hL
    exact hlayer l
  · rw [List.pairwise_map]
    refine List.pairwise_lt_range.imp fun {l l'} hlt a ha b hb => ?_
    have hmem : ∀ {m} {a : Action}, a ∈ layerSchedule (layerGates gates m) →
        (∃ f, (a = send f ∨ a = recv f) ∧ (levels gates).layer f = m) ∨
          a = exchange ∨ a = clear := by
      intro m a ha
      simp only [layerSchedule, List.mem_append, List.mem_map, List.mem_singleton] at ha
      rcases ha with ((⟨f, hf, rfl⟩ | rfl) | ⟨f, hf, rfl⟩) | rfl
      · exact Or.inl ⟨f, Or.inl rfl, (mem_layerGates.mp hf).2⟩
      · exact Or.inr (Or.inl rfl)
      · exact Or.inl ⟨f, Or.inr rfl, (mem_layerGates.mp hf).2⟩
      · exact Or.inr (Or.inr rfl)
    rcases hmem ha with ⟨f, hf, hfl⟩ | ha
    · rcases hmem hb with ⟨g, hg, hgl⟩ | hb
      · have hlt' : (levels gates).layer f < (levels gates).layer g := by omega
        rcases hf with rfl | rfl <;> rcases hg with rfl | rfl
        · exact Or.inl hlt'
        · exact hlt'.le
        · exact hlt'
        · exact Or.inl hlt'
      · rcases hf with rfl | rfl <;> rcases hb with rfl | rfl <;> trivial
    · rcases ha with rfl | rfl <;> trivial

section positions

variable {pre post : List Action} {a : Action} {f g : Gate} (h : WellFormed nodes gates)
  (hs : schedule (layersOf gates) = pre ++ a :: post)

include h hs

theorem mem_split {b : Action} (hb : b ∈ schedule (layersOf gates)) :
    b ∈ pre ∨ b = a ∨ b ∈ post ∧ Precedes gates a b := by
  have hp := pairwise_schedule h
  rw [hs, List.pairwise_append, List.pairwise_cons] at hp
  rw [hs, List.mem_append, List.mem_cons] at hb
  rcases hb with hb | hb | hb
  · exact Or.inl hb
  · exact Or.inr (Or.inl hb)
  · exact Or.inr (Or.inr ⟨hb, hp.2.1.1 b hb⟩)

theorem precedes_of_mem {b : Action} (hb : b ∈ pre) : Precedes gates b a := by
  have hp := pairwise_schedule h
  rw [hs, List.pairwise_append] at hp
  exact hp.2.2 b hb a (List.mem_cons_self ..)

theorem precedes_of_mem_post {b : Action} (hb : b ∈ post) : Precedes gates a b := by
  have hp := pairwise_schedule h
  rw [hs, List.pairwise_append, List.pairwise_cons] at hp
  exact hp.2.1.1 b hb

theorem mem_gates_of_mem (hb : recv f ∈ pre ∨ send f ∈ pre) : f ∈ gates := by
  rw [← mem_layersOf h]
  rcases hb with hb | hb
  · rw [← mem_schedule_recv, hs]
    exact List.mem_append_left _ hb
  · rw [← mem_schedule_send, hs]
    exact List.mem_append_left _ hb

theorem mem_gates_of_mem_post (hb : recv f ∈ post) : f ∈ gates := by
  rw [← mem_layersOf h, ← mem_schedule_recv, hs]
  exact List.mem_append_right _ (List.mem_cons_of_mem _ hb)

theorem recv_before_send (ha : a = send f) (hg : g ∈ gates)
    (hl : (levels gates).layer g < (levels gates).layer f) : recv g ∈ pre := by
  subst ha
  rcases mem_split h hs (mem_schedule_recv.mpr ((mem_layersOf h).mpr hg)) with hb | hb | ⟨-, hb⟩
  · exact hb
  · cases hb
  · exact absurd hl (not_lt.mpr hb)

theorem recv_before_recv (ha : a = recv f) (hg : g ∈ gates) (he : Earlier gates g f) :
    recv g ∈ pre := by
  subst ha
  rcases mem_split h hs (mem_schedule_recv.mpr ((mem_layersOf h).mpr hg)) with hb | hb | ⟨-, hb⟩
  · exact hb
  · cases hb
    rcases he with he | ⟨-, he⟩ <;> exact absurd he (lt_irrefl _)
  · rcases he with he | ⟨he, ho⟩ <;> rcases hb with hb | ⟨hb, hb'⟩ <;> omega

theorem recv_after_send (ha : a = send f) : recv f ∈ post := by
  subst ha
  have hf : send f ∈ schedule (layersOf gates) := by
    rw [hs]
    exact List.mem_append_right _ (List.mem_cons_self ..)
  rcases mem_split h hs (mem_schedule_recv.mpr (mem_schedule_send.mp hf)) with hb | hb | ⟨hb, -⟩
  · exact absurd (precedes_of_mem h hs hb) (lt_irrefl _)
  · cases hb
  · exact hb

end positions

section lifetimes

variable {pre post : List Action} {a : Action} {f : Gate} (h : WellFormed nodes gates)
  (hh : ∀ f ∈ gates, f.Handled) (hs : schedule (layersOf gates) = pre ++ a :: post)

def Action.gate : Action → Option Gate
  | send f | recv f => some f
  | exchange | clear => none

omit h hh hs in
theorem gate_of_reads {w : ℕ} (hr : w ∈ a.reads nodes) : ∃ f, a.gate = some f := by
  cases a with
  | send f => exact ⟨f, rfl⟩
  | recv f => exact ⟨f, rfl⟩
  | exchange => cases hr
  | clear => cases hr

omit h hh hs in
theorem reads_of_action {w : ℕ} (ha : a.gate = some f) (hr : w ∈ a.reads nodes) :
    w ∈ f.reads nodes := by
  cases a with
  | send g =>
    obtain rfl : g = f := by simpa [Action.gate] using ha
    simp only [Action.reads] at hr
    split at hr
    · exact hr
    · cases hr
  | recv g =>
    obtain rfl : g = f := by simpa [Action.gate] using ha
    simp only [Action.reads] at hr
    split at hr
    · cases hr
    · exact hr
  | exchange => cases ha
  | clear => cases ha

omit hs in
include h hh in
theorem sum_owed_layers (w : ℕ) : ((schedule (layersOf gates)).map fun a => owed a w).sum =
    Online.total (layersOf gates) w :=
  sum_owed hh _ (fun _ hf => (mem_layersOf h).mp hf) w

omit hs in
include h hh in
theorem frees_le_owed_layers (w : ℕ) : ∀ a ∈ schedule (layersOf gates),
    (effects.frees a).count w ≤ owed a w := by
  intro a ha
  refine frees_le_owed (fun f he => hh f ?_) w
  subst he
  exact (mem_layersOf h).mp (mem_schedule_recv.mp ha)

include h hh hs

theorem released_le_total (w : ℕ) : effects.released pre w ≤ Online.total (layersOf gates) w :=
  Effects.released_le hs (frees_le_owed_layers h hh w) (sum_owed_layers h hh w)

theorem released_lt_total {w : ℕ} (ha : a.gate = some f) (hr : w ∈ a.reads nodes)
    (hc : w ∈ f.counted) : effects.released pre w < Online.total (layersOf gates) w := by
  have hpos : 0 < f.counted.count w := List.count_pos_iff.mpr hc
  refine Effects.released_lt hs (frees_le_owed_layers h hh w) (sum_owed_layers h hh w)
    (b := if w ∈ f.sentFree then send f else recv f) ?_ ?_
  · cases a with
    | send g =>
      obtain rfl : g = f := by simpa [Action.gate] using ha
      split_ifs
      · exact List.mem_cons_self ..
      · exact List.mem_cons_of_mem _ (recv_after_send h hs rfl)
    | recv g =>
      obtain rfl : g = f := by simpa [Action.gate] using ha
      rw [if_neg]
      · exact List.mem_cons_self ..
      · intro hm
        simp only [Action.reads] at hr
        split at hr
        · cases hr
        · rename_i hn
          cases ht : g.type <;> simp_all [Gate.sentFree, Gate.interactive]
    | exchange => cases ha
    | clear => cases ha
  · split_ifs with hm
    · exact List.count_pos_iff.mpr hm
    · rwa [owed, List.count_eq_zero.mpr hm, Nat.sub_zero]

omit hh in
theorem action_mem {f : Gate} (ha : a.gate = some f) : f ∈ gates := by
  have hmem : a ∈ schedule (layersOf gates) := by
    rw [hs]
    exact List.mem_append_right _ (List.mem_cons_self ..)
  rw [← mem_layersOf h]
  cases a with
  | send g =>
    obtain rfl : g = f := by simpa [Action.gate] using ha
    exact mem_schedule_send.mp hmem
  | recv g =>
    obtain rfl : g = f := by simpa [Action.gate] using ha
    exact mem_schedule_recv.mp hmem
  | exchange => cases ha
  | clear => cases ha

omit hh in
theorem source_received_of (hsrc : Sourced nodes gates) {w : ℕ} (ha : a.gate = some f)
    (hr : w ∈ a.reads nodes)
    (hl : (levels gates).wireLevel w + f.delay ≤ (levels gates).layer f) :
    ∃ g ∈ gates, g.outIdx = w ∧ recv g ∈ pre ∧ g.type ≠ .output ∧
      (f.interactive = true → (levels gates).layer g < (levels gates).layer f) := by
  have hf := action_mem h hs ha
  have hd : f.interactive = true → f.delay = 1 := fun hi => if_pos hi
  have hr' : w ∈ f.reads nodes := reads_of_action ha hr
  obtain ⟨g, hg, rfl⟩ := exists_source h hf hr'
  obtain ⟨hle, hlt⟩ := source_earlier_of h hsrc hf hg hr' hl
  refine ⟨g, hg, rfl, ?_, hsrc f hf _ hr' g hg rfl, fun hi => by have := hd hi; omega⟩
  cases a with
  | send x =>
    obtain rfl : x = f := by simpa [Action.gate] using ha
    simp only [Action.reads] at hr
    split at hr
    · rename_i hi
      have := hd hi
      exact recv_before_send h hs rfl hg (by omega)
    · cases hr
  | recv x =>
    obtain rfl : x = f := by simpa [Action.gate] using ha
    refine recv_before_recv h hs rfl hg ?_
    rcases Nat.lt_or_eq_of_le ((Nat.le_add_right _ _).trans hle) with hlt' | heq
    · exact Or.inl hlt'
    · exact Or.inr ⟨heq, hlt⟩
  | exchange => cases ha
  | clear => cases ha

omit hh in
theorem source_received (hc : ColumnsLevelled nodes gates) (hsrc : Sourced nodes gates) {w : ℕ}
    (ha : a.gate = some f) (hr : w ∈ a.reads nodes) :
    ∃ g ∈ gates, g.outIdx = w ∧ recv g ∈ pre ∧ g.type ≠ .output ∧
      (f.interactive = true → (levels gates).layer g < (levels gates).layer f) :=
  source_received_of h hs hsrc ha hr
    (wireLevel_le_layer h hc (action_mem h hs ha) (reads_of_action ha hr))

omit hh hs in
theorem unreleased (hsrc : Sourced nodes gates)
    (hs : schedule (layersOf gates) = pre ++ recv f :: post) :
    effects.released (pre ++ [recv f]) f.outIdx = 0 := by
  have hf : f ∈ gates := action_mem h hs rfl
  have hsource : ∀ g ∈ gates, f.outIdx ∈ g.sentFree ++ g.receivedFree →
      (levels gates).layer f + g.delay ≤ (levels gates).layer g ∧ f.outIdx < g.outIdx := by
    intro g hg hm
    have hr : f.outIdx ∈ g.reads nodes := (List.mem_append.mp hm).elim
      (fun hm => ((g.frees_reads nodes).1 hm).2) (g.frees_reads nodes).2
    exact source_earlier_of h hsrc hg hf hr (wireLevel_read h hg (g.frees_columns hm) hr)
  rw [Effects.released, List.sum_eq_zero_iff_forall_eq_nat]
  intro n hn
  obtain ⟨b, hb, rfl⟩ := List.mem_map.mp hn
  refine List.count_eq_zero.mpr fun hm => ?_
  rcases List.mem_append.mp hb with hb | hb
  · have hprec := precedes_of_mem h hs hb
    cases b with
    | send g =>
      have hg := mem_gates_of_mem h hs (Or.inr hb)
      obtain ⟨hl, -⟩ := hsource g hg (List.mem_append_left _ hm)
      have hle : (levels gates).layer g ≤ (levels gates).layer f := hprec
      rw [Gate.delay, if_pos ((g.frees_reads nodes).1 hm).1] at hl
      omega
    | recv g =>
      have hg := mem_gates_of_mem h hs (Or.inl hb)
      obtain ⟨hl, hlt⟩ := hsource g hg (List.mem_append_right _ hm)
      rcases hprec with he | ⟨-, he⟩ <;> omega
    | exchange => cases hm
    | clear => cases hm
  · rw [List.mem_singleton.mp hb] at hm
    obtain ⟨-, hlt⟩ := hsource f hf (List.mem_append_right _ hm)
    exact absurd hlt (lt_irrefl _)

end lifetimes

end Servers

end GraphMpc
