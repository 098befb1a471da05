import Mathlib.Data.List.Basic
import Mathlib.Data.List.Induction

-- the events that a run of a fallible step function emits

namespace Trace

variable {σ α β ε : Type*}

-- the run stops where a step fails
def log (step : σ → α → Option σ) (emit : σ → α → List ε) : σ → List α → List ε
  | _, [] => []
  | s, a :: l => emit s a ++ ((step s a).elim [] fun s' => log step emit s' l)

def emits (step : σ → α → Option (σ × List ε)) : σ → List α → Option (σ × List ε)
  | s, [] => some (s, [])
  | s, a :: l => do
    let (t, first) ← step s a
    let (u, rest) ← emits step t l
    return (u, first ++ rest)

def along (events : List α → α → List ε) : List α → List α → List ε
  | _, [] => []
  | pre, a :: l => events pre a ++ along events (pre ++ [a]) l

theorem emits_log {step : σ → α → Option σ} {emitting : σ → α → Option (σ × List ε)}
    {emit : σ → α → List ε} (h : ∀ s a t, step s a = some t → emitting s a = some (t, emit s a))
    {s t : σ} {l : List α} (hrun : l.foldlM step s = some t) :
    emits emitting s l = some (t, log step emit s l) := by
  induction l generalizing s with
  | nil => rw [← Option.some.inj hrun, emits, log]
  | cons a l ih =>
    obtain ⟨u, hu, hrest⟩ := Option.bind_eq_some_iff.mp hrun
    have hfirst := h s a u hu
    rw [emits, hfirst, log, hu]
    simp only [Option.bind_eq_bind, Option.bind_some, ih hrest, Option.elim_some]
    rfl

theorem log_filterMap (step : σ → α → Option σ) (emit : σ → α → List ε) (p : ε → Option β) (s : σ)
    (l : List α) :
    (log step emit s l).filterMap p = log step (fun s a => (emit s a).filterMap p) s l := by
  induction l generalizing s with
  | nil => rfl
  | cons a l ih =>
    rw [log, log, List.filterMap_append]
    cases step s a with
    | none => rfl
    | some s' => rw [Option.elim_some, Option.elim_some, ih]

theorem along_nil (pre l : List α) : along (fun _ _ => ([] : List ε)) pre l = [] := by
  induction l generalizing pre with
  | nil => rfl
  | cons a l ih => rw [along, List.nil_append, ih]

theorem along_filterMap (events : List α → α → List ε) (pick : β → Option α) (pre l : List β) :
    along (fun pre b => (pick b).elim [] (events (pre.filterMap pick))) pre l =
      along events (pre.filterMap pick) (l.filterMap pick) := by
  induction l generalizing pre with
  | nil => rfl
  | cons b l ih =>
    rw [along, ih]
    cases hb : pick b with
    | none => simp [hb]
    | some a => simp [hb, along]

theorem log_related {τ γ : Type*} {step : σ → α → Option σ} {emit : σ → α → List ε}
    {emit' : σ → α → List γ} (F : σ → τ) {R : τ → List ε → List γ → τ → Prop}
    (hnil : ∀ t, R t [] [] t)
    (happend : ∀ {t u v l m l' m'}, R t l m u → R u l' m' v → R t (l ++ l') (m ++ m') v)
    (hstep : ∀ s a s', step s a = some s' → R (F s) (emit s a) (emit' s a) (F s')) {s s' : σ}
    {l : List α} (h : l.foldlM step s = some s') :
    R (F s) (log step emit s l) (log step emit' s l) (F s') := by
  induction l generalizing s with
  | nil =>
    rw [← Option.some.inj h]
    exact hnil _
  | cons a l ih =>
    obtain ⟨t, ht, hrun⟩ := Option.bind_eq_some_iff.mp h
    rw [log, log, ht, Option.elim_some, Option.elim_some]
    exact happend (hstep s a t ht) (ih hrun)

theorem along_flatMap {γ : Type*} (events : List α → α → List ε) (val : ε → List γ)
    (F : List α → List γ) (pre l : List α) (hF : ∀ mid a rest, l = mid ++ a :: rest →
      F (pre ++ mid ++ [a]) = F (pre ++ mid) ++ (events (pre ++ mid) a).flatMap val) :
    F (pre ++ l) = F pre ++ (along events pre l).flatMap val := by
  induction l generalizing pre with
  | nil => simp [along]
  | cons a l ih =>
    have ha := hF [] a l rfl
    rw [List.append_nil] at ha
    rw [along, List.flatMap_append, ← List.append_assoc, ← ha, List.append_cons,
      ih _ fun mid b rest hl => ?_]
    have hb := hF (a :: mid) b rest (by rw [hl]; rfl)
    rwa [List.append_cons pre a mid] at hb

structure Through (step : σ → α → Option σ) (I : List α → σ → Prop) (pre : List α) (s : σ)
    (l : List α) (s' : σ) : Prop where
  run : l.foldlM step s = some s'
  along : ∀ l1 l2, l = l1 ++ l2 → ∃ t, l1.foldlM step s = some t ∧ I (pre ++ l1) t

namespace Through

variable {step : σ → α → Option σ} {I : List α → σ → Prop} {pre l l' : List α} {a : α}
  {s t s' : σ}

theorem nil (hI : I pre s) : Through step I pre s [] s where
  run := rfl
  along l1 l2 hl := by
    obtain ⟨rfl, -⟩ := List.append_eq_nil_iff.mp hl.symm
    exact ⟨s, rfl, by rwa [List.append_nil]⟩

theorem cons (hI : I pre s) (hs : step s a = some t) (h : Through step I (pre ++ [a]) t l s') :
    Through step I pre s (a :: l) s' where
  run := by
    rw [List.foldlM_cons, hs]
    exact h.run
  along l1 l2 hl := by
    cases l1 with
    | nil => exact ⟨s, rfl, by rwa [List.append_nil]⟩
    | cons b l1 =>
      rw [List.cons_append, List.cons.injEq] at hl
      obtain ⟨rfl, hl⟩ := hl
      obtain ⟨u, hu, hIu⟩ := h.along l1 l2 hl
      refine ⟨u, ?_, by rwa [List.append_cons]⟩
      rw [List.foldlM_cons, hs]
      exact hu

theorem append (h : Through step I pre s l t) (h' : Through step I (pre ++ l) t l' s') :
    Through step I pre s (l ++ l') s' where
  run := by
    rw [List.foldlM_append, h.run]
    exact h'.run
  along l1 l2 hl := by
    rcases List.append_eq_append_iff.mp hl with ⟨m, rfl, hm⟩ | ⟨m, hm, -⟩
    · obtain ⟨u, hu, hIu⟩ := h'.along m l2 hm
      refine ⟨u, ?_, by rwa [← List.append_assoc]⟩
      rw [List.foldlM_append, h.run]
      exact hu
    · exact h.along l1 m hm

theorem tail (h : Through step I pre s (a :: l) s') : ∃ t, step s a = some t ∧
    I (pre ++ [a]) t ∧ Through step I (pre ++ [a]) t l s' := by
  obtain ⟨t, ht, hrun⟩ := Option.bind_eq_some_iff.mp h.run
  have hfold : ∀ l1, (a :: l1).foldlM step s = l1.foldlM step t := fun l1 => by
    rw [List.foldlM_cons, ht]
    rfl
  have hnext : ∀ l1 l2, l = l1 ++ l2 →
      ∃ u, l1.foldlM step t = some u ∧ I (pre ++ [a] ++ l1) u := by
    rintro l1 l2 rfl
    obtain ⟨u, hu, hI⟩ := h.along (a :: l1) l2 rfl
    rw [hfold] at hu
    rw [List.append_cons] at hI
    exact ⟨u, hu, hI⟩
  obtain ⟨u, hu, hI⟩ := hnext [] l rfl
  rw [List.append_nil] at hI
  exact ⟨t, ht, Option.some.inj hu ▸ hI, hrun, hnext⟩

end Through

def collect (step : σ → α → Option σ) (emit : σ → α → List ε) : σ → List α → Option (List ε)
  | _, [] => some []
  | s, a :: l => (step s a).bind fun s => (collect step emit s l).map (emit s a ++ ·)

theorem Through.collect_eq {step : σ → α → Option σ} {emit : σ → α → List ε}
    {I : List α → σ → Prop} {pre l : List α} {s s' : σ} (h : Through step I pre s l s')
    (v : α → List ε) (hv : ∀ l1 a l2 t, l = l1 ++ a :: l2 → I (pre ++ l1 ++ [a]) t →
      emit t a = v a) : collect step emit s l = some (l.flatMap v) := by
  induction l generalizing pre s with
  | nil => rfl
  | cons a l ih =>
    obtain ⟨t, ht, hI, htail⟩ := h.tail
    have hrest := ih htail fun l1 b l2 u hl hu =>
      hv (a :: l1) b l2 u (by rw [hl, List.cons_append]) (by rwa [List.append_cons pre a l1])
    have hfirst := hv [] a l t rfl (by rwa [List.append_nil])
    rw [collect, ht, Option.bind_some, hrest, hfirst, Option.map_some, List.flatMap_cons]

section invariant

variable (step : σ → α → Option σ) (emit : σ → α → List ε) (events : List α → α → List ε)
  (order : List α) (I : List α → σ → Prop)

theorem log_eq_along (hstep : ∀ pre a rest s, order = pre ++ a :: rest → I pre s →
      emit s a = events pre a ∧ ∃ s', step s a = some s' ∧ I (pre ++ [a]) s')
    {pre l : List α} {s : σ} (ho : order = pre ++ l) (hs : I pre s) :
    log step emit s l = along events pre l ∧ ∃ s', l.foldlM step s = some s' ∧ I order s' := by
  induction l generalizing pre s with
  | nil =>
    rw [List.append_nil] at ho
    exact ⟨rfl, s, rfl, ho ▸ hs⟩
  | cons a l ih =>
    obtain ⟨he, s', hs', hI⟩ := hstep pre a l s ho hs
    obtain ⟨hlog, t, ht, hIt⟩ := ih (by rw [ho, List.append_cons]) hI
    refine ⟨?_, t, ?_, hIt⟩
    · rw [log, along, he, hs', Option.elim_some, hlog]
    · rw [List.foldlM_cons, hs']
      exact ht

end invariant

end Trace
