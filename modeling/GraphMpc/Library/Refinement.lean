import Mathlib.Logic.Function.Basic

-- partial programs over a state, and programs over another state that return the same

namespace Refinement

universe u

variable {S T A B E : Type u} {R R' : S → T → Prop} {Q Q' : A → S → T → Prop}
  {Q2 : B → S → T → Prop}

abbrev Prog (S A : Type u) := StateT S Option A

def Follows (R : S → T → Prop) (f : Prog S A) (g : Prog T A) (Q : A → S → T → Prop) : Prop :=
  ∀ s t, R s t → ∀ a s', f s = some (a, s') → ∃ t', g t = some (a, t') ∧ Q a s' t'

def Returns (R : S → T → Prop) (f : Prog S A) (g : Prog T A) : Prop :=
  ∀ s t, R s t → ∀ q, g t = some q → ∃ p, f s = some p

def ofOption (x : Option A) : Prog S A := fun s => x.map fun a => (a, s)

theorem bind_apply (f : Prog S A) (k : A → Prog S B) (s : S) :
    (f >>= k) s = (f s).bind fun p => k p.1 p.2 := rfl

namespace Follows

variable {f : Prog S A} {g : Prog T A}

theorem pure {a : A} (h : ∀ s t, R s t → Q a s t) : Follows R (Pure.pure a) (Pure.pure a) Q := by
  intro s t hr b s' hf
  cases hf
  exact ⟨t, rfl, h s t hr⟩

theorem bind {k : A → Prog S B} {k' : A → Prog T B} (h : Follows R f g Q)
    (hk : ∀ a, Follows (Q a) (k a) (k' a) Q2) : Follows R (f >>= k) (g >>= k') Q2 := by
  intro s t hr b s' hf
  obtain ⟨⟨a, s1⟩, h1, h2⟩ := Option.bind_eq_some_iff.mp hf
  obtain ⟨t1, ht1, hq⟩ := h s t hr a s1 h1
  obtain ⟨t', ht', hq'⟩ := hk a s1 t1 hq b s' h2
  refine ⟨t', ?_, hq'⟩
  rw [bind_apply, ht1]
  exact ht'

theorem mono (h : Follows R f g Q) (hr : ∀ s t, R' s t → R s t)
    (hq : ∀ a s t, Q a s t → Q' a s t) : Follows R' f g Q' := by
  intro s t hs a s' hf
  obtain ⟨t', ht', hq'⟩ := h s t (hr s t hs) a s' hf
  exact ⟨t', ht', hq a s' t' hq'⟩

theorem ofOption (x : Option A) (h : ∀ a, x = some a → ∀ s t, R s t → Q a s t) :
    Follows R (Refinement.ofOption x) (Refinement.ofOption x) Q := by
  intro s t hr a s' hf
  cases x with
  | none => cases hf
  | some b =>
    cases hf
    exact ⟨t, rfl, h _ rfl s t hr⟩

theorem of_value {p : Prop} (h : p → Follows R f g Q) : Follows (fun s t => p ∧ R s t) f g Q :=
  fun s t hr => h hr.1 s t hr.2

theorem ite {p : Prop} [Decidable p] {f' : Prog S A} {g' : Prog T A} (h : p → Follows R f g Q)
    (h' : ¬ p → Follows R f' g' Q) :
    Follows R (if p then f else f') (if p then g else g') Q := by
  split
  · exact h ‹p›
  · exact h' ‹¬ p›

theorem foldlM {order : List E} {I : List E → S → T → Prop} {f : A → E → Prog S A}
    {g : A → E → Prog T A} (h : ∀ l e r, order = l ++ e :: r → ∀ a,
      Follows (I l) (f a e) (g a e) fun _ => I (l ++ [e])) (a : A) :
    Follows (I []) (order.foldlM f a) (order.foldlM g a) fun _ => I order := by
  have hrest : ∀ r l, order = l ++ r → ∀ a,
      Follows (I l) (r.foldlM f a) (r.foldlM g a) fun _ => I order := by
    intro r
    induction r with
    | nil =>
      intro l ho a
      rw [List.append_nil] at ho
      exact Follows.pure fun s t hs => ho ▸ hs
    | cons e r ih =>
      intro l ho a
      rw [List.foldlM_cons, List.foldlM_cons]
      exact (h l e r ho a).bind fun a' => ih (l ++ [e]) (by simp [ho]) a'
  exact hrest order [] rfl a

end Follows

namespace Returns

variable {f : Prog S A} {g : Prog T A}

theorem of_total (h : ∀ s t, R s t → ∃ p, f s = some p) : Returns R f g :=
  fun s t hr _ _ => h s t hr

theorem bind {k : A → Prog S B} {k' : A → Prog T B} (hf : Follows R f g Q) (h : Returns R f g)
    (hk : ∀ a, Returns (Q a) (k a) (k' a)) : Returns R (f >>= k) (g >>= k') := by
  intro s t hr q hg
  obtain ⟨⟨b, t1⟩, h1, h2⟩ := Option.bind_eq_some_iff.mp hg
  obtain ⟨⟨a, s1⟩, hs⟩ := h s t hr _ h1
  obtain ⟨t', ht', hq⟩ := hf s t hr a s1 hs
  obtain ⟨rfl, rfl⟩ : b = a ∧ t1 = t' := Prod.mk.inj (Option.some.inj (h1.symm.trans ht'))
  obtain ⟨p, hp⟩ := hk b s1 t1 hq q h2
  exact ⟨p, by rw [bind_apply, hs]; exact hp⟩

theorem mono (h : Returns R f g) (hr : ∀ s t, R' s t → R s t) : Returns R' f g :=
  fun s t hs => h s t (hr s t hs)

theorem ofOption (x : Option A) : Returns R (Refinement.ofOption x) (Refinement.ofOption x) := by
  intro s t _ q hq
  cases x with
  | none => cases hq
  | some a => exact ⟨(a, s), rfl⟩

theorem foldlM {order : List E} {I : List E → S → T → Prop} {f : A → E → Prog S A}
    {g : A → E → Prog T A} (hf : ∀ l e r, order = l ++ e :: r → ∀ a,
      Follows (I l) (f a e) (g a e) fun _ => I (l ++ [e]))
    (h : ∀ l e r, order = l ++ e :: r → ∀ a, Returns (I l) (f a e) (g a e)) (a : A) :
    Returns (I []) (order.foldlM f a) (order.foldlM g a) := by
  have hrest : ∀ r l, order = l ++ r → ∀ a, Returns (I l) (r.foldlM f a) (r.foldlM g a) := by
    intro r
    induction r with
    | nil =>
      intro l _ a
      exact of_total fun s _ _ => ⟨(a, s), rfl⟩
    | cons e r ih =>
      intro l ho a
      rw [List.foldlM_cons, List.foldlM_cons]
      exact bind (hf l e r ho a) (h l e r ho a) fun a' => ih (l ++ [e]) (by simp [ho]) a'
  exact hrest order [] rfl a

end Returns

section parts

variable {I : Type} [DecidableEq I] {S T A : Type} {R R' : I → S → T → Prop}

def onPart (i : I) (f : Prog S A) : Prog (I → S) A := fun s =>
  (f (s i)).map fun p => (p.1, Function.update s i p.2)

def Each (R : I → S → T → Prop) (s : I → S) (t : I → T) : Prop := ∀ i, R i (s i) (t i)

theorem Follows.onPart {i : I} {f : Prog S A} {g : Prog T A}
    (h : Follows (R i) f g fun _ => R' i) (hne : ∀ j, j ≠ i → ∀ s t, R j s t → R' j s t) :
    Follows (Each R) (onPart i f) (onPart i g) fun _ => Each R' := by
  intro s t hr a s' hf
  obtain ⟨⟨b, x⟩, hx, he⟩ := Option.map_eq_some_iff.mp hf
  cases he
  obtain ⟨y, hy, hp⟩ := h (s i) (t i) (hr i) b x hx
  refine ⟨Function.update t i y, by rw [Refinement.onPart, hy]; rfl, fun j => ?_⟩
  by_cases hj : j = i
  · subst hj
    simpa using hp
  · simpa [hj] using hne j hj _ _ (hr j)

theorem Follows.onPart_same {i : I} {f : Prog S A} {g : Prog T A}
    (h : Follows (R i) f g fun _ => R i) :
    Follows (Each R) (Refinement.onPart i f) (Refinement.onPart i g) fun _ => Each R :=
  h.onPart fun _ _ _ _ hr => hr

theorem onPart_eq_some {i : I} {f : Prog S A} {s s' : I → S} {a : A} :
    onPart i f s = some (a, s') ↔ ∃ x, f (s i) = some (a, x) ∧ s' = Function.update s i x := by
  constructor
  · intro h
    obtain ⟨⟨b, x⟩, hx, he⟩ := Option.map_eq_some_iff.mp h
    cases he
    exact ⟨x, hx, rfl⟩
  · rintro ⟨x, hx, rfl⟩
    rw [onPart, hx]
    rfl

theorem Returns.onPart {i : I} {f : Prog S A} {g : Prog T A} {R : (I → S) → (I → T) → Prop}
    {P : S → T → Prop} (h : Returns P f g) (hp : ∀ s t, R s t → P (s i) (t i)) :
    Returns R (onPart i f) (onPart i g) := by
  rintro s t hr ⟨b, t'⟩ hg
  obtain ⟨y, hy, -⟩ := onPart_eq_some.mp hg
  obtain ⟨⟨a, x⟩, hx⟩ := h (s i) (t i) (hp s t hr) _ hy
  exact ⟨_, onPart_eq_some.mpr ⟨x, hx, rfl⟩⟩

theorem Returns.pair {i j : I} (hij : j ≠ i) {B : Type} {P : I → S → T → Prop} {f : Prog S A}
    {f' : Prog S B} {g : Prog T A} {g' : Prog T B} (hf : Follows (P i) f g fun _ _ _ => True)
    (h : Returns (P i) f g) (hf' : Follows (P j) f' g' fun _ _ _ => True)
    (h' : Returns (P j) f' g') :
    Returns (Each P) (do return (← Refinement.onPart i f, ← Refinement.onPart j f'))
      (do return (← Refinement.onPart i g, ← Refinement.onPart j g')) := by
  let rest : I → S → T → Prop := fun k m t => k = j → P j m t
  have hi : Follows (Each P) (Refinement.onPart i f) (Refinement.onPart i g) fun _ => Each rest :=
    Follows.onPart (hf.mono (fun _ _ hr => hr) fun _ _ _ _ he => absurd he.symm hij)
      fun k _ m t hr he => he ▸ hr
  have hj : Follows (Each rest) (Refinement.onPart j f') (Refinement.onPart j g')
      fun _ => Each fun _ _ _ => True :=
    Follows.onPart (hf'.mono (fun _ _ hr => hr rfl) fun _ _ _ hq => hq) fun _ _ _ _ _ => trivial
  refine .bind hi (h.onPart fun m t hr => hr i) fun _ => .bind hj ?_ fun _ => ?_
  · exact h'.onPart fun m t hr => hr j rfl
  · exact .of_total fun m _ _ => ⟨_, rfl⟩

end parts

end Refinement
