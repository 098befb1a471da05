import Mathlib.Data.List.Infix
import Mathlib.Logic.Function.Basic
import Mathlib.Logic.Relation

-- parties that run lists of actions, of which two parties always take one step together

namespace Rendezvous

variable {P A L : Type*} [DecidableEq P]

structure Meeting (P A : Type*) where
  left : P
  right : P
  leftAct : A
  rightAct : A

def Meeting.act (m : Meeting P A) (p : P) : Option A :=
  if p = m.left then some m.leftAct else if p = m.right then some m.rightAct else none

def script (plan : List (Meeting P A)) (p : P) : List A := plan.filterMap (·.act p)

structure Enabled (fits : A → A → Prop) (s : P → List A) (p q : P) (a b : A) : Prop where
  ne : p ≠ q
  left : (s p).head? = some a
  right : (s q).head? = some b
  fits : fits a b

def meet (s : P → List A) (p q : P) : P → List A := fun r => if r = p ∨ r = q then (s r).tail else s r

def Step (fits : A → A → Prop) (s s' : P → List A) : Prop :=
  ∃ p q a b, Enabled fits s p q a b ∧ s' = meet s p q

structure Sound (fits : A → A → Prop) (line : A → L) (plan : List (Meeting P A)) : Prop where
  distinct : ∀ m ∈ plan, m.left ≠ m.right
  agree : ∀ m ∈ plan, fits m.leftAct m.rightAct
  line_eq : ∀ a b, fits a b → line a = line b
  ends : ∀ m ∈ plan, ∀ m' ∈ plan, line m.leftAct = line m'.leftAct →
    ∀ p, (m.act p).isSome = (m'.act p).isSome

theorem script_append (plan plan' : List (Meeting P A)) (p : P) :
    script (plan ++ plan') p = script plan p ++ script plan' p := List.filterMap_append

theorem script_cons_some {m : Meeting P A} {p : P} {a : A} (h : m.act p = some a)
    (plan : List (Meeting P A)) : script (m :: plan) p = a :: script plan p := by
  simp [script, h]

theorem script_cons_none {m : Meeting P A} {p : P} (h : m.act p = none)
    (plan : List (Meeting P A)) : script (m :: plan) p = script plan p := by
  simp [script, h]

namespace Meeting

variable {m : Meeting P A} {p q r : P} {a : A}

theorem act_left (m : Meeting P A) : m.act m.left = some m.leftAct := if_pos rfl

theorem act_right (h : m.left ≠ m.right) : m.act m.right = some m.rightAct := by
  rw [act, if_neg h.symm, if_pos rfl]

theorem act_line {fits : A → A → Prop} {line : A → L} {plan : List (Meeting P A)}
    (hs : Sound fits line plan) (hm : m ∈ plan) (ha : m.act p = some a) :
    line a = line m.leftAct := by
  rw [act] at ha
  split_ifs at ha
  · rw [← Option.some.inj ha]
  · rw [← Option.some.inj ha, hs.line_eq _ _ (hs.agree m hm)]

theorem act_other (hpq : p ≠ q) (hp : (m.act p).isSome) (hq : (m.act q).isSome) (hrp : r ≠ p)
    (hrq : r ≠ q) : m.act r = none := by
  unfold act at *
  grind

end Meeting

section runs

variable {fits : A → A → Prop} {line : A → L} {plan : List (Meeting P A)} {s s' : P → List A}
  {p q : P}

theorem Sound.sublist {pending : List (Meeting P A)} (hs : Sound fits line plan)
    (h : pending.Sublist plan) : Sound fits line pending where
  distinct m hm := hs.distinct m (h.subset hm)
  agree m hm := hs.agree m (h.subset hm)
  line_eq := hs.line_eq
  ends m hm m' hm' := hs.ends m (h.subset hm) m' (h.subset hm')

theorem script_head {a : A} (h : (script plan p).head? = some a) : ∃ pre m post,
    plan = pre ++ m :: post ∧ (∀ x ∈ pre, x.act p = none) ∧ m.act p = some a := by
  obtain ⟨l, hl⟩ := List.head?_eq_some_iff.mp h
  obtain ⟨pre, m, post, rfl, hpre, hm, -⟩ := List.filterMap_eq_cons_iff.mp hl
  exact ⟨pre, m, post, rfl, hpre, hm⟩

theorem Sound.enabled (hs : Sound fits line plan) {a b : A}
    (h : Enabled fits (script plan) p q a b) : ∃ pre m post, plan = pre ++ m :: post ∧
      (∀ x ∈ pre, x.act p = none ∧ x.act q = none) ∧ m.act p = some a ∧ m.act q = some b := by
  obtain ⟨pre, m, post, hplan, hpre, hm⟩ := script_head h.left
  obtain ⟨pre', m', post', hplan', hpre', hm'⟩ := script_head h.right
  have hmem : m ∈ plan := hplan ▸ List.mem_append_right _ (List.mem_cons_self ..)
  have hmem' : m' ∈ plan := hplan' ▸ List.mem_append_right _ (List.mem_cons_self ..)
  have hline : line m.leftAct = line m'.leftAct := by
    rw [← m.act_line hs hmem hm, ← m'.act_line hs hmem' hm', hs.line_eq a b h.fits]
  have hends := hs.ends m hmem m' hmem' hline
  have hq : (m.act q).isSome := by rw [hends, hm']; rfl
  have hp : (m'.act p).isSome := by rw [← hends, hm]; rfl
  have hsplit : pre = pre' ∧ m = m' := by
    rcases List.append_eq_append_iff.mp (hplan.symm.trans hplan') with ⟨l, rfl, hl⟩ | ⟨l, rfl, hl⟩
    · cases l with
      | nil => simpa using (List.cons.inj hl).1
      | cons x l =>
        obtain ⟨rfl, -⟩ := List.cons.inj hl
        rw [hpre' m (by simp)] at hq
        cases hq
    · cases l with
      | nil => simpa using (List.cons.inj hl).1.symm
      | cons x l =>
        obtain ⟨rfl, -⟩ := List.cons.inj hl
        rw [hpre m' (by simp)] at hp
        cases hp
  obtain ⟨rfl, rfl⟩ := hsplit
  exact ⟨pre, m, post, hplan, fun x hx => ⟨hpre x hx, hpre' x hx⟩, hm, hm'⟩

theorem Sound.step (hs : Sound fits line plan) (h : Step fits (script plan) s') :
    ∃ pre m post, plan = pre ++ m :: post ∧ s' = script (pre ++ post) := by
  obtain ⟨p, q, a, b, he, rfl⟩ := h
  obtain ⟨pre, m, post, rfl, hpre, hp, hq⟩ := hs.enabled he
  refine ⟨pre, m, post, rfl, funext fun r => ?_⟩
  have hnone : (∀ x ∈ pre, x.act r = none) → script pre r = [] := List.filterMap_eq_nil_iff.mpr
  rw [meet, script_append, script_append]
  split_ifs with hr
  · rcases hr with rfl | rfl
    · rw [hnone fun x hx => (hpre x hx).1, script_cons_some hp]
      rfl
    · rw [hnone fun x hx => (hpre x hx).2, script_cons_some hq]
      rfl
  · obtain ⟨hrp, hrq⟩ := not_or.mp hr
    have hm : m.act r = none := Meeting.act_other he.ne (by rw [hp]; rfl) (by rw [hq]; rfl) hrp hrq
    rw [script_cons_none hm]

theorem Sound.reaches (hs : Sound fits line plan)
    (h : Relation.ReflTransGen (Step fits) (script plan) s) :
    ∃ pending, pending.Sublist plan ∧ s = script pending ∧ ∀ p, s p <:+ script plan p := by
  induction h with
  | refl => exact ⟨plan, List.Sublist.refl _, rfl, fun p => List.suffix_rfl⟩
  | tail _ hstep ih =>
    obtain ⟨pending, hsub, rfl, hsuf⟩ := ih
    obtain ⟨pre, m, post, rfl, he⟩ := (hs.sublist hsub).step hstep
    have hsmall : (pre ++ post).Sublist (pre ++ m :: post) :=
      (List.sublist_cons_self m post).append_left pre
    refine ⟨pre ++ post, hsmall.trans hsub, he, fun r => ?_⟩
    obtain ⟨p, q, a, b, -, rfl⟩ := hstep
    rw [meet]
    split_ifs
    · exact (List.tail_suffix _).trans (hsuf r)
    · exact hsuf r

theorem Sound.progress (hs : Sound fits line plan) (h : script plan p ≠ []) :
    ∃ m ∈ plan, Enabled fits (script plan) m.left m.right m.leftAct m.rightAct := by
  cases plan with
  | nil => exact absurd rfl h
  | cons m rest =>
    have hm := List.mem_cons_self (a := m) (l := rest)
    refine ⟨m, hm, hs.distinct m hm, ?_, ?_, hs.agree m hm⟩
    · rw [script_cons_some m.act_left, List.head?_cons]
    · rw [script_cons_some (Meeting.act_right (hs.distinct m hm)), List.head?_cons]

section barrier

variable [DecidableEq L]

def between (p q : P) (m : Meeting P A) : Bool := (m.act p).isSome && (m.act q).isSome

def joins (line : A → L) (plan : List (Meeting P A)) (q : P) (a : A) : Bool :=
  plan.any fun m => (m.act q).isSome && decide (line m.leftAct = line a)

theorem Sound.joins_iff (hs : Sound fits line plan) {m : Meeting P A} (hm : m ∈ plan) {a : A}
    (ha : m.act p = some a) : joins line plan q a = (m.act q).isSome := by
  have hline : line a = line m.leftAct := Meeting.act_line hs hm ha
  rw [Bool.eq_iff_iff, joins, List.any_eq_true]
  constructor
  · rintro ⟨m', hm', h⟩
    obtain ⟨hq, he⟩ := Bool.and_eq_true_iff.mp h
    rw [← hs.ends m' hm' m hm ((of_decide_eq_true he).trans hline)]
    exact hq
  · intro hq
    exact ⟨m, hm, by simp [hq, hline]⟩

theorem Sound.count_joins (hs : Sound fits line plan) {pending : List (Meeting P A)}
    (h : ∀ m ∈ pending, m ∈ plan) :
    (script pending p).countP (joins line plan q) = pending.countP (between p q) := by
  induction pending with
  | nil => rfl
  | cons m pending ih =>
    have ih := ih fun x hx => h x (List.mem_cons_of_mem _ hx)
    cases hm : m.act p with
    | none => rw [script_cons_none hm, ih, List.countP_cons_of_neg (by simp [between, hm])]
    | some a =>
      have hj := hs.joins_iff (h m (List.mem_cons_self ..)) hm (q := q)
      rw [script_cons_some hm, List.countP_cons, List.countP_cons, ih, hj, between, hm]
      rfl

theorem between_comm (p q : P) : (between p q : Meeting P A → Bool) = between q p :=
  funext fun _ => Bool.and_comm ..

theorem Sound.barrier {before round rest : List (Meeting P A)}
    (hs : Sound fits line (before ++ (round ++ rest))) {m : Meeting P A} (hm : m ∈ round)
    (hpq : between p q m = true)
    (h : Relation.ReflTransGen (Step fits) (script (before ++ (round ++ rest))) s)
    (hp : (s p).length ≤ (script rest p).length) :
    (s q).length < (script (round ++ rest) q).length := by
  obtain ⟨pending, hsub, rfl, hsuf⟩ := hs.reaches h
  have hrest : ∀ r, script rest r <:+ script (before ++ (round ++ rest)) r := fun r => by
    rw [script_append, script_append, ← List.append_assoc]
    exact List.suffix_append ..
  have hlate : script pending p <:+ script rest p :=
    List.suffix_of_suffix_length_le (hsuf p) (hrest p) hp
  have hleft : pending.countP (between p q) ≤ rest.countP (between p q) := by
    rw [← hs.count_joins fun x hx => hsub.subset hx, ← hs.count_joins fun x hx => by simp [hx]]
    exact hlate.sublist.countP_le
  by_contra hq
  have hearly : script (round ++ rest) q <:+ script pending q := by
    refine List.suffix_of_suffix_length_le ?_ (hsuf q) (not_lt.mp hq)
    rw [script_append before]
    exact List.suffix_append ..
  have hright : (round ++ rest).countP (between p q) ≤ pending.countP (between p q) := by
    rw [between_comm, ← hs.count_joins fun x hx => hsub.subset hx,
      ← hs.count_joins fun x hx => List.mem_append_right _ hx]
    exact hearly.sublist.countP_le
  have hpos : 0 < round.countP (between p q) := List.countP_pos_iff.mpr ⟨m, hm, hpq⟩
  rw [List.countP_append] at hright
  omega

end barrier

end runs

end Rendezvous
