import Mathlib.Algebra.GroupWithZero.Nat
import Mathlib.Algebra.Order.BigOperators.Group.List
import Mathlib.Algebra.Order.Group.Nat
import Mathlib.Data.List.Count
import Mathlib.Data.List.Induction
import Mathlib.Order.Lattice
import Mathlib.Tactic.Common

namespace RefCount

structure Effects (ε : Type) where
  writes : ε → List ℕ
  frees : ε → List ℕ

structure Cells where
  waiting : ℕ → ℤ
  held : ℕ → Bool

namespace Effects

variable {ε : Type} (E : Effects ε)

-- a cell is emptied by the release that brings its counter to zero
def step (c : Cells) (e : ε) : Cells where
  waiting w := c.waiting w - (E.frees e).count w
  held w := if w ∈ E.frees e ∧ c.waiting w - (E.frees e).count w = 0 then false
    else if w ∈ E.writes e then true else c.held w

def run (total : ℕ → ℕ) (l : List ε) : Cells := l.foldl E.step ⟨fun w => total w, fun _ => false⟩

def released (l : List ε) (w : ℕ) : ℕ := (l.map fun e => (E.frees e).count w).sum

def Written (l : List ε) (w : ℕ) : Prop := ∃ e ∈ l, w ∈ E.writes e

def Live (total : ℕ → ℕ) (l : List ε) (w : ℕ) : Prop :=
  E.released l w = 0 ∨ E.released l w < total w

variable {E} {total : ℕ → ℕ} {l : List ε} {e : ε} {w : ℕ}

theorem run_snoc (total : ℕ → ℕ) (l : List ε) (e : ε) :
    E.run total (l ++ [e]) = E.step (E.run total l) e := by
  rw [run, List.foldl_append]
  rfl

theorem released_snoc (l : List ε) (e : ε) (w : ℕ) :
    E.released (l ++ [e]) w = E.released l w + (E.frees e).count w := by
  simp [released]

theorem written_snoc : E.Written (l ++ [e]) w ↔ E.Written l w ∨ w ∈ E.writes e := by
  simp only [Written, List.mem_append, List.mem_singleton]
  constructor
  · rintro ⟨d, hd | rfl, hw⟩
    · exact Or.inl ⟨d, hd, hw⟩
    · exact Or.inr hw
  · rintro (⟨d, hd, hw⟩ | hw)
    · exact ⟨d, Or.inl hd, hw⟩
    · exact ⟨e, Or.inr rfl, hw⟩

theorem run_waiting (total : ℕ → ℕ) (l : List ε) (w : ℕ) :
    (E.run total l).waiting w = total w - E.released l w := by
  induction l using List.reverseRecOn with
  | nil => simp [run, released]
  | append_singleton l e ih =>
    rw [run_snoc, released_snoc]
    simp only [step, ih]
    push_cast
    omega

theorem held_iff (hle : E.released l w ≤ total w)
    (hfirst : ∀ pre e post, l = pre ++ e :: post → w ∈ E.writes e → E.released (pre ++ [e]) w = 0) :
    (E.run total l).held w = true ↔ E.Written l w ∧ E.Live total l w := by
  induction l using List.reverseRecOn with
  | nil => simp [run, Written]
  | append_singleton l e ih =>
    rw [released_snoc] at hle
    have ih := ih (by omega) fun pre d post hd =>
      hfirst pre d (post ++ [e]) (by rw [hd, List.append_assoc, List.cons_append])
    rw [run_snoc, written_snoc, Live, released_snoc]
    simp only [step, run_waiting]
    by_cases hw : w ∈ E.frees e
    · have hpos := List.count_pos_iff.mpr hw
      by_cases hz : E.released l w + (E.frees e).count w = total w
      · rw [if_pos ⟨hw, by omega⟩]
        constructor
        · intro h
          cases h
        · rintro ⟨-, h | h⟩ <;> omega
      · rw [if_neg (by rintro ⟨-, h⟩; omega)]
        have hlive : E.Live total l w := Or.inr (by omega)
        have hlive' : E.released l w + (E.frees e).count w < total w := by omega
        by_cases hwr : w ∈ E.writes e
        · rw [if_pos hwr]
          exact iff_of_true rfl ⟨Or.inr hwr, Or.inr hlive'⟩
        · rw [if_neg hwr, ih]
          constructor
          · rintro ⟨h, -⟩
            exact ⟨Or.inl h, Or.inr hlive'⟩
          · rintro ⟨h | h, -⟩
            · exact ⟨h, hlive⟩
            · exact absurd h hwr
    · have hcount : (E.frees e).count w = 0 := List.count_eq_zero.mpr hw
      rw [if_neg fun h => hw h.1, hcount, Nat.add_zero]
      by_cases hwr : w ∈ E.writes e
      · rw [if_pos hwr]
        have hzero := hfirst l e [] rfl hwr
        rw [released_snoc] at hzero
        exact iff_of_true rfl ⟨Or.inr hwr, Or.inl (by omega)⟩
      · rw [if_neg hwr, ih]
        exact and_congr_left fun _ => (or_iff_left hwr).symm

section owed

variable {all pre post : List ε} {owed : ε → ℕ → ℕ} (hs : all = pre ++ post)
  (hle : ∀ e ∈ all, (E.frees e).count w ≤ owed e w)
  (htotal : (all.map fun e => owed e w).sum = total w)

include hs hle htotal

theorem released_add_le : E.released pre w + (post.map fun e => owed e w).sum ≤ total w := by
  rw [← htotal, hs, List.map_append, List.sum_append, released]
  apply Nat.add_le_add_right
  apply List.sum_le_sum
  intro e he
  exact hle e (by rw [hs]; exact List.mem_append_left _ he)

theorem released_le : E.released pre w ≤ total w :=
  (Nat.le_add_right _ _).trans (released_add_le hs hle htotal)

theorem released_lt {b : ε} (hb : b ∈ post) (hpos : 0 < owed b w) :
    E.released pre w < total w := by
  have hsum := released_add_le hs hle htotal
  have : owed b w ≤ (post.map fun e => owed e w).sum :=
    List.le_sum_of_mem (List.mem_map.mpr ⟨b, hb, rfl⟩)
  omega

theorem released_lt_iff : E.released pre w < total w ↔
    (∃ e ∈ post, 0 < owed e w) ∨ ∃ e ∈ pre, (E.frees e).count w < owed e w := by
  have hpre : ∀ e ∈ pre, (E.frees e).count w ≤ owed e w := fun e he =>
    hle e (by rw [hs]; exact List.mem_append_left _ he)
  constructor
  · intro hlt
    by_contra! hno
    obtain ⟨hpost, hkept⟩ := hno
    have hzero : (post.map fun e => owed e w).sum = 0 := List.sum_eq_zero fun n hn => by
      obtain ⟨e, he, rfl⟩ := List.mem_map.mp hn
      exact Nat.le_zero.mp (hpost e he)
    have hsum : (pre.map fun e => owed e w).sum ≤ E.released pre w := List.sum_le_sum hkept
    rw [← htotal, hs, List.map_append, List.sum_append, hzero] at hlt
    omega
  · rintro (⟨e, he, hpos⟩ | ⟨e, he, hlt⟩)
    · exact released_lt hs hle htotal he hpos
    · have hsum : E.released pre w < (pre.map fun e => owed e w).sum :=
        List.sum_lt_sum _ _ hpre ⟨e, he, hlt⟩
      rw [← htotal, hs, List.map_append, List.sum_append]
      omega

end owed

end Effects

end RefCount
