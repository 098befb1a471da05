import GraphMpc.Library.Tabulate
import Mathlib.Algebra.GroupWithZero.Nat

namespace Slices

open Tabulate

variable {α β : Type}

structure Slice where
  start : ℕ
  stop : ℕ
  deriving DecidableEq, Repr

namespace Slice

def Contains (s : Slice) (i : ℕ) : Prop := s.start ≤ i ∧ i < s.stop

instance (s : Slice) (i : ℕ) : Decidable (s.Contains i) :=
  inferInstanceAs (Decidable (_ ∧ _))

def length (s : Slice) : ℕ := s.stop - s.start

end Slice

structure Partition (l : List Slice) (total : ℕ) : Prop where
  ordered : ∀ s ∈ l, s.start ≤ s.stop
  bounded : ∀ s ∈ l, s.stop ≤ total
  once : ∀ i < total, l.countP (fun s => s.Contains i) = 1

def Disjoint (s t : Slice) : Prop := ∀ i, s.Contains i → ¬ t.Contains i

theorem disjoint_of_count {l : List Slice} {total : ℕ} (hb : ∀ s ∈ l, s.stop ≤ total)
    (h : ∀ i < total, l.countP (fun s => s.Contains i) ≤ 1) : l.Pairwise Disjoint := by
  induction l with
  | nil => exact List.Pairwise.nil
  | cons s l ih =>
    refine List.pairwise_cons.mpr ⟨fun t ht i hs hti => ?_,
      ih (fun t ht => hb t (List.mem_cons_of_mem _ ht)) fun i hi => ?_⟩
    · have hle := h i (hs.2.trans_le (hb s (List.mem_cons_self ..)))
      have hpos : 0 < l.countP (fun s => s.Contains i) :=
        List.countP_pos_iff.mpr ⟨t, ht, by simpa using hti⟩
      rw [List.countP_cons_of_pos (by simpa using hs)] at hle
      omega
    · have hle := h i hi
      rw [List.countP_cons] at hle
      omega

theorem count_of_disjoint {l : List Slice} (h : l.Pairwise Disjoint) (i : ℕ) :
    l.countP (fun s => s.Contains i) ≤ 1 := by
  induction l with
  | nil => exact Nat.zero_le _
  | cons s l ih =>
    obtain ⟨hs, hl⟩ := List.pairwise_cons.mp h
    by_cases hc : s.Contains i
    · have hzero : l.countP (fun s => s.Contains i) = 0 := by
        rw [List.countP_eq_zero]
        intro t ht
        simpa using hs t ht i hc
      rw [List.countP_cons_of_pos (by simpa using hc), hzero]
    · rw [List.countP_cons_of_neg (by simpa using hc)]
      exact ih hl

def Consecutive (start len : α → ℕ) : ℕ → List α → Prop
  | _, [] => True
  | n, x :: l => start x = n ∧ Consecutive start len (n + len x) l

section consecutive

variable {start len : α → ℕ}

theorem consecutive_of_sorted {l : List α} {base total : ℕ}
    (hsorted : l.Pairwise fun x y => start x ≤ start y) (hpos : ∀ x ∈ l, 0 < len x)
    (hb : ∀ x ∈ l, base ≤ start x ∧ start x + len x ≤ total) (hle : base ≤ total)
    (hone : ∀ i, base ≤ i → i < total →
      l.countP (fun x => start x ≤ i ∧ i < start x + len x) = 1) :
    Consecutive start len base l ∧ base + (l.map len).sum = total := by
  induction l generalizing base with
  | nil =>
    refine ⟨trivial, ?_⟩
    rcases hle.lt_or_eq with hlt | heq
    · have := hone base le_rfl hlt
      simp at this
    · simpa using heq
  | cons x l ih =>
    obtain ⟨hx, hl⟩ := List.pairwise_cons.mp hsorted
    obtain ⟨hbx, htx⟩ := hb x (List.mem_cons_self ..)
    have hposx := hpos x (List.mem_cons_self ..)
    have hstart : start x = base := by
      obtain ⟨y, hy, hyc⟩ := List.countP_pos_iff.mp
        (by rw [hone base le_rfl (by omega)]; exact Nat.one_pos)
      simp only [decide_eq_true_eq] at hyc
      rcases List.mem_cons.mp hy with rfl | hy
      · omega
      · have := hx y hy
        omega
    have hrest : ∀ i, base + len x ≤ i → i < total →
        l.countP (fun x => start x ≤ i ∧ i < start x + len x) = 1 := by
      intro i hi hit
      have h1 := hone i (by omega) hit
      rwa [List.countP_cons_of_neg (by simp; omega)] at h1
    have hafter : ∀ y ∈ l, base + len x ≤ start y ∧ start y + len y ≤ total := by
      intro y hy
      refine ⟨?_, (hb y (List.mem_cons_of_mem _ hy)).2⟩
      by_contra hc
      have hxy := hx y hy
      have hposy := hpos y (List.mem_cons_of_mem _ hy)
      have h1 := hone (start y) (by omega) (by omega)
      rw [List.countP_cons_of_pos (by simp; omega)] at h1
      have hmem : 0 < l.countP (fun x => start x ≤ start y ∧ start y < start x + len x) :=
        List.countP_pos_iff.mpr ⟨y, hy, by simp; omega⟩
      omega
    obtain ⟨hc, hsum⟩ := ih hl (fun y hy => hpos y (List.mem_cons_of_mem _ hy)) hafter
      (by omega) hrest
    refine ⟨⟨hstart, hc⟩, ?_⟩
    rw [List.map_cons, List.sum_cons]
    omega

theorem Consecutive.getElem? {body : α → List β} {l : List α} {base : ℕ}
    (h : Consecutive start (fun x => (body x).length) base l) {x : α} (hx : x ∈ l) {k : ℕ}
    (hk : k < (body x).length) :
    base ≤ start x ∧ (l.flatMap body)[start x - base + k]? = (body x)[k]? := by
  induction l generalizing base with
  | nil => cases hx
  | cons y l ih =>
    obtain ⟨hy, hl⟩ := h
    rw [List.flatMap_cons]
    rcases List.mem_cons.mp hx with rfl | hx
    · refine ⟨hy.ge, ?_⟩
      rw [hy, Nat.sub_self, Nat.zero_add, List.getElem?_append_left hk]
    · obtain ⟨hle, he⟩ := ih hl hx
      dsimp only at hle he
      have hidx : start x - base + k - (body y).length =
          start x - (base + (body y).length) + k := by omega
      refine ⟨by omega, ?_⟩
      rw [List.getElem?_append_right (by omega), hidx, he]

end consecutive

def overlay (z : α) (start n : ℕ) (f : ℕ → α) (v : List α) : List α :=
  tab v.length fun i => if start ≤ i ∧ i < start + n then f (i - start) else v.getD i z

@[simp] theorem overlay_length (z : α) (start n : ℕ) (f : ℕ → α) (v : List α) :
    (overlay z start n f v).length = v.length := tab_length ..

theorem overlay_zero (z : α) (start : ℕ) (f : ℕ → α) (v : List α) : overlay z start 0 f v = v := by
  symm
  apply eq_tab z rfl
  intro i _
  rw [if_neg (by omega)]

theorem overlay_set (z : α) {start n : ℕ} (f : ℕ → α) (v : List α) :
    (overlay z start n f v).set (start + n) (f n) = overlay z start (n + 1) f v := by
  apply eq_tab z (by simp)
  intro i hi
  by_cases he : i = start + n
  · subst he
    rw [List.getD_eq_getElem?_getD, List.getElem?_set_self (by simpa using hi), if_pos (by omega)]
    simp
  · rw [List.getD_eq_getElem?_getD, List.getElem?_set_ne (by omega), ← List.getD_eq_getElem?_getD,
      overlay, tab_getD_lt _ _ hi]
    by_cases hc : start ≤ i ∧ i < start + n
    · rw [if_pos hc, if_pos (by omega)]
    · rw [if_neg hc, if_neg (by omega)]

theorem overlay_getD (z : α) {start n : ℕ} (f : ℕ → α) {v : List α} {i : ℕ} (hi : i < v.length) :
    (overlay z start n f v).getD i z =
      if start ≤ i ∧ i < start + n then f (i - start) else v.getD i z := tab_getD_lt _ _ hi

theorem overlay_getD_out (z : α) {start n : ℕ} (f : ℕ → α) (v : List α) {i : ℕ}
    (h : ¬ (start ≤ i ∧ i < start + n)) : (overlay z start n f v).getD i z = v.getD i z := by
  by_cases hi : i < v.length
  · rw [overlay_getD z f hi, if_neg h]
  · rw [List.getD_eq_default _ _ (by simpa using hi), List.getD_eq_default _ _ (by simpa using hi)]

section pieces

variable {β : Type} {start len : β → ℕ} {f : β → ℕ → α} {z : α}

def overlays (z : α) (start len : β → ℕ) (f : β → ℕ → α) (l : List β) (v : List α) : List α :=
  l.foldl (fun v x => overlay z (start x) (len x) (f x) v) v

@[simp] theorem overlays_length (l : List β) (v : List α) :
    (overlays z start len f l v).length = v.length := by
  induction l generalizing v with
  | nil => rfl
  | cons x l ih =>
    rw [overlays, List.foldl_cons]
    exact (ih _).trans (overlay_length ..)

theorem overlays_getD_out {l : List β} {v : List α} {i : ℕ}
    (h : ∀ x ∈ l, ¬ (start x ≤ i ∧ i < start x + len x)) :
    (overlays z start len f l v).getD i z = v.getD i z := by
  induction l generalizing v with
  | nil => rfl
  | cons x l ih =>
    have hx := overlay_getD_out z (f x) v (h x (List.mem_cons_self ..))
    rw [overlays, List.foldl_cons, ← hx]
    exact ih fun y hy => h y (List.mem_cons_of_mem _ hy)

theorem overlays_getD {l : List β} {v : List α} {x : β} {k : ℕ}
    (hd : l.Pairwise fun x y => ∀ i, start x ≤ i ∧ i < start x + len x →
      ¬ (start y ≤ i ∧ i < start y + len y))
    (hx : x ∈ l) (hk : k < len x) (hv : start x + k < v.length) :
    (overlays z start len f l v).getD (start x + k) z = f x k := by
  induction l generalizing v with
  | nil => cases hx
  | cons y l ih =>
    obtain ⟨hy, hl⟩ := List.pairwise_cons.mp hd
    rw [overlays, List.foldl_cons]
    rcases List.mem_cons.mp hx with rfl | hx
    · have hin : start x ≤ start x + k ∧ start x + k < start x + len x := by omega
      refine (overlays_getD_out fun y hyl => hy y hyl _ hin).trans ?_
      rw [overlay_getD z (f x) hv, if_pos hin, Nat.add_sub_cancel_left]
    · exact ih hl hx (by simpa using hv)

end pieces

theorem getD_blocks {n m i k : ℕ} {f : ℕ → List α} (z : α) (hf : ∀ i < m, (f i).length = n)
    (hi : i < m) (hk : k < n) :
    ((List.range m).flatMap f).getD (i * n + k) z = (f i).getD k z := by
  induction m with
  | zero => cases hi
  | succ m ih =>
    have hlen : ((List.range m).flatMap f).length = m * n := by
      rw [List.length_flatMap, List.map_congr_left (g := fun _ => n)
        fun j hj => hf j ((List.mem_range.mp hj).trans (Nat.lt_succ_self m))]
      simp
    rw [List.range_succ, List.flatMap_append, List.flatMap_cons, List.flatMap_nil, List.append_nil]
    rcases Nat.lt_succ_iff_lt_or_eq.mp hi with hlt | rfl
    · have hin : i * n + k < m * n := by
        calc i * n + k < (i + 1) * n := by rw [Nat.succ_mul]; omega
          _ ≤ m * n := Nat.mul_le_mul_right n hlt
      rw [List.getD_append _ _ _ _ (hlen ▸ hin)]
      exact ih (fun j hj => hf j (hj.trans (Nat.lt_succ_self m))) hlt
    · rw [List.getD_append_right _ _ _ _ (by omega), hlen, Nat.add_sub_cancel_left]

theorem length_blocks {n m : ℕ} {f : ℕ → List α} (hf : ∀ i < m, (f i).length = n) :
    ((List.range m).flatMap f).length = m * n := by
  rw [List.length_flatMap, List.map_congr_left (g := fun _ => n)
    fun j hj => hf j (List.mem_range.mp hj)]
  simp

end Slices
