import GraphMpc.DagList

namespace GraphMpc

open Tabulate StableOrder GraphMpc.Valuation

namespace DagList

variable {L : DagList} {conf : ProtocolConfig}

-- the order in which pre_mp compares neighbours: by source, then destination, edges before nodes
def PairBefore (L : DagList) : ℕ → ℕ → Prop :=
  refine (refine (· < ·) L.dstKey) fun i => (L.src i).toNat

theorem Valid.pair_sorts (h : L.Valid conf) :
    Sorts conf.size L.PairBefore ((L.listing conf.bits).pairOrder conf.size) := by
  have hdst := h.dst_sorts
  refine (sortKeys_sorts (Listing.sortKeys_keeps (.one _) _) hdst _).congr
    fun i hi j hj => refine_congr ?_ ?_ Iff.rfl
  · rw [listing, binary_testBit, Nat.mod_eq_of_lt (h.src_lt i hi)]
  · rw [listing, binary_testBit, Nat.mod_eq_of_lt (h.src_lt j hj)]

theorem pairOrder_keeps (L : DagList) (conf : ProtocolConfig) :
    Keeps conf.size ((L.listing conf.bits).pairOrder conf.size) :=
  Listing.sortKeys_keeps (Listing.sortKeys_keeps (.one _) _) _

theorem between_eq {i j k : ℕ} (hsrc : L.src i = L.src k) (hdst : L.dst i = L.dst k)
    (hij : ¬ L.PairBefore j i) (hjk : ¬ L.PairBefore k j) :
    L.src j = L.src k ∧ L.dst j = L.dst k := by
  have hi : (L.isV i).toNat ≤ 1 := Bool.toNat_le _
  have hj : (L.isV j).toNat ≤ 1 := Bool.toNat_le _
  have hk : (L.isV k).toNat ≤ 1 := Bool.toNat_le _
  simp only [PairBefore, refine, dstKey, hsrc, hdst] at hij hjk
  constructor
  · refine BitVec.eq_of_toNat_eq ?_
    omega
  · refine BitVec.eq_of_toNat_eq ?_
    omega

theorem Valid.duplicates_iff (h : L.Valid conf) {e : ℕ} (he : e < conf.size) :
    (L.listing conf.bits).duplicates conf.size e = true ↔
      ∃ i < conf.size, L.src i = L.src e ∧ L.dst i = L.dst e ∧ L.PairBefore i e := by
  have hs := h.pair_sorts
  have hkeeps := L.pairOrder_keeps conf
  simp only [Listing.duplicates, duplicate, Bool.and_eq_true, decide_eq_true_eq]
  generalize (L.listing conf.bits).pairOrder conf.size = ρ at *
  constructor
  · rintro ⟨hpos, hsrc, hdst⟩
    have hlt : ρ.symm (ρ e - 1) < conf.size :=
      hkeeps.symm_lt ((Nat.sub_le ..).trans_lt (hkeeps.lt he))
    refine ⟨_, hlt, hsrc, hdst, (hs _ hlt e he).mp ?_⟩
    rw [Equiv.apply_symm_apply]
    omega
  · rintro ⟨i, hi, hsrc, hdst, hbefore⟩
    have hlt := (hs i hi e he).mpr hbefore
    have hj : ρ.symm (ρ e - 1) < conf.size :=
      hkeeps.symm_lt ((Nat.sub_le ..).trans_lt (hkeeps.lt he))
    have h1 := hs.le_iff hi hj
    have h2 := hs.le_iff hj he
    rw [Equiv.apply_symm_apply] at h1 h2
    exact ⟨by omega, between_eq hsrc hdst (h1.mp (by omega)) (h2.mp (by omega))⟩

theorem Valid.surplus_iff (h : L.Valid conf) {e : ℕ} (he : e < conf.size) :
    L.surplus conf true e = true ↔ ∃ i < conf.size, L.isV i = false ∧ L.src i = L.src e ∧
      L.dst i = L.dst e ∧ (L.isV e = true ∨ i < e) := by
  rw [surplus, Bool.true_and, h.duplicates_iff he]
  refine exists_congr fun i => and_congr_right fun hi => ?_
  constructor
  · rintro ⟨hsrc, hdst, hbefore⟩
    simp only [PairBefore, refine, dstKey, hsrc, hdst, lt_irrefl, false_or, true_and] at hbefore
    cases hvi : L.isV i with
    | false =>
      refine ⟨rfl, hsrc, hdst, ?_⟩
      cases hve : L.isV e with
      | true => exact Or.inl rfl
      | false => simpa [hvi, hve] using hbefore
    | true =>
      cases hve : L.isV e with
      | false => simp [hvi, hve] at hbefore
      | true =>
        obtain rfl := h.distinct i hi e he hvi hve hsrc
        simp at hbefore
  · rintro ⟨hvi, hsrc, hdst, hor⟩
    refine ⟨hsrc, hdst, ?_⟩
    simp only [PairBefore, refine, dstKey, hsrc, hdst, lt_irrefl, false_or, true_and, hvi]
    rcases hor with hve | hlt
    · simp [hve]
    · cases L.isV e <;> simp [hlt]

theorem surplus_reversed (hV : L.Valid conf) {e : ℕ} (he : e < conf.size) :
    L.reversed.surplus conf true e = L.surplus conf true e := by
  rw [Bool.eq_iff_iff, hV.reversed.surplus_iff he, hV.surplus_iff he]
  simp only [reversed]
  refine exists_congr fun i => and_congr_right fun _ => and_congr_right fun _ => ?_
  exact and_left_comm

def LoopFree (L : DagList) (size : ℕ) : Prop := ∀ e < size, L.isV e = false → L.src e ≠ L.dst e

theorem LoopFree.reversed {size : ℕ} (h : L.LoopFree size) : L.reversed.LoopFree size :=
  fun e he hv => (h e he hv).symm

theorem Valid.kept (h : L.Valid conf) (hl : L.LoopFree conf.size) {v : ℕ} (hv : v < conf.size)
    (hvv : L.isV v = true) : L.surplus conf true v = false := by
  rw [← Bool.not_eq_true, h.surplus_iff hv]
  rintro ⟨i, hi, hvi, hsrc, hdst, -⟩
  refine hl i hi hvi ?_
  rw [hsrc, hdst, h.loop v hv hvv]

def pairs (L : DagList) (size : ℕ) : Finset (Ring × Ring) :=
  ((Finset.range size).filter (L.isV · = false)).image fun e => (L.src e, L.dst e)

theorem Valid.pairs_kept (h : L.Valid conf) {p : Ring × Ring} (hp : p ∈ L.pairs conf.size) :
    ∃! e, e < conf.size ∧ L.isV e = false ∧ L.surplus conf true e = false ∧
      (L.src e, L.dst e) = p := by
  have hex : ∃ e, e < conf.size ∧ L.isV e = false ∧ (L.src e, L.dst e) = p := by
    obtain ⟨e, he, hep⟩ := Finset.mem_image.mp hp
    obtain ⟨he, hve⟩ := Finset.mem_filter.mp he
    exact ⟨e, Finset.mem_range.mp he, hve, hep⟩
  obtain ⟨hlt, hve, hep⟩ := Nat.find_spec hex
  have hkeep : ∀ e < conf.size, L.isV e = false → (L.src e, L.dst e) = p →
      (L.surplus conf true e = true ↔ Nat.find hex < e) := by
    rintro e he hv rfl
    rw [h.surplus_iff he]
    constructor
    · rintro ⟨i, hi, hvi, hsrc, hdst, hor⟩
      have hor : i < e := hor.resolve_left (by simp [hv])
      exact (Nat.find_min' hex ⟨hi, hvi, by rw [hsrc, hdst]⟩).trans_lt hor
    · obtain ⟨hsrc, hdst⟩ := Prod.mk.inj hep
      exact fun hlt' => ⟨_, hlt, hve, hsrc, hdst, Or.inr hlt'⟩
  refine ⟨_, ⟨hlt, hve, ?_, hep⟩, ?_⟩
  · rw [← Bool.not_eq_true, hkeep _ hlt hve hep]
    exact lt_irrefl _
  · rintro e ⟨he, hv, hs, hpe⟩
    rw [← Bool.not_eq_true, hkeep e he hv hpe] at hs
    exact le_antisymm (not_lt.mp hs) (Nat.find_min' hex ⟨he, hv, hpe⟩)

end DagList

end GraphMpc
