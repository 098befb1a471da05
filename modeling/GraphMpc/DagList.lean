import GraphMpc.Evaluation
import GraphMpc.Library.OrderedSums

namespace GraphMpc

open Tabulate StableOrder GraphMpc.Valuation

-- entry i of a list is the node src i, or an edge from src i to dst i
structure DagList where
  isV : ℕ → Bool
  src : ℕ → Ring
  dst : ℕ → Ring

namespace DagList

variable {L : DagList} {conf : ProtocolConfig} {bits : ℕ}

def reversed (L : DagList) : DagList := ⟨L.isV, L.dst, L.src⟩

def directed (L : DagList) (reverse : Bool) : DagList := if reverse then L.reversed else L

def listing (L : DagList) (bits : ℕ) : Listing where
  isV := L.isV
  src := L.src
  dst := L.dst
  srcBits := tab bits fun j i => (L.src i).toNat.testBit j
  dstBits := tab bits fun j i => (L.dst i).toNat.testBit j

theorem directed_isV (L : DagList) (reverse : Bool) (v : ℕ) :
    (L.directed reverse).isV v = L.isV v := by
  cases reverse <;> rfl

theorem listing_directed (L : DagList) (reverse : Bool) :
    (L.listing bits).directed reverse = (L.directed reverse).listing bits := by
  cases reverse <;> rfl

-- distinct node ids below 2^bits; the endpoints of edges are arbitrary ids
structure Valid (L : DagList) (conf : ProtocolConfig) : Prop where
  nodes : Nat.count (fun i => L.isV i = true) conf.size = conf.nodes
  loop : ∀ i < conf.size, L.isV i = true → L.dst i = L.src i
  src_lt : ∀ i < conf.size, (L.src i).toNat < 2 ^ conf.bits
  dst_lt : ∀ i < conf.size, (L.dst i).toNat < 2 ^ conf.bits
  distinct : ∀ i < conf.size, ∀ j < conf.size, L.isV i = true → L.isV j = true →
    L.src i = L.src j → i = j

theorem Valid.nodes_le (h : L.Valid conf) : conf.nodes ≤ conf.size :=
  h.nodes ▸ Nat.count_le _

def Sourced (L : DagList) (size : ℕ) : Prop :=
  ∀ e < size, ∃ u < size, L.isV u = true ∧ L.src u = L.src e

theorem Valid.reversed (h : L.Valid conf) : L.reversed.Valid conf where
  nodes := h.nodes
  loop i hi hv := (h.loop i hi hv).symm
  src_lt := h.dst_lt
  dst_lt := h.src_lt
  distinct i hi j hj hvi hvj he := by
    have he : L.dst i = L.dst j := he
    rw [h.loop i hi hvi, h.loop j hj hvj] at he
    exact h.distinct i hi j hj hvi hvj he

theorem Valid.directed (h : L.Valid conf) (reverse : Bool) : (L.directed reverse).Valid conf := by
  cases reverse
  · exact h
  · exact h.reversed

end DagList

section sorting

variable {n : ℕ} {ρ : Equiv.Perm ℕ}

theorem sortKeys_sorts {lt : ℕ → ℕ → Prop} (hρ : Keeps n ρ) (h : Sorts n lt ρ)
    (keys : List (ℕ → Bool)) : Sorts n (refine lt (binary keys)) (sortKeys n ρ keys) := by
  induction keys generalizing ρ lt with
  | nil =>
    refine h.congr fun i _ j _ => ?_
    simp [refine, binary]
  | cons b keys ih =>
    rw [sortKeys, List.foldl_cons]
    exact (ih (sortStep_keeps hρ b) (h.step hρ b)).congr fun i _ j _ => refine_binary ..

theorem sortKeys_flag {lt : ℕ → ℕ → Prop} {keys : List (ℕ → Bool)} (b : ℕ → Bool)
    (h : Sorts n lt (sortKeys n 1 keys)) :
    Sorts n (refine lt fun i => (b i).toNat) (sortKeys n 1 (keys ++ [b])) := by
  rw [Listing.sortKeys_append]
  exact h.step (Listing.sortKeys_keeps (.one _) _) b

end sorting

namespace DagList

section orders

variable {L : DagList} {conf : ProtocolConfig}

def srcKey (L : DagList) (i : ℕ) : ℕ := (!L.isV i).toNat + 2 * (L.src i).toNat

def dstKey (L : DagList) (i : ℕ) : ℕ := (L.isV i).toNat + 2 * (L.dst i).toNat

theorem Valid.src_sorts (h : L.Valid conf) : Sorts conf.size (refine (· < ·) L.srcKey)
    (sortKeys conf.size 1 (L.listing conf.bits).srcKeys) := by
  refine (sortKeys_sorts (.one _) (.one _) _).congr fun i hi j hj => refine_congr ?_ ?_ Iff.rfl
  · rw [Listing.srcKeys, binary, listing, binary_testBit, Nat.mod_eq_of_lt (h.src_lt i hi)]
    rfl
  · rw [Listing.srcKeys, binary, listing, binary_testBit, Nat.mod_eq_of_lt (h.src_lt j hj)]
    rfl

theorem Valid.dst_sorts (h : L.Valid conf) : Sorts conf.size (refine (· < ·) L.dstKey)
    (sortKeys conf.size 1 (L.listing conf.bits).dstKeys) := by
  refine (sortKeys_sorts (.one _) (.one _) _).congr fun i hi j hj => refine_congr ?_ ?_ Iff.rfl
  · rw [Listing.dstKeys, binary, listing, binary_testBit, Nat.mod_eq_of_lt (h.dst_lt i hi)]
    rfl
  · rw [Listing.dstKeys, binary, listing, binary_testBit, Nat.mod_eq_of_lt (h.dst_lt j hj)]
    rfl

noncomputable def surplus (L : DagList) (conf : ProtocolConfig) (dedup : Bool) (i : ℕ) : Bool :=
  dedup && (L.listing conf.bits).duplicates conf.size i

theorem sorts_deduped (L : DagList) {lt : ℕ → ℕ → Prop} {keys : List (ℕ → Bool)} (dedup : Bool)
    (h : Sorts conf.size lt (sortKeys conf.size 1 keys)) :
    Sorts conf.size (refine lt fun i => (L.surplus conf dedup i).toNat)
      (sortKeys conf.size 1
        (keys ++ if dedup then [(L.listing conf.bits).duplicates conf.size] else [])) := by
  cases dedup with
  | false =>
    simp only [Bool.false_eq_true, if_false, List.append_nil]
    exact h.congr fun i _ j _ => by simp [refine, surplus]
  | true =>
    simp only [if_true]
    exact (sortKeys_flag _ h).congr fun i _ j _ => by simp [surplus]

end orders

structure Arranges (L : DagList) (surplus : ℕ → Bool) {conf : ProtocolConfig}
    (A : Arrangement conf) : Prop where
  kept : ∀ v < conf.size, L.isV v = true → surplus v = false
  node : ∀ e < conf.size, L.isV e = true ↔ A.vtx e < conf.nodes
  rank : ∀ u < conf.size, ∀ v < conf.size, L.isV u = true → L.isV v = true →
    (A.vtx u < A.vtx v ↔ L.src u < L.src v)
  source : ∀ v < conf.size, ∀ e < conf.size, L.isV v = true → surplus e = false →
    (A.src v ≤ A.src e ↔ L.src v ≤ L.src e)
  target : ∀ e < conf.size, ∀ v < conf.size, L.isV v = true → surplus e = false →
    (A.dst e ≤ A.dst v ↔ L.dst e ≤ L.dst v)
  behind : ∀ e < conf.size, ∀ v < conf.size, L.isV v = true → surplus e = true →
    A.dst v < A.dst e

section arranged

variable {L : DagList} {conf : ProtocolConfig}

theorem Valid.eq_of_srcKey (h : L.Valid conf) {u v : ℕ} (hu : u < conf.size) (hv : v < conf.size)
    (hvv : L.isV v = true) (he : L.srcKey u = L.srcKey v) : u = v := by
  simp only [srcKey, hvv, Bool.not_true, Bool.toNat_false] at he
  cases huv : L.isV u with
  | false =>
    rw [huv] at he
    simp at he
    omega
  | true =>
    rw [huv] at he
    refine h.distinct u hu v hv huv hvv (BitVec.eq_of_toNat_eq ?_)
    simpa using he

theorem Valid.eq_of_dstKey (h : L.Valid conf) {u v : ℕ} (hu : u < conf.size) (hv : v < conf.size)
    (hvv : L.isV v = true) (he : L.dstKey u = L.dstKey v) : u = v := by
  simp only [dstKey, hvv, Bool.toNat_true] at he
  cases huv : L.isV u with
  | false =>
    rw [huv] at he
    simp at he
    omega
  | true =>
    rw [huv] at he
    refine h.distinct u hu v hv huv hvv (BitVec.eq_of_toNat_eq ?_)
    rw [← h.loop u hu huv, ← h.loop v hv hvv]
    simpa using he

theorem Valid.arranges (h : L.Valid conf) {dedup : Bool}
    (hk : ∀ v < conf.size, L.isV v = true → L.surplus conf dedup v = false) :
    L.Arranges (L.surplus conf dedup) ((L.listing conf.bits).arrangement conf dedup) := by
  have hsrc := sorts_deduped L dedup h.src_sorts
  have hdst := sorts_deduped L dedup h.dst_sorts
  have hkeeps := Listing.sortKeys_keeps (.one conf.size) ((L.listing conf.bits).srcKeys ++
    if dedup then [(L.listing conf.bits).duplicates conf.size] else [])
  have hvtx := hsrc.step hkeeps fun i => !L.isV i
  have hcount : Nat.count (fun i => (!L.isV i) = false) conf.size = conf.nodes := by
    simpa using h.nodes
  have hid : ∀ v, L.isV v = true → L.srcKey v = 2 * (L.src v).toNat := fun v hv => by
    simp [srcKey, hv]
  refine ⟨hk, fun e he => ?_, fun u hu v hv hvu hvv => ?_, fun v hv e he hvv hs => ?_,
    fun e he v hv hvv hs => ?_, fun e he v hv hvv hs => ?_⟩
  · have hlt := sortStep_lt_count hkeeps (fun i => !L.isV i) he
    rw [hcount, Bool.not_eq_false'] at hlt
    exact hlt.symm
  · refine (hvtx u hu v hv).trans ?_
    simp only [refine, hvu, hvv, hk u hu hvu, hk v hv hvv, lt_irrefl, false_or, true_and,
      hid, BitVec.lt_def]
    refine ⟨fun hlt => ?_, fun hlt => Or.inl (by omega)⟩
    rcases hlt with hlt | ⟨he, hlt⟩
    · omega
    · rw [h.distinct u hu v hv hvu hvv (BitVec.eq_of_toNat_eq (by omega))] at hlt
      exact absurd hlt (lt_irrefl _)
  · refine (hsrc.le_iff hv he).trans ?_
    have heq := fun hkey => h.eq_of_srcKey (u := e) he hv hvv hkey
    simp only [refine, hs, hk v hv hvv, lt_irrefl, false_or, true_and, BitVec.le_def]
    have hkey : L.srcKey e < L.srcKey v ↔ (L.src e).toNat < (L.src v).toNat := by
      rw [hid v hvv, srcKey]
      cases L.isV e
      · simp
        omega
      · simp
    rw [hkey]
    refine ⟨fun hn => not_lt.mp fun hlt => hn (Or.inl hlt), fun hle hlt => ?_⟩
    rcases hlt with hlt | ⟨he, hlt⟩
    · omega
    · rw [heq he] at hlt
      exact lt_irrefl _ hlt
  · refine (hdst.le_iff he hv).trans ?_
    have heq := fun hkey => h.eq_of_dstKey (u := e) he hv hvv hkey
    simp only [refine, hs, hk v hv hvv, lt_irrefl, false_or, true_and, BitVec.le_def]
    have hkey : L.dstKey v < L.dstKey e ↔ (L.dst v).toNat < (L.dst e).toNat := by
      rw [dstKey, dstKey, hvv]
      cases L.isV e
      · simp
        omega
      · simp
    rw [hkey]
    refine ⟨fun hn => not_lt.mp fun hlt => hn (Or.inl hlt), fun hle hlt => ?_⟩
    rcases hlt with hlt | ⟨he, hlt⟩
    · omega
    · rw [heq he.symm] at hlt
      exact lt_irrefl _ hlt
  · refine (hdst v hv e he).mpr ?_
    simp [refine, hs, hk v hv hvv]

end arranged

end DagList

end GraphMpc
