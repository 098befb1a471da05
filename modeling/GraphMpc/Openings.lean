import GraphMpc.Gadgets

namespace GraphMpc

open Circuit GraphMpc.Valuation StableOrder Tabulate

-- if P holds, the reveal gates of L open the orders ρs one after another, each of them shuffled under
-- the next index from s on
def Openings {conf : ProtocolConfig} (P : Valuation conf → Prop) (L : List Gate) (s : ℕ)
    (ρs : List (Equiv.Perm ℕ)) : Prop :=
  List.Forall₂ (fun f p => ∀ V : Valuation conf, L ⊆ V.gates → P V →
    V.Opens f.outIdx (p.1 * (V.perm p.2)⁻¹)) (L.filter (·.type = .reveal)) (ρs.zipIdx s)

namespace Openings

variable {conf : ProtocolConfig} {P P' Q : Valuation conf → Prop} {L L' : List Gate} {s : ℕ}
  {ρs ρs' : List (Equiv.Perm ℕ)}

theorem silent (P : Valuation conf → Prop) (s : ℕ) (h : ∀ f ∈ L, f.type ≠ .reveal) :
    Openings P L s [] := by
  have hnone : L.filter (·.type = .reveal) = [] :=
    List.filter_eq_nil_iff.mpr fun f hf => by simpa using h f hf
  rw [Openings, hnone]
  exact .nil

theorem append {s' : ℕ} (h : Openings P L s ρs) (h' : Openings P' L' s' ρs')
    (hs : s' = s + ρs.length) (hP : ∀ V : Valuation conf, L ⊆ V.gates → Q V → P V)
    (hP' : ∀ V : Valuation conf, L ⊆ V.gates → L' ⊆ V.gates → Q V → P' V) :
    Openings Q (L ++ L') s (ρs ++ ρs') := by
  subst hs
  rw [Openings, List.filter_append, List.zipIdx_append]
  refine List.rel_append (h.imp fun f p hf V hV hQ => ?_) (h'.imp fun f p hf V hV hQ => ?_)
  · have hL := (List.append_subset.mp hV).1
    exact hf V hL (hP V hL hQ)
  · obtain ⟨hL, hL'⟩ := List.append_subset.mp hV
    exact hf V hL' (hP' V hL hL' hQ)

theorem imp (h : Openings P L s ρs) (hP : ∀ V : Valuation conf, L ⊆ V.gates → Q V → P V) :
    Openings Q L s ρs :=
  List.Forall₂.imp (fun _ _ hf V hV hQ => hf V hV (hP V hV hQ)) h

theorem length_eq (h : Openings P L s ρs) : (L.filter (·.type = .reveal)).length = ρs.length := by
  have hlen := List.Forall₂.length_eq h
  rwa [List.length_zipIdx] at hlen

end Openings

section blocks

variable {conf : ProtocolConfig} (k m idx perm key : ℕ)

theorem sortGates_openings (conf : ProtocolConfig) (ρ : Equiv.Perm ℕ) (b : ℕ → Bool) :
    Openings (fun V : Valuation conf => V.Order perm ρ ∧ V.Bits key b)
      (sortGates k m idx perm key) idx [ρ] :=
  .cons (fun _ hV ⟨hp, hb⟩ => (sortGates_order hV hp hb).2.1) .nil

theorem duplicateGates_openings (src dst : ℕ) (hn : 0 < conf.size) (ρ : Equiv.Perm ℕ)
    (s d : ℕ → Ring) : Openings
      (fun V : Valuation conf => V.Order perm ρ ∧ V.Holds src s ∧ V.Holds dst d)
      (duplicateGates k m idx conf.size perm src dst) idx [ρ] :=
  .cons (fun _ hV ⟨hp, hs, hd⟩ => (duplicateGates_flags hV hn hp hs hd).2.1) .nil

theorem prepareGates_openings (ctx : MPContext) (A : Arrangement conf) :
    Openings (fun V : Valuation conf => V.Order ctx.vtxOrder A.vtx ∧ V.Order ctx.srcOrder A.src ∧
      V.Order ctx.dstOrder A.dst) (prepareGates k idx ctx) idx [A.vtx, A.src, A.dst] :=
  .cons (fun _ hV ⟨hv, hs, hd⟩ => (prepareGates_opened hV hv hs hd).2.1)
    (.cons (fun _ hV ⟨hv, hs, hd⟩ => (prepareGates_opened hV hv hs hd).2.2.1)
      (.cons (fun _ hV ⟨hv, hs, hd⟩ => (prepareGates_opened hV hv hs hd).2.2.2) .nil))

noncomputable def sortRounds (n : ℕ) (ρ : Equiv.Perm ℕ) : List (ℕ → Bool) → List (Equiv.Perm ℕ)
  | [] => []
  | b :: bs => ρ :: sortRounds n (sortStep n ρ b) bs

theorem sortRounds_length (n : ℕ) (ρ : Equiv.Perm ℕ) (bs : List (ℕ → Bool)) :
    (sortRounds n ρ bs).length = bs.length := by
  induction bs generalizing ρ with
  | nil => rfl
  | cons b bs ih => rw [sortRounds, List.length_cons, ih, List.length_cons]

end blocks

end GraphMpc
