import GraphMpc.Graph

namespace GraphMpc

open Tabulate

namespace Graph

def add (g other : Graph) : Except String Graph :=
  if g.isShared ^^ other.isShared then
    .error "Cannot concatenate a shared graph with a non-shared graph."
  else if other.size ≤ 0 then .ok {}
  else if g.size ≤ 0 then .ok other
  else
    let nBits := g.srcBits.length
    let both (v w : Vec) : Vec :=
      (tab g.size fun i => v.getD i 0) ++ tab other.size fun i => w.getD i 0
    .ok { src := both g.src other.src
          dst := both g.dst other.dst
          isV := both g.isV other.isV
          data := both g.data other.data
          isShared := g.isShared
          srcBits := tab nBits fun i => both (g.srcBits.getD i []) (other.srcBits.getD i [])
          dstBits := tab nBits fun i => both (g.dstBits.getD i []) (other.dstBits.getD i [])
          size := g.size + other.size
          nodes := g.nodes + other.nodes }

structure Matched (bits : ℕ) (g : Graph) : Prop where
  src : g.src.length = g.size
  dst : g.dst.length = g.size
  isV : g.isV.length = g.size
  data : g.data.length = g.size
  srcBits : g.srcBits.length = bits
  dstBits : g.dstBits.length = bits
  srcPlanes : ∀ v ∈ g.srcBits, v.length = g.size
  dstPlanes : ∀ v ∈ g.dstBits, v.length = g.size

-- what the sum of two graphs is meant to be
def concat (g h : Graph) : Graph where
  src := g.src ++ h.src
  dst := g.dst ++ h.dst
  isV := g.isV ++ h.isV
  data := g.data ++ h.data
  isShared := g.isShared
  srcBits := List.zipWith (· ++ ·) g.srcBits h.srcBits
  dstBits := List.zipWith (· ++ ·) g.dstBits h.dstBits
  size := g.size + h.size
  nodes := g.nodes + h.nodes

def Joinable (g h : Graph) : Prop :=
  h.size ≠ 0 ∧ (g.size ≠ 0 ∨ g.nodes = 0) ∨ g = {} ∧ h = {}

def reconstruct (g0 g1 : Graph) : Graph where
  src := List.zipWith (· + ·) g0.src g1.src
  dst := List.zipWith (· + ·) g0.dst g1.dst
  isV := List.zipWith (· + ·) g0.isV g1.isV
  data := List.zipWith (· + ·) g0.data g1.data
  srcBits := List.zipWith (List.zipWith (· + ·)) g0.srcBits g1.srcBits
  dstBits := List.zipWith (List.zipWith (· + ·)) g0.dstBits g1.dstBits
  size := g0.size
  nodes := g0.nodes

variable {bits : ℕ} {g h k : Graph}

theorem zipWith_planes {α β γ : Type} (f : α → β → γ) (a : α) (b : β) {us : List α} {vs : List β}
    (hl : vs.length = us.length) :
    (tab us.length fun i => f (us.getD i a) (vs.getD i b)) = List.zipWith f us vs := by
  apply List.ext_getElem?
  intro i
  rw [tab_getElem?]
  by_cases hi : i < us.length
  · have hv : i < vs.length := by omega
    simp [hi, hv]
  · simp [hi]

theorem tab_whole {v : Vec} {n : ℕ} (hv : v.length = n) : (tab n fun i => v.getD i 0) = v :=
  (eq_tab 0 hv fun _ _ => rfl).symm

theorem getD_length {vs : List Vec} {n i : ℕ} (hv : ∀ v ∈ vs, v.length = n) (hi : i < vs.length) :
    (vs.getD i []).length = n := by
  rw [List.getD_eq_getElem _ _ hi]
  exact hv _ (List.getElem_mem hi)

theorem planes_whole {us vs : List Vec} {n m : ℕ} (hl : vs.length = us.length)
    (hu : ∀ v ∈ us, v.length = n) (hv : ∀ v ∈ vs, v.length = m) :
    (tab us.length fun i => (tab n fun j => (us.getD i []).getD j 0) ++
      tab m fun j => (vs.getD i []).getD j 0) = List.zipWith (· ++ ·) us vs := by
  rw [← zipWith_planes (· ++ ·) [] [] hl]
  apply tab_congr
  intro i hi
  rw [tab_whole (getD_length hu hi), tab_whole (getD_length hv (hl ▸ hi))]

theorem Matched.eq_empty (hg : g.Matched 0) (hs : g.size = 0) (hn : g.nodes = 0)
    (hf : g.isShared = false) : g = {} := by
  obtain ⟨h1, h2, h3, h4, h5, h6, -, -⟩ := hg
  rw [hs] at h1 h2 h3 h4
  cases g
  simp_all

theorem add_both (hg : g.Matched bits) (hh : h.Matched bits) (hf : g.isShared = h.isShared)
    (hgs : g.size ≠ 0) (hhs : h.size ≠ 0) : g.add h = .ok (g.concat h) := by
  have hsrc := planes_whole (hh.srcBits.trans hg.srcBits.symm) hg.srcPlanes hh.srcPlanes
  have hdst := planes_whole (hh.dstBits.trans hg.dstBits.symm) hg.dstPlanes hh.dstPlanes
  rw [hg.dstBits] at hdst
  rw [hg.srcBits] at hsrc
  simp only [add, hf, Bool.xor_self, Bool.false_eq_true, if_false, Nat.le_zero, hgs, hhs, concat,
    tab_whole hg.src, tab_whole hh.src, tab_whole hg.dst, tab_whole hh.dst, tab_whole hg.isV,
    tab_whole hh.isV, tab_whole hg.data, tab_whole hh.data, hg.srcBits, hsrc, hdst]

theorem add_right_empty (hf : g.isShared = h.isShared) (hhs : h.size = 0) :
    g.add h = .ok {} := by
  simp [add, hf, hhs]

theorem add_left_empty (hf : g.isShared = h.isShared) (hgs : g.size = 0) (hhs : h.size ≠ 0) :
    g.add h = .ok h := by
  simp [add, hf, hgs, hhs]

theorem zipWith_append_nil {us vs : List Vec} (hl : us.length = vs.length)
    (hu : ∀ v ∈ us, v.length = 0) : List.zipWith (· ++ ·) us vs = vs := by
  induction us generalizing vs with
  | nil => simp [List.length_eq_zero_iff.mp hl.symm]
  | cons u us ih =>
    obtain _ | ⟨v, vs⟩ := vs
    · simp at hl
    · have hu0 : u = [] := List.length_eq_zero_iff.mp (hu u (List.mem_cons_self ..))
      simp [hu0, ih (Nat.succ_inj.mp hl) fun w hw => hu w (List.mem_cons_of_mem _ hw)]

theorem concat_left_empty (hg : g.Matched bits) (hh : h.Matched bits)
    (hf : g.isShared = h.isShared) (hgs : g.size = 0) (hgn : g.nodes = 0) : g.concat h = h := by
  obtain ⟨h1, h2, h3, h4, h5, h6, h7, h8⟩ := hg
  rw [hgs] at h1 h2 h3 h4 h7 h8
  rw [List.length_eq_zero_iff] at h1 h2 h3 h4
  have hsrc := zipWith_append_nil (h5.trans hh.srcBits.symm) h7
  have hdst := zipWith_append_nil (h6.trans hh.dstBits.symm) h8
  cases h
  simp_all [concat]

theorem add_eq_concat_iff (hg : g.Matched bits) (hh : h.Matched bits)
    (hf : g.isShared = h.isShared) : g.add h = .ok (g.concat h) ↔ Joinable g h := by
  constructor
  · intro hadd
    by_cases hhs : h.size = 0
    · rw [add_right_empty hf hhs, Except.ok.injEq] at hadd
      have hsize : g.size + h.size = 0 := congrArg size hadd.symm
      have hnodes : g.nodes + h.nodes = 0 := congrArg nodes hadd.symm
      have hflag : g.isShared = false := congrArg isShared hadd.symm
      have hplanes := congrArg (fun r => r.srcBits.length) hadd
      have hbits : bits = 0 := by simpa [concat, hg.srcBits, hh.srcBits] using hplanes.symm
      subst hbits
      exact Or.inr ⟨hg.eq_empty (by omega) (by omega) hflag,
        hh.eq_empty hhs (by omega) (hf ▸ hflag)⟩
    · by_cases hgs : g.size = 0
      · rw [add_left_empty hf hgs hhs, Except.ok.injEq] at hadd
        have hnodes : h.nodes = g.nodes + h.nodes := congrArg nodes hadd
        exact Or.inl ⟨hhs, Or.inr (by omega)⟩
      · exact Or.inl ⟨hhs, Or.inl hgs⟩
  · rintro (⟨hhs, hg0⟩ | ⟨rfl, rfl⟩)
    · by_cases hgs : g.size = 0
      · rw [add_left_empty hf hgs hhs,
          concat_left_empty hg hh hf hgs (hg0.resolve_left fun hne => hne hgs)]
      · exact add_both hg hh hf hgs hhs
    · rfl

theorem zipWith_append_length {us vs : List Vec} {n m : ℕ} (hu : ∀ v ∈ us, v.length = n)
    (hv : ∀ v ∈ vs, v.length = m) : ∀ v ∈ List.zipWith (· ++ ·) us vs, v.length = n + m := by
  intro v hmem
  obtain ⟨i, hi, rfl⟩ := List.getElem_of_mem hmem
  rw [List.length_zipWith] at hi
  rw [List.getElem_zipWith, List.length_append, hu _ (List.getElem_mem _),
    hv _ (List.getElem_mem _)]

theorem Matched.concat (hg : g.Matched bits) (hh : h.Matched bits) :
    (g.concat h).Matched bits where
  src := by simp [Graph.concat, hg.src, hh.src]
  dst := by simp [Graph.concat, hg.dst, hh.dst]
  isV := by simp [Graph.concat, hg.isV, hh.isV]
  data := by simp [Graph.concat, hg.data, hh.data]
  srcBits := by simp [Graph.concat, hg.srcBits, hh.srcBits]
  dstBits := by simp [Graph.concat, hg.dstBits, hh.dstBits]
  srcPlanes := zipWith_append_length hg.srcPlanes hh.srcPlanes
  dstPlanes := zipWith_append_length hg.dstPlanes hh.dstPlanes

theorem zipWith_append_assoc (us vs ws : List Vec) :
    List.zipWith (· ++ ·) (List.zipWith (· ++ ·) us vs) ws =
      List.zipWith (· ++ ·) us (List.zipWith (· ++ ·) vs ws) := by
  induction us generalizing vs ws with
  | nil => simp
  | cons u us ih => cases vs <;> cases ws <;> simp [ih]

theorem concat_assoc (g h k : Graph) : (g.concat h).concat k = g.concat (h.concat k) := by
  simp [concat, zipWith_append_assoc, Nat.add_assoc]

theorem Joinable.concat_left (hgh : Joinable g h) (hhk : Joinable h k) :
    Joinable (g.concat h) k := by
  rcases hhk with ⟨hks, -⟩ | ⟨rfl, rfl⟩
  · rcases hgh with ⟨hhs, -⟩ | ⟨rfl, rfl⟩
    · exact Or.inl ⟨hks, Or.inl (Nat.ne_of_gt (Nat.add_pos_right _ (Nat.pos_of_ne_zero hhs)))⟩
    · exact Or.inl ⟨hks, Or.inr rfl⟩
  · rcases hgh with ⟨hhs, -⟩ | ⟨rfl, -⟩
    · exact absurd rfl hhs
    · exact Or.inr ⟨rfl, rfl⟩

theorem Joinable.concat_right (hgh : Joinable g h) (hhk : Joinable h k) :
    Joinable g (h.concat k) := by
  rcases hhk with ⟨hks, -⟩ | ⟨rfl, rfl⟩
  · have hs : (h.concat k).size ≠ 0 :=
      Nat.ne_of_gt (Nat.add_pos_right _ (Nat.pos_of_ne_zero hks))
    rcases hgh with ⟨-, hg⟩ | ⟨rfl, -⟩
    · exact Or.inl ⟨hs, hg⟩
    · exact Or.inl ⟨hs, Or.inr rfl⟩
  · rcases hgh with ⟨hhs, -⟩ | ⟨rfl, -⟩
    · exact absurd rfl hhs
    · exact Or.inr ⟨rfl, rfl⟩

theorem add_assoc_of_joinable (hg : g.Matched bits) (hh : h.Matched bits) (hk : k.Matched bits)
    (hfg : g.isShared = h.isShared) (hfh : h.isShared = k.isShared) (hgh : Joinable g h)
    (hhk : Joinable h k) : (g.add h >>= fun r => r.add k) = h.add k >>= fun s => g.add s := by
  have h1 := (add_eq_concat_iff hg hh hfg).mpr hgh
  have h2 := (add_eq_concat_iff hh hk hfh).mpr hhk
  have h3 := (add_eq_concat_iff (hg.concat hh) hk (hfg.trans hfh)).mpr (hgh.concat_left hhk)
  have h4 := (add_eq_concat_iff hg (hh.concat hk) hfg).mpr (hgh.concat_right hhk)
  rw [h1, h2]
  change (g.concat h).add k = g.add (h.concat k)
  rw [h3, h4, concat_assoc]

theorem zipWith_planes_append {us us' : List Vec} {n : ℕ} (hu : ∀ v ∈ us, v.length = n)
    (hu' : ∀ v ∈ us', v.length = n) (vs vs' : List Vec) :
    List.zipWith (List.zipWith (· + ·)) (List.zipWith (· ++ ·) us vs)
        (List.zipWith (· ++ ·) us' vs') =
      List.zipWith (· ++ ·) (List.zipWith (List.zipWith (· + ·)) us us')
        (List.zipWith (List.zipWith (· + ·)) vs vs') := by
  induction us generalizing us' vs vs' with
  | nil => simp
  | cons u us ih =>
    obtain _ | ⟨u', us'⟩ := us'
    · simp
    obtain _ | ⟨v, vs⟩ := vs
    · simp
    obtain _ | ⟨v', vs'⟩ := vs'
    · simp
    have hl : u.length = u'.length :=
      (hu u (List.mem_cons_self ..)).trans (hu' u' (List.mem_cons_self ..)).symm
    have hrest := ih (fun w hw => hu w (List.mem_cons_of_mem _ hw))
      (fun w hw => hu' w (List.mem_cons_of_mem _ hw)) vs vs'
    simp only [List.zipWith_cons_cons, List.zipWith_append hl, hrest]

structure Partner (bits : ℕ) (g0 g1 : Graph) : Prop where
  matched : g1.Matched bits
  size : g1.size = g0.size
  nodes : g1.nodes = g0.nodes
  isShared : g1.isShared = g0.isShared

variable {g1 h1 : Graph}

theorem Joinable.partner (hj : Joinable g h) (hg : g.Matched bits) (hpg : Partner bits g g1)
    (hph : Partner bits h h1) : Joinable g1 h1 := by
  rcases hj with ⟨hh, hg0⟩ | ⟨rfl, rfl⟩
  · rw [← hph.size] at hh
    rw [← hpg.size, ← hpg.nodes] at hg0
    exact Or.inl ⟨hh, hg0⟩
  · obtain rfl : bits = 0 := hg.srcBits.symm
    exact Or.inr ⟨hpg.matched.eq_empty hpg.size hpg.nodes hpg.isShared,
      hph.matched.eq_empty hph.size hph.nodes hph.isShared⟩

theorem reconstruct_concat (hg : g.Matched bits) (hp : Partner bits g g1) (h h1 : Graph) :
    reconstruct (g.concat h) (g1.concat h1) = (reconstruct g g1).concat (reconstruct h h1) := by
  obtain ⟨hg1, hs, -, -⟩ := hp
  have hsrc : g.src.length = g1.src.length := by rw [hg.src, hg1.src, hs]
  have hdst : g.dst.length = g1.dst.length := by rw [hg.dst, hg1.dst, hs]
  have hisV : g.isV.length = g1.isV.length := by rw [hg.isV, hg1.isV, hs]
  have hdata : g.data.length = g1.data.length := by rw [hg.data, hg1.data, hs]
  have hsrcBits := zipWith_planes_append hg.srcPlanes (hs ▸ hg1.srcPlanes) h.srcBits h1.srcBits
  have hdstBits := zipWith_planes_append hg.dstPlanes (hs ▸ hg1.dstPlanes) h.dstBits h1.dstBits
  simp only [reconstruct, concat, List.zipWith_append hsrc, List.zipWith_append hdst,
    List.zipWith_append hisV, List.zipWith_append hdata, hsrcBits, hdstBits]

structure Lawful (bits : ℕ) (g h k : Graph) : Prop where
  left : g.add h = .ok (g.concat h)
  right : h.add k = .ok (h.concat k)
  assoc : (g.add h >>= fun r => r.add k) = h.add k >>= fun s => g.add s
  shares : ∀ g1 h1, Partner bits g g1 → Partner bits h h1 → ∃ r r1, g.add h = .ok r ∧
    g1.add h1 = .ok r1 ∧ reconstruct r r1 = (reconstruct g g1).concat (reconstruct h h1)

theorem add_lawful_iff (bits : ℕ) (g h k : Graph) (hg : g.Matched bits) (hh : h.Matched bits)
    (hk : k.Matched bits) (hfg : g.isShared = h.isShared) (hfh : h.isShared = k.isShared) :
    Lawful bits g h k ↔ Joinable g h ∧ Joinable h k := by
  constructor
  · intro hl
    exact ⟨(add_eq_concat_iff hg hh hfg).mp hl.left, (add_eq_concat_iff hh hk hfh).mp hl.right⟩
  · rintro ⟨hgh, hhk⟩
    have hsum := (add_eq_concat_iff hg hh hfg).mpr hgh
    refine ⟨hsum, (add_eq_concat_iff hh hk hfh).mpr hhk,
      add_assoc_of_joinable hg hh hk hfg hfh hgh hhk, ?_⟩
    intro g1 h1 hpg hph
    have hf1 : g1.isShared = h1.isShared := by rw [hpg.isShared, hph.isShared, hfg]
    have hsum1 := (add_eq_concat_iff hpg.matched hph.matched hf1).mpr (hgh.partner hg hpg hph)
    exact ⟨_, _, hsum, hsum1, reconstruct_concat hg hpg h h1⟩

def oneNode : Graph := addListEntry {} 1 1 1 5

theorem add_lawful_iff_nodes : Lawful 0 oneNode oneNode oneNode :=
  have hm : oneNode.Matched 0 := by constructor <;> simp [oneNode, addListEntry]
  have hj : Joinable oneNode oneNode := Or.inl ⟨by decide, Or.inl (by decide)⟩
  (add_lawful_iff 0 oneNode oneNode oneNode hm hm hm rfl rfl).mpr ⟨hj, hj⟩

theorem empty_right_drops : oneNode.Matched 0 ∧ ({} : Graph).Matched 0 ∧
    oneNode.isShared = ({} : Graph).isShared ∧ oneNode.add {} = .ok {} ∧
    oneNode.concat {} = oneNode ∧ ¬ Lawful 0 oneNode {} oneNode := by
  refine ⟨by constructor <;> simp [oneNode, addListEntry], by constructor <;> simp, rfl, rfl,
    rfl, ?_⟩
  intro hl
  exact absurd hl.left (by decide)

end Graph

end GraphMpc
