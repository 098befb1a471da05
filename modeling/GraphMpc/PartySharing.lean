import GraphMpc.Library.Lockstep
import GraphMpc.InputSharing
import GraphMpc.Concat
import GraphMpc.Simulation

namespace GraphMpc

open Tabulate Lockstep

def randomShareSecretVec2P (id : Party) (secret : Vec) (sender : Party) : StateM PRG Vec :=
  fun rng =>
  let n := secret.length
  if id = .d then (List.replicate n 0, rng)
  else if id = sender then
    (tab n fun i => secret.getD i 0 - (rng.vec n).getD i 0, rng.skip n)
  else (rng.vec n, rng.skip n)

def revealVec (id : Party) (share shareOther : Vec) : Vec :=
  tab share.length fun i => if id = .d then 0 else share.getD i 0 + shareOther.getD i 0

namespace Graph

-- received is what the sender announces of its graph: the size and the number of nodes
def secretShareParties (id : Party) (nBits : ℕ) (sender : Party) (received : ℕ × ℕ) (g : Graph) :
    StateM PRG Graph :=
  if id = .d then return {}
  else do
    let size := if id = sender then g.size else received.1
    let nodes := if id = sender then g.nodes else received.2
    let part (v : Vec) : Vec := if id = sender then v else List.replicate size 0
    let planes (v : Vec) : List Vec :=
      if id = sender then toBits v nBits else List.replicate nBits (List.replicate size 0)
    let bits ← (List.range nBits).mapM fun i => do
      let src ← randomShareSecretVec2P id ((planes g.src).getD i []) sender
      let dst ← randomShareSecretVec2P id ((planes g.dst).getD i []) sender
      return (src, dst)
    let src ← randomShareSecretVec2P id (part g.src) sender
    let dst ← randomShareSecretVec2P id (part g.dst) sender
    let isV ← randomShareSecretVec2P id (part g.isV) sender
    let data ← randomShareSecretVec2P id (part g.data) sender
    return { src := src, dst := dst, isV := isV, data := data, isShared := true,
             srcBits := bits.map Prod.fst, dstBits := bits.map Prod.snd, size := src.length,
             nodes := nodes }

def reveal (id : Party) (g other : Graph) : Graph :=
  if id = .d then {}
  else
    { src := revealVec id g.src other.src, dst := revealVec id g.dst other.dst
      isV := revealVec id g.isV other.isV, data := revealVec id g.data other.data
      size := (revealVec id g.src other.src).length, nodes := g.nodes }

def shareFrom (nBits : ℕ) (sender : Party) (gs : Party → Graph) (rng0 rng1 : PRG) :
    (Party → Graph) × PRG × PRG :=
  let message := ((gs sender).size, (gs sender).nodes)
  let (g0, rng0) := (gs .p0).secretShareParties .p0 nBits sender message rng0
  let (g1, rng1) := (gs .p1).secretShareParties .p1 nBits sender message rng1
  (fun id => match id with
    | .p0 => g0
    | .p1 => g1
    | .d => {}, rng0, rng1)

def shareBoth (nBits : ℕ) (gs : Party → Graph) (rng0 rng1 : PRG) :
    Option ((Party → Graph) × PRG × PRG) := do
  let (a, rng0, rng1) := shareFrom nBits .p0 gs rng0 rng1
  let (b, rng0, rng1) := shareFrom nBits .p1 gs rng0 rng1
  let g0 ← ((a .p0).add (b .p0)).toOption
  let g1 ← ((a .p1).add (b .p1)).toOption
  return (fun id => match id with
    | .p0 => g0
    | .p1 => g1
    | .d => {}, rng0, rng1)

structure Filled (g : Graph) : Prop where
  src : g.src.length = g.size
  dst : g.dst.length = g.size
  isV : g.isV.length = g.size
  data : g.data.length = g.size

structure Split (nBits : ℕ) (a b g : Graph) : Prop where
  src : Shares a.src b.src g.src
  dst : Shares a.dst b.dst g.dst
  isV : Shares a.isV b.isV g.isV
  data : Shares a.data b.data g.data
  planes : a.srcBits.length = nBits ∧ b.srcBits.length = nBits ∧ a.dstBits.length = nBits ∧
    b.dstBits.length = nBits
  srcBits : ∀ i < nBits,
    Shares (a.srcBits.getD i []) (b.srcBits.getD i []) ((toBits g.src nBits).getD i [])
  dstBits : ∀ i < nBits,
    Shares (a.dstBits.getD i []) (b.dstBits.getD i []) ((toBits g.dst nBits).getD i [])
  size : a.size = g.size ∧ b.size = g.size
  nodes : a.nodes = g.nodes ∧ b.nodes = g.nodes
  isShared : a.isShared = true ∧ b.isShared = true

end Graph

section vectors

variable {a b v : Vec} {id sender : Party}

theorem Shares.symm (h : Shares a b v) : Shares b a v :=
  ⟨h.right, h.left, fun i => (add_comm _ _).trans (h.sum i)⟩

theorem share_inStep (hs : sender ≠ .d) (secret : Vec) {blank : Vec}
    (hl : blank.length = secret.length) :
    InStep (fun a b => Shares a b secret) (randomShareSecretVec2P sender secret sender)
      (randomShareSecretVec2P sender.other blank sender) := by
  intro rng
  have hother : sender.other ≠ .d ∧ sender.other ≠ sender := by
    cases sender <;> first | exact absurd rfl hs | exact ⟨by decide, by decide⟩
  simp only [randomShareSecretVec2P, if_neg hs, if_neg hother.1, if_neg hother.2, if_true, hl]
  refine ⟨⟨tab_length .., rng.vec_length _, fun i => ?_⟩, trivial⟩
  rw [tab_getD]
  split
  · exact sub_add_cancel _ _
  · rename_i hi
    rw [List.getD_eq_default _ _ (by simpa using hi), List.getD_eq_default _ _ (by simpa using hi)]
    exact add_zero _

theorem revealVec_eq (hid : id ≠ .d) (h : Shares a b v) : revealVec id a b = v := by
  refine (eq_tab 0 h.left.symm fun i _ => ?_).symm
  rw [if_neg hid, h.sum]

end vectors

namespace Graph

variable {nBits : ℕ} {g : Graph} {id sender : Party}

theorem toBits_plane {v : Vec} {i : ℕ} (hi : i < nBits) :
    ((toBits v nBits).getD i []).length = v.length := by
  rw [toBits, tab_getD_lt _ _ hi, List.length_map]

theorem secretShareParties_split (hs : sender ≠ .d) (hg : g.Filled) (own : Graph)
    (received : ℕ × ℕ) :
    InStep (fun a b => Split nBits a b g) (g.secretShareParties sender nBits sender received)
      (own.secretShareParties sender.other nBits sender (g.size, g.nodes)) := by
  have hother : sender.other ≠ .d ∧ sender.other ≠ sender := by
    cases sender <;> first | exact absurd rfl hs | exact ⟨by decide, by decide⟩
  have hvec : ∀ v : Vec, v.length = g.size →
      InStep (fun a b => Shares a b v) (randomShareSecretVec2P sender v sender)
        (randomShareSecretVec2P sender.other (List.replicate g.size 0) sender) := fun v hl =>
    share_inStep hs v (by rw [List.length_replicate, hl])
  have hplane : ∀ v : Vec, v.length = g.size → ∀ i < nBits,
      InStep (fun a b => Shares a b ((toBits v nBits).getD i []))
        (randomShareSecretVec2P sender ((toBits v nBits).getD i []) sender)
        (randomShareSecretVec2P sender.other
          ((List.replicate nBits (List.replicate g.size 0)).getD i []) sender) := fun v hl i hi =>
    share_inStep hs _ (by
      rw [List.getD_replicate _ hi, List.length_replicate, toBits_plane hi, hl])
  simp only [secretShareParties, if_neg hs, if_neg hother.1, if_neg hother.2, if_true]
  refine (InStep.mapM_range ([], []) ([], []) (R := fun i a b =>
    Shares a.1 b.1 ((toBits g.src nBits).getD i []) ∧
      Shares a.2 b.2 ((toBits g.dst nBits).getD i [])) fun i hi =>
    (hplane _ hg.src i hi).bind fun _ _ hsrc => (hplane _ hg.dst i hi).bind fun _ _ hdst =>
      .pure ⟨hsrc, hdst⟩).bind fun as bs hbits => ?_
  refine (hvec _ hg.src).bind fun _ _ hsrc => (hvec _ hg.dst).bind fun _ _ hdst =>
    (hvec _ hg.isV).bind fun _ _ hisV => (hvec _ hg.data).bind fun _ _ hdata => .pure ?_
  obtain ⟨hla, hlb, hrel⟩ := hbits
  refine ⟨hsrc, hdst, hisV, hdata, by simp [hla, hlb], fun i hi => ?_, fun i hi => ?_,
    ⟨hsrc.left.trans hg.src, hsrc.right.trans hg.src⟩, ⟨rfl, rfl⟩, rfl, rfl⟩
  · rw [List.getD_map _ ([], []) Prod.fst, List.getD_map _ ([], []) Prod.fst]
    exact (hrel i hi).1
  · rw [List.getD_map _ ([], []) Prod.snd, List.getD_map _ ([], []) Prod.snd]
    exact (hrel i hi).2

theorem Split.symm {a b : Graph} (h : Split nBits a b g) : Split nBits b a g where
  src := h.src.symm
  dst := h.dst.symm
  isV := h.isV.symm
  data := h.data.symm
  planes := ⟨h.planes.2.1, h.planes.1, h.planes.2.2.2, h.planes.2.2.1⟩
  srcBits i hi := (h.srcBits i hi).symm
  dstBits i hi := (h.dstBits i hi).symm
  size := h.size.symm
  nodes := h.nodes.symm
  isShared := h.isShared.symm

theorem shareFrom_split (hs : sender ≠ .d) {gs : Party → Graph} (hg : (gs sender).Filled)
    (rng : PRG) : Split nBits ((shareFrom nBits sender gs rng rng).1 .p0)
        ((shareFrom nBits sender gs rng rng).1 .p1) (gs sender) ∧
      (shareFrom nBits sender gs rng rng).2.1 = (shareFrom nBits sender gs rng rng).2.2 := by
  have h := fun own => @secretShareParties_split nBits (gs sender) sender hs hg own
    ((gs sender).size, (gs sender).nodes) rng
  cases sender with
  | p0 => exact h (gs .p1)
  | p1 => exact ⟨(h (gs .p0)).1.symm, (h (gs .p0)).2.symm⟩
  | d => exact absurd rfl hs

theorem toBits_append (v w : Vec) {i : ℕ} (hi : i < nBits) :
    (toBits (v ++ w) nBits).getD i [] =
      (toBits v nBits).getD i [] ++ (toBits w nBits).getD i [] := by
  simp only [toBits, tab_getD_lt _ _ hi, List.map_append]

theorem zipWith_append_getD {us vs : List Vec} (hu : us.length = nBits) (hv : vs.length = nBits)
    {i : ℕ} (hi : i < nBits) :
    (List.zipWith (· ++ ·) us vs).getD i [] = us.getD i [] ++ vs.getD i [] := by
  have hiu : i < us.length := hu ▸ hi
  have hiv : i < vs.length := hv ▸ hi
  rw [List.getD_eq_getElem _ _ (by simp [hiu, hiv]), List.getElem_zipWith,
    List.getD_eq_getElem _ _ hiu, List.getD_eq_getElem _ _ hiv]

namespace Split

variable {a b a' b' h : Graph}

theorem planes_length {us : List Vec} {v : Vec} {n : ℕ} (hl : us.length = nBits) (hv : v.length = n)
    (hu : ∀ i < nBits, (us.getD i []).length = ((toBits v nBits).getD i []).length) :
    ∀ u ∈ us, u.length = n := by
  intro u hmem
  obtain ⟨i, hi, rfl⟩ := List.mem_iff_getElem.mp hmem
  have h := hu i (hl ▸ hi)
  rwa [toBits_plane (hl ▸ hi), List.getD_eq_getElem _ _ hi, hv] at h

theorem matched (hs : Split nBits a b g) (hg : g.Filled) : a.Matched nBits := by
  have hn := hs.size.1.symm
  exact ⟨hs.src.left.trans (hg.src.trans hn), hs.dst.left.trans (hg.dst.trans hn),
    hs.isV.left.trans (hg.isV.trans hn), hs.data.left.trans (hg.data.trans hn), hs.planes.1,
    hs.planes.2.2.1,
    planes_length hs.planes.1 (hg.src.trans hn) fun i hi => (hs.srcBits i hi).left,
    planes_length hs.planes.2.2.1 (hg.dst.trans hn) fun i hi => (hs.dstBits i hi).left⟩

theorem concat (hs : Split nBits a b g) (hs' : Split nBits a' b' h) :
    Split nBits (a.concat a') (b.concat b') (g.concat h) where
  src := hs.src.append hs'.src
  dst := hs.dst.append hs'.dst
  isV := hs.isV.append hs'.isV
  data := hs.data.append hs'.data
  planes := by simp [Graph.concat, hs.planes, hs'.planes]
  srcBits i hi := by
    simp only [Graph.concat, toBits_append _ _ hi, zipWith_append_getD hs.planes.1 hs'.planes.1 hi,
      zipWith_append_getD hs.planes.2.1 hs'.planes.2.1 hi]
    exact (hs.srcBits i hi).append (hs'.srcBits i hi)
  dstBits i hi := by
    simp only [Graph.concat, toBits_append _ _ hi,
      zipWith_append_getD hs.planes.2.2.1 hs'.planes.2.2.1 hi,
      zipWith_append_getD hs.planes.2.2.2 hs'.planes.2.2.2 hi]
    exact (hs.dstBits i hi).append (hs'.dstBits i hi)
  size := by simp [Graph.concat, hs.size, hs'.size]
  nodes := by simp [Graph.concat, hs.nodes, hs'.nodes]
  isShared := hs.isShared

theorem add_eq (hs : Split nBits a b g) (hs' : Split nBits a' b' h) (hg : g.Filled) (hh : h.Filled)
    (hj : h.size ≠ 0 ∧ (g.size ≠ 0 ∨ g.nodes = 0)) : a.add a' = .ok (a.concat a') := by
  refine (add_eq_concat_iff (hs.matched hg) (hs'.matched hh)
    (hs.isShared.1.trans hs'.isShared.1.symm)).mpr (Or.inl ?_)
  rwa [hs.size.1, hs.nodes.1, hs'.size.1]

theorem reveals (hs : Split nBits a b g) (hg : g.Filled) (hid : id ≠ .d) :
    reveal id a b = { g with isShared := false, srcBits := [], dstBits := [] } := by
  rw [reveal, if_neg hid, revealVec_eq hid hs.src, revealVec_eq hid hs.dst, revealVec_eq hid hs.isV,
    revealVec_eq hid hs.data, hg.src, hs.nodes.1]

end Split

theorem Filled.concat {g h : Graph} (hg : g.Filled) (hh : h.Filled) : (g.concat h).Filled := by
  constructor <;>
    simp [Graph.concat, hg.src, hg.dst, hg.isV, hg.data, hh.src, hh.dst, hh.isV, hh.data]

theorem shareBoth_split {gs : Party → Graph} (h0 : (gs .p0).Filled) (h1 : (gs .p1).Filled)
    (hj : (gs .p1).size ≠ 0 ∧ ((gs .p0).size ≠ 0 ∨ (gs .p0).nodes = 0)) (nBits : ℕ) (rng : PRG) :
    ∃ s rng', shareBoth nBits gs rng rng = some (s, rng', rng') ∧
      Split nBits (s .p0) (s .p1) ((gs .p0).concat (gs .p1)) := by
  have ha := @shareFrom_split nBits .p0 (by decide) gs h0 rng
  obtain ⟨⟨a, rng0, rng1⟩, hra⟩ : ∃ r, shareFrom nBits .p0 gs rng rng = r := ⟨_, rfl⟩
  rw [hra] at ha
  obtain rfl : rng0 = rng1 := ha.2
  have hb := @shareFrom_split nBits .p1 (by decide) gs h1 rng0
  obtain ⟨⟨b, rng2, rng3⟩, hrb⟩ : ∃ r, shareFrom nBits .p1 gs rng0 rng0 = r := ⟨_, rfl⟩
  rw [hrb] at hb
  obtain rfl : rng2 = rng3 := hb.2
  have hsplit := hb.1.symm
  simp only [shareBoth, hra, hrb, ha.1.add_eq hb.1 h0 h1 hj, ha.1.symm.add_eq hsplit h0 h1 hj]
  exact ⟨_, _, rfl, ha.1.concat hb.1⟩

theorem share_reveals {gs : Party → Graph} (h0 : (gs .p0).Filled) (h1 : (gs .p1).Filled)
    (hj : (gs .p1).size ≠ 0 ∧ ((gs .p0).size ≠ 0 ∨ (gs .p0).nodes = 0)) (nBits : ℕ) (rng : PRG)
    (hid : id ≠ .d) :
    ∃ s rng', shareBoth nBits gs rng rng = some (s, rng', rng') ∧
      reveal id (s id) (s id.other) = { (gs .p0).concat (gs .p1) with
        isShared := false, srcBits := [], dstBits := [] } ∧
      ∀ i < nBits,
        revealVec id ((s id).srcBits.getD i []) ((s id.other).srcBits.getD i []) =
          (toBits ((gs .p0).src ++ (gs .p1).src) nBits).getD i [] ∧
        revealVec id ((s id).dstBits.getD i []) ((s id.other).dstBits.getD i []) =
          (toBits ((gs .p0).dst ++ (gs .p1).dst) nBits).getD i [] := by
  obtain ⟨s, rng', hs, hsplit⟩ := shareBoth_split h0 h1 hj nBits rng
  have hown : Split nBits (s id) (s id.other) ((gs .p0).concat (gs .p1)) := by
    cases id with
    | p0 => exact hsplit
    | p1 => exact hsplit.symm
    | d => exact absurd rfl hid
  exact ⟨s, rng', hs, hown.reveals (h0.concat h1) hid, fun i hi =>
    ⟨revealVec_eq hid (hown.srcBits i hi), revealVec_eq hid (hown.dstBits i hi)⟩⟩

theorem oneNode_filled : oneNode.Filled := ⟨rfl, rfl, rfl, rfl⟩

def countingRng : PRG := ⟨fun n => BitVec.ofNat 64 n, 0⟩

theorem share_reveals_nodes : ∃ s rng',
    shareBoth 2 (fun _ => oneNode) countingRng countingRng = some (s, rng', rng') ∧
      reveal .p1 (s .p1) (s .p0) = { oneNode.concat oneNode with
        isShared := false, srcBits := [], dstBits := [] } ∧
      ∀ i < 2,
        revealVec .p1 ((s .p1).srcBits.getD i []) ((s .p0).srcBits.getD i []) =
          (toBits (oneNode.src ++ oneNode.src) 2).getD i [] ∧
        revealVec .p1 ((s .p1).dstBits.getD i []) ((s .p0).dstBits.getD i []) =
          (toBits (oneNode.dst ++ oneNode.dst) 2).getD i [] :=
  @share_reveals .p1 (fun _ => oneNode) oneNode_filled oneNode_filled
    ⟨by decide, Or.inl (by decide)⟩ 2 countingRng (by decide)

end Graph

end GraphMpc
