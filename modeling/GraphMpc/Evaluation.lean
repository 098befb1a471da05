import GraphMpc.Openings
import GraphMpc.Programs

namespace GraphMpc

open Circuit GraphMpc.Valuation StableOrder Tabulate

structure Extends (S : List ℕ) (c c' : Circuit) (L : List Gate) : Prop where
  grows : Grows c c' L
  uses : ∀ f ∈ L, ∀ w ∈ f.counted, w = 0 ∨ w ∈ S ∨ c.nWires ≤ w

def Plain (L : List Gate) : Prop :=
  ∀ f ∈ L, f.type ≠ .output ∧ f.type ≠ .eqz ∧ f.type ≠ .columnSumsToNodes

section extension

variable {S S' : List ℕ} {c c' c'' : Circuit} {L L' : List Gate}

theorem Plain.append (h : Plain L) (h' : Plain L') : Plain (L ++ L') :=
  fun f hf => (List.mem_append.mp hf).elim (h f) (h' f)

theorem Grows.nWires_le (h : Grows c c' L) (hb : Built c) : c.nWires ≤ c'.nWires := by
  rw [hb.wires, h.built.wires, h.gates, List.length_append]
  exact Nat.le_add_right ..

namespace Extends

theorem refl (S : List ℕ) (h : Built c) : Extends S c c [] := ⟨Grows.refl h, by simp⟩

theorem trans (hb : Built c) (h : Extends S c c' L) (h' : Extends S' c' c'' L')
    (hS : ∀ w ∈ S', w ∈ S ∨ c.nWires ≤ w) : Extends S c c'' (L ++ L') where
  grows := h.grows.trans h'.grows
  uses f hf w hw := by
    rcases List.mem_append.mp hf with hf | hf
    · exact h.uses f hf w hw
    · rcases h'.uses f hf w hw with h0 | hw | hle
      · exact Or.inl h0
      · exact Or.inr (hS w hw)
      · exact Or.inr (Or.inr ((h.grows.nWires_le hb).trans hle))

theorem with_context (h : Extends S c c' L) (ctx : MPContext) (inp : Inputs) (idx : ℕ) :
    Extends S c { c' with ctx := ctx, inp := inp, shuffleIdx := idx } L :=
  ⟨h.grows.with_context ctx inp idx, h.uses⟩

theorem mono (h : Extends S c c' L) (hS : S ⊆ S') : Extends S' c c' L where
  grows := h.grows
  uses f hf w hw := (h.uses f hf w hw).imp_right (Or.imp_left (hS ·))

end Extends

theorem Block.uses {nodes m k : ℕ} {W : ℕ → Prop} {l : List Gate} (h : Block nodes m k W l) :
    ∀ f ∈ l, ∀ w ∈ f.counted, w = 0 ∨ W w ∨ k ≤ w := by
  induction l generalizing m k W with
  | nil => simp
  | cons f l ih =>
    obtain ⟨hf, hl⟩ := h
    intro g hg w hw
    rcases List.mem_cons.mp hg with rfl | hg
    · simp only [Gate.counted, List.mem_cons, List.mem_ite_nil_right, List.not_mem_nil,
        or_false] at hw
      rcases hw with rfl | ⟨-, rfl⟩
      · exact hf.in1.imp_right Or.inl
      · exact hf.in2.imp_right Or.inl
    · rcases ih hl g hg w hw with h0 | (hW | ⟨rfl, -⟩) | hle
      · exact Or.inl h0
      · exact Or.inr (Or.inl hW)
      · exact Or.inr (Or.inr le_rfl)
      · exact Or.inr (Or.inr (Nat.le_of_succ_le hle))

theorem Extends.of_block (hg : Grows c c' L) (hb : Block c.nodes c.nMults c.nWires (· ∈ S) L) :
    Extends S c c' L :=
  ⟨hg, hb.uses⟩

end extension

def uses (l : List Gate) (w : ℕ) : ℕ := (l.map fun f => f.counted.count w).sum

theorem uses_append (l l' : List Gate) (w : ℕ) : uses (l ++ l') w = uses l w + uses l' w := by
  simp [uses]

theorem uses_eq_zero {l : List Gate} {w : ℕ} (h : ∀ f ∈ l, w ∉ f.counted) : uses l w = 0 := by
  rw [uses, List.sum_eq_zero_iff_forall_eq_nat]
  intro n hn
  obtain ⟨f, hf, rfl⟩ := List.mem_map.mp hn
  exact List.count_eq_zero.mpr (h f hf)

theorem Built.counted_lt {c : Circuit} (hb : Built c) {f : Gate} (hf : f ∈ c.gates) {w : ℕ}
    (hw : w ∈ f.counted) : w < c.nWires := by
  obtain ⟨hwired, hlt⟩ := hb.laid.wellFormed.wired_of_mem hf
  have h1 := hwired.in1
  have h2 := hwired.in2
  rw [hb.wires]
  simp only [Gate.counted, List.mem_cons, List.mem_ite_nil_right, List.not_mem_nil,
    or_false] at hw
  omega

theorem Built.uses_new {c : Circuit} (hb : Built c) {w : ℕ} (hw : c.nWires ≤ w) :
    uses c.gates w = 0 :=
  uses_eq_zero fun _ hf hmem => absurd (hb.counted_lt hf hmem) hw.not_gt

-- the wires that the first layer of EQZ overwrites have no other consumer
structure Sealed (c : Circuit) (X : List ℕ) : Prop where
  below : ∀ x ∈ X, 0 < x ∧ x < c.nWires
  once : ∀ x ∈ X, uses c.gates x = 1
  first : ∀ f ∈ c.gates, f.type = .eqz → f.layer = 0 → f.in1Idx ∈ X

namespace Sealed

variable {S X : List ℕ} {c c' : Circuit} {L : List Gate}

theorem once_extend (h : Sealed c X) (hb : Built c) (hE : Extends S c c' L)
    (hS : ∀ x ∈ X, x ∉ S) {x : ℕ} (hx : x ∈ X) :
    0 < x ∧ x < c'.nWires ∧ uses c'.gates x = 1 := by
  obtain ⟨hpos, hlt⟩ := h.below x hx
  refine ⟨hpos, hlt.trans_le (hE.grows.nWires_le hb), ?_⟩
  rw [hE.grows.gates, uses_append, h.once x hx, uses_eq_zero fun f hf hmem => ?_]
  rcases hE.uses f hf x hmem with h0 | hs | hle
  · omega
  · exact hS x hx hs
  · omega

theorem extend_silent (h : Sealed c X) (hb : Built c) (hE : Extends S c c' L)
    (hS : ∀ x ∈ X, x ∉ S) (hL : ∀ f ∈ L, f.type ≠ .eqz) : Sealed c' X where
  below x hx := ⟨(h.once_extend hb hE hS hx).1, (h.once_extend hb hE hS hx).2.1⟩
  once x hx := (h.once_extend hb hE hS hx).2.2
  first f hf ht h0 := by
    rw [hE.grows.gates] at hf
    rcases List.mem_append.mp hf with hf | hf
    · exact h.first f hf ht h0
    · exact absurd ht (hL f hf)

theorem extend (h : Sealed c X) (hb : Built c) (hE : Extends S c c' L) (hS : ∀ x ∈ X, x ∉ S)
    (hL : Plain L) : Sealed c' X :=
  h.extend_silent hb hE hS fun f hf => (hL f hf).2.1

end Sealed

section sort

variable {c : Circuit} {conf : ProtocolConfig}

theorem sortIteration_extends {perm key : ℕ} (hb : Built c) (hp : Wire c.gates perm)
    (hk : Wire c.gates key) : Extends [perm, key] c (sortIteration perm key c).2
        (sortGates c.nWires c.nMults c.shuffleIdx perm key) ∧
      Plain (sortGates c.nWires c.nMults c.shuffleIdx perm key) := by
  obtain ⟨hg, -⟩ := sortIteration_grows hb hp hk
  exact ⟨.of_block hg (sortGates_block hb.pos (by simp) (by simp)), by simp [Plain, sortGates]⟩

theorem iterations_extends (conf : ProtocolConfig) (f : ℕ → ℕ) (l : List ℕ) {perm : ℕ}
    (hb : Built c) (hp : Wire c.gates perm) (hk : ∀ i ∈ l, Wire c.gates (f i)) :
    ∃ L, Extends (perm :: l.map f) c ((l.foldlM (fun p i => sortIteration p (f i)) perm) c).2 L ∧
      Plain L ∧
      (((l.foldlM (fun p i => sortIteration p (f i)) perm) c).1 = perm ∨
        c.nWires ≤ ((l.foldlM (fun p i => sortIteration p (f i)) perm) c).1) ∧
      (∀ ρ bs, bs.length = l.length → Openings (fun V : Valuation conf =>
        V.Order perm ρ ∧ List.Forall₂ V.Bits (l.map f) bs) L c.shuffleIdx
          (sortRounds conf.size ρ bs)) ∧
      ∀ V : Valuation conf, L ⊆ V.gates → ∀ ρ bs, V.Order perm ρ →
        List.Forall₂ V.Bits (l.map f) bs → (∀ g ∈ L, V.Good g) ∧
          V.Order ((l.foldlM (fun p i => sortIteration p (f i)) perm) c).1
            (sortKeys conf.size ρ bs) := by
  induction l generalizing c perm with
  | nil =>
    refine ⟨[], .refl _ hb, by simp [Plain], Or.inl rfl, fun ρ bs hlen => ?_,
      fun V _ ρ bs hρ hbs => ⟨by simp, ?_⟩⟩
    · rw [List.length_eq_zero_iff.mp hlen]
      exact .silent _ _ (by simp)
    · cases hbs
      exact hρ
  | cons i l ih =>
    have hkey := hk i (List.mem_cons_self ..)
    obtain ⟨hg, hctx, hout, hw⟩ := sortIteration_grows hb hp hkey
    obtain ⟨-, -, hidx⟩ := context_eq _ hctx
    obtain ⟨h1, p1⟩ := sortIteration_extends hb hp hkey
    have h1 : Extends (perm :: (i :: l).map f) c _ _ := h1.mono (by simp)
    rw [foldlM_cons_run]
    rw [← hout] at hw
    obtain ⟨L, hL, p2, hle, hO, hV⟩ := ih hg.built hw
      fun j hj => hg.wire (hk j (List.mem_cons_of_mem _ hj))
    refine ⟨_, h1.trans hb hL fun w hw => ?_, p1.append p2, Or.inr ?_, fun ρ bs hlen => ?_,
      fun V hsub ρ bs hρ hbs => ?_⟩
    · rcases List.mem_cons.mp hw with rfl | hw
      · exact Or.inr (by rw [hout]; omega)
      · exact Or.inl (by simp_all)
    · rcases hle with heq | hle
      · rw [heq, hout]
        omega
      · exact (hg.nWires_le hb).trans hle
    · obtain ⟨b, bs, rfl⟩ := List.exists_cons_of_length_eq_add_one hlen
      refine (sortGates_openings _ _ _ _ _ conf ρ b).append
        (hO (sortStep conf.size ρ b) bs (Nat.succ.inj hlen)) hidx ?_ ?_
      · rintro V - ⟨hρ, hbs⟩
        cases hbs with
        | cons hb1 _ => exact ⟨hρ, hb1⟩
      · rintro V hs - ⟨hρ, hbs⟩
        cases hbs with
        | cons hb1 hbs => exact ⟨hout ▸ (sortGates_order hs hρ hb1).2.2, hbs⟩
    · obtain ⟨hs, hs'⟩ := List.append_subset.mp hsub
      cases hbs with
      | cons hb1 hbs =>
        obtain ⟨good, -, hord⟩ := sortGates_order hs hρ hb1
        rw [← hout] at hord
        obtain ⟨good', hord'⟩ := hV V hs' _ _ hord hbs
        refine ⟨fun g hg => (List.mem_append.mp hg).elim (good g) (good' g), ?_⟩
        rw [sortKeys, List.foldl_cons]
        exact hord'

theorem compaction_extends {key : ℕ} (hb : Built c) (hk : Wire c.gates key) :
    Extends [key] c (compaction key c).2 [compactionGate c.nWires c.nMults key] ∧
      (compaction key c).1 = c.nWires ∧ Wire (compaction key c).2.gates c.nWires := by
  have hrun : (compaction key c).2 = { c with
      nWires := c.nWires + 1
      nMults := c.nMults + 1
      gates := c.gates ++ [compactionGate c.nWires c.nMults key] } := by
    simp [compaction, bind_run, map_run, get_run, addGate_run, countMult_run, compactionGate,
      hb.wires]
  have hblock : ∀ W : ℕ → Prop, W key →
      Block c.nodes c.nMults c.nWires W [compactionGate c.nWires c.nMults key] := by
    intro W hW
    simp [Block, compactionGate, admissible_iff, Gate.reads, Gate.Handled, Gate.binaryOperator,
      Gate.takesTriple, hW, hb.pos.ne']
  have hg : Grows c (compaction key c).2 [compactionGate c.nWires c.nMults key] := by
    rw [hrun]
    exact Grows.of_block hb (hblock _ hk) rfl rfl rfl rfl
  exact ⟨.of_block hg (hblock _ (by simp)), rfl,
    hg.wire_new ⟨_, List.mem_singleton_self _, rfl, by simp [compactionGate]⟩⟩

theorem sort_extends (conf : ProtocolConfig) {key : ℕ} {keys : List ℕ} (hb : Built c)
    (hk : ∀ x ∈ key :: keys, Wire c.gates x) :
    ∃ L, Extends (key :: keys) c (sort (key :: keys) (keys.length + 1) c).2 L ∧ Plain L ∧
      c.nWires ≤ (sort (key :: keys) (keys.length + 1) c).1 ∧
      (∀ b bs, bs.length = keys.length → Openings (fun V : Valuation conf =>
        List.Forall₂ V.Bits (key :: keys) (b :: bs)) L c.shuffleIdx
          (sortRounds conf.size (sortStep conf.size 1 b) bs)) ∧
      ∀ V : Valuation conf, L ⊆ V.gates → ∀ bs, List.Forall₂ V.Bits (key :: keys) bs →
        (∀ g ∈ L, V.Good g) ∧ V.Order (sort (key :: keys) (keys.length + 1) c).1
          (sortKeys conf.size 1 bs) := by
  have hrun : sort (key :: keys) (keys.length + 1) c =
      (List.range' 1 keys.length).foldlM (fun p i => sortIteration p ((key :: keys).getD i 0))
        (compaction key c).1 (compaction key c).2 := rfl
  obtain ⟨h1, hout, hw⟩ := compaction_extends hb (hk key (List.mem_cons_self ..))
  have h1 : Extends (key :: keys) c _ _ := h1.mono (by simp)
  rw [hrun, hout]
  obtain ⟨L, h2, p2, hle, hO, hV⟩ := iterations_extends conf (fun i => (key :: keys).getD i 0)
    (List.range' 1 keys.length) h1.grows.built hw fun i hi => by
      rw [List.mem_range'_1] at hi
      rw [List.getD_eq_getElem _ _ (by simp; omega)]
      exact h1.grows.wire (hk _ (List.getElem_mem _))
  rw [keys_map] at h2 hV hO
  refine ⟨_, h1.trans hb h2 fun w hw => ?_, .append ?_ p2, ?_, fun b bs hlen => ?_,
    fun V hsub bs hbs => ?_⟩
  · rcases List.mem_cons.mp hw with rfl | hw
    · exact Or.inr le_rfl
    · exact Or.inl (List.mem_cons_of_mem _ hw)
  · simp [Plain, compactionGate]
  · rcases hle with heq | hle
    · exact heq.ge
    · exact (h1.grows.nWires_le hb).trans hle
  · have hfirst : Openings (fun _ : Valuation conf => True)
        [compactionGate c.nWires c.nMults key] c.shuffleIdx [] :=
      .silent _ _ (by simp [compactionGate])
    refine hfirst.append (hO (sortStep conf.size 1 b) bs (by rw [hlen, List.length_range'])) rfl
      ?_ ?_
    · exact fun _ _ _ => trivial
    · rintro V hs - hbs
      cases hbs with
      | cons hb1 hbs => exact ⟨(compaction_order (hs (List.mem_singleton_self _)) hb1).2, hbs⟩
  · obtain ⟨hs, hs'⟩ := List.append_subset.mp hsub
    cases hbs with
    | cons hb1 hbs =>
      obtain ⟨good, hord⟩ := compaction_order (hs (List.mem_singleton_self _)) hb1
      obtain ⟨good', hord'⟩ := hV V hs' _ _ hord hbs
      refine ⟨fun g hg => (List.mem_append.mp hg).elim (fun hg => ?_) (good' g), ?_⟩
      · exact List.mem_singleton.mp hg ▸ good
      · rw [sortKeys, List.foldl_cons]
        exact hord'

end sort

section listing

structure Listing where
  isV : ℕ → Bool
  src : ℕ → Ring
  dst : ℕ → Ring
  srcBits : List (ℕ → Bool)
  dstBits : List (ℕ → Bool)

namespace Listing

variable (E : Listing) (n : ℕ)

def srcKeys : List (ℕ → Bool) := (fun i => !E.isV i) :: E.srcBits

def dstKeys : List (ℕ → Bool) := E.isV :: E.dstBits

noncomputable def pairOrder : Equiv.Perm ℕ := sortKeys n (sortKeys n 1 E.dstKeys) E.srcBits

noncomputable def duplicates : ℕ → Bool := duplicate (E.pairOrder n) E.src E.dst

noncomputable def srcOrder (dedup : Bool) : Equiv.Perm ℕ :=
  sortKeys n 1 (E.srcKeys ++ if dedup then [E.duplicates n] else [])

noncomputable def dstOrder (dedup : Bool) : Equiv.Perm ℕ :=
  sortKeys n 1 (E.dstKeys ++ if dedup then [E.duplicates n] else [])

theorem sortKeys_keeps {n : ℕ} {ρ : Equiv.Perm ℕ} (hρ : Keeps n ρ) (keys : List (ℕ → Bool)) :
    Keeps n (sortKeys n ρ keys) := by
  induction keys generalizing ρ with
  | nil => exact hρ
  | cons b keys ih => exact ih (sortStep_keeps hρ b)

theorem sortKeys_append (n : ℕ) (ρ : Equiv.Perm ℕ) (keys keys' : List (ℕ → Bool)) :
    sortKeys n ρ (keys ++ keys') = sortKeys n (sortKeys n ρ keys) keys' :=
  List.foldl_append

noncomputable def arrangement (conf : ProtocolConfig) (dedup : Bool) : Arrangement conf where
  vtx := sortStep conf.size (E.srcOrder conf.size dedup) fun i => !E.isV i
  src := E.srcOrder conf.size dedup
  dst := E.dstOrder conf.size dedup
  vtx_keeps := sortStep_keeps (sortKeys_keeps (.one _) _) _
  src_keeps := sortKeys_keeps (.one _) _
  dst_keeps := sortKeys_keeps (.one _) _

end Listing

structure Lists {conf : ProtocolConfig} (V : Valuation conf) (inp : Inputs) (E : Listing) :
    Prop where
  isV : V.Bits inp.isV E.isV
  src : V.Holds inp.src E.src
  dst : V.Holds inp.dst E.dst
  srcKeys : List.Forall₂ V.Bits inp.srcOrderBits E.srcKeys
  dstKeys : List.Forall₂ V.Bits inp.dstOrderBits E.dstKeys

structure Sorted {conf : ProtocolConfig} (V : Valuation conf) (ctx : MPContext)
    (A : Arrangement conf) : Prop where
  vtx : V.Order ctx.vtxOrder A.vtx
  src : V.Order ctx.srcOrder A.src
  dst : V.Order ctx.dstOrder A.dst

end listing

section orders

variable {c : Circuit} {X : List ℕ}

theorem yields_flip_bits {conf : ProtocolConfig} {V : Valuation conf} {k x : ℕ} {b : ℕ → Bool}
    (hf : flipGate k x ∈ V.gates) (hb : V.Bits x b) :
    V.Good (flipGate k x) ∧ V.Bits k fun i => !b i := by
  obtain ⟨hg, hx⟩ := yields_flip hf rfl hb
  refine ⟨hg, hx.congr fun i _ => ?_⟩
  show (1 - if b i then 1 else 0 : Ring) = if !b i then 1 else 0
  cases b i <;> rfl

theorem vtx_extends (conf : ProtocolConfig) {isV src : ℕ} (hb : Built c) (hv : Wire c.gates isV)
    (hs : Wire c.gates src) :
    ∃ L, Extends [isV, src] c
        (sortIteration src (flipSIMD isV c).1 (flipSIMD isV c).2).2 L ∧ Plain L ∧
      c.nWires ≤ (sortIteration src (flipSIMD isV c).1 (flipSIMD isV c).2).1 ∧
      (sortIteration src (flipSIMD isV c).1 (flipSIMD isV c).2).2.shuffleIdx = c.shuffleIdx + 1 ∧
      (∀ b ρ, Openings (fun V : Valuation conf => V.Bits isV b ∧ V.Order src ρ) L c.shuffleIdx
        [ρ]) ∧
      ∀ V : Valuation conf, L ⊆ V.gates → ∀ b ρ, V.Bits isV b → V.Order src ρ →
        (∀ g ∈ L, V.Good g) ∧
          V.Order (sortIteration src (flipSIMD isV c).1 (flipSIMD isV c).2).1
            (sortStep conf.size ρ fun i => !b i) := by
  obtain ⟨g1, hctx, hz, w1⟩ := flip_grows hb hv
  obtain ⟨-, -, hidx⟩ := context_eq _ hctx
  have h1 : Extends [isV, src] c (flipSIMD isV c).2 [flipGate c.nWires isV] := by
    refine .of_block g1 ?_
    simp [Block, flipGate, admissible_iff, Gate.reads, Gate.Handled, Gate.binaryOperator,
      Gate.takesTriple, hb.pos.ne']
  have hle := g1.nWires_le hb
  obtain ⟨-, hctx', hout, -⟩ := sortIteration_grows g1.built (g1.wire hs) (hz ▸ w1)
  obtain ⟨-, -, hidx'⟩ := context_eq _ hctx'
  obtain ⟨h2, p2⟩ := sortIteration_extends g1.built (g1.wire hs) (hz ▸ w1)
  refine ⟨_, h1.trans hb h2 ?_, .append (by simp [Plain, flipGate]) p2, by omega,
    by rw [hidx', hidx], fun b ρ => ?_,
    fun V hsub b ρ hbits hρ => ?_⟩
  · simp only [List.forall_mem_cons, hz]
    exact ⟨Or.inl (by simp), Or.inr le_rfl, by simp⟩
  · have hflip : Openings (fun _ : Valuation conf => True) [flipGate c.nWires isV] c.shuffleIdx [] :=
      .silent _ _ (by simp [flipGate])
    have hsort := sortGates_openings (flipSIMD isV c).2.nWires (flipSIMD isV c).2.nMults
      (flipSIMD isV c).2.shuffleIdx src (flipSIMD isV c).1 conf ρ fun i => !b i
    refine hflip.append hsort hidx (fun _ _ _ => trivial) ?_
    rintro V hs - ⟨hbits, hρ⟩
    exact ⟨hρ, hz ▸ (yields_flip_bits (hs (List.mem_singleton_self _)) hbits).2⟩
  · obtain ⟨hs1, hs2⟩ := List.append_subset.mp hsub
    obtain ⟨good, hnot⟩ := yields_flip_bits (hs1 (List.mem_singleton_self _)) hbits
    rw [hz] at hs2
    obtain ⟨good', -, hord⟩ := sortGates_order hs2 hρ hnot
    rw [hout, hz]
    refine ⟨fun g hg => (List.mem_append.mp hg).elim (fun hg => ?_) (good' g), hord⟩
    exact List.mem_singleton.mp hg ▸ good

structure OrdersExtend (conf : ProtocolConfig) (c c' : Circuit) (L : List Gate) : Prop where
  adds : Extends (c.inp.isV :: c.inp.src :: c.inp.dst :: (c.inp.srcOrderBits ++ c.inp.dstOrderBits))
    c c' L
  quiet : ∀ f ∈ L, f.type ≠ .output ∧ f.type ≠ .columnSumsToNodes
  sealed : Sealed c [] → ∃ X, Sealed c' X ∧ ∀ x ∈ X, c.nWires ≤ x ∧
    x ∉ [c'.ctx.vtxOrder, c'.ctx.srcOrder, c'.ctx.dstOrder]
  opens : ∀ E : Listing, E.srcBits.length = c.bits → E.dstBits.length = c.bits →
    ∃ ρs, c'.shuffleIdx = c.shuffleIdx + ρs.length ∧
      Openings (fun V : Valuation conf => Lists V c.inp E) L c.shuffleIdx ρs
  values : ∀ V : Valuation conf, L ⊆ V.gates → ∀ E : Listing, Lists V c.inp E →
    (∀ f ∈ L, V.Good f) ∧ Sorted V c'.ctx (E.arrangement conf c.deduplication)

theorem orders_plain_extends (conf : ProtocolConfig) (hk : Keyed c)
    (hd : c.deduplication = false) : ∃ L, OrdersExtend conf c (computeSorts (preMp c).2).2 L := by
  obtain ⟨srcKey, srcKeys, hsrc, hsl⟩ := hk.src
  obtain ⟨dstKey, dstKeys, hdst, hdl⟩ := hk.dst
  have hrun : (computeSorts (preMp c).2).2 = ((do
      let src ← sort (srcKey :: srcKeys) (srcKeys.length + 1)
      let dst ← sort (dstKey :: dstKeys) (dstKeys.length + 1)
      let z ← flipSIMD c.inp.isV
      let vtx ← sortIteration src z
      modify fun c => { c with ctx := { c.ctx with
        srcOrder := src, dstOrder := dst, vtxOrder := vtx } } : Build Unit) c).2 := by
    rw [preMp_false hd, hsl, hdl, ← hsrc, ← hdst]
    simp only [computeSorts, bind_run, get_run, hd]
    rfl
  rw [hrun]
  simp only [bind_run, modify_run]
  have hks : ∀ x ∈ srcKey :: srcKeys, Wire c.gates x := hsrc ▸ hk.srcBits
  have hkd : ∀ x ∈ dstKey :: dstKeys, Wire c.gates x := hdst ▸ hk.dstBits
  obtain ⟨-, -, x1, w1, -⟩ := sort_spec hk.built hks
  obtain ⟨L1, e1, p1, hle1, O1, V1⟩ := sort_extends conf hk.built hks
  generalize sort (srcKey :: srcKeys) (srcKeys.length + 1) c = r1 at *
  have hkd1 : ∀ x ∈ dstKey :: dstKeys, Wire r1.2.gates x := fun x hx => e1.grows.wire (hkd x hx)
  obtain ⟨-, -, x2, w2, -⟩ := sort_spec e1.grows.built hkd1
  obtain ⟨L2, e2, p2, -, O2, V2⟩ := sort_extends conf e1.grows.built hkd1
  generalize sort (dstKey :: dstKeys) (dstKeys.length + 1) r1.2 = r2 at *
  obtain ⟨-, -, s1⟩ := context_eq _ x1
  obtain ⟨-, -, s2⟩ := context_eq _ x2
  obtain ⟨L3, e3, p3, -, s3, O3, V3⟩ := vtx_extends conf e2.grows.built
    (e2.grows.wire (e1.grows.wire hk.isV)) (e2.grows.wire w1)
  generalize sortIteration r1.1 (flipSIMD c.inp.isV r2.2).1 (flipSIMD c.inp.isV r2.2).2 = r4 at *
  have hS : ∀ w ∈ srcKey :: srcKeys, w ∈ c.inp.srcOrderBits ++ c.inp.dstOrderBits :=
    fun w hw => List.mem_append_left _ (hsrc ▸ hw)
  have hS' : ∀ w ∈ dstKey :: dstKeys, w ∈ c.inp.srcOrderBits ++ c.inp.dstOrderBits :=
    fun w hw => List.mem_append_right _ (hdst ▸ hw)
  have e12 : Extends (c.inp.isV :: c.inp.src :: c.inp.dst ::
      (c.inp.srcOrderBits ++ c.inp.dstOrderBits)) c r2.2 (L1 ++ L2) :=
    (e1.mono fun w hw => by simp [hS w hw]).trans hk.built e2 fun w hw => by simp [hS' w hw]
  have e123 := e12.trans hk.built e3 (by simp [hle1])
  have plain := (p1.append p2).append p3
  refine ⟨_, e123.with_context { r4.2.ctx with srcOrder := r1.1, dstOrder := r2.1, vtxOrder := r4.1 }
    r4.2.inp r4.2.shuffleIdx, fun f hf => ⟨(plain f hf).1, (plain f hf).2.2⟩,
    fun h => ⟨[], h.extend hk.built (e123.with_context _ _ _) (by simp) plain, by simp⟩,
    fun E hEs hEd => ?_, fun V hsub E hE => ?_⟩
  · have o1 := O1 (fun i => !E.isV i) E.srcBits (hEs.trans hsl.symm)
    have o2 := O2 E.isV E.dstBits (hEd.trans hdl.symm)
    have o3 := O3 E.isV (sortKeys conf.size 1 E.srcKeys)
    have hlen1 := sortRounds_length conf.size (sortStep conf.size 1 fun i => !E.isV i) E.srcBits
    have hlen2 := sortRounds_length conf.size (sortStep conf.size 1 E.isV) E.dstBits
    have o12 : Openings (fun V : Valuation conf => Lists V c.inp E) _ _ _ :=
      o1.append o2 (by omega) (fun V _ hE => hsrc ▸ hE.srcKeys) fun V _ _ hE => hdst ▸ hE.dstKeys
    have o123 := o12.append o3 (by rw [List.length_append]; omega) (fun V _ hE => hE)
      fun V hs _ hE => ⟨hE.isV,
        (V1 V (List.append_subset.mp hs).1 E.srcKeys (hsrc ▸ hE.srcKeys)).2⟩
    refine ⟨_, ?_, o123⟩
    show r4.2.shuffleIdx = _
    simp only [List.length_append, List.length_singleton]
    omega
  simp only [List.append_subset] at hsub
  obtain ⟨⟨hs1, hs2⟩, hs3⟩ := hsub
  obtain ⟨good1, hord1⟩ := V1 V hs1 E.srcKeys (hsrc ▸ hE.srcKeys)
  obtain ⟨good2, hord2⟩ := V2 V hs2 E.dstKeys (hdst ▸ hE.dstKeys)
  obtain ⟨good3, hord3⟩ := V3 V hs3 E.isV _ hE.isV hord1
  constructor
  · simp only [List.forall_mem_append]
    exact ⟨⟨good1, good2⟩, good3⟩
  · have harr : ∀ keys, keys ++ (if c.deduplication then [E.duplicates conf.size] else []) =
        keys := fun keys => by rw [hd, if_neg Bool.false_ne_true, List.append_nil]
    refine ⟨?_, ?_, ?_⟩ <;> simp only [Listing.arrangement, Listing.srcOrder, Listing.dstOrder, harr]
    · exact hord3
    · exact hord1
    · exact hord2

theorem equalsZeroGates_uses (k m w size : ℕ) {x : ℕ} (hx : x < k) :
    uses (equalsZeroGates k m w size) x = if w = x then 1 else 0 := by
  have hne : ∀ i, k + i ≠ x := fun i => by omega
  simp [uses, equalsZeroGates, Gate.counted, List.count_cons, hne, hx.ne']

theorem duplicateGates_uses {k m idx size perm src dst : ℕ} (hp : perm < k) (hs : src < k)
    (hd : dst < k) : ∀ x ∈ [k + 6, k + 7],
      uses (duplicateGates k m idx size perm src dst) x = 1 := by
  have hcount : ∀ x, k + 6 ≤ x → x < k + 8 →
      uses (duplicateGates k m idx size perm src dst) x =
        (if k + 6 = x then 1 else 0) + if k + 7 = x then 1 else 0 := by
    intro x hle hlt
    simp only [duplicateGates, uses_append]
    rw [equalsZeroGates_uses _ _ _ _ hlt, equalsZeroGates_uses _ _ _ _ (by omega)]
    rw [uses_eq_zero (w := x), uses_eq_zero (w := x), Nat.zero_add, Nat.add_zero]
    all_goals
      simp only [List.forall_mem_cons, Gate.counted]
      simp
      omega
  intro x hx
  rcases List.mem_pair.mp hx with rfl | rfl
  · rw [hcount _ le_rfl (by omega), if_pos rfl, if_neg (by omega)]
  · rw [hcount _ (by omega) (by omega), if_neg (by omega), if_pos rfl]

theorem duplicateGates_quiet (k m idx size perm src dst : ℕ) :
    ∀ f ∈ duplicateGates k m idx size perm src dst,
      f.type ≠ .output ∧ f.type ≠ .columnSumsToNodes := by
  simp [duplicateGates, equalsZeroGates]

theorem duplicateGates_first (k m idx size perm src dst : ℕ) :
    ∀ f ∈ duplicateGates k m idx size perm src dst, f.type = .eqz → f.layer = 0 →
      f.in1Idx ∈ [k + 6, k + 7] := by
  simp [duplicateGates, equalsZeroGates]

theorem duplicateGates_sealed {c' : Circuit} {idx size perm src dst m : ℕ} (hb : Built c)
    (h : Sealed c [])
    (hg : Grows c c' (duplicateGates c.nWires m idx size perm src dst)) (hp : Wire c.gates perm)
    (hs : Wire c.gates src) (hd : Wire c.gates dst) :
    Sealed c' [c.nWires + 6, c.nWires + 7] := by
  have hlt : ∀ {w}, Wire c.gates w → w < c.nWires := fun hw => hb.wires ▸ hb.laid.wire_lt hw
  have hlen : c'.nWires = c.nWires + 23 := by
    rw [hg.built.wires, hg.gates, List.length_append, ← hb.wires]
    rfl
  refine ⟨fun x hx => ?_, fun x hx => ?_, fun f hf ht h0 => ?_⟩
  · rcases List.mem_pair.mp hx with rfl | rfl <;> omega
  · rw [hg.gates, uses_append, duplicateGates_uses (hlt hp) (hlt hs) (hlt hd) x hx, hb.uses_new]
    rcases List.mem_pair.mp hx with rfl | rfl <;> omega
  · rw [hg.gates] at hf
    rcases List.mem_append.mp hf with hf | hf
    · exact absurd (h.first f hf ht h0) List.not_mem_nil
    · exact duplicateGates_first _ _ _ _ _ _ _ f hf ht h0

structure FlagsExtend (conf : ProtocolConfig) (c c' : Circuit) (L : List Gate) (msbs : ℕ) :
    Prop where
  adds : Extends (c.inp.src :: c.inp.dst :: (c.inp.srcOrderBits ++ c.inp.dstOrderBits)) c c' L
  quiet : ∀ f ∈ L, f.type ≠ .output ∧ f.type ≠ .columnSumsToNodes
  inp : c'.inp = { c.inp with
    srcOrderBits := c.inp.srcOrderBits ++ [msbs]
    dstOrderBits := c.inp.dstOrderBits ++ [msbs] }
  wire : Wire c'.gates c'.ctx.dstOrder ∧ Wire c'.gates msbs
  new : c.nWires ≤ c'.ctx.dstOrder ∧ c.nWires ≤ msbs
  sealed : Sealed c [] → ∃ X, Sealed c' X ∧ ∀ x ∈ X, c.nWires ≤ x ∧ x ≠ msbs ∧ x ≠ c'.ctx.dstOrder
  opens : ∀ E : Listing, E.srcBits.length = c.bits → E.dstBits.length = c.bits →
    ∃ ρs, c'.shuffleIdx = c.shuffleIdx + ρs.length ∧
      Openings (fun V : Valuation conf => Lists V c.inp E) L c.shuffleIdx ρs
  values : ∀ V : Valuation conf, L ⊆ V.gates → ∀ E : Listing, Lists V c.inp E →
    (∀ f ∈ L, V.Good f) ∧ V.Order c'.ctx.dstOrder (sortKeys conf.size 1 E.dstKeys) ∧
      V.Bits msbs (E.duplicates conf.size)

theorem preMp_extends (conf : ProtocolConfig) (hk : Keyed c) (hd : c.deduplication = true)
    (hsize : c.size = conf.size) (hn : 0 < conf.size) :
    ∃ L msbs, FlagsExtend conf c (preMp c).2 L msbs := by
  obtain ⟨srcKey, srcKeys, hsrc, hsl⟩ := hk.src
  obtain ⟨dstKey, dstKeys, hdst, hdl⟩ := hk.dst
  have hrun : (preMp c).2 = ((do
      let first ← sort (dstKey :: dstKeys) (dstKeys.length + 1)
      modify fun c => { c with ctx := { c.ctx with dstOrder := first } }
      let perm ← (List.range' 1 srcKeys.length).foldlM
        (fun perm i => sortIteration perm ((srcKey :: srcKeys).getD i 0)) first
      let msbs ← flagDuplicates c.size c.inp perm
      modify fun c => { c with inp := { c.inp with
        srcOrderBits := c.inp.srcOrderBits ++ [msbs],
        dstOrderBits := c.inp.dstOrderBits ++ [msbs] } }
      bumpShuffleIdx 1 : Build Unit) c).2 := by
    rw [preMp_true hd, hsl, hdl, ← hdst, ← hsrc]
  rw [hrun, hsize]
  simp only [bind_run, modify_run, bumpShuffleIdx_run]
  have hkd : ∀ x ∈ dstKey :: dstKeys, Wire c.gates x := hdst ▸ hk.dstBits
  obtain ⟨-, -, x1, w1, -⟩ := sort_spec hk.built hkd
  obtain ⟨L1, e1, p1, hle1, O1, V1⟩ := sort_extends conf hk.built hkd
  generalize sort (dstKey :: dstKeys) (dstKeys.length + 1) c = r1 at *
  have e1' := e1.with_context { r1.2.ctx with dstOrder := r1.1 } r1.2.inp r1.2.shuffleIdx
  have hkeys : ∀ i ∈ List.range' 1 srcKeys.length,
      Wire r1.2.gates ((srcKey :: srcKeys).getD i 0) := fun i hi => by
    rw [List.mem_range'_1] at hi
    rw [List.getD_eq_getElem _ _ (by simp; omega)]
    exact e1'.grows.wire (hk.srcBits _ (by rw [hsrc]; exact List.getElem_mem _))
  obtain ⟨-, -, x2, w2, -⟩ := iterations_spec (fun i => (srcKey :: srcKeys).getD i 0)
    (List.range' 1 srcKeys.length) e1'.grows.built w1 hkeys
  obtain ⟨L2, e2, p2, hperm, O2, V2⟩ := iterations_extends conf (fun i => (srcKey :: srcKeys).getD i 0)
    (List.range' 1 srcKeys.length) e1'.grows.built w1 hkeys
  generalize (List.range' 1 srcKeys.length).foldlM
    (fun perm i => sortIteration perm ((srcKey :: srcKeys).getD i 0)) r1.1 _ = r2 at *
  rw [keys_map] at e2 V2 O2
  have hw3 := w2
  have hs3 := e2.grows.wire (e1'.grows.wire hk.srcId)
  have hd3 := e2.grows.wire (e1'.grows.wire hk.dstId)
  obtain ⟨g3, x3, hm, w3⟩ := @flagDuplicates_grows _ c.inp conf.size _ e2.grows.built w2 hs3 hd3
  have e3 : Extends [r2.1, c.inp.src, c.inp.dst] r2.2 (flagDuplicates conf.size c.inp r2.1 r2.2).2 _ :=
    .of_block g3 (duplicateGates_block e2.grows.built.pos (by simp) (by simp) (by simp))
  generalize flagDuplicates conf.size c.inp r2.1 r2.2 = r3 at *
  obtain ⟨-, i1, s1⟩ := context_eq _ x1
  obtain ⟨c2, i2, s2⟩ := context_eq _ x2
  obtain ⟨c3, i3, s3⟩ := context_eq _ x3
  have hinp : r3.2.inp = c.inp := i3.trans (i2.trans i1)
  have hctx : r3.2.ctx.dstOrder = r1.1 := by rw [c3, c2]
  have hS : ∀ w ∈ srcKeys, w ∈ c.inp.srcOrderBits ++ c.inp.dstOrderBits :=
    fun w hw => List.mem_append_left _ (by rw [hsrc]; exact List.mem_cons_of_mem _ hw)
  have hS' : ∀ w ∈ dstKey :: dstKeys, w ∈ c.inp.srcOrderBits ++ c.inp.dstOrderBits :=
    fun w hw => List.mem_append_right _ (hdst ▸ hw)
  have hle2 : c.nWires ≤ r2.1 := by
    rcases hperm with heq | hle
    · exact heq ▸ hle1
    · exact (e1'.grows.nWires_le hk.built).trans hle
  have e1S : Extends (c.inp.src :: c.inp.dst :: (c.inp.srcOrderBits ++ c.inp.dstOrderBits)) c _
      L1 := e1'.mono fun w hw => by simp [hS' w hw]
  have e12 := e1S.trans hk.built e2 fun w hw => by
    rcases List.mem_cons.mp hw with rfl | hw
    · exact Or.inr hle1
    · exact Or.inl (by simp [hS w hw])
  have e123 := e12.trans hk.built e3 (by simp [hle2])
  have hnew : c.nWires ≤ r2.2.nWires := e12.grows.nWires_le hk.built
  have hfirst : r1.1 < r2.2.nWires := by
    rw [e2.grows.built.wires]
    exact e2.grows.built.laid.wire_lt (e2.grows.wire w1)
  refine ⟨_, r3.1, e123.with_context r3.2.ctx { r3.2.inp with
    srcOrderBits := r3.2.inp.srcOrderBits ++ [r3.1]
    dstOrderBits := r3.2.inp.dstOrderBits ++ [r3.1] } (r3.2.shuffleIdx + 1),
    fun f hf => ?_, ?_, ⟨?_, ?_⟩, ⟨?_, ?_⟩, fun h => ⟨[r2.2.nWires + 6, r2.2.nWires + 7], ?_, ?_⟩,
    fun E hEs hEd => ?_, fun V hsub E hE => ?_⟩
  · rw [List.mem_append] at hf
    rcases hf with hf | hf
    · exact ⟨(p1.append p2 f hf).1, (p1.append p2 f hf).2.2⟩
    · exact duplicateGates_quiet _ _ _ _ _ _ _ f hf
  · show ({ r3.2.inp with
      srcOrderBits := r3.2.inp.srcOrderBits ++ [r3.1]
      dstOrderBits := r3.2.inp.dstOrderBits ++ [r3.1] } : Inputs) = _
    rw [hinp]
  · show Wire r3.2.gates r3.2.ctx.dstOrder
    rw [hctx]
    exact e3.grows.wire (e2.grows.wire w1)
  · exact hm ▸ w3
  · show c.nWires ≤ r3.2.ctx.dstOrder
    rw [hctx]
    exact hle1
  · rw [hm]
    omega
  · have hs0 := h.extend hk.built e12 (by simp) (p1.append p2)
    obtain ⟨h1, h2, h3⟩ := duplicateGates_sealed e2.grows.built hs0 g3 hw3 hs3 hd3
    exact ⟨h1, h2, h3⟩
  · show ∀ x ∈ [r2.2.nWires + 6, r2.2.nWires + 7], c.nWires ≤ x ∧ x ≠ r3.1 ∧ x ≠ r3.2.ctx.dstOrder
    rw [hctx, hm]
    intro x hx
    rcases List.mem_pair.mp hx with rfl | rfl <;> omega
  · have o1 := O1 E.isV E.dstBits (hEd.trans hdl.symm)
    have o2 := O2 (sortKeys conf.size 1 E.dstKeys) E.srcBits
      (hEs.trans (hsl.symm.trans List.length_range'.symm))
    have o3 := duplicateGates_openings r2.2.nWires r2.2.nMults r2.2.shuffleIdx r2.1 c.inp.src
      c.inp.dst hn (E.pairOrder conf.size) E.src E.dst
    have hlen1 := sortRounds_length conf.size (sortStep conf.size 1 E.isV) E.dstBits
    have hlen2 := sortRounds_length conf.size (sortKeys conf.size 1 E.dstKeys) E.srcBits
    simp only [List.length_range'] at s2
    have hbits : ∀ {V : Valuation conf}, Lists V c.inp E → List.Forall₂ V.Bits srcKeys E.srcBits := by
      intro V hE
      have hkeys := hE.srcKeys
      rw [hsrc] at hkeys
      cases hkeys with
      | cons _ hkeys => exact hkeys
    have o12 : Openings (fun V : Valuation conf => Lists V c.inp E) _ _ _ :=
      o1.append o2 (s1.trans (by omega)) (fun V _ hE => hdst ▸ hE.dstKeys)
        fun V hs _ hE => ⟨(V1 V hs E.dstKeys (hdst ▸ hE.dstKeys)).2, hbits hE⟩
    have o123 := o12.append o3 (by rw [List.length_append]; omega) (fun V _ hE => hE) ?_
    · refine ⟨_, ?_, o123⟩
      show r3.2.shuffleIdx + 1 = _
      simp only [List.length_append, List.length_singleton]
      omega
    · intro V hs _ hE
      obtain ⟨hs1, hs2⟩ := List.append_subset.mp hs
      have hord := (V1 V hs1 E.dstKeys (hdst ▸ hE.dstKeys)).2
      exact ⟨(V2 V hs2 _ _ hord (hbits hE)).2, hE.src, hE.dst⟩
  · simp only [List.append_subset] at hsub
    obtain ⟨⟨hs1, hs2⟩, hs3⟩ := hsub
    obtain ⟨good1, hord1⟩ := V1 V hs1 E.dstKeys (hdst ▸ hE.dstKeys)
    have hbits := hE.srcKeys
    rw [hsrc] at hbits
    cases hbits with
    | cons _ hbits =>
      obtain ⟨good2, hord2⟩ := V2 V hs2 _ _ hord1 hbits
      obtain ⟨good3, -, hdup⟩ := duplicateGates_flags hs3 hn hord2 hE.src hE.dst
      refine ⟨?_, ?_, ?_⟩
      · simp only [List.forall_mem_append]
        exact ⟨⟨good1, good2⟩, good3⟩
      · show V.Order r3.2.ctx.dstOrder _
        rw [hctx]
        exact hord1
      · rw [hm]
        exact hdup

theorem sorts_deduplicated_extends (conf : ProtocolConfig) (hk : Keyed c)
    (hd : c.deduplication = true) {c0 : Circuit} {L0 : List Gate} {msbs : ℕ}
    (F : FlagsExtend conf c c0 L0 msbs) :
    ∃ L, OrdersExtend conf c (computeSorts c0).2 (L0 ++ L) := by
  obtain ⟨srcKey, srcKeys, hsrc, hsl⟩ := hk.src
  have hp := F.adds.grows.params
  simp only [params, Prod.mk.injEq] at hp
  obtain ⟨-, -, hbits, -, -, -, -, hdedup⟩ := hp
  have hsrc0 : c0.inp.srcOrderBits = srcKey :: (srcKeys ++ [msbs]) := by
    rw [F.inp, hsrc, List.cons_append]
  have hlast : c0.inp.dstOrderBits.getD (c0.inp.dstOrderBits.length - 1) 0 = msbs := by
    rw [F.inp]
    simp [List.getD_eq_getElem?_getD]
  have hrun : (computeSorts c0).2 = ((do
      let src ← sort (srcKey :: (srcKeys ++ [msbs])) ((srcKeys ++ [msbs]).length + 1)
      let dst ← sortIteration (← get).ctx.dstOrder msbs
      let z ← flipSIMD c.inp.isV
      let vtx ← sortIteration src z
      modify fun c => { c with ctx := { c.ctx with
        srcOrder := src, dstOrder := dst, vtxOrder := vtx } } : Build Unit) c0).2 := by
    have hlen : (srcKeys ++ [msbs]).length + 1 = c0.bits + 2 := by
      rw [List.length_append, hsl, hbits]
      rfl
    have hisV : c.inp.isV = c0.inp.isV := by rw [F.inp]
    rw [hlen, ← hsrc0, hisV]
    simp only [computeSorts, bind_run, get_run, hdedup, hd, if_true, hlast]
  rw [hrun]
  simp only [bind_run, get_run, modify_run]
  have hb0 := F.adds.grows.built
  have hw0 : ∀ x ∈ srcKey :: (srcKeys ++ [msbs]), Wire c0.gates x := by
    intro x hx
    rw [← List.cons_append, ← hsrc, List.mem_append, List.mem_singleton] at hx
    rcases hx with hx | rfl
    · exact F.adds.grows.wire (hk.srcBits x hx)
    · exact F.wire.2
  obtain ⟨-, -, x1, w1, -⟩ := sort_spec hb0 hw0
  obtain ⟨L1, e1, p1, hle1, O1, V1⟩ := sort_extends conf hb0 hw0
  generalize sort (srcKey :: (srcKeys ++ [msbs])) ((srcKeys ++ [msbs]).length + 1) c0 = r1 at *
  obtain ⟨c1, -, s1⟩ := context_eq _ x1
  rw [c1]
  have hd1 := e1.grows.wire F.wire.1
  have hm1 := e1.grows.wire F.wire.2
  obtain ⟨-, x2, hout, -⟩ := sortIteration_grows e1.grows.built hd1 hm1
  obtain ⟨-, -, s2⟩ := context_eq _ x2
  obtain ⟨e2, p2⟩ := sortIteration_extends e1.grows.built hd1 hm1
  generalize sortIteration c0.ctx.dstOrder msbs r1.2 = r2 at *
  obtain ⟨L3, e3, p3, hle3, s3, O3, V3⟩ := vtx_extends conf e2.grows.built
    (e2.grows.wire (e1.grows.wire (F.adds.grows.wire hk.isV))) (e2.grows.wire w1)
  generalize sortIteration r1.1 (flipSIMD c.inp.isV r2.2).1 (flipSIMD c.inp.isV r2.2).2 = r4 at *
  have n0 := F.adds.grows.nWires_le hk.built
  have n1 := e1.grows.nWires_le hb0
  have n2 := e2.grows.nWires_le e1.grows.built
  -- the wires that the remaining sorts read, from the duplicate flags on
  have hS : ∀ w ∈ srcKey :: (srcKeys ++ [msbs]), w ∈ c.inp.srcOrderBits ∨ w = msbs := by
    intro w hw
    rwa [← List.cons_append, ← hsrc, List.mem_append, List.mem_singleton] at hw
  have e12 : Extends (msbs :: c0.ctx.dstOrder :: c.inp.srcOrderBits) c0 r2.2 _ :=
    (e1.mono fun w hw => by rcases hS w hw with h | h <;> simp [h]).trans hb0 e2 (by simp)
  have e123 : Extends (c.inp.isV :: msbs :: c0.ctx.dstOrder :: c.inp.srcOrderBits) c0 r4.2 _ :=
    (e12.mono (by simp)).trans hb0 e3 (by simp [hle1])
  have plain := (p1.append p2).append p3
  have hall : Extends
      (c.inp.isV :: c.inp.src :: c.inp.dst :: (c.inp.srcOrderBits ++ c.inp.dstOrderBits)) c r4.2 _ :=
    (F.adds.mono (List.subset_cons_self ..)).trans hk.built e123 fun w hw => by
      simp only [List.mem_cons] at hw
      rcases hw with rfl | rfl | rfl | hw
      · exact Or.inl (by simp)
      · exact Or.inr F.new.2
      · exact Or.inr F.new.1
      · exact Or.inl (by simp [hw])
  have hlt : ∀ w, w ∈ c.inp.isV :: c.inp.srcOrderBits → w < c.nWires := by
    have hlt : ∀ {w}, Wire c.gates w → w < c.nWires :=
      fun hw => hk.built.wires ▸ hk.built.laid.wire_lt hw
    simp only [List.forall_mem_cons]
    exact ⟨hlt hk.isV, fun w hw => hlt (hk.srcBits w hw)⟩
  have hkeys : ∀ {V : Valuation conf} {E : Listing}, Lists V c.inp E →
      V.Bits msbs (E.duplicates conf.size) → List.Forall₂ V.Bits (srcKey :: (srcKeys ++ [msbs]))
        (E.srcKeys ++ [E.duplicates conf.size]) := by
    intro V E hE hdup
    rw [← List.cons_append, ← hsrc]
    exact List.rel_append hE.srcKeys (.cons hdup .nil)
  refine ⟨_, hall.with_context { r4.2.ctx with srcOrder := r1.1, dstOrder := r2.1, vtxOrder := r4.1 }
    r4.2.inp r4.2.shuffleIdx, fun f hf => ?_, fun h => ?_, fun E hEs hEd => ?_,
    fun V hsub E hE => ?_⟩
  · rcases List.mem_append.mp hf with hf | hf
    · exact F.quiet f hf
    · exact ⟨(plain f hf).1, (plain f hf).2.2⟩
  · obtain ⟨X, hX, hne⟩ := F.sealed h
    refine ⟨X, hX.extend hb0 (e123.with_context _ _ _) (fun x hx => ?_) plain, fun x hx => ?_⟩
    · obtain ⟨hle, hm, hf⟩ := hne x hx
      have hold : x ∉ c.inp.isV :: c.inp.srcOrderBits := fun hmem => (hlt x hmem).not_ge hle
      simp only [List.mem_cons, not_or] at hold ⊢
      exact ⟨hold.1, hm, hf, hold.2⟩
    · have := hX.below x hx
      simp only [List.mem_cons, List.not_mem_nil, or_false, not_or]
      refine ⟨(hne x hx).1, ?_, ?_, ?_⟩ <;> omega
  · obtain ⟨ρs, hidx, o0⟩ := F.opens E hEs hEd
    have hlast : (E.srcBits ++ [E.duplicates conf.size]).length = (srcKeys ++ [msbs]).length := by
      simp [hEs, hsl]
    have o1 := O1 (fun i => !E.isV i) (E.srcBits ++ [E.duplicates conf.size]) hlast
    have o2 := sortGates_openings r1.2.nWires r1.2.nMults r1.2.shuffleIdx c0.ctx.dstOrder msbs
      conf (sortKeys conf.size 1 E.dstKeys) (E.duplicates conf.size)
    have o3 := O3 E.isV (sortKeys conf.size 1 (E.srcKeys ++ [E.duplicates conf.size]))
    have hlen := sortRounds_length conf.size (sortStep conf.size 1 fun i => !E.isV i)
      (E.srcBits ++ [E.duplicates conf.size])
    rw [← hlast, ← hlen] at s1
    have o12 : Openings (fun V : Valuation conf => V.Bits c.inp.isV E.isV ∧
        V.Order c0.ctx.dstOrder (sortKeys conf.size 1 E.dstKeys) ∧
        V.Bits msbs (E.duplicates conf.size) ∧ List.Forall₂ V.Bits (srcKey :: (srcKeys ++ [msbs]))
          (E.srcKeys ++ [E.duplicates conf.size])) _ _ _ :=
      o1.append o2 s1 (fun V _ hE => hE.2.2.2) fun V _ _ hE => ⟨hE.2.1, hE.2.2.1⟩
    have o123 := o12.append o3 (by rw [List.length_append, List.length_singleton]; omega)
      (fun V _ hE => hE)
      fun V hs _ hE => ⟨hE.1, (V1 V (List.append_subset.mp hs).1 _ hE.2.2.2).2⟩
    refine ⟨_, ?_, o0.append o123 hidx (fun V _ hE => hE) fun V hs _ hE => ?_⟩
    · show r4.2.shuffleIdx = _
      simp only [List.length_append, List.length_singleton]
      omega
    · obtain ⟨-, hfirst, hdup⟩ := F.values V hs E hE
      exact ⟨hE.isV, hfirst, hdup, hkeys hE hdup⟩
  · simp only [List.append_subset] at hsub
    obtain ⟨hs0, ⟨hs1, hs2⟩, hs3⟩ := hsub
    obtain ⟨good0, hfirst, hdup⟩ := F.values V hs0 E hE
    have hkeys := hkeys hE hdup
    obtain ⟨good1, hord1⟩ := V1 V hs1 _ hkeys
    obtain ⟨good2, -, hord2⟩ := sortGates_order hs2 hfirst hdup
    rw [← hout] at hord2
    obtain ⟨good3, hord3⟩ := V3 V hs3 E.isV _ hE.isV hord1
    constructor
    · simp only [List.forall_mem_append]
      exact ⟨good0, ⟨good1, good2⟩, good3⟩
    · refine ⟨?_, ?_, ?_⟩ <;>
        simp only [Listing.arrangement, Listing.srcOrder, Listing.dstOrder, hd, if_true]
      · exact hord3
      · exact hord1
      · rw [Listing.sortKeys_append]
        exact hord2

theorem orders_deduplicated_extends (conf : ProtocolConfig) (hk : Keyed c)
    (hd : c.deduplication = true) (hsize : c.size = conf.size) (hn : 0 < conf.size) :
    ∃ L, OrdersExtend conf c (computeSorts (preMp c).2).2 L := by
  obtain ⟨L0, msbs, F⟩ := preMp_extends conf hk hd hsize hn
  obtain ⟨L, h⟩ := sorts_deduplicated_extends conf hk hd F
  exact ⟨_, h⟩

end orders

section inputs

variable {conf : ProtocolConfig} {V : Valuation conf}

def Listing.reversed (E : Listing) : Listing := ⟨E.isV, E.dst, E.src, E.dstBits, E.srcBits⟩

def Listing.directed (E : Listing) (reverse : Bool) : Listing := if reverse then E.reversed else E

structure Fed (V : Valuation conf) (E : Listing) (x : ℕ → Ring) (n : ℕ) : Prop where
  srcLength : E.srcBits.length = conf.bits
  dstLength : E.dstBits.length = conf.bits
  srcBits : ∀ j (h : j < E.srcBits.length),
    V.inp j = tab conf.size fun i => if E.srcBits[j] i then 1 else 0
  dstBits : ∀ j (h : j < E.dstBits.length),
    V.inp (conf.bits + j) = tab conf.size fun i => if E.dstBits[j] i then 1 else 0
  src : V.inp (2 * conf.bits) = tab conf.size E.src
  dst : V.inp (2 * conf.bits + 1) = tab conf.size E.dst
  isV : V.inp (2 * conf.bits + 2) = tab conf.size fun i => if E.isV i then 1 else 0
  data : V.inp (2 * conf.bits + 3) = tab conf.size x
  columns : ∀ j < n, V.inp (2 * conf.bits + 4 + j) = tab conf.size x

variable {E : Listing} {data : ℕ → Ring} {n : ℕ}

theorem input_holds {w : ℕ} {x : ℕ → Ring} (hf : ({ type := .input, gId := w, outIdx := w } : Gate) ∈
    V.gates) (hx : V.inp w = tab conf.size x) :
    V.Good { type := .input, gId := w, outIdx := w } ∧ V.Holds w x := by
  have hk := V.kind _ hf (by simp)
  exact ⟨by simpa [Good, Ready, Gate.kind] using hk, hk, (V.solves _ hf (by simp)).trans hx⟩

theorem forall₂_range {P : ℕ → (ℕ → Bool) → Prop} {k : ℕ} (bs : List (ℕ → Bool))
    (h : ∀ j (hj : j < bs.length), P (k + j) bs[j]) :
    List.Forall₂ P (List.range' k bs.length) bs := by
  rw [List.forall₂_iff_get]
  refine ⟨by simp, fun i h1 h2 => ?_⟩
  simpa using h i h2

theorem setInputsGates_types {b n : ℕ} {f : Gate} (hf : f ∈ setInputsGates b n) :
    f.type = .input ∨ f.type = .flip := by
  simp only [setInputsGates, inputGates, List.mem_append, List.mem_map, List.mem_singleton] at hf
  rcases hf with ⟨w, -, rfl⟩ | rfl
  · exact Or.inl rfl
  · exact Or.inr rfl

theorem setInputs_lists (reverse : Bool) (hG : setInputsGates conf.bits n ⊆ V.gates)
    (hF : Fed V E data n) :
    (∀ f ∈ setInputsGates conf.bits n, V.Good f) ∧
      Lists V (inputsOf conf.bits n reverse) (E.directed reverse) ∧
      V.Holds (2 * conf.bits + 3) data ∧ ∀ j < n, V.Holds (2 * conf.bits + 4 + j) data := by
  have hin : ∀ w x, w < 2 * conf.bits + 4 + n → V.inp w = tab conf.size x → V.Holds w x :=
    fun w x hlt hx => (input_holds (hG (List.mem_append_left _
      (inputGate_mem (Nat.zero_le _) (by omega)))) hx).2
  have hsrc : List.Forall₂ V.Bits (List.range' 0 conf.bits) E.srcBits := by
    rw [← hF.srcLength]
    refine forall₂_range _ fun j hj => ?_
    rw [Nat.zero_add]
    have hj' := hF.srcLength ▸ hj
    exact hin _ _ (by omega) (hF.srcBits j hj)
  have hdst : List.Forall₂ V.Bits (List.range' conf.bits conf.bits) E.dstBits := by
    have hr : ∀ j (hj : j < E.dstBits.length), V.Bits (conf.bits + j) E.dstBits[j] := fun j hj => by
      have hj' := hF.dstLength ▸ hj
      exact hin _ _ (by omega) (hF.dstBits j hj)
    have := forall₂_range _ hr
    rwa [hF.dstLength] at this
  have hisV : V.Bits (2 * conf.bits + 2) E.isV := hin _ _ (by omega) hF.isV
  obtain ⟨good, hflip⟩ := yields_flip_bits (V := V) (hG (List.mem_append_right _
    (List.mem_singleton_self _))) hisV
  have hsrcId := hin _ _ (by omega) hF.src
  have hdstId := hin _ _ (by omega) hF.dst
  refine ⟨fun f hf => ?_, ?_, hin _ _ (by omega) hF.data,
    fun j hj => hin _ _ (by omega) (hF.columns j hj)⟩
  · rcases List.mem_append.mp hf with hf | hf
    · obtain ⟨w, -, rfl⟩ := List.mem_map.mp hf
      exact V.kind _ (hG (List.mem_append_left _ hf)) (by simp)
    · exact List.mem_singleton.mp hf ▸ good
  · cases reverse with
    | false => exact ⟨hisV, hsrcId, hdstId, .cons hflip hsrc, .cons hisV hdst⟩
    | true => exact ⟨hisV, hdstId, hsrcId, .cons hflip hdst, .cons hisV hsrc⟩

end inputs

section prepared

variable (conf : ProtocolConfig) (columns : ℕ) (inInputOrder reverse dedup : Bool)

theorem orders_extend {c : Circuit} (hk : Keyed c) (hsize : c.size = conf.size)
    (hn : 0 < conf.size) : ∃ L, OrdersExtend conf c (computeSorts (preMp c).2).2 L := by
  cases hd : c.deduplication
  · exact orders_plain_extends conf hk hd
  · exact orders_deduplicated_extends conf hk hd hsize hn

def openedOrders (ctx : MPContext) : List ℕ :=
  [ctx.clearShuffledVtxOrder, ctx.clearShuffledSrcOrder, ctx.clearShuffledDstOrder]

structure PreparedExtends (c : Circuit) : Prop where
  quiet : ∀ f ∈ c.gates, f.type ≠ .output ∧ f.type ≠ .columnSumsToNodes
  sealed : ∃ X, Sealed c X ∧ ∀ x ∈ X, x ∉ openedOrders c.ctx ∧
    2 * conf.bits + 4 + columnInputs columns ≤ x
  opens : ∀ E x, E.srcBits.length = conf.bits → E.dstBits.length = conf.bits → ∃ ρs,
    Openings (fun V : Valuation conf => Fed V E x (columnInputs columns)) c.gates 0 ρs
  values : ∀ V : Valuation conf, c.gates ⊆ V.gates → ∀ E x, Fed V E x (columnInputs columns) →
    (∀ f ∈ c.gates, V.Good f) ∧
      Arranged V c.ctx ((E.directed reverse).arrangement conf dedup) ∧
      V.Holds (2 * conf.bits + 3) x ∧
      ∀ j < columnInputs columns, V.Holds (2 * conf.bits + 4 + j) x

theorem prepared_extends (hn : 0 < conf.size) : PreparedExtends conf columns reverse dedup
    (prepared (start conf columns inInputOrder reverse dedup)) := by
  have hk := withInputs_keyed conf columns inInputOrder reverse dedup
  have heq := withInputs_eq conf columns inInputOrder reverse dedup
  have hsize : (withInputs (start conf columns inInputOrder reverse dedup)).size = conf.size := by
    rw [heq]
    rfl
  obtain ⟨L, hO⟩ := orders_extend conf hk hsize hn
  obtain ⟨L', hO'⟩ := orders_spec hk
  rw [prepared, withOrders, prepareShuffles_run hO.adds.grows.built.wires]
  generalize (computeSorts (preMp (withInputs (start conf columns inInputOrder reverse dedup))).2).2
    = c1 at *
  have hgates : (withInputs (start conf columns inInputOrder reverse dedup)).gates =
      setInputsGates conf.bits (columnInputs columns) := by rw [heq]
  have hinp : (withInputs (start conf columns inInputOrder reverse dedup)).inp =
      inputsOf conf.bits (columnInputs columns) reverse := by rw [heq]
  have hwires : (withInputs (start conf columns inInputOrder reverse dedup)).nWires =
      2 * conf.bits + 4 + columnInputs columns + 1 := by rw [heq]
  have hdedup : (withInputs (start conf columns inInputOrder reverse dedup)).deduplication =
      dedup := by
    rw [heq]
    rfl
  have hidx : (withInputs (start conf columns inInputOrder reverse dedup)).shuffleIdx = 0 := by
    rw [heq]
    rfl
  have hbits : (withInputs (start conf columns inInputOrder reverse dedup)).bits = conf.bits := by
    rw [heq]
    rfl
  generalize withInputs (start conf columns inInputOrder reverse dedup) = c0 at *
  have hb := hO.adds.grows.built
  have hg : Grows c1 { c1 with
      nShuffles := c1.nShuffles + 3
      nWires := c1.nWires + 6
      gates := c1.gates ++ prepareGates c1.nWires c1.shuffleIdx c1.ctx }
      (prepareGates c1.nWires c1.shuffleIdx c1.ctx) :=
    Grows.of_block hb (prepareGates_block hb.pos hO'.vtx hO'.src hO'.dst) rfl rfl rfl rfl
  have hE : Extends [c1.ctx.vtxOrder, c1.ctx.srcOrder, c1.ctx.dstOrder] c1 _ _ :=
    .of_block hg (prepareGates_block hb.pos (by simp) (by simp) (by simp))
  have plain : Plain (prepareGates c1.nWires c1.shuffleIdx c1.ctx) := by
    simp [Plain, prepareGates]
  have hstart : Sealed c0 [] := by
    refine ⟨by simp, by simp, fun f hf ht => ?_⟩
    rcases setInputsGates_types (hgates ▸ hf) with ht' | ht' <;> simp [ht'] at ht
  refine ⟨fun f hf => ?_, ?_, fun E x hEs hEd => ?_, fun V hsub E x hF => ?_⟩
  · simp only [hO.adds.grows.gates, hgates, List.mem_append] at hf
    rcases hf with (hf | hf) | hf
    · rcases setInputsGates_types hf with ht | ht <;> simp [ht]
    · exact hO.quiet f hf
    · exact ⟨(plain f hf).1, (plain f hf).2.2⟩
  · obtain ⟨X, hX, hne⟩ := hO.sealed hstart
    obtain ⟨h1, h2, h3⟩ := hX.extend hb hE (fun x hx => (hne x hx).2) plain
    refine ⟨X, ⟨h1, h2, h3⟩, fun x hx => ⟨?_, ?_⟩⟩
    · have hlt := (hX.below x hx).2
      simp only [openedOrders, List.mem_cons, List.not_mem_nil, or_false, not_or]
      refine ⟨?_, ?_, ?_⟩ <;> omega
    · have hle := (hne x hx).1
      omega
  · have hlen : (E.directed reverse).srcBits.length = c0.bits ∧
        (E.directed reverse).dstBits.length = c0.bits := by
      rw [hbits]
      cases reverse
      · exact ⟨hEs, hEd⟩
      · exact ⟨hEd, hEs⟩
    obtain ⟨ρs, hlast, o⟩ := hO.opens (E.directed reverse) hlen.1 hlen.2
    have o0 : Openings (fun _ : Valuation conf => True) c0.gates c0.shuffleIdx [] :=
      .silent _ _ fun f hf => by rcases setInputsGates_types (hgates ▸ hf) with ht | ht <;> simp [ht]
    have o01 : Openings (fun V : Valuation conf => Fed V E x (columnInputs columns)) _ _ _ :=
      o0.append o rfl (fun _ _ _ => trivial)
        fun V hs _ hF => hinp ▸ (setInputs_lists reverse (hgates ▸ hs) hF).2.1
    have o012 := o01.append (prepareGates_openings c1.nWires c1.shuffleIdx c1.ctx
      ((E.directed reverse).arrangement conf dedup)) hlast (fun V _ hF => hF) ?_
    · rw [hO.adds.grows.gates, ← hidx]
      exact ⟨_, o012⟩
    · intro V hs _ hF
      obtain ⟨hs0, hs1⟩ := List.append_subset.mp hs
      obtain ⟨-, hlists, -⟩ := setInputs_lists reverse (hgates ▸ hs0) hF
      obtain ⟨-, hsorted⟩ := hO.values V hs1 _ (hinp ▸ hlists)
      rw [hdedup] at hsorted
      exact ⟨hsorted.vtx, hsorted.src, hsorted.dst⟩
  · simp only [hO.adds.grows.gates, hgates, List.append_subset] at hsub
    obtain ⟨⟨hs0, hs1⟩, hs2⟩ := hsub
    obtain ⟨good0, hlists, hdata, hcols⟩ := setInputs_lists reverse hs0 hF
    obtain ⟨good1, hsorted⟩ := hO.values V hs1 _ (hinp ▸ hlists)
    rw [hdedup] at hsorted
    obtain ⟨good2, hv, hs, hd⟩ := prepareGates_opened hs2 hsorted.vtx hsorted.src hsorted.dst
    refine ⟨?_, ⟨hv, hs, hd⟩, hdata, hcols⟩
    simp only [hO.adds.grows.gates, hgates, List.forall_mem_append]
    exact ⟨⟨good0, good1⟩, good2⟩

end prepared

end GraphMpc
