import GraphMpc.Results

namespace GraphMpc

open Circuit

structure Shape where
  type : GType
  size : ℕ := 0
  idx : ℕ := 0
  deriving DecidableEq

-- a compaction keeps its multiplication under the name of a shuffle
def Gate.shape (f : Gate) : Shape where
  type := f.type
  size := f.size
  idx := if f.type = .compaction then 0 else f.shuffleIdx

structure View where
  size : ℕ
  nodes : ℕ
  bits : ℕ
  depth : ℕ
  columns : ℕ
  inInputOrder : Bool
  dedup : Bool
  shuffleIdx : ℕ
  vtxShuffleIdx : ℕ

def Circuit.view (c : Circuit) : View where
  size := c.size
  nodes := c.nodes
  bits := c.bits
  depth := c.depth
  columns := c.columns
  inInputOrder := c.outputsInInputOrder
  dedup := c.deduplication
  shuffleIdx := c.shuffleIdx
  vtxShuffleIdx := c.ctx.vtxShuffleIdx

structure Shaped (v : View) (gates : List Shape) (c : Circuit) : Prop where
  wires : c.nWires = c.gates.length
  view : c.view = v
  shapes : c.gates.map Gate.shape = gates

def Emits {α : Type} (v v' : View) (m : Build α) (K : List Shape) : Prop :=
  ∀ c gates, Shaped v gates c → Shaped v' (gates ++ K) (m c).2

namespace Emits

variable {α β : Type} {v v' v'' : View} {K K' : List Shape}

theorem pure (v : View) (a : α) : Emits v v (Pure.pure a : Build α) [] := fun c gates h => by
  rw [List.append_nil]
  exact h

theorem bind {m : Build α} {f : α → Build β} (hm : Emits v v' m K)
    (hf : ∀ a, Emits v' v'' (f a) K') : Emits v v'' (m >>= f) (K ++ K') := fun c gates h => by
  rw [bind_run, ← List.append_assoc]
  exact hf _ _ _ (hm c gates h)

theorem map {m : Build α} {f : α → β} (hm : Emits v v' m K) :
    Emits v v' (m >>= fun a => Pure.pure (f a)) K := fun c gates h => hm c gates h

theorem get {f : Circuit → Build β} (hf : ∀ c, c.view = v → Emits v v' (f c) K) :
    Emits v v' (MonadState.get >>= f) K := fun c gates h => hf c h.view c gates h

theorem modify {f : Circuit → Circuit} (hw : ∀ c, (f c).nWires = c.nWires)
    (hg : ∀ c, (f c).gates = c.gates) (hv : ∀ c, c.view = v → (f c).view = v') :
    Emits v v' (modify f : Build Unit) [] := fun c gates h => by
  rw [modify_run, List.append_nil]
  exact ⟨by rw [hw, hg, h.wires], hv c h.view, by rw [hg, h.shapes]⟩

theorem addGate {mk : ℕ → ℕ → Gate} {k : Shape} (hk : ∀ g out, (mk g out).shape = k) :
    Emits v v (addGate mk) [k] := fun c gates h =>
  ⟨by simp [addGate_run, h.wires], h.view, by simp [addGate_run, h.shapes, hk]⟩

theorem countMult (v : View) : Emits v v countMult [] :=
  modify (fun _ => rfl) (fun _ => rfl) fun _ h => h

theorem foldlM {f : α → β → Build α} {κ : β → List Shape} {l : List β}
    (hf : ∀ a, ∀ b ∈ l, Emits v v (f a b) (κ b)) (a : α) :
    Emits v v (l.foldlM f a) (l.flatMap κ) := by
  induction l generalizing a with
  | nil => exact pure v a
  | cons b l ih =>
    rw [List.foldlM_cons, List.flatMap_cons]
    exact (hf a b (List.mem_cons_self ..)).bind fun a =>
      ih (fun a b hb => hf a b (List.mem_cons_of_mem _ hb)) a

theorem mapM {f : β → Build α} {κ : β → List Shape} {l : List β}
    (hf : ∀ b ∈ l, Emits v v (f b) (κ b)) : Emits v v (l.mapM f) (l.flatMap κ) := by
  induction l with
  | nil => exact pure v []
  | cons b l ih =>
    rw [List.mapM_cons, List.flatMap_cons, ← List.append_nil (List.flatMap κ l)]
    exact (hf b (List.mem_cons_self ..)).bind fun a =>
      (ih fun b hb => hf b (List.mem_cons_of_mem _ hb)).bind fun as => pure v _

theorem forM {f : β → Build Unit} {κ : β → List Shape} {l : List β}
    (hf : ∀ b ∈ l, Emits v v (f b) (κ b)) : Emits v v (l.forM f) (l.flatMap κ) := by
  induction l with
  | nil => exact pure v ()
  | cons b l ih =>
    have hcons : (b :: l).forM f = (f b >>= fun _ => l.forM f) := rfl
    rw [hcons, List.flatMap_cons]
    exact (hf b (List.mem_cons_self ..)).bind fun _ =>
      ih fun b hb => hf b (List.mem_cons_of_mem _ hb)

theorem congr {m : Build α} (h : Emits v v' m K) (hv : v' = v'') (hK : K = K') :
    Emits v v'' m K' := hv ▸ hK ▸ h

theorem multGate (mk : ℕ → ℕ → ℕ → Gate) {k : Shape} (hk : ∀ m g out, (mk m g out).shape = k) :
    Emits v v (do
      let m := (← MonadState.get).nMults
      let out ← Circuit.addGate (mk m)
      Circuit.countMult
      return out) [k] := by
  refine .get fun c _ => ?_
  have h := (@addGate v (mk c.nMults) k (hk c.nMults)).bind fun out =>
    (countMult v).bind fun _ => pure v out
  exact h

theorem of_run {m : Build α} {f : Circuit → Circuit} (gates : Circuit → List Gate)
    (hm : ∀ c, c.nWires = c.gates.length → (m c).2 = f c)
    (hw : ∀ c, (f c).nWires = c.nWires + (gates c).length)
    (hg : ∀ c, (f c).gates = c.gates ++ gates c) (hv : ∀ c, c.view = v → (f c).view = v')
    (hK : ∀ c, c.view = v → (gates c).map Gate.shape = K) : Emits v v' m K := fun c l h => by
  rw [hm c h.wires]
  exact ⟨by rw [hw, hg, List.length_append, h.wires], hv c h.view,
    by rw [hg, List.map_append, h.shapes, hK c h.view]⟩

end Emits

def sortShapes (s : ℕ) : List Shape :=
  [⟨.shuffle, 0, s⟩, ⟨.shuffle, 0, s⟩, ⟨.reveal, 0, 0⟩, ⟨.permute, 0, 0⟩, ⟨.compaction, 0, 0⟩,
    ⟨.reversePermute, 0, 0⟩, ⟨.unshuffle, 0, s⟩]

def equalsZeroShapes (size : ℕ) : List Shape := List.replicate 5 ⟨.eqz, size, 0⟩

def clipShapes (nodes : ℕ) : List Shape :=
  equalsZeroShapes nodes ++ [⟨.bit2A, nodes, 0⟩, ⟨.flip, 0, 0⟩]

def duplicateShapes (size s : ℕ) : List Shape :=
  [⟨.shuffle, 0, s⟩, ⟨.reveal, 0, 0⟩, ⟨.shuffle, 0, s⟩, ⟨.shuffle, 0, s⟩, ⟨.permute, 0, 0⟩,
    ⟨.permute, 0, 0⟩, ⟨.deduplicationSub, 0, 0⟩, ⟨.deduplicationSub, 0, 0⟩] ++
  equalsZeroShapes (size - 1) ++ equalsZeroShapes (size - 1) ++
  [⟨.mulSIMD, size - 1, 0⟩, ⟨.bit2A, size - 1, 0⟩, ⟨.insert, 0, 0⟩, ⟨.reversePermute, 0, 0⟩,
    ⟨.unshuffle, 0, s⟩]

def prepareShapes (s : ℕ) : List Shape :=
  [⟨.shuffle, 0, s⟩, ⟨.shuffle, 0, s + 1⟩, ⟨.shuffle, 0, s + 2⟩, ⟨.reveal, 0, 0⟩, ⟨.reveal, 0, 0⟩,
    ⟨.reveal, 0, 0⟩]

def loadShapes (vtx : ℕ) : List Shape := [⟨.shuffle, 0, vtx⟩, ⟨.permute, 0, 0⟩]

def routeShapes (d : ℕ) : List Shape :=
  [⟨.propagate1, 0, 0⟩, ⟨.reversePermute, 0, 0⟩, ⟨.mergedShuffle, 0, d + 1⟩, ⟨.permute, 0, 0⟩,
    ⟨.reversePermute, 0, 0⟩, ⟨.mergedShuffle, 0, d + 1⟩, ⟨.permute, 0, 0⟩, ⟨.propagate2, 0, 0⟩,
    ⟨.reversePermute, 0, 0⟩, ⟨.mergedShuffle, 0, d + 2⟩, ⟨.permute, 0, 0⟩, ⟨.gather1, 0, 0⟩,
    ⟨.reversePermute, 0, 0⟩, ⟨.mergedShuffle, 0, d + 3⟩, ⟨.permute, 0, 0⟩, ⟨.gather2, 0, 0⟩]

def outputShapes (nodes vtx : ℕ) (inInputOrder : Bool) : List Shape :=
  ⟨.removeEdgeData, nodes, 0⟩ ::
    if inInputOrder then [⟨.reversePermute, 0, 0⟩, ⟨.unshuffle, 0, vtx⟩, ⟨.output, 0, 0⟩]
    else [⟨.output, 0, 0⟩]

section parts

variable {v : View}

def View.bump (v : View) (k : ℕ) : View := { v with shuffleIdx := v.shuffleIdx + k }

theorem view_bump {c : Circuit} (h : c.view = v) (k : ℕ) :
    { c.view with shuffleIdx := c.shuffleIdx + k } = v.bump k := by
  rw [← h]
  rfl

theorem sortIteration_emits (perm keys : ℕ) :
    Emits v (v.bump 1) (sortIteration perm keys) (sortShapes v.shuffleIdx) :=
  .of_run (fun c => sortGates c.nWires c.nMults c.shuffleIdx perm keys)
    (fun c h => congrArg Prod.snd (sortIteration_run h perm keys)) (fun _ => rfl) (fun _ => rfl)
    (fun c h => view_bump h 1) fun c h => by
      rw [← h]
      rfl

def sortsShapes (s n : ℕ) : List Shape := (List.range n).flatMap fun k => sortShapes (s + k)

theorem sorts_emits (key : ℕ → ℕ) (l : List ℕ) (perm : ℕ) :
    Emits v (v.bump l.length) (l.foldlM (fun perm i => sortIteration perm (key i)) perm)
      (sortsShapes v.shuffleIdx l.length) := by
  induction l generalizing v perm with
  | nil => exact .pure v perm
  | cons i l ih =>
    have hbump : (v.bump 1).bump l.length = v.bump (l.length + 1) := by
      simp [View.bump, Nat.add_assoc, Nat.add_comm 1]
    have hshapes : sortsShapes v.shuffleIdx (l.length + 1) =
        sortShapes v.shuffleIdx ++ sortsShapes (v.bump 1).shuffleIdx l.length := by
      simp [sortsShapes, List.range_succ_eq_map, List.flatMap_map, View.bump, Nat.add_assoc,
        Nat.add_comm 1]
    rw [List.foldlM_cons, List.length_cons, hshapes, ← hbump]
    exact (sortIteration_emits perm (key i)).bind fun perm => ih perm

theorem compaction_emits (x : ℕ) : Emits v v (compaction x) [⟨.compaction, 0, 0⟩] :=
  .multGate (fun m g out =>
    { type := .compaction, gId := g, in1Idx := x, outIdx := out, shuffleIdx := m, multIdx := m })
    fun _ _ _ => rfl

theorem sort_emits (bitKeys : List ℕ) (n : ℕ) : Emits v (v.bump n) (sort bitKeys (n + 1))
    (⟨.compaction, 0, 0⟩ :: sortsShapes v.shuffleIdx n) := by
  have hsorts := fun perm => sorts_emits (v := v) (fun bit => bitKeys.getD bit 0)
    (List.range' 1 n) perm
  rw [List.length_range'] at hsorts
  exact (compaction_emits _).bind hsorts

theorem flagDuplicates_emits (size : ℕ) (inp : Inputs) (perm : ℕ) :
    Emits v v (flagDuplicates size inp perm) (duplicateShapes size v.shuffleIdx) :=
  .of_run (fun c => duplicateGates c.nWires c.nMults c.shuffleIdx size perm inp.src inp.dst)
    (fun c h => congrArg Prod.snd (flagDuplicates_run h size inp perm)) (fun _ => rfl)
    (fun _ => rfl) (fun _ h => h) fun c h => by
      rw [← h]
      rfl

theorem bumpShuffleIdx_emits (k : ℕ) : Emits v (v.bump k) (bumpShuffleIdx k) [] :=
  .modify (fun _ => rfl) (fun _ => rfl) fun _ h => view_bump h k

def orderShapes (size bits : ℕ) (dedup : Bool) : List Shape :=
  if dedup then
    ⟨.compaction, 0, 0⟩ :: sortsShapes 0 bits ++ sortsShapes bits bits ++
      duplicateShapes size (2 * bits) ++ ⟨.compaction, 0, 0⟩ :: sortsShapes (2 * bits + 1) (bits + 1) ++
      sortShapes (3 * bits + 2) ++ [⟨.flip, 0, 0⟩] ++ sortShapes (3 * bits + 3)
  else
    ⟨.compaction, 0, 0⟩ :: sortsShapes 0 bits ++ ⟨.compaction, 0, 0⟩ :: sortsShapes bits bits ++
      [⟨.flip, 0, 0⟩] ++ sortShapes (2 * bits)

def orderIdxs (bits : ℕ) (dedup : Bool) : ℕ := if dedup then 3 * bits + 4 else 2 * bits + 1

theorem flip_emits (x : ℕ) : Emits v v (flipSIMD x) [⟨.flip, 0, 0⟩] := .addGate fun _ _ => rfl

theorem preMp_emits (hs : v.shuffleIdx = 0) (hd : v.dedup = true) :
    Emits v (v.bump (2 * v.bits + 1)) preMp
      (⟨.compaction, 0, 0⟩ :: sortsShapes 0 v.bits ++ sortsShapes v.bits v.bits ++
        duplicateShapes v.size (2 * v.bits)) := by
  intro c gates h
  have hbits : c.bits = v.bits := congrArg View.bits h.view
  have hsize : c.size = v.size := congrArg View.size h.view
  have hdedup : c.deduplication = true := (congrArg View.dedup h.view).trans hd
  rw [preMp_true hdedup, hbits, hsize]
  have hsorts := fun perm => sorts_emits (v := v.bump v.bits)
    (fun bit => c.inp.srcOrderBits.getD bit 0) (List.range' 1 v.bits) perm
  rw [List.length_range'] at hsorts
  have e := (sort_emits (v := v) c.inp.dstOrderBits v.bits).bind fun dstOrder =>
    (Emits.modify (f := fun c => { c with ctx := { c.ctx with dstOrder := dstOrder } })
      (fun _ => rfl) (fun _ => rfl) fun _ h => h).bind fun _ => (hsorts dstOrder).bind fun perm =>
        (flagDuplicates_emits v.size c.inp perm).bind fun msbs =>
          (Emits.modify (f := fun c => { c with inp := { c.inp with
            srcOrderBits := c.inp.srcOrderBits ++ [msbs],
            dstOrderBits := c.inp.dstOrderBits ++ [msbs] } })
            (fun _ => rfl) (fun _ => rfl) fun _ h => h).bind fun _ => bumpShuffleIdx_emits 1
  refine (e.congr ?_ ?_) c gates h
  · simp [View.bump]
    omega
  · simp [View.bump, hs, two_mul]

theorem computeSorts_emits (hd : v.dedup = false) :
    Emits v (v.bump (2 * v.bits + 1)) computeSorts
      (⟨.compaction, 0, 0⟩ :: sortsShapes v.shuffleIdx v.bits ++
        ⟨.compaction, 0, 0⟩ :: sortsShapes (v.shuffleIdx + v.bits) v.bits ++ [⟨.flip, 0, 0⟩] ++
          sortShapes (v.shuffleIdx + 2 * v.bits)) := by
  refine .get fun c1 _ => .get fun c2 h2 => .get fun c3 h3 => ?_
  have hbits : c2.bits = v.bits := congrArg View.bits h2
  have hdedup : c3.deduplication = false := (congrArg View.dedup h3).trans hd
  rw [if_neg (Bool.eq_false_iff.mp hdedup), hbits]
  have e := (sort_emits (v := v) c1.inp.srcOrderBits v.bits).bind fun srcOrder =>
    (sort_emits (v := v.bump v.bits) c1.inp.dstOrderBits v.bits).bind fun dstOrder =>
      (flip_emits c1.inp.isV).bind fun isVInv =>
        (sortIteration_emits srcOrder isVInv).bind fun vtxOrder =>
          Emits.modify (f := fun c => { c with ctx := { c.ctx with
              srcOrder := srcOrder, dstOrder := dstOrder, vtxOrder := vtxOrder } })
            (fun _ => rfl) (fun _ => rfl) fun _ h => h
  refine e.congr ?_ ?_
  · simp [View.bump]
    omega
  · simp [View.bump, two_mul, Nat.add_assoc]

theorem computeSorts_emits_dedup (hd : v.dedup = true) :
    Emits v (v.bump (v.bits + 3)) computeSorts
      (⟨.compaction, 0, 0⟩ :: sortsShapes v.shuffleIdx (v.bits + 1) ++
        sortShapes (v.shuffleIdx + (v.bits + 1)) ++ [⟨.flip, 0, 0⟩] ++
          sortShapes (v.shuffleIdx + (v.bits + 2))) := by
  refine .get fun c1 _ => .get fun c2 h2 => .get fun c3 h3 => ?_
  have hbits : c2.bits = v.bits := congrArg View.bits h2
  have hdedup : c3.deduplication = true := (congrArg View.dedup h3).trans hd
  rw [if_pos hdedup, hbits]
  have e := (sort_emits (v := v) c1.inp.srcOrderBits (v.bits + 1)).bind fun srcOrder =>
    Emits.get fun c4 _ =>
      (sortIteration_emits c4.ctx.dstOrder
        (c1.inp.dstOrderBits.getD (c1.inp.dstOrderBits.length - 1) 0)).bind fun dstOrder =>
          (flip_emits c1.inp.isV).bind fun isVInv =>
            (sortIteration_emits srcOrder isVInv).bind fun vtxOrder =>
              Emits.modify (f := fun c => { c with ctx := { c.ctx with
                  srcOrder := srcOrder, dstOrder := dstOrder, vtxOrder := vtxOrder } })
                (fun _ => rfl) (fun _ => rfl) fun _ h => h
  refine e.congr ?_ ?_
  · simp [View.bump]
    omega
  · simp [View.bump, Nat.add_assoc]

theorem orders_emits (hs : v.shuffleIdx = 0) : Emits v (v.bump (orderIdxs v.bits v.dedup))
    (do preMp; computeSorts) (orderShapes v.size v.bits v.dedup) := by
  cases hd : v.dedup
  · have hnone : Emits v v preMp [] := fun c gates h => by
      rw [preMp_false ((congrArg View.dedup h.view).trans hd), List.append_nil]
      exact h
    refine (hnone.bind fun _ => computeSorts_emits hd).congr rfl ?_
    simp [orderShapes, hs]
  · have hd' : (v.bump (2 * v.bits + 1)).dedup = true := hd
    refine ((preMp_emits hs hd).bind fun _ => computeSorts_emits_dedup hd').congr ?_ ?_
    · simp [View.bump, orderIdxs]
      omega
    · have h2 : 2 * v.bits + 1 + (v.bits + 1) = 3 * v.bits + 2 := by omega
      have h3 : 2 * v.bits + 1 + (v.bits + 2) = 3 * v.bits + 3 := by omega
      have hbits : (v.bump (2 * v.bits + 1)).bits = v.bits := rfl
      have hidx : (v.bump (2 * v.bits + 1)).shuffleIdx = 2 * v.bits + 1 := by simp [View.bump, hs]
      rw [hbits, hidx, h2, h3]
      simp [orderShapes]

theorem prepareShuffles_emits : Emits v
    { v with shuffleIdx := v.shuffleIdx + 2, vtxShuffleIdx := v.shuffleIdx }
    prepareShuffles (prepareShapes v.shuffleIdx) :=
  .of_run (fun c => prepareGates c.nWires c.shuffleIdx c.ctx)
    (fun c h => congrArg Prod.snd (prepareShuffles_run h)) (fun _ => rfl) (fun _ => rfl)
    (fun c h => by
      rw [← h]
      rfl)
    fun c h => by
      rw [← h]
      rfl

theorem load_emits (ctx : MPContext) (x : ℕ) :
    Emits v v (load ctx x) (loadShapes ctx.vtxShuffleIdx) :=
  .of_run (fun c => loadGates c.nWires ctx x) (fun _ h => congrArg Prod.snd (load_run h ctx x))
    (fun _ => rfl) (fun _ => rfl) (fun _ h => h) fun _ _ => rfl

theorem route_emits (ctx : MPContext) (d x : ℕ) :
    Emits v v (route ctx (d + 1) (d + 2) (d + 3) x) (routeShapes d) :=
  .of_run (fun c => routeGates c.nWires ctx (d + 1) (d + 2) (d + 3) x) (fun _ _ => rfl)
    (fun _ => rfl) (fun _ => rfl) (fun _ h => h) fun _ _ => rfl

theorem outputData_emits (x : ℕ) :
    Emits v v (outputData x) (outputShapes v.nodes v.vtxShuffleIdx v.inInputOrder) := by
  refine .of_run (fun c => outputGates c.nWires c.nodes c.outputsInInputOrder c.ctx x)
    (fun c h => congrArg Prod.snd (outputData_run h x)) (fun c => ?_) (fun _ => rfl) (fun _ h => h)
    fun c h => ?_
  · cases c.outputsInInputOrder <;> simp [outputGates]
  · rw [← h]
    cases hb : c.outputsInInputOrder <;> simp [outputGates, outputShapes, Gate.shape, view, hb]

end parts

section operations

variable {v : View}

def Op.shapes (nodes : ℕ) : Op → List Shape
  | multiply _ _ => [⟨.mulSIMD, nodes, 0⟩]
  | multiplyByConstant _ _ => [⟨.mulConstSIMD, 0, 0⟩]
  | add _ _ => [⟨.addSIMD, 0, 0⟩]
  | subtract _ _ => [⟨.subSIMD, 0, 0⟩]
  | addConstant _ _ => [⟨.addConstSIMD, 0, 0⟩]
  | flip _ => [⟨.flip, 0, 0⟩]
  | clip _ => clipShapes nodes
  | setConstVector _ => [⟨.setConstVecSIMD, 0, 0⟩]

def Body.shapes {arity : ℕ} (b : Body arity) (nodes : ℕ) : List Shape :=
  b.ops.flatMap (Op.shapes nodes)

theorem clip_emits (x : ℕ) : Emits v v (clipSIMD x) (clipShapes v.nodes) :=
  .of_run (fun c => clipGates c.nWires c.nMults x c.nodes)
    (fun c h => congrArg Prod.snd (clipSIMD_run h x)) (fun _ => rfl) (fun _ => rfl) (fun _ h => h)
    fun c h => by
      rw [← h]
      rfl

theorem multiply_emits (x y : ℕ) : Emits v v (multiply x y) [⟨.mulSIMD, v.nodes, 0⟩] :=
  .get fun c h => .multGate (fun m g out =>
    { type := .mulSIMD, gId := g, in1Idx := x, in2Idx := y, outIdx := out, size := c.nodes,
      multIdx := m, binary := false }) fun _ _ _ => by
        rw [← h]
        rfl

theorem Op.exec_emits (env : List ℕ) (op : Op) :
    Emits v v (op.exec env) (op.shapes v.nodes) := by
  have single : ∀ {mk : ℕ → ℕ → Gate} {k : Shape}, (∀ g out, (mk g out).shape = k) →
      Emits v v (do
        let out ← Circuit.addGate mk
        return env ++ [out]) [k] := fun hk => (Emits.addGate hk).map
  cases op with
  | multiply x y => exact (multiply_emits _ _).map
  | clip x => exact (clip_emits _).map
  | _ => exact single fun _ _ => rfl

theorem Body.exec_emits {arity : ℕ} (b : Body arity) (args : List ℕ) :
    Emits v v (b.exec args) (b.shapes v.nodes) :=
  (Emits.foldlM (fun env op _ => op.exec_emits env) args).map

end operations

section columns

variable {v : View}

def visited (columns : ℕ) : List ℕ := if columns > 1 then List.range columns else [0]

def initShapes (p : Program) (nodes column : ℕ) : List Shape :=
  match p.initNodes column with
  | none => []
  | some b => b.shapes nodes

def roundShapes (p : Program) (nodes d column i : ℕ) : List Shape :=
  (p.prepare i column).shapes nodes ++ (routeShapes d ++ (p.apply i column).shapes nodes)

def columnShapes (p : Program) (v : View) (column : ℕ) : List Shape :=
  loadShapes v.vtxShuffleIdx ++ (initShapes p v.nodes column ++
    (List.range v.depth).flatMap (roundShapes p v.nodes v.shuffleIdx column))

def passShapes (p : Program) (v : View) : List Shape :=
  (visited v.columns).flatMap (columnShapes p v) ++
    ((visited v.columns).flatMap (fun column => (p.postMp column).shapes v.nodes) ++
      if v.columns > 1 ∧ p.columnSums = true then
        ⟨.columnSumsToNodes, 0, 0⟩ :: outputShapes v.nodes v.vtxShuffleIdx v.inInputOrder
      else (visited v.columns).flatMap fun _ =>
        outputShapes v.nodes v.vtxShuffleIdx v.inInputOrder)

theorem mpRound_emits (p : Program) (ctx : MPContext) (d column x i : ℕ) :
    Emits v v (mpRound p.algorithm ctx (d + 1) (d + 2) (d + 3) column x i)
      (roundShapes p v.nodes d column i) := by
  intro c gates h
  have hprep : Emits v v (p.algorithm.prepare x i column) ((p.prepare i column).shapes v.nodes) :=
    (p.prepare i column).exec_emits [x]
  rw [mpRound_run p.algorithm ctx _ _ _ column x i (hprep c gates h).wires]
  exact (hprep.bind fun m => (route_emits ctx d m).bind fun u =>
    (p.apply i column).exec_emits [x, u]) c gates h

theorem initNodes_emits (p : Program) (column : ℕ) :
    Emits v v (p.algorithm.initNodes column) (initShapes p v.nodes column) := by
  simp only [Program.algorithm, initShapes]
  cases p.initNodes column with
  | none => exact .pure v none
  | some b => exact (b.exec_emits []).map

theorem messagePassing_emits (p : Program) (x column : ℕ) :
    Emits v v (messagePassing p.algorithm x column) (columnShapes p v column) := by
  intro c gates h
  have hvtx : c.ctx.vtxShuffleIdx = v.vtxShuffleIdx := congrArg View.vtxShuffleIdx h.view
  rw [messagePassing_run, columnShapes, ← hvtx]
  refine ((load_emits c.ctx x).bind fun w => .get fun c1 h1 =>
    (initNodes_emits p column).bind fun _ => .get fun c2 h2 => ?_) c gates h
  have hidx : c1.shuffleIdx = v.shuffleIdx := congrArg View.shuffleIdx h1
  have hdepth : c2.depth = v.depth := congrArg View.depth h2
  rw [hidx, hdepth]
  exact .foldlM (fun x i _ => mpRound_emits p c.ctx v.shuffleIdx column x i) _

theorem states_emits (p : Program) (data : ℕ → ℕ) (l : List ℕ) :
    Emits v (v.bump 3) (states p.algorithm data l) (l.flatMap (columnShapes p v) ++
      l.flatMap fun column => (p.postMp column).shapes v.nodes) :=
  (Emits.mapM fun i _ => messagePassing_emits p (data i) i).bind fun states =>
    (bumpShuffleIdx_emits 3).bind fun _ =>
      Emits.mapM fun i _ => (p.postMp i).exec_emits [states.getD i 0]

theorem columnSumsToNodes_emits (l : List ℕ) :
    Emits v v (columnSumsToNodes l) [⟨.columnSumsToNodes, 0, 0⟩] := .addGate fun _ _ => rfl

theorem pass_emits (p : Program) : Emits v (v.bump 3) (pass p.algorithm) (passShapes p v) := by
  intro c gates h
  have hcolumns : c.columns = v.columns := congrArg View.columns h.view
  have hsums := fun w : List ℕ =>
    (columnSumsToNodes_emits (v := v.bump 3) w).bind fun w => outputData_emits w
  by_cases hc : v.columns > 1
  · cases hs : p.columnSums
    · rw [pass_states_many p (hcolumns.symm ▸ hc) hs]
      refine (((states_emits p _ (List.range c.columns)).bind fun s => Emits.forM fun i _ =>
        outputData_emits (s.getD i 0)).congr rfl ?_) c gates h
      simp [passShapes, visited, hc, hs, hcolumns, View.bump]
    · rw [pass_states_sum p (hcolumns.symm ▸ hc) hs]
      refine (((states_emits p _ (List.range c.columns)).bind hsums).congr rfl ?_) c gates h
      simp [passShapes, visited, hc, hs, hcolumns, View.bump]
  · rw [pass_states_one p (hcolumns.symm ▸ hc)]
    refine (((states_emits p _ (List.range 1)).bind fun s => Emits.forM fun i _ =>
        outputData_emits (s.getD i 0)).congr rfl ?_) c gates h
    simp [passShapes, visited, hc, View.bump, List.range_succ]

end columns

section constructed

variable (conf : ProtocolConfig) (columns : ℕ) (inInputOrder reverse dedup : Bool)

def inputShapes (n : ℕ) : List Shape := List.replicate n ⟨.input, 0, 0⟩ ++ [⟨.flip, 0, 0⟩]

def preparedView : View where
  size := conf.size
  nodes := conf.nodes
  bits := conf.bits
  depth := conf.depth
  columns := columns
  inInputOrder := inInputOrder
  dedup := dedup
  shuffleIdx := orderIdxs conf.bits dedup + 2
  vtxShuffleIdx := orderIdxs conf.bits dedup

def constructShapes (p : Program) : List Shape :=
  inputShapes (2 * conf.bits + 4 + columnInputs columns) ++
    (orderShapes conf.size conf.bits dedup ++ (prepareShapes (orderIdxs conf.bits dedup) ++
      passShapes p (preparedView conf columns inInputOrder dedup)))

theorem withInputs_shaped : Shaped { preparedView conf columns inInputOrder dedup with
      shuffleIdx := 0, vtxShuffleIdx := 0 } (inputShapes (2 * conf.bits + 4 + columnInputs columns))
    (withInputs (start conf columns inInputOrder reverse dedup)) := by
  refine ⟨(withInputs_built conf columns inInputOrder reverse dedup).wires, ?_, ?_⟩
  · rw [withInputs_eq]
    rfl
  · rw [withInputs_eq]
    simp [setInputsGates, inputGates, inputShapes, Gate.shape, Function.comp_def]

theorem prepared_shaped : Shaped (preparedView conf columns inInputOrder dedup)
    (inputShapes (2 * conf.bits + 4 + columnInputs columns) ++
      (orderShapes conf.size conf.bits dedup ++ prepareShapes (orderIdxs conf.bits dedup)))
    (prepared (start conf columns inInputOrder reverse dedup)) := by
  have e := (orders_emits (v := { preparedView conf columns inInputOrder dedup with
    shuffleIdx := 0, vtxShuffleIdx := 0 }) rfl).bind fun _ => prepareShuffles_emits
  have hs := e _ _ (withInputs_shaped conf columns inInputOrder reverse dedup)
  simp only [bind_run] at hs
  rw [prepared, withOrders]
  refine ⟨hs.wires, hs.view.trans ?_, hs.shapes.trans ?_⟩ <;> simp [View.bump, preparedView]

theorem construct_shapes (p : Program) :
    (construct p.algorithm (start conf columns inInputOrder reverse dedup)).2.gates.map Gate.shape =
      constructShapes conf columns inInputOrder dedup p := by
  have hprepared := prepared_shaped conf columns inInputOrder reverse dedup
  rw [construct_run, (pass_emits p _ _ hprepared).shapes, constructShapes]
  simp only [List.append_assoc]

end constructed

def Simd (l : List Shape) : Prop := ∀ s ∈ l, s.type ≠ .mul

namespace Simd

@[simp] theorem simd_nil : Simd [] := List.forall_mem_nil _

@[simp] theorem simd_cons {s : Shape} {l : List Shape} : Simd (s :: l) ↔ s.type ≠ .mul ∧ Simd l :=
  List.forall_mem_cons

@[simp] theorem simd_append {l r : List Shape} : Simd (l ++ r) ↔ Simd l ∧ Simd r :=
  List.forall_mem_append

theorem flatMap {α : Type} {f : α → List Shape} (h : ∀ a, Simd (f a)) (as : List α) :
    Simd (as.flatMap f) := by
  intro s hs
  obtain ⟨a, -, ha⟩ := List.mem_flatMap.mp hs
  exact h a s ha

@[simp] theorem simd_replicate {n : ℕ} {s : Shape} (hs : s.type ≠ .mul) :
    Simd (List.replicate n s) := by
  intro x hx
  rw [List.eq_of_mem_replicate hx]
  exact hs

theorem op (nodes : ℕ) (op : Op) : Simd (op.shapes nodes) := by
  cases op <;> simp [Op.shapes, clipShapes, equalsZeroShapes]

theorem body {arity : ℕ} (b : Body arity) (nodes : ℕ) : Simd (b.shapes nodes) :=
  flatMap (op nodes) b.ops

theorem sorts (s n : ℕ) : Simd (sortsShapes s n) := flatMap (fun _ => by simp [sortShapes]) _

theorem orders (size bits : ℕ) (dedup : Bool) : Simd (orderShapes size bits dedup) := by
  cases dedup <;> simp [orderShapes, sorts, sortShapes, duplicateShapes, equalsZeroShapes]

theorem outputs (nodes vtx : ℕ) (inInputOrder : Bool) :
    Simd (outputShapes nodes vtx inInputOrder) := by
  cases inInputOrder <;> simp [outputShapes]

theorem columns (p : Program) (v : View) (column : ℕ) : Simd (columnShapes p v column) := by
  have hinit : Simd (initShapes p v.nodes column) := by
    unfold initShapes
    split
    · exact simd_nil
    · exact body _ _
  have hrounds : ∀ i, Simd (roundShapes p v.nodes v.shuffleIdx column i) := fun i => by
    simp [roundShapes, body, routeShapes]
  simp [columnShapes, hinit, loadShapes, flatMap hrounds]

theorem pass (p : Program) (v : View) : Simd (passShapes p v) := by
  have hpost := flatMap (fun column => body (p.postMp column) v.nodes) (visited v.columns)
  have hout := outputs v.nodes v.vtxShuffleIdx v.inInputOrder
  unfold passShapes
  split
  · simp [flatMap (columns p v), hpost, hout]
  · simp [flatMap (columns p v), hpost, flatMap fun _ => hout]

theorem construct (p : Program) (conf : ProtocolConfig) (columns : ℕ) (inInputOrder dedup : Bool) :
    Simd (constructShapes conf columns inInputOrder dedup p) := by
  simp [constructShapes, inputShapes, orders, prepareShapes, pass]

end Simd

theorem build_simd (p : Program) (conf : ProtocolConfig) (columns : ℕ)
    (inInputOrder reverse dedup : Bool) :
    ∀ f ∈ (build p.algorithm (start conf columns inInputOrder reverse dedup)).2.circ.flatten,
      f.type ≠ .mul := by
  intro f hf
  obtain ⟨ctx, hc⟩ := construct_spec conf columns inInputOrder reverse dedup p.algorithm_lawful
  rw [build_circ] at hf
  have hmem := (mem_layersOf hc.built.laid.wellFormed).mp hf
  have hshape := Simd.construct p conf columns inInputOrder dedup
  rw [← construct_shapes conf columns inInputOrder reverse dedup p] at hshape
  exact hshape f.shape (List.mem_map_of_mem hmem)

end GraphMpc
