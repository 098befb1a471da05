import GraphMpc.Disk
import GraphMpc.Observed
import GraphMpc.Rounds

namespace GraphMpc

open Refinement Backend

def Rested (id : Party) (m : Storage) : Prop := id ≠ .d → m.readIdx = 0

structure Cleared (id : Party) (m s : Storage) : Prop where
  fresh : m = Storage.init m.rngs
  regs : s.regs = (Storage.init s.rngs).regs
  preproc : ∀ p, p ≠ .d → s.preproc p = []
  B : ∀ p, p ≠ .d → s.B p = []
  readIdx : id ≠ .d → s.readIdx = 0

-- triples of earlier repetitions stay where no gate of l has stored its own
structure Reused (id : Party) (l : List Gate) (m s : Storage) : Prop where
  regs : m.regs = s.regs
  preproc : ∀ p, p ≠ .d → s.preproc p = m.preproc p
  B : ∀ p, p ≠ .d → s.B p = m.B p
  readIdx : id ≠ .d → s.readIdx = m.readIdx
  own : id ≠ .d → ∀ p, p ≠ .d → p ≠ id → m.preproc p = []
  noB : id ≠ .d → ∀ p, p ≠ .d → m.B p = []
  triples : id ≠ .d → ∀ f ∈ l, f.takesTriple = true → s.triples f = m.triples f

namespace Reused

variable {conf : ProtocolConfig} {order l r : List Gate} {id : Party} {f : Gate} {m s : Storage}

theorem start (h : Cleared id m s) (hr : m.regs = s.regs) : Reused id [] m s := by
  have hm := h.fresh
  refine ⟨hr, fun p hp => (h.preproc p hp).trans ?_, fun p hp => (h.B p hp).trans ?_,
    fun hid => (h.readIdx hid).trans ?_, fun _ p _ _ => ?_, fun _ p _ => ?_, fun _ f hf => ?_⟩
  · rw [hm]
    rfl
  · rw [hm]
    rfl
  · rw [hm]
    rfl
  · rw [hm]
    rfl
  · rw [hm]
    rfl
  · cases hf

theorem withRegs (h : Reused id l m s) (r : Registers) :
    Reused id l (m.withRegs r) (s.withRegs r) :=
  ⟨rfl, h.preproc, h.B, h.readIdx, h.own, h.noB, h.triples⟩

theorem readPreproc (h : Reused id l m s) (hid : id ≠ .d) {n : ℕ} {v : Vec} {m' : Storage}
    (hr : m.readPreproc id n = some (v, m')) :
    ∃ s', s.readPreproc id n = some (v, s') ∧ Reused id l m' s' := by
  obtain ⟨⟨x, i⟩, hx, he⟩ := Option.bind_eq_some_iff.mp hr
  cases he
  refine ⟨{ s with readIdx := i }, ?_, h.regs, h.preproc, h.B, fun _ => rfl, h.own, h.noB, h.triples⟩
  rw [Storage.readPreproc, h.preproc id hid, h.readIdx hid, hx]
  rfl

theorem storeB (h : Reused id l m s) (hid : id = .d) (dst : Party) (v : Vec) :
    Reused id l (m.storeB dst v) (s.storeB dst v) := by
  refine ⟨h.regs, h.preproc, fun p hp => ?_, h.readIdx, h.own, fun hne => absurd hid hne, h.triples⟩
  by_cases hpd : p = dst
  · subst hpd
    simp [Storage.storeB, h.B p hp]
  · simp [Storage.storeB, hpd, h.B p hp]

theorem storeVec (h : Reused id l m s) (hid : id = .d) (dst : Party) (v : Vec) :
    Reused id l (m.storeVec dst v) (s.storeVec dst v) := by
  refine ⟨h.regs, fun p hp => ?_, h.B, h.readIdx, fun hne => absurd hid hne, h.noB, h.triples⟩
  by_cases hpd : p = dst
  · subst hpd
    simp [Storage.storeVec, h.preproc p hp]
  · simp [Storage.storeVec, hpd, h.preproc p hp]

theorem sentTo (h : Reused id l m s) (hid : id = .d) {dst : Party} (hdst : dst ≠ .d) :
    s.preproc dst ++ s.B dst = m.preproc dst ++ m.B dst ∧
      Reused id l (m.sentTo dst) (s.sentTo dst) := by
  refine ⟨by rw [h.preproc dst hdst, h.B dst hdst], h.regs, fun p hp => ?_, fun p hp => ?_,
    h.readIdx, fun hne => absurd hid hne, fun hne => absurd hid hne, h.triples⟩
  · by_cases hpd : p = dst
    · subst hpd
      simp [Storage.sentTo]
    · simp [Storage.sentTo, hpd, h.preproc p hp]
  · by_cases hpd : p = dst
    · subst hpd
      simp [Storage.sentTo]
    · simp [Storage.sentTo, hpd, h.B p hp]

theorem storeTriples (h : Reused id l m s) (f : Gate) (a b c : Vec) :
    Reused id (l ++ [f]) (m.storeTriples a b c f.multIdx) (s.storeTriples a b c f.multIdx) := by
  refine ⟨h.regs, h.preproc, h.B, h.readIdx, h.own, h.noB, fun hid x hx ht => ?_⟩
  by_cases hxf : x.multIdx = f.multIdx
  · simp [Storage.triples, Storage.storeTriples, hxf]
  · have hx : x ∈ l := (List.mem_append.mp hx).resolve_right fun hm =>
      hxf (congrArg Gate.multIdx (List.mem_singleton.mp hm))
    simpa [Storage.triples, Storage.storeTriples, hxf] using h.triples hid x hx ht

theorem skip (h : Reused id l m s) (hf : id = .d ∨ f.takesTriple = false) :
    Reused id (l ++ [f]) m s := by
  refine ⟨h.regs, h.preproc, h.B, h.readIdx, h.own, h.noB, fun hid x hx ht => ?_⟩
  rcases List.mem_append.mp hx with hx | hx
  · exact h.triples hid x hx ht
  · obtain rfl := List.mem_singleton.mp hx
    rw [hf.resolve_left hid] at ht
    cases ht

theorem recvVec (h : Cleared id m s) (hr : m.regs = s.regs) (v : Vec) :
    Reused id [] { m with preproc := Function.update m.preproc id v }
      { s with preproc := Function.update s.preproc id v } := by
  have hs := Reused.start h hr
  refine ⟨hr, fun p hp => ?_, hs.B, hs.readIdx, fun hid p hp hne => ?_, hs.noB,
    fun _ f hf => by cases hf⟩
  · by_cases hpi : p = id
    · subst hpi
      simp
    · simpa [hpi] using hs.preproc p hp
  · simpa [hne] using hs.own hid p hp hne

theorem reset (h : Reused id l m s) (hrest : Rested id m) (rngs : RandomGenerators) :
    Cleared id (Storage.init rngs) (s.reset id) := by
  refine ⟨rfl, rfl, fun p hp => ?_, fun p hp => ?_, fun hid => (h.readIdx hid).trans (hrest hid)⟩
  · by_cases hc : id = .d ∨ id = p
    · simp [Storage.reset, hp, hc]
    · have hid : id ≠ .d := fun he => hc (Or.inl he)
      have hne : p ≠ id := fun he => hc (Or.inr he.symm)
      have hs : s.preproc p = [] := (h.preproc p hp).trans (h.own hid p hp hne)
      simpa [Storage.reset, Storage.withRegs, hp, hc] using hs
  · by_cases hid : id = .d
    · simp [Storage.reset, hp, hid]
    · have hs : s.B p = [] := (h.B p hp).trans (h.noB hid p hp)
      simpa [Storage.reset, Storage.withRegs, hp, hid] using hs

end Reused

theorem Cleared.init (id : Party) (rngs rngs' : RandomGenerators) :
    Cleared id (Storage.init rngs) (Storage.init rngs') :=
  ⟨rfl, rfl, fun _ _ => rfl, fun _ _ => rfl, fun _ => rfl⟩

theorem Cleared.createRngs {id : Party} {m s : Storage} (h : Cleared id m s)
    (g : RandomGenerators) : Cleared id { m with rngs := g } { s with rngs := g } ∧
      ({ m with rngs := g } : Storage).regs = ({ s with rngs := g } : Storage).regs := by
  obtain ⟨hm, hr, hpre, hB, hidx⟩ := h
  have hs : ({ s with rngs := g } : Storage).regs = { s.regs with rngs := g } := rfl
  refine ⟨⟨by rw [hm]; rfl, ?_, hpre, hB, hidx⟩, ?_⟩
  · rw [hs, hr]
    rfl
  · rw [hs, hr, hm]
    rfl

theorem reused_mirrors (conf : ProtocolConfig) (order : List Gate) (id : Party) :
    Mirrors conf order id (Cleared id) (fun m s => Cleared id m s ∧ m.regs = s.regs)
      (Reused id) where
  createRngs g m s h _ _ he := by
    cases he
    exact ⟨_, rfl, h.createRngs g⟩
  start _ _ _ h := Reused.start h.1 h.2
  recvVec hid blockSize v m s h _ _ he := by
    cases he
    exact ⟨_, rfl, Reused.recvVec h.1 h.2 v⟩
  onRegs l A f m s h a m' he := by
    cases he
    refine ⟨_, ?_, h.withRegs _⟩
    exact congrArg (fun r : Registers => some ((f r.storage).1, s.withRegs (f r.storage).2.regs))
      h.regs.symm
  draw l server stream role n m s h ws m' he := by
    have hn := Storage.draw_length he
    cases he
    refine ⟨_, ?_, hn, h.withRegs { m.regs with rngs := (m.rngs.draw id server stream n).2 }⟩
    exact congrArg (fun r : Registers => some ((r.rngs.draw id server stream n).1,
      s.withRegs { r with rngs := (r.rngs.draw id server stream n).2 })) h.regs.symm
  readPreproc hid l n m s h v m' he := by
    obtain ⟨s', hs, hr⟩ := h.readPreproc hid he
    exact ⟨s', hs, Storage.readPreproc_length he, hr⟩
  storeB hid l dst v m s h _ _ he := by
    cases he
    exact ⟨_, rfl, h.storeB hid dst v⟩
  storeVec hid l dst v m s h _ _ he := by
    cases he
    exact ⟨_, rfl, h.storeVec hid dst v⟩
  takeDealt hid dst hdst m s h v m' he := by
    cases he
    obtain ⟨hv, hr⟩ := h.sentTo hid hdst
    exact ⟨_, congrArg (fun x => some (x, s.sentTo dst)) hv, hr⟩
  storeTriples hid l r f ho hf a b c ha hb hc m s h _ _ he := by
    cases he
    exact ⟨_, rfl, h.storeTriples f a b c⟩
  skip _ hf _ _ h := h.skip hf
  loadTriples hid f hf ht m s h k m' he := by
    cases he
    exact ⟨s, congrArg (fun x => some (x, s)) (h.triples hid f hf ht), h⟩

theorem Paged.reset {conf : ProtocolConfig} {l : List Gate} {id : Party} {m : Storage}
    {d : DiskStorage} (h : Paged conf id l m d) (rngs : RandomGenerators) :
    DiskIdle (Storage.init rngs) (d.reset id) := by
  refine ⟨rfl, rfl, fun p hp => ?_, fun p hp => ?_, fun idx =>
    FileWriter.reset_holds (d.triplesDisk idx)⟩
  · by_cases hc : id = .d ∨ id = p
    · simpa [DiskStorage.reset, hp, hc] using FileWriter.reset_holds (d.preprocDisk p)
    · have hid : id ≠ .d := fun he => hc (Or.inl he)
      have hne : p ≠ id := fun he => hc (Or.inr he.symm)
      have hd := h.preproc p hp
      rw [h.own hid p hp hne, if_neg hne] at hd
      simpa [DiskStorage.reset, hp, hc] using hd
  · by_cases hid : id = .d
    · simpa [DiskStorage.reset, hp, hid] using FileWriter.reset_holds (d.BDisk p)
    · have hd := h.B p hp
      rw [h.noB hid p hp] at hd
      simpa [DiskStorage.reset, hp, hid] using hd

namespace Backend

theorem resetAll_apply {S : Type} [Backend S] {s s' : Party → S}
    (h : ∀ id, reset id (s id) = some ((), s' id)) : resetAll s = some ((), s') := by
  have hpart : ∀ id (t : Party → S), t id = s id →
      onPart id (reset id) t = some ((), Function.update t id (s' id)) := by
    intro id t ht
    rw [onPart, ht, h id]
    rfl
  rw [resetAll, bind_apply, hpart .d s rfl, Option.bind_some, bind_apply,
    hpart .p0 _ (by simp), Option.bind_some, hpart .p1 _ (by simp)]
  congr 2
  funext id
  cases id <;> simp

end Backend

end GraphMpc
