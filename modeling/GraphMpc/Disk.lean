import GraphMpc.Mirrors
import GraphMpc.Buffers

namespace GraphMpc

open Tabulate Refinement Backend

structure FileWriter where
  content : Vec
  readIdx : ℕ
  size : ℕ
  sized : size = content.length
  within : readIdx = 0 ∨ readIdx < size

namespace FileWriter

theorem written_sized (w : FileWriter) (data : Vec) :
    w.size + data.length = (w.content ++ data).length := by
  rw [w.sized, List.length_append]

theorem written_within (w : FileWriter) (data : Vec) :
    w.readIdx = 0 ∨ w.readIdx < w.size + data.length :=
  w.within.imp_right fun h => h.trans_le (Nat.le_add_right ..)

def empty : FileWriter := ⟨[], 0, 0, rfl, Or.inl rfl⟩

def write (w : FileWriter) (data : Vec) : FileWriter :=
  ⟨w.content ++ data, w.readIdx, w.size + data.length, w.written_sized data, w.written_within data⟩

-- the cursor starts over at the end of the file
def advance (w : FileWriter) (n : ℕ) : FileWriter :=
  if h : w.readIdx + n < w.size then ⟨w.content, w.readIdx + n, w.size, w.sized, Or.inr h⟩
  else ⟨w.content, 0, w.size, w.sized, Or.inl rfl⟩

-- a short read at the end of the file; an empty file leaves the buffer as it is
def read (w : FileWriter) (buffer : Vec) (n : ℕ) : Vec × FileWriter :=
  if w.content.length = 0 then (buffer, w)
  else
    let v := (w.content.drop w.readIdx).take n
    (v, w.advance v.length)

structure Holds (w : FileWriter) (v : Vec) (idx : ℕ) : Prop where
  content : w.content = v
  readIdx : w.readIdx = idx

variable {w : FileWriter} {v : Vec} {idx : ℕ}

theorem empty_holds : empty.Holds [] 0 := ⟨rfl, rfl⟩

theorem Holds.write (h : w.Holds v idx) (data : Vec) : (w.write data).Holds (v ++ data) idx :=
  ⟨congrArg (· ++ data) h.content, h.readIdx⟩

theorem Holds.idx_eq (h : w.Holds [] idx) : idx = 0 := by
  have hs := w.sized
  have hw := w.within
  rw [h.content] at hs
  rw [h.readIdx] at hw
  simp at hs
  omega

theorem Holds.advance (h : w.Holds v idx) (n : ℕ) :
    (w.advance n).Holds v (if idx + n ≥ v.length then 0 else idx + n) := by
  have hsize : w.size = v.length := by rw [w.sized, h.content]
  unfold FileWriter.advance
  by_cases hn : w.readIdx + n < w.size
  · rw [dif_pos hn, if_neg (by rw [← h.readIdx]; omega)]
    exact ⟨h.content, by rw [← h.readIdx]⟩
  · rw [dif_neg hn, if_pos (by rw [← h.readIdx]; omega)]
    exact ⟨h.content, rfl⟩

theorem read_empty (h : w.Holds [] idx) (buffer : Vec) (n : ℕ) : w.read buffer n = (buffer, w) := by
  rw [FileWriter.read, if_pos (by rw [h.content]; rfl)]

theorem read_filled (h : w.Holds v idx) (hv : v ≠ []) (buffer : Vec) {n : ℕ}
    (hn : idx + n ≤ v.length) :
    w.read buffer n = ((v.drop idx).take n, w.advance n) := by
  have hl : ((v.drop idx).take n).length = n := by
    rw [List.length_take, List.length_drop]
    omega
  rw [FileWriter.read, if_neg (by rw [h.content]; exact fun he => hv (List.length_eq_zero_iff.mp he))]
  simp only [h.content, h.readIdx, hl]

theorem Holds.read (h : w.Holds v idx) {n i : ℕ} {x : Vec} (hr : readChunk v n idx = some (x, i)) :
    (w.read (List.replicate n 0) n).1 = x ∧ (w.read (List.replicate n 0) n).2.Holds v i := by
  unfold readChunk at hr
  split at hr
  · cases hr
  rename_i hlen
  obtain ⟨rfl, rfl⟩ := Prod.mk.inj (Option.some.inj hr)
  by_cases hv : v = []
  · subst hv
    obtain rfl := h.idx_eq
    obtain rfl : n = 0 := by simpa using hlen
    rw [read_empty h]
    exact ⟨rfl, h⟩
  · rw [read_filled h hv _ (by omega)]
    exact ⟨rfl, h.advance n⟩

theorem Holds.read_three {a b c : Vec} {n : ℕ} (h : w.Holds (a ++ b ++ c) 0) (ha : a.length = n)
    (hb : b.length = n) (hc : c.length = n) :
    ∃ w1 w2 w3, w.read [] n = (a, w1) ∧ w1.read [] n = (b, w2) ∧ w2.read [] n = (c, w3) ∧
      w3.Holds (a ++ b ++ c) 0 := by
  by_cases hn : n = 0
  · subst hn
    obtain rfl := List.length_eq_zero_iff.mp ha
    obtain rfl := List.length_eq_zero_iff.mp hb
    obtain rfl := List.length_eq_zero_iff.mp hc
    exact ⟨w, w, w, read_empty h .., read_empty h .., read_empty h .., h⟩
  · have hlen : (a ++ b ++ c).length = 3 * n := by
      simp only [List.length_append]
      omega
    have hv : a ++ b ++ c ≠ [] := by
      intro he
      rw [he, List.length_nil] at hlen
      omega
    have h1 := h.advance n
    rw [if_neg (by omega), Nat.zero_add] at h1
    have h2 := h1.advance n
    rw [if_neg (by omega)] at h2
    have h3 := h2.advance n
    rw [if_pos (by omega)] at h3
    refine ⟨_, _, _, (read_filled h hv _ (by omega)).trans ?_,
      (read_filled h1 hv _ (by omega)).trans ?_, (read_filled h2 hv _ (by omega)).trans ?_, h3⟩
    · rw [List.drop_zero, List.append_assoc, ← ha, List.take_left]
    · rw [List.append_assoc, ← ha, List.drop_left, ha, ← hb, List.take_left]
    · have hab : n + n = (a ++ b).length := by rw [List.length_append, ha, hb]
      rw [hab, List.drop_left, ← hc, List.take_length]

def reset (_ : FileWriter) : FileWriter := empty

theorem reset_holds (w : FileWriter) : w.reset.Holds [] 0 := ⟨rfl, rfl⟩

def recvVec (w : FileWriter) (blockSize : ℕ) (v : Vec) : FileWriter :=
  let w := (blocksOf blockSize v).foldl write w
  if 0 < (lastOf blockSize v).length then w.write (lastOf blockSize v) else w

theorem Holds.recvVec (h : w.Holds v idx) (blockSize : ℕ) (x : Vec) :
    (w.recvVec blockSize x).Holds (v ++ x) idx := by
  have hblocks : ∀ (bs : List Vec) {w : FileWriter} {v : Vec}, w.Holds v idx →
      (bs.foldl FileWriter.write w).Holds (v ++ bs.flatten) idx := by
    intro bs
    induction bs with
    | nil =>
      intro w v h
      simpa using h
    | cons b bs ih =>
      intro w v h
      rw [List.flatten_cons, ← List.append_assoc]
      exact ih (h.write b)
  have hb := hblocks (blocksOf blockSize x) h
  have hx : v ++ x = v ++ (blocksOf blockSize x).flatten ++ lastOf blockSize x := by
    rw [List.append_assoc, blocksOf_flatten]
  rw [hx]
  simp only [FileWriter.recvVec]
  split
  · exact hb.write _
  · rename_i hl
    rw [List.length_eq_zero_iff.mp (Nat.eq_zero_of_not_pos hl), List.append_nil]
    exact hb

end FileWriter

structure DiskStorage where
  regs : Registers
  preprocDisk : Party → FileWriter
  BDisk : Party → FileWriter
  triplesDisk : ℕ → FileWriter

namespace DiskStorage

def init (rngs : RandomGenerators) : DiskStorage :=
  ⟨(Storage.init rngs).regs, fun _ => .empty, fun _ => .empty, fun _ => .empty⟩

def draw (s : DiskStorage) (id server : Party) (stream : Stream) (n : ℕ) :
    List (BitVec 64) × DiskStorage :=
  let (ws, rngs) := s.regs.rngs.draw id server stream n
  (ws, { s with regs := { s.regs with rngs := rngs } })

def readPreproc (s : DiskStorage) (id : Party) (n : ℕ) : Vec × DiskStorage :=
  let (data, w) := (s.preprocDisk id).read (List.replicate n 0) n
  (data, { s with preprocDisk := Function.update s.preprocDisk id w })

def storeB (s : DiskStorage) (dst : Party) (v : Vec) : DiskStorage :=
  { s with BDisk := Function.update s.BDisk dst ((s.BDisk dst).write v) }

def storeVec (s : DiskStorage) (dst : Party) (v : Vec) : DiskStorage :=
  { s with preprocDisk := Function.update s.preprocDisk dst ((s.preprocDisk dst).write v) }

def storeTriples (s : DiskStorage) (a b c : Vec) (multIdx : ℕ) : DiskStorage :=
  let w := (((s.triplesDisk multIdx).write a).write b).write c
  { s with triplesDisk := Function.update s.triplesDisk multIdx w }

def loadTriples (s : DiskStorage) (multIdx tripleSize : ℕ) : Correlation × DiskStorage :=
  let (a, w) := (s.triplesDisk multIdx).read [] tripleSize
  let (b, w) := w.read [] tripleSize
  let (c, w) := w.read [] tripleSize
  ({ a := a, b := b, c := c }, { s with triplesDisk := Function.update s.triplesDisk multIdx w })

-- the vector that the dealer sends to a server, from two files that are then reset
def takeDealt (s : DiskStorage) (dst : Party) : Vec × DiskStorage :=
  let pre := s.preprocDisk dst
  let B := s.BDisk dst
  ((pre.read (List.replicate pre.size 0) pre.size).1 ++ (B.read (List.replicate B.size 0) B.size).1,
    { s with
      preprocDisk := Function.update s.preprocDisk dst pre.reset
      BDisk := Function.update s.BDisk dst B.reset })

def recvVec (s : DiskStorage) (blockSize : ℕ) (id : Party) (v : Vec) : DiskStorage :=
  { s with
    preprocDisk := Function.update s.preprocDisk id ((s.preprocDisk id).recvVec blockSize v) }

def reset (s : DiskStorage) (id : Party) : DiskStorage where
  regs := s.regs.reset
  preprocDisk p := if p ≠ .d ∧ (id = .d ∨ id = p) then (s.preprocDisk p).reset else s.preprocDisk p
  BDisk p := if p ≠ .d ∧ id = .d then (s.BDisk p).reset else s.BDisk p
  triplesDisk idx := (s.triplesDisk idx).reset

end DiskStorage

-- ssd = true
instance : Backend DiskStorage where
  regs := DiskStorage.regs
  withRegs s r := { s with regs := r }
  createRngs _ g s := some ((), { s with regs := { s.regs with rngs := g } })
  draw id server stream _ n s := some (s.draw id server stream n)
  readPreproc id n s := some (s.readPreproc id n)
  storeB dst v s := some ((), s.storeB dst v)
  storeVec dst v s := some ((), s.storeVec dst v)
  storeTriples a b c idx s := some ((), s.storeTriples a b c idx)
  loadTriples idx n s := some (s.loadTriples idx n)
  takeDealt dst s := some (s.takeDealt dst)
  recvVec blockSize id v s := some ((), s.recvVec blockSize id v)
  reset id s := some ((), s.reset id)

structure DiskIdle (m : Storage) (d : DiskStorage) : Prop where
  fresh : m = Storage.init m.rngs
  cleared : d.regs = (Storage.init d.regs.rngs).regs
  preproc : ∀ p, p ≠ .d → (d.preprocDisk p).Holds [] 0
  B : ∀ p, p ≠ .d → (d.BDisk p).Holds [] 0
  triples : ∀ idx, (d.triplesDisk idx).Holds [] 0

structure Paged (conf : ProtocolConfig) (id : Party) (l : List Gate) (m : Storage)
    (d : DiskStorage) : Prop where
  regs : m.regs = d.regs
  preproc : ∀ p, p ≠ .d → (d.preprocDisk p).Holds (m.preproc p) (if p = id then m.readIdx else 0)
  B : ∀ p, p ≠ .d → (d.BDisk p).Holds (m.B p) 0
  own : id ≠ .d → ∀ p, p ≠ .d → p ≠ id → m.preproc p = []
  noB : id ≠ .d → ∀ p, p ≠ .d → m.B p = []
  stored : id ≠ .d → ∀ f ∈ l, f.takesTriple = true →
    (m.triplesA f.multIdx).length = f.tripleLen conf ∧
      (m.triplesB f.multIdx).length = f.tripleLen conf ∧
        (m.triplesC f.multIdx).length = f.tripleLen conf ∧ (d.triplesDisk f.multIdx).Holds
          (m.triplesA f.multIdx ++ m.triplesB f.multIdx ++ m.triplesC f.multIdx) 0
  unused : ∀ idx, (∀ f ∈ l, f.takesTriple = true → f.multIdx ≠ idx) →
    (d.triplesDisk idx).Holds [] 0

namespace Paged

variable {conf : ProtocolConfig} {order l r : List Gate} {id : Party} {f : Gate} {m : Storage}
  {d : DiskStorage}

theorem start (h : DiskIdle m d) (hr : m.regs = d.regs) : Paged conf id [] m d := by
  rw [h.fresh] at hr ⊢
  refine ⟨hr, fun p hp => ?_, h.B, fun _ _ _ _ => rfl, fun _ _ _ => rfl, fun _ f hf => ?_,
    fun idx _ => h.triples idx⟩
  · split
    · exact h.preproc p hp
    · exact h.preproc p hp
  · cases hf

theorem withRegs (h : Paged conf id l m d) (r : Registers) :
    Paged conf id l (m.withRegs r) { d with regs := r } :=
  ⟨rfl, h.preproc, h.B, h.own, h.noB, h.stored, h.unused⟩

theorem readPreproc (h : Paged conf id l m d) (hid : id ≠ .d) {n : ℕ} {v : Vec} {m' : Storage}
    (hr : m.readPreproc id n = some (v, m')) : (d.readPreproc id n).1 = v ∧ v.length = n ∧
      Paged conf id l m' (d.readPreproc id n).2 := by
  obtain ⟨⟨x, i⟩, hx, he⟩ := Option.bind_eq_some_iff.mp hr
  cases he
  have hown := h.preproc id hid
  rw [if_pos rfl] at hown
  obtain ⟨hv, hw⟩ := hown.read hx
  refine ⟨hv, Storage.readPreproc_length hr, h.regs, fun p hp => ?_, h.B, h.own, h.noB, h.stored,
    h.unused⟩
  by_cases hpi : p = id
  · subst hpi
    simpa [DiskStorage.readPreproc] using hw
  · have hp' := h.preproc p hp
    rw [if_neg hpi] at hp' ⊢
    simpa [DiskStorage.readPreproc, hpi] using hp'

theorem storeB (h : Paged conf id l m d) (hid : id = .d) (dst : Party) (v : Vec) :
    Paged conf id l (m.storeB dst v) (d.storeB dst v) := by
  refine ⟨h.regs, h.preproc, fun p hp => ?_, h.own, fun hne => absurd hid hne,
    fun hne => absurd hid hne, h.unused⟩
  by_cases hpd : p = dst
  · subst hpd
    simpa [DiskStorage.storeB, Storage.storeB] using (h.B p hp).write v
  · simpa [DiskStorage.storeB, Storage.storeB, hpd] using h.B p hp

theorem storeVec (h : Paged conf id l m d) (hid : id = .d) (dst : Party) (v : Vec) :
    Paged conf id l (m.storeVec dst v) (d.storeVec dst v) := by
  refine ⟨h.regs, fun p hp => ?_, h.B, fun hne => absurd hid hne, fun hne => absurd hid hne,
    fun hne => absurd hid hne, h.unused⟩
  by_cases hpd : p = dst
  · subst hpd
    simpa [DiskStorage.storeVec, Storage.storeVec] using (h.preproc p hp).write v
  · simpa [DiskStorage.storeVec, Storage.storeVec, hpd] using h.preproc p hp

theorem read_all {w : FileWriter} {v : Vec} (h : w.Holds v 0) :
    (w.read (List.replicate w.size 0) w.size).1 = v := by
  have hsize : w.size = v.length := by rw [w.sized, h.content]
  rw [hsize]
  refine (h.read (i := 0) ?_).1
  rw [readChunk, if_neg (by omega), Nat.zero_add, if_pos le_rfl, List.drop_zero, List.take_length]

theorem takeDealt (h : Paged conf id l m d) (hid : id = .d) {dst : Party} (hdst : dst ≠ .d) :
    (d.takeDealt dst).1 = m.preproc dst ++ m.B dst ∧
      Paged conf id l (m.sentTo dst) (d.takeDealt dst).2 := by
  have hpre := h.preproc dst hdst
  rw [if_neg fun he => hdst (he.trans hid)] at hpre
  refine ⟨congrArg₂ _ (read_all hpre) (read_all (h.B dst hdst)), h.regs, fun p hp => ?_,
    fun p hp => ?_, fun hne => absurd hid hne, fun hne => absurd hid hne,
    fun hne => absurd hid hne, h.unused⟩
  · by_cases hpd : p = dst
    · subst hpd
      rw [if_neg fun he => hp (he.trans hid)]
      simpa [DiskStorage.takeDealt, Storage.sentTo] using FileWriter.reset_holds _
    · simpa [DiskStorage.takeDealt, Storage.sentTo, hpd] using h.preproc p hp
  · by_cases hpd : p = dst
    · subst hpd
      simpa [DiskStorage.takeDealt, Storage.sentTo] using FileWriter.reset_holds _
    · simpa [DiskStorage.takeDealt, Storage.sentTo, hpd] using h.B p hp

theorem skip (h : Paged conf id l m d) (hf : id = .d ∨ f.takesTriple = false) :
    Paged conf id (l ++ [f]) m d := by
  refine ⟨h.regs, h.preproc, h.B, h.own, h.noB, fun hid x hx ht => ?_, fun idx hidx =>
    h.unused idx fun x hx => hidx x (List.mem_append_left _ hx)⟩
  rcases List.mem_append.mp hx with hx | hx
  · exact h.stored hid x hx ht
  · obtain rfl := List.mem_singleton.mp hx
    rcases hf with hf | hf
    · exact absurd hf hid
    · rw [ht] at hf
      cases hf

theorem storeTriples (hd : Dealable conf order) (ho : order = l ++ f :: r) (h : Paged conf id l m d)
    (hid : id ≠ .d) (hf : f.takesTriple = true) {a b c : Vec} (ha : a.length = f.tripleLen conf)
    (hb : b.length = f.tripleLen conf) (hc : c.length = f.tripleLen conf) :
    Paged conf id (l ++ [f]) (m.storeTriples a b c f.multIdx) (d.storeTriples a b c f.multIdx) := by
  have hne : ∀ x ∈ l, x.takesTriple = true → x.multIdx ≠ f.multIdx := by
    intro x hx hxt
    have hp := hd.triples
    rw [ho, List.pairwise_append] at hp
    exact hp.2.2 x hx f (List.mem_cons_self ..) hxt hf
  refine ⟨h.regs, h.preproc, h.B, h.own, h.noB, fun _ x hx hxt => ?_, fun idx hidx => ?_⟩
  · rcases List.mem_append.mp hx with hx | hx
    · simpa [Storage.storeTriples, DiskStorage.storeTriples, hne x hx hxt] using
        h.stored hid x hx hxt
    · obtain rfl := List.mem_singleton.mp hx
      have hw := (((h.unused x.multIdx hne).write a).write b).write c
      simpa [Storage.storeTriples, DiskStorage.storeTriples, ha, hb, hc] using hw
  · have hidx' : idx ≠ f.multIdx := fun he => hidx f (by simp) hf he.symm
    simpa [DiskStorage.storeTriples, hidx'] using
      h.unused idx fun x hx => hidx x (List.mem_append_left _ hx)

theorem loadTriples (h : Paged conf id order m d) (hid : id ≠ .d) (hf : f ∈ order)
    (ht : f.takesTriple = true) :
    (d.loadTriples f.multIdx (f.tripleLen conf)).1 = m.triples f ∧
      Paged conf id order m (d.loadTriples f.multIdx (f.tripleLen conf)).2 := by
  obtain ⟨ha, hb, hc, hw⟩ := h.stored hid f hf ht
  obtain ⟨w1, w2, w3, h1, h2, h3, hw3⟩ := hw.read_three ha hb hc
  have hload : d.loadTriples f.multIdx (f.tripleLen conf) = (m.triples f,
      { d with triplesDisk := Function.update d.triplesDisk f.multIdx w3 }) := by
    simp only [DiskStorage.loadTriples, h1, h2, h3]
    rfl
  rw [hload]
  refine ⟨rfl, h.regs, h.preproc, h.B, h.own, h.noB, fun _ x hx hxt => ?_, fun idx hidx => ?_⟩
  · obtain ⟨ha', hb', hc', hw'⟩ := h.stored hid x hx hxt
    refine ⟨ha', hb', hc', ?_⟩
    by_cases hxf : x.multIdx = f.multIdx
    · rw [hxf]
      simpa using hw3
    · simpa [hxf] using hw'
  · have hidx' : idx ≠ f.multIdx := fun he => hidx f hf ht he.symm
    simpa [hidx'] using h.unused idx hidx

theorem recvVec (h : DiskIdle m d) (hr : m.regs = d.regs) (hid : id ≠ .d) (blockSize : ℕ) (v : Vec) :
    Paged conf id [] { m with preproc := Function.update m.preproc id v }
      (d.recvVec blockSize id v) := by
  have hs : Paged conf id [] m d := Paged.start h hr
  have hm : ∀ p, m.preproc p = [] := fun p => by rw [h.fresh]; rfl
  have hidx : m.readIdx = 0 := by rw [h.fresh]; rfl
  refine ⟨hr, fun p hp => ?_, hs.B, fun _ p _ hpi => ?_, hs.noB, (fun _ f hf => by cases hf),
    hs.unused⟩
  · by_cases hpi : p = id
    · subst hpi
      have hw := (h.preproc p hp).recvVec blockSize v
      simpa [DiskStorage.recvVec, hidx] using hw
    · simpa [DiskStorage.recvVec, hpi, hm p] using h.preproc p hp
  · simp [hpi, hm p]

end Paged

theorem DiskIdle.init (rngs rngs' : RandomGenerators) :
    DiskIdle (Storage.init rngs) (DiskStorage.init rngs') :=
  ⟨rfl, rfl, fun _ _ => FileWriter.empty_holds, fun _ _ => FileWriter.empty_holds,
    fun _ => FileWriter.empty_holds⟩

theorem DiskIdle.createRngs {m : Storage} {d : DiskStorage} (h : DiskIdle m d)
    (g : RandomGenerators) : DiskIdle { m with rngs := g } { d with regs := { d.regs with rngs := g } } ∧
      ({ m with rngs := g } : Storage).regs = { d.regs with rngs := g } := by
  have hm := h.fresh
  have hd := h.cleared
  refine ⟨⟨by rw [hm]; rfl, by rw [hd]; rfl, h.preproc, h.B, h.triples⟩, ?_⟩
  rw [hm, hd]
  rfl

theorem disk_mirrors {conf : ProtocolConfig} {order : List Gate} (hd : Dealable conf order)
    (id : Party) : Mirrors conf order id DiskIdle (fun m d => DiskIdle m d ∧ m.regs = d.regs)
      (Paged conf id) where
  createRngs g m d h _ _ he := by
    cases he
    exact ⟨_, rfl, h.createRngs g⟩
  start _ _ _ h := Paged.start h.1 h.2
  recvVec hid blockSize v m d h _ _ he := by
    cases he
    exact ⟨_, rfl, Paged.recvVec h.1 h.2 hid blockSize v⟩
  onRegs l A f m d h a m' he := by
    cases he
    refine ⟨_, ?_, h.withRegs _⟩
    exact congrArg (fun r : Registers => some ((f r.storage).1,
      ({ d with regs := (f r.storage).2.regs } : DiskStorage))) h.regs.symm
  draw l server stream role n m d h ws m' he := by
    have hn := Storage.draw_length he
    cases he
    refine ⟨_, ?_, hn, h.withRegs { m.regs with rngs := (m.rngs.draw id server stream n).2 }⟩
    exact congrArg (fun r : Registers => some ((r.rngs.draw id server stream n).1,
      ({ d with regs := { r with rngs := (r.rngs.draw id server stream n).2 } } : DiskStorage)))
      h.regs.symm
  readPreproc hid l n m d h v m' he := by
    obtain ⟨hv, hn, hp⟩ := h.readPreproc hid he
    exact ⟨_, congrArg (fun x => some (x, (d.readPreproc id n).2)) hv, hn, hp⟩
  storeB hid l dst v m d h _ _ he := by
    cases he
    exact ⟨_, rfl, h.storeB hid dst v⟩
  storeVec hid l dst v m d h _ _ he := by
    cases he
    exact ⟨_, rfl, h.storeVec hid dst v⟩
  takeDealt hid dst hdst m d h v m' he := by
    cases he
    obtain ⟨hv, hp⟩ := h.takeDealt hid hdst
    exact ⟨_, congrArg (fun x => some (x, (d.takeDealt dst).2)) hv, hp⟩
  storeTriples hid l r f ho hf a b c ha hb hc m d h _ _ he := by
    cases he
    exact ⟨_, rfl, h.storeTriples hd ho hid hf ha hb hc⟩
  skip _ hf _ _ h := h.skip hf
  loadTriples hid f hf ht m d h k m' he := by
    cases he
    obtain ⟨hk, hp⟩ := h.loadTriples hid hf ht
    exact ⟨_, congrArg (fun x => some (x, (d.loadTriples f.multIdx (f.tripleLen conf)).2)) hk, hp⟩

end GraphMpc
