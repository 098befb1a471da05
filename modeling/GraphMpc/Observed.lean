import GraphMpc.Mirrors

namespace GraphMpc

open Refinement Backend

structure Observed (S : Type) where
  store : S
  reads : List (List Vec)
  role : Option Party

namespace Observed

variable {S T A : Type} {R : S → T → Prop} {Q : A → S → T → Prop}

def start (s : S) : Observed S := ⟨s, [], none⟩

def lift (f : Prog S A) : Prog (Observed S) A := fun o =>
  (f o.store).map fun p => (p.1, { o with store := p.2 })

def log (entry : A → List Vec) (f : Prog S A) : Prog (Observed S) A := fun o =>
  (f o.store).map fun p => (p.1, { o with store := p.2, reads := o.reads ++ [entry p.1] })

-- the assertions on i_am_D, i_am_P0 and i_am_P1
def takeRole (id : Party) (f : Prog S A) : Prog (Observed S) A := fun o =>
  if o.role = none then (f o.store).map fun p => (p.1, { o with store := p.2, role := some id })
  else none

def dropRole (f : Prog S A) : Prog (Observed S) A := fun o =>
  (f o.store).map fun p => (p.1, { o with store := p.2, role := none })

end Observed

open Observed

instance {S : Type} [Backend S] : Backend (Observed S) where
  regs o := regs o.store
  withRegs o r := { o with store := withRegs o.store r }
  createRngs id g := takeRole id (createRngs id g)
  draw id server stream role n := lift (draw id server stream role n)
  readPreproc id n := log (fun v => [v]) (readPreproc id n)
  storeB dst v := lift (storeB dst v)
  storeVec dst v := lift (storeVec dst v)
  storeTriples a b c idx := lift (storeTriples a b c idx)
  loadTriples idx n := log (fun k => [k.a, k.b, k.c]) (loadTriples idx n)
  takeDealt dst := lift (takeDealt dst)
  recvVec blockSize id v := lift (recvVec blockSize id v)
  reset id := dropRole (reset id)

section alike

variable {S T A : Type} {R : S → T → Prop} {Q : A → S → T → Prop} {f : Prog S A} {g : Prog T A}
  {earlier : List (List Vec)}

def Alike (earlier : List (List Vec)) (R : S → T → Prop) (o : Observed S) (p : Observed T) : Prop :=
  R o.store p.store ∧ p.reads = earlier ++ o.reads ∧ o.role = p.role

theorem follows_lift (h : Follows R f g Q) :
    Follows (Alike earlier R) (lift f) (lift g) fun a => Alike earlier (Q a) := by
  intro o p ho a o' hf
  obtain ⟨⟨b, s⟩, hs, he⟩ := Option.map_eq_some_iff.mp hf
  cases he
  obtain ⟨t, ht, hq⟩ := h _ _ ho.1 _ _ hs
  exact ⟨{ p with store := t }, by rw [Observed.lift, ht]; rfl, hq, ho.2⟩

theorem follows_log (h : Follows R f g Q) (entry : A → List Vec) :
    Follows (Alike earlier R) (log entry f) (log entry g) fun a => Alike earlier (Q a) := by
  intro o p ho a o' hf
  obtain ⟨⟨b, s⟩, hs, he⟩ := Option.map_eq_some_iff.mp hf
  cases he
  obtain ⟨t, ht, hq⟩ := h _ _ ho.1 _ _ hs
  refine ⟨{ p with store := t, reads := p.reads ++ [entry b] }, by rw [Observed.log, ht]; rfl, hq,
    ?_, ho.2.2⟩
  exact (congrArg (· ++ [entry b]) ho.2.1).trans (List.append_assoc ..)

theorem follows_takeRole (h : Follows R f g Q) (id : Party) :
    Follows (Alike earlier R) (takeRole id f) (takeRole id g) fun a => Alike earlier (Q a) := by
  intro o p ho a o' hf
  unfold Observed.takeRole at hf
  split at hf
  · rename_i hr
    obtain ⟨⟨b, s⟩, hs, he⟩ := Option.map_eq_some_iff.mp hf
    cases he
    obtain ⟨t, ht, hq⟩ := h _ _ ho.1 _ _ hs
    refine ⟨{ p with store := t, role := some id }, ?_, hq, ho.2.1, rfl⟩
    rw [Observed.takeRole, if_pos (ho.2.2.symm.trans hr), ht]
    rfl
  · cases hf

variable [Backend S] [Backend T] {conf : ProtocolConfig} {order : List Gate} {id : Party}
  {idle seeded : S → T → Prop} {I : List Gate → S → T → Prop}

theorem Mirrors.observed (h : Mirrors conf order id idle seeded I) (earlier : List (List Vec)) :
    Mirrors conf order id (Alike earlier idle) (Alike earlier seeded)
      fun l => Alike earlier (I l) where
  createRngs g := follows_takeRole (h.createRngs g) id
  start hid _ _ hr := ⟨h.start hid _ _ hr.1, hr.2⟩
  recvVec hid blockSize v := follows_lift (h.recvVec hid blockSize v)
  onRegs l _ f := follows_lift (h.onRegs l f)
  draw l server stream role n := by
    refine (follows_lift (h.draw l server stream role n)).mono (fun _ _ hr => hr) fun _ o p hq => ?_
    exact ⟨hq.1.1, hq.1.2, hq.2⟩
  readPreproc hid l n := by
    refine (follows_log (h.readPreproc hid l n) _).mono (fun _ _ hr => hr) fun v o p hq => ?_
    exact ⟨hq.1.1, hq.1.2, hq.2⟩
  storeB hid l dst v := follows_lift (h.storeB hid l dst v)
  storeVec hid l dst v := follows_lift (h.storeVec hid l dst v)
  takeDealt hid dst hdst := follows_lift (h.takeDealt hid dst hdst)
  storeTriples hid _ _ _ ho hf _ _ _ ha hb hc := follows_lift (h.storeTriples hid ho hf ha hb hc)
  skip ho hf _ _ hr := ⟨h.skip ho hf _ _ hr.1, hr.2⟩
  loadTriples hid _ hf ht := follows_log (h.loadTriples hid hf ht) _

end alike

section erasure

variable {S T A : Type} {R : S → T → Prop} {Q : A → S → T → Prop} {f : Prog S A} {g : Prog T A}

def Under (s : S) (o : Observed S) : Prop := o.store = s

theorem lift_seen (h : Follows R f g Q) :
    Follows (fun s o => R s (store o)) f (lift g) fun a s o => Q a s (store o) := by
  intro s o ho a s' hf
  obtain ⟨t, ht, hq⟩ := h s o.store ho a s' hf
  exact ⟨{ o with store := t }, by rw [Observed.lift, ht]; rfl, hq⟩

theorem log_seen (h : Follows R f g Q) (entry : A → List Vec) :
    Follows (fun s o => R s (store o)) f (log entry g) fun a s o => Q a s (store o) := by
  intro s o ho a s' hf
  obtain ⟨t, ht, hq⟩ := h s o.store ho a s' hf
  exact ⟨{ o with store := t, reads := o.reads ++ [entry a] },
    by rw [Observed.log, ht]; rfl, hq⟩

variable [Backend S] [Backend T] {conf : ProtocolConfig} {order : List Gate} {id : Party}
  {idle seeded : S → T → Prop} {I : List Gate → S → T → Prop}

theorem Mirrors.seen (h : Mirrors conf order id idle seeded I) :
    Mirrors conf order id (fun s o => idle s (store o) ∧ o.role = none)
      (fun s o => seeded s (store o)) fun l s o => I l s (store o) where
  createRngs g s o ho a s' hf := by
    obtain ⟨t, ht, hq⟩ := h.createRngs g s o.store ho.1 a s' hf
    exact ⟨{ o with store := t, role := some id }, (if_pos ho.2).trans (by rw [ht]; rfl), hq⟩
  start hid s o ho := h.start hid s o.store ho
  recvVec hid blockSize v := lift_seen (h.recvVec hid blockSize v)
  onRegs l _ f s o ho a s' hf := by
    obtain ⟨t, ht, hq⟩ := h.onRegs l f s o.store ho a s' hf
    have hseen := congrArg (Option.map fun p => (p.1, { o with store := p.2 })) ht
    exact ⟨{ o with store := t }, hseen, hq⟩
  draw l server stream role n := lift_seen (h.draw l server stream role n)
  readPreproc hid l n := log_seen (h.readPreproc hid l n) _
  storeB hid l dst v := lift_seen (h.storeB hid l dst v)
  storeVec hid l dst v := lift_seen (h.storeVec hid l dst v)
  takeDealt hid dst hdst := lift_seen (h.takeDealt hid dst hdst)
  storeTriples hid _ _ _ ho hf _ _ _ ha hb hc := lift_seen (h.storeTriples hid ho hf ha hb hc)
  skip ho hf s o hr := h.skip ho hf s o.store hr
  loadTriples hid _ hf ht := log_seen (h.loadTriples hid hf ht) _

theorem memory_mirrors (conf : ProtocolConfig) (order : List Gate) (id : Party) :
    Mirrors conf order id (fun (s t : Storage) => t = s) (fun s t => t = s)
      fun _ s t => t = s where
  createRngs _ _ _ ho _ _ hf := ⟨_, ho ▸ hf, rfl⟩
  start _ _ _ hr := hr
  recvVec _ _ _ _ _ ho _ _ hf := ⟨_, ho ▸ hf, rfl⟩
  onRegs _ _ _ _ _ ho _ _ hf := ⟨_, ho ▸ hf, rfl⟩
  draw _ _ _ _ _ _ _ ho _ _ hf := ⟨_, ho ▸ hf, Storage.draw_length hf, rfl⟩
  readPreproc _ _ _ _ _ ho _ _ hf := ⟨_, ho ▸ hf, Storage.readPreproc_length hf, rfl⟩
  storeB _ _ _ _ _ _ ho _ _ hf := ⟨_, ho ▸ hf, rfl⟩
  storeVec _ _ _ _ _ _ ho _ _ hf := ⟨_, ho ▸ hf, rfl⟩
  takeDealt _ _ _ _ _ ho _ _ hf := ⟨_, ho ▸ hf, rfl⟩
  storeTriples _ _ _ _ _ _ _ _ _ _ _ _ _ _ ho _ _ hf := ⟨_, ho ▸ hf, rfl⟩
  skip _ _ _ _ hr := hr
  loadTriples _ _ _ _ _ _ ho _ _ hf := ⟨_, ho ▸ hf, rfl⟩

theorem memory_observed (conf : ProtocolConfig) (order : List Gate) (id : Party) :
    Mirrors conf order id (fun (s : Storage) o => Under s o ∧ o.role = none) Under fun _ => Under :=
  (memory_mirrors conf order id).seen

end erasure

end GraphMpc
