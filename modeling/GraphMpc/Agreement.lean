import GraphMpc.Completion

namespace GraphMpc

open Refinement Backend Circuit

abbrev Reads : Type := Party → List (List Vec)

namespace Observed

variable {S T A : Type}

def visible (p : A × (Party → Observed S)) : A × Reads := (p.1, fun id => (p.2 id).reads)

def view (run : Prog (Party → Observed S) A) (s : Party → S) : Option (A × Reads) :=
  (run fun id => .start (s id)).map visible

end Observed

open Observed

def joined (earlier : Reads) (shown : List (Transcript × Reads)) : List Transcript × Reads :=
  (shown.map Prod.fst, fun id => earlier id ++ (shown.map fun q => q.2 id).flatten)

theorem joined_cons (earlier : Reads) (q : Transcript × Reads) (shown : List (Transcript × Reads)) :
    joined earlier (q :: shown) =
      (q.1 :: (joined (fun id => earlier id ++ q.2 id) shown).1,
        (joined (fun id => earlier id ++ q.2 id) shown).2) := by
  refine Prod.ext rfl (funext fun id => ?_)
  exact (List.append_assoc ..).symm

def Shows (blockSize : ℕ) (conf : ProtocolConfig) (circ : Circuit) (generator : GraphGenerator)
    (rngs : Party → RandomGenerators) (g : Streams)
    (shown : Transcript × (Party → Observed Storage)) : Prop :=
  session blockSize conf circ generator g (fun id => Observed.start (Storage.init (rngs id))) =
    some shown

theorem Shows.mapM {blockSize : ℕ} {conf : ProtocolConfig} {circ : Circuit}
    {generator : GraphGenerator} {rngs : Party → RandomGenerators} {gs : List Streams}
    {shown : List (Transcript × (Party → Observed Storage))}
    (h : List.Forall₂ (Shows blockSize conf circ generator rngs) gs shown) :
    (gs.mapM fun g => view (session blockSize conf circ generator g)
      (fun id => Storage.init (rngs id))) = some (shown.map visible) := by
  induction h with
  | nil => rfl
  | cons hg _ ih =>
    rw [List.mapM_cons, ih, Observed.view, hg]
    rfl

section agreement

variable {T A : Type} {conf : ProtocolConfig} {circ : Circuit} {graphs : Party → Graph}
  {g : Streams} {generator : GraphGenerator} {idle seeded : Party → Storage → T → Prop}
  {R : Party → List Gate → Storage → T → Prop} {rngs : Party → RandomGenerators}

theorem fails_or_shows {f0 : Prog (Party → Storage) A} {f : Prog (Party → Observed Storage) A}
    {k : Prog (Party → Observed T) A} {Q : A → (Party → Storage) → (Party → Observed Storage) → Prop}
    {u : Party → Observed T}
    (hunder : Follows (Each fun _ s o => Under s o ∧ o.role = none) f0 f Q)
    (hf : Follows (Each fun id => Alike (u id).reads (idle id)) f k fun _ => Each fun id =>
      Alike (u id).reads (R id circ.circ.flatten))
    (hr : Returns (Started (fun id s o => idle id s (store o) ∧ o.role = none) rngs) f0 k)
    (hu : ∀ id, idle id (Storage.init (rngs id)) (u id).store ∧ (u id).role = none) :
    (f (fun id => .start (Storage.init (rngs id))) = none ∧ k u = none) ∨
      ∃ a o v, f (fun id => .start (Storage.init (rngs id))) = some (a, o) ∧ k u = some (a, v) ∧
        ∀ id, Alike (u id).reads (R id circ.circ.flatten) (o id) (v id) := by
  cases hrun : f fun id => .start (Storage.init (rngs id)) with
  | none =>
    refine Or.inl ⟨rfl, Option.eq_none_iff_forall_ne_some.mpr fun q hq => ?_⟩
    obtain ⟨⟨a, m⟩, hm⟩ := hr _ u ⟨hu, rfl⟩ q hq
    obtain ⟨o, ho, -⟩ := hunder _ (fun id => .start (Storage.init (rngs id)))
      (fun id => ⟨rfl, rfl⟩) a m hm
    rw [hrun] at ho
    cases ho
  | some p =>
    obtain ⟨v, hv, hq⟩ := hf _ u (fun id => ⟨(hu id).1, (List.append_nil _).symm, (hu id).2.symm⟩)
      p.1 p.2 hrun
    exact Or.inr ⟨p.1, p.2, v, rfl, hv, hq⟩

theorem views_agree {f : Prog (Party → Observed Storage) A} {k : Prog (Party → Observed T) A}
    {l : List Gate} {t : Party → T}
    (h : (f (fun id => .start (Storage.init (rngs id))) = none ∧
        k (fun id => .start (t id)) = none) ∨
      ∃ a o v, f (fun id => .start (Storage.init (rngs id))) = some (a, o) ∧
        k (fun id => .start (t id)) = some (a, v) ∧ ∀ id, Alike [] (R id l) (o id) (v id)) :
    view f (fun id => Storage.init (rngs id)) = view k t := by
  unfold Observed.view
  obtain ⟨hf, hk⟩ | ⟨a, o, v, hf, hk, hq⟩ := h
  · rw [hf, hk]
    rfl
  · rw [hf, hk]
    exact congrArg some (Prod.ext rfl (funext fun id => (hq id).2.1.symm))

variable [Backend T]
  (h : ∀ id, Mirrors conf circ.circ.flatten id (idle id) (seeded id) (R id))
  (hm : ∀ f ∈ circ.circ.flatten, f.type ≠ .mul) (hp : Provisioned conf circ) (blockSize : ℕ)

include hm hp

theorem session_rested {a : Transcript} {o : Party → Observed Storage}
    (hs : session blockSize conf circ generator g (fun id => .start (Storage.init (rngs id))) =
      some (a, o)) (id : Party) : Rested id (o id).store := by
  intro hid
  obtain ⟨hf, hr⟩ := session_completes (fun id => (memory_mirrors conf circ.circ.flatten id).seen)
    hm hp blockSize rngs generator
  have hstart : Started (fun _ s o => store o = s ∧ o.role = none) rngs
      (fun id => Storage.init (rngs id)) (fun id => .start (Storage.init (rngs id))) :=
    ⟨fun id => ⟨rfl, rfl⟩, rfl⟩
  obtain ⟨⟨b, m⟩, hrun⟩ := hr _ _ hstart _ hs
  obtain ⟨v, hv, heq, hl⟩ := hf _ _ hstart b m hrun
  obtain ⟨rfl, rfl⟩ := Prod.mk.inj (Option.some.inj (hs.symm.trans hv))
  have hstore : (o id).store = m id := heq id
  rw [hstore]
  exact Option.some.inj (hl id hid)

include h

theorem round_agrees (graphs : Party → Graph) (g : Streams) {t : Party → T}
    (ht : ∀ id, idle id (Storage.init (rngs id)) (t id)) :
    view (round blockSize conf circ graphs g) (fun id => Storage.init (rngs id)) =
      view (round blockSize conf circ graphs g) t :=
  views_agree (fails_or_shows (u := fun id => .start (t id))
    (round_follows (memory_observed conf _) hm blockSize)
    (round_follows (fun id => (h id).observed []) hm blockSize)
    (round_completes (fun id => (h id).seen) hm hp blockSize rngs) fun id => ⟨ht id, rfl⟩)

variable (generator rngs)

theorem session_fails_or_shows {u : Party → Observed T}
    (hu : ∀ id, idle id (Storage.init (rngs id)) (u id).store ∧ (u id).role = none) :
    (session blockSize conf circ generator g (fun id =>
        Observed.start (Storage.init (rngs id))) = none ∧
      session blockSize conf circ generator g u = none) ∨
    ∃ a o v, session blockSize conf circ generator g (fun id =>
        Observed.start (Storage.init (rngs id))) = some (a, o) ∧
      session blockSize conf circ generator g u = some (a, v) ∧
        ∀ id, Alike (u id).reads (R id circ.circ.flatten) (o id) (v id) :=
  fails_or_shows (session_follows (memory_observed conf _) hm blockSize generator g)
    (session_follows (fun id => (h id).observed (u id).reads) hm blockSize generator g)
    (session_completes (fun id => (h id).seen) hm hp blockSize rngs generator).2 hu

theorem session_agrees {t : Party → T} (ht : ∀ id, idle id (Storage.init (rngs id)) (t id)) :
    view (session blockSize conf circ generator g) (fun id => Storage.init (rngs id)) =
      view (session blockSize conf circ generator g) t :=
  views_agree (session_fails_or_shows generator rngs h hm hp blockSize fun id => ⟨ht id, rfl⟩)

theorem benchmark_agrees (hreset : ∀ id m t, R id circ.circ.flatten m t → Rested id m →
      ∃ t', reset id t = some ((), t') ∧ ∀ rngs, idle id (Storage.init rngs) t')
    (gs : List Streams) (u : Party → Observed T)
    (hu : ∀ id, (∀ rngs, idle id (Storage.init rngs) (u id).store) ∧ (u id).role = none) :
    (benchmark blockSize conf generator circ gs u).map visible =
      (gs.mapM fun g => view (session blockSize conf circ generator g)
        (fun id => Storage.init (rngs id))).map (joined fun id => (u id).reads) := by
  induction gs generalizing u with
  | nil => exact congrArg some (Prod.ext rfl (funext fun id => (List.append_nil _).symm))
  | cons g gs ih =>
    rw [List.mapM_cons, benchmark, bind_apply]
    obtain ⟨hf, hk⟩ | ⟨a, o, v, hf, hk, hq⟩ := session_fails_or_shows (g := g)
      generator rngs h hm hp blockSize fun id => ⟨(hu id).1 _, (hu id).2⟩
    · rw [hk, Observed.view, hf]
      rfl
    · choose w hw hidle using fun id => hreset id _ _ (hq id).1
        (session_rested hm hp blockSize hf id)
      let next : Party → Observed T := fun id => { v id with store := w id, role := none }
      have hnext : resetAll v = some ((), next) := resetAll_apply fun id =>
        congrArg (Option.map _) (hw id)
      have hreads : ∀ id, (next id).reads = (u id).reads ++ (o id).reads := fun id => (hq id).2.1
      have hview : view (session blockSize conf circ generator g)
          (fun id => Storage.init (rngs id)) = some (a, fun id => (o id).reads) :=
        congrArg (Option.map visible) hf
      have hrest := ih next fun id => ⟨hidle id, rfl⟩
      rw [funext hreads] at hrest
      rw [hk, Option.bind_some, bind_apply, hnext, Option.bind_some, benchmark_padded, bind_apply,
        hview]
      dsimp only
      cases hl : gs.mapM fun g => view (session blockSize conf circ generator g)
          (fun id => Storage.init (rngs id)) with
      | none =>
        rw [hl] at hrest
        rw [Option.map_eq_none_iff.mp hrest]
        rfl
      | some l =>
        rw [hl] at hrest
        obtain ⟨p, hb, he⟩ := Option.map_eq_some_iff.mp hrest
        rw [hb]
        have hfirst := congrArg (fun x : List Transcript × Reads => (a :: x.1, x.2)) he
        exact congrArg some (hfirst.trans
          (joined_cons (fun id => (u id).reads) (a, fun id => (o id).reads) l).symm)

theorem benchmark_shown (hreset : ∀ id m t, R id circ.circ.flatten m t → Rested id m →
      ∃ t', reset id t = some ((), t') ∧ ∀ rngs, idle id (Storage.init rngs) t')
    {gs : List Streams} {shown : List (Transcript × (Party → Observed Storage))}
    (hs : List.Forall₂ (Shows blockSize conf circ generator rngs) gs shown) {t : Party → T}
    (ht : ∀ id rngs, idle id (Storage.init rngs) (t id)) :
    ∃ v, benchmark blockSize conf generator circ gs (fun id => Observed.start (t id)) =
        some (shown.map Prod.fst, v) ∧
      ∀ id, (v id).reads = (shown.map fun q => (q.2 id).reads).flatten := by
  have hall := benchmark_agrees generator rngs h hm hp blockSize hreset gs
    (fun id => .start (t id)) fun id => ⟨ht id, rfl⟩
  rw [Shows.mapM hs] at hall
  obtain ⟨⟨ts, v⟩, hb, he⟩ := Option.map_eq_some_iff.mp hall
  obtain ⟨hts, hv⟩ := Prod.mk.inj he
  rw [List.map_map] at hts
  refine ⟨v, hb.trans (congrArg (fun ts => some (ts, v)) hts), fun id => ?_⟩
  refine (congrFun hv id).trans ?_
  rw [List.map_map]
  rfl

end agreement

end GraphMpc
