import Mathlib.Algebra.BigOperators.Group.List.Defs
import Mathlib.Algebra.GroupWithZero.Nat
import Mathlib.Data.DFinsupp.WellFounded
import Mathlib.Data.List.Perm.Basic
import Mathlib.Logic.Function.Basic

-- deterministic processes that exchange messages over first-in first-out channels

namespace Processes

universe u

section confluence

variable {S P : Type*} {step : S → P → Option S} {s t z : S}

def Stuck (step : S → P → Option S) (s : S) : Prop := ∀ p, step s p = none

def Commutes (step : S → P → Option S) : Prop := ∀ s p q s1 s2, p ≠ q → step s p = some s1 →
  step s q = some s2 → ∃ t, step s1 q = some t ∧ step s2 p = some t

structure Settles (step : S → P → Option S) (s z : S) (sched : List P) : Prop where
  stuck : Stuck step z
  run : sched.foldlM step s = some z
  within : ∀ (taken : List P) t, taken.foldlM step s = some t →
    ∃ rest : List P, rest.foldlM step t = some z ∧ (taken ++ rest).Perm sched

theorem Commutes.drop [DecidableEq P] (hc : Commutes step) {p : P} {sched : List P} (hz : Stuck step z)
    (hrun : sched.foldlM step s = some z) (hp : step s p = some t) :
    p ∈ sched ∧ (sched.erase p).foldlM step t = some z := by
  induction sched generalizing s t with
  | nil =>
    rw [Option.some.inj hrun, hz p] at hp
    cases hp
  | cons q sched ih =>
    obtain ⟨s1, hq, hrest⟩ := Option.bind_eq_some_iff.mp hrun
    rcases eq_or_ne p q with rfl | hpq
    · obtain rfl : t = s1 := Option.some.inj (hp.symm.trans hq)
      exact ⟨List.mem_cons_self .., by rwa [List.erase_cons_head]⟩
    · obtain ⟨t', ht, ht'⟩ := hc s p q t s1 hpq hp hq
      obtain ⟨hmem, hrun'⟩ := ih hrest ht'
      refine ⟨List.mem_cons_of_mem _ hmem, ?_⟩
      rw [List.erase_cons_tail (by simpa using hpq.symm), List.foldlM_cons, ht]
      exact hrun'

theorem Commutes.settles [DecidableEq P] (hc : Commutes step) {sched : List P} (hz : Stuck step z)
    (hrun : sched.foldlM step s = some z) : Settles step s z sched := by
  refine ⟨hz, hrun, fun taken t h => ?_⟩
  induction taken generalizing s sched with
  | nil => exact ⟨sched, Option.some.inj h ▸ hrun, List.Perm.refl _⟩
  | cons p taken ih =>
    obtain ⟨s1, hp, hrest⟩ := Option.bind_eq_some_iff.mp h
    obtain ⟨hmem, hrun'⟩ := hc.drop hz hrun hp
    obtain ⟨rest, hz', hperm⟩ := ih hrun' hrest
    exact ⟨rest, hz', (hperm.cons p).trans (List.perm_cons_erase hmem).symm⟩

namespace Settles

variable {sched taken : List P}

theorem length_le (h : Settles step s z sched) (ht : taken.foldlM step s = some t) :
    taken.length ≤ sched.length := by
  obtain ⟨rest, -, hperm⟩ := h.within taken t ht
  rw [← hperm.length_eq, List.length_append]
  exact Nat.le_add_right ..

end Settles

end confluence

-- put waits for room in the channel, get for a message, and a failed process stays where it is
inductive Proc (P L : Type*) (M R : Type u) where
  | done (r : R)
  | fail
  | put (dst : P) (line : L) (m : M) (next : Proc P L M R)
  | get (src : P) (line : L) (next : M → Proc P L M R)

namespace Proc

variable {P L : Type*} {M R R' : Type u}

def andThen : Proc P L M R → (R → Proc P L M R') → Proc P L M R'
  | done r, k => k r
  | fail, _ => fail
  | put dst line m next, k => put dst line m (next.andThen k)
  | get src line next, k => get src line fun m => (next m).andThen k

instance : Monad (Proc P L M) where
  pure := done
  bind := andThen

instance : LawfulMonad (Proc P L M) := LawfulMonad.mk' _
  (fun x => by
    induction x with
    | done r => rfl
    | fail => rfl
    | put dst line m next ih => exact congrArg (put dst line m) ih
    | get src line next ih => exact congrArg (get src line) (funext ih))
  (fun _ _ => rfl)
  (fun x f g => by
    induction x with
    | done r => rfl
    | fail => rfl
    | put dst line m next ih => exact congrArg (put dst line m) ih
    | get src line next ih => exact congrArg (get src line) (funext ih))

@[simp] theorem done_bind (r : R) (k : R → Proc P L M R') : done r >>= k = k r := rfl

@[simp] theorem put_bind (dst : P) (line : L) (m : M) (next : Proc P L M R)
    (k : R → Proc P L M R') : put dst line m next >>= k = put dst line m (next >>= k) := rfl

@[simp] theorem get_bind (src : P) (line : L) (next : M → Proc P L M R)
    (k : R → Proc P L M R') : get src line next >>= k = get src line fun m => next m >>= k := rfl

def ofOption : Option R → Proc P L M R
  | some r => done r
  | none => fail

def putAll (dst : P) (line : L) : List M → Proc P L M PUnit
  | [] => done ⟨⟩
  | m :: ms => put dst line m (putAll dst line ms)

def getAll (src : P) (line : L) : ℕ → Proc P L M (List M)
  | 0 => done []
  | n + 1 => get src line fun m => do return m :: (← getAll src line n)

def swap (peer : P) (out inward : L) (ms : List M) : Proc P L M (List M) := do
  putAll peer out ms
  getAll peer inward ms.length

def swapAll (peer : P) (out inward : L) (blocks : List (List M)) : Proc P L M (List (List M)) :=
  blocks.mapM (swap peer out inward)

theorem putAll_append (dst : P) (line : L) (ms ms' : List M) :
    putAll dst line (ms ++ ms') = putAll dst line ms >>= fun _ => putAll dst line ms' := by
  induction ms with
  | nil => rfl
  | cons m ms ih => exact congrArg (put dst line m) ih

theorem forM_putAll {E : Type*} (dst : P) (line : L) (l : List E) (f : E → List M) :
    l.forM (fun e => putAll dst line (f e)) = putAll dst line (l.flatMap f) := by
  induction l with
  | nil => rfl
  | cons e l ih =>
    rw [List.flatMap_cons, putAll_append, ← ih]
    rfl

theorem putAll_split (dst : P) (line : L) {ms : List M} {n : ℕ} (f : PUnit → Proc P L M R)
    (hn : n < ms.length) : ∃ m x, putAll dst line ms >>= f =
      putAll dst line (ms.take n) >>= fun _ => put dst line m x := by
  refine ⟨ms[n], putAll dst line (ms.drop (n + 1)) >>= f, ?_⟩
  conv_lhs => rw [← List.take_append_drop n ms, List.drop_eq_getElem_cons hn, putAll_append,
    bind_assoc]
  rfl

theorem getAll_add (src : P) (line : L) (n n' : ℕ) :
    (getAll src line (n + n') : Proc P L M (List M)) = getAll src line n >>= fun ms =>
      getAll src line n' >>= fun ms' => pure (ms ++ ms') := by
  induction n with
  | zero =>
    rw [Nat.zero_add]
    exact (bind_pure _).symm
  | succ n ih =>
    rw [Nat.add_right_comm]
    simp only [getAll, get_bind, ih, bind_assoc, pure_bind, List.cons_append]

theorem mapM_congr {E A : Type u} {F : Type u → Type*} [Monad F] [LawfulMonad F] {l : List E}
    {f g : E → F A} (h : ∀ e ∈ l, f e = g e) : l.mapM f = l.mapM g := by
  induction l with
  | nil => rfl
  | cons e l ih =>
    rw [List.mapM_cons, List.mapM_cons, h e (List.mem_cons_self ..),
      ih fun e he => h e (List.mem_cons_of_mem _ he)]

theorem mapM_getAll {E : Type*} (src : P) (line : L) (l : List E) (n : E → ℕ)
    (g : List M → Proc P L M R) :
    (l.mapM fun e => (getAll src line (n e) : Proc P L M (List M))) >>= (fun bs => g bs.flatten) =
      getAll src line (l.map n).sum >>= g := by
  induction l generalizing g with
  | nil => rfl
  | cons e l ih =>
    rw [List.map_cons, List.sum_cons, getAll_add]
    simp only [List.mapM_cons, bind_assoc, pure_bind, List.flatten_cons]
    refine congrArg _ (funext fun ms => ?_)
    exact ih fun ms' => g (ms ++ ms')

inductive Next : Proc P L M R → Proc P L M R → Prop where
  | put {q l m x} : Next x (put q l m x)
  | get {q l k} (m : M) : Next (k m) (get q l k)

theorem next_wf : WellFounded (Next : Proc P L M R → Proc P L M R → Prop) := by
  refine ⟨fun x => ?_⟩
  induction x with
  | done r => exact ⟨_, fun y hy => by cases hy⟩
  | fail => exact ⟨_, fun y hy => by cases hy⟩
  | put dst line m next ih =>
    refine ⟨_, fun y hy => ?_⟩
    cases hy with
    | put => exact ih
  | get src line next ih =>
    refine ⟨_, fun y hy => ?_⟩
    cases hy with
    | get m => exact ih m

end Proc

open Proc

structure System (P L : Type*) (M R : Type u) where
  proc : P → Proc P L M R
  chan : P × P × L → List M

section systems

variable {P L : Type*} {M R : Type u}

section moves

variable {cap : P × P × L → ℕ} {p q : P} {c : P × P × L} {x y x' y' : Proc P L M R}
  {ms ms' ns : List M}

inductive Moves (cap : P × P × L → ℕ) (p : P) :
    Proc P L M R → P × P × L → List M → List M → Proc P L M R → Prop where
  | put {q l m next ms} : ms.length < cap (p, q, l) →
      Moves cap p (.put q l m next) (p, q, l) ms (ms ++ [m]) next
  | get {q l next m ms} : Moves cap p (.get q l next) (q, p, l) (m :: ms) ms (next m)

theorem Moves.next (h : Moves cap p x c ms ns y) : Next y x := by
  cases h with
  | put => exact .put
  | get => exact .get _

theorem Moves.swap (hpq : p ≠ q) (hp : Moves cap p x c ns ms x') (hq : Moves cap q y c ns ms' y') :
    ∃ rest, Moves cap p x c ms' rest x' ∧ Moves cap q y c ms rest y' := by
  cases hp with
  | put hroom =>
    cases hq with
    | put => exact absurd rfl hpq
    | get => exact ⟨_, .put (Nat.lt_of_succ_lt hroom), .get⟩
  | get =>
    cases hq with
    | put hroom => exact ⟨_, .get, .put (Nat.lt_of_succ_lt hroom)⟩
    | get => exact absurd rfl hpq

end moves

variable [DecidableEq P] [DecidableEq L]

def step (cap : P × P × L → ℕ) (s : System P L M R) (p : P) : Option (System P L M R) :=
  match s.proc p with
  | .put q l m next =>
    if (s.chan (p, q, l)).length < cap (p, q, l) then
      some ⟨Function.update s.proc p next,
        Function.update s.chan (p, q, l) (s.chan (p, q, l) ++ [m])⟩
    else none
  | .get q l next =>
    match s.chan (q, p, l) with
    | m :: ms => some ⟨Function.update s.proc p (next m), Function.update s.chan (q, p, l) ms⟩
    | [] => none
  | _ => none

variable {cap : P × P × L → ℕ} {s t u : System P L M R} {p q : P} {l : L}

theorem step_iff : step cap s p = some t ↔ ∃ c ms x, Moves cap p (s.proc p) c (s.chan c) ms x ∧
    t = ⟨Function.update s.proc p x, Function.update s.chan c ms⟩ := by
  constructor
  · intro h
    cases hp : s.proc p with
    | done r => simp [step, hp] at h
    | fail => simp [step, hp] at h
    | put q l m next =>
      simp only [step, hp] at h
      split at h
      · exact ⟨_, _, _, .put ‹_›, (Option.some.inj h).symm⟩
      · cases h
    | get q l next =>
      simp only [step, hp] at h
      split at h
      · rename_i hm
        exact ⟨_, _, _, hm ▸ .get, (Option.some.inj h).symm⟩
      · cases h
  · rintro ⟨c, ms, x, hmove, rfl⟩
    generalize hp : s.proc p = y at hmove
    generalize hc : s.chan c = ns at hmove
    cases hmove with
    | put hroom => simp only [step, hp, hc, if_pos hroom]
    | get => simp only [step, hp, hc]

theorem step_commutes (cap : P × P × L → ℕ) :
    Commutes (step cap : System P L M R → P → Option (System P L M R)) := by
  intro s p q s1 s2 hpq h1 h2
  obtain ⟨c, ms, x, hp, rfl⟩ := step_iff.mp h1
  obtain ⟨d, ms', y, hq, rfl⟩ := step_iff.mp h2
  have hproc : Function.update (Function.update s.proc p x) q y =
      Function.update (Function.update s.proc q y) p x := Function.update_comm hpq _ _ _
  rcases eq_or_ne c d with rfl | hne
  · obtain ⟨rest, hp', hq'⟩ := hp.swap hpq hq
    refine ⟨_, step_iff.mpr ⟨c, rest, y, ?_, rfl⟩, step_iff.mpr ⟨c, rest, x, ?_, ?_⟩⟩
    · simpa only [Function.update_self, Function.update_of_ne hpq.symm] using hq'
    · simpa only [Function.update_self, Function.update_of_ne hpq] using hp'
    · simp only [Function.update_idem, hproc]
  · refine ⟨_, step_iff.mpr ⟨d, ms', y, ?_, rfl⟩, step_iff.mpr ⟨c, ms, x, ?_, ?_⟩⟩
    · simpa only [Function.update_of_ne hne.symm, Function.update_of_ne hpq.symm] using hq
    · simpa only [Function.update_of_ne hne, Function.update_of_ne hpq] using hp
    · rw [hproc, Function.update_comm hne]

theorem stuck_of_done (cap : P × P × L → ℕ) (h : ∀ p, ∃ r, s.proc p = .done r) :
    Stuck (step cap) s := by
  intro p
  obtain ⟨r, hr⟩ := h p
  simp only [step, hr]

def Leads (cap : P × P × L → ℕ) (s t : System P L M R) : Prop :=
  ∃ sched : List P, sched.foldlM (step cap) s = some t

namespace Leads

theorem refl (cap : P × P × L → ℕ) (s : System P L M R) : Leads cap s s := ⟨[], rfl⟩

theorem trans (h : Leads cap s t) (h' : Leads cap t u) : Leads cap s u := by
  obtain ⟨sched, hs⟩ := h
  obtain ⟨sched', ht⟩ := h'
  refine ⟨sched ++ sched', ?_⟩
  rw [List.foldlM_append, hs]
  exact ht

theorem single (h : step cap s p = some t) : Leads cap s t := by
  refine ⟨[p], ?_⟩
  rw [List.foldlM_cons, h]
  rfl

theorem settles (h : Leads cap s t) (ht : Stuck (step cap) t) :
    ∃ sched, Settles (step cap) s t sched := by
  obtain ⟨sched, hs⟩ := h
  exact ⟨sched, (step_commutes cap).settles ht hs⟩

end Leads

theorem exists_stuck (live : Finset P) (s : System P L M R)
    (hlive : ∀ p, p ∉ live → ∃ r, s.proc p = .done r) :
    ∃ t, Leads cap s t ∧ Stuck (step cap) t := by
  have hwf : WellFounded (Pi.Lex WellOrderingRel fun {_ : live} (x y : Proc P L M R) => Next x y) :=
    Pi.Lex.wellFounded WellOrderingRel fun _ => next_wf
  have hwf := InvImage.wf (fun (s : System P L M R) (p : live) => s.proc p) hwf
  induction s using hwf.induction with
  | _ s ih =>
    by_cases hs : Stuck (step cap) s
    · exact ⟨s, Leads.refl .., hs⟩
    obtain ⟨p, hp⟩ := not_forall.mp hs
    obtain ⟨t, ht⟩ := Option.ne_none_iff_exists'.mp hp
    obtain ⟨c, ms, x, hmove, rfl⟩ := step_iff.mp ht
    have hmem : p ∈ live := by
      by_contra hnot
      obtain ⟨r, hr⟩ := hlive p hnot
      rw [hr] at hmove
      cases hmove
    have hne : ∀ q, q ≠ p → Function.update s.proc p x q = s.proc q := fun q hq =>
      Function.update_of_ne hq ..
    have hself : Next (Function.update s.proc p x p) (s.proc p) :=
      (Function.update_self p x s.proc).symm ▸ hmove.next
    have hrest : ∀ q, q ∉ live → ∃ r, Function.update s.proc p x q = .done r := fun q hq => by
      obtain ⟨r, hr⟩ := hlive q hq
      exact ⟨r, (hne q fun h => hq (h ▸ hmem)).trans hr⟩
    have hearlier : ∀ q : live, WellOrderingRel q ⟨p, hmem⟩ → (q : P) ≠ p := by
      rintro ⟨q, hq⟩ hlt rfl
      exact irrefl _ hlt
    obtain ⟨t, ht', hstuck⟩ := ih ⟨Function.update s.proc p x, Function.update s.chan c ms⟩
      ⟨⟨p, hmem⟩, fun q hq => hne q (hearlier q hq), hself⟩ hrest
    exact ⟨t, (Leads.single ht).trans ht', hstuck⟩

namespace System

def write (s : System P L M R) (p : P) (x : Proc P L M R) : System P L M R :=
  { s with proc := Function.update s.proc p x }

def hold (s : System P L M R) (c : P × P × L) (ms : List M) : System P L M R :=
  { s with chan := Function.update s.chan c ms }

def quiet (procs : P → Proc P L M R) : System P L M R := ⟨procs, fun _ => []⟩

omit [DecidableEq L] in
theorem write_self (s : System P L M R) (p : P) : s.write p (s.proc p) = s := by
  rw [write, Function.update_eq_self]

theorem hold_self (s : System P L M R) (c : P × P × L) : s.hold c (s.chan c) = s := by
  rw [hold, Function.update_eq_self]

end System

section rules

variable {m : M} {ms rest : List M} {x y : Proc P L M R} {k : PUnit → Proc P L M R}
  {f : List M → Proc P L M R} {g : M → Proc P L M R}

theorem send_one (hp : s.proc p = .put q l m x)
    (hroom : (s.chan (p, q, l)).length < cap (p, q, l)) :
    Leads cap s ((s.write p x).hold (p, q, l) (s.chan (p, q, l) ++ [m])) := by
  have hmove : Moves cap p (s.proc p) (p, q, l) (s.chan (p, q, l)) (s.chan (p, q, l) ++ [m]) x :=
    hp ▸ .put hroom
  exact .single (step_iff.mpr ⟨_, _, _, hmove, rfl⟩)

theorem recv_one (cap : P × P × L → ℕ) (hq : s.proc q = .get p l g)
    (hms : s.chan (p, q, l) = m :: rest) :
    Leads cap s ((s.write q (g m)).hold (p, q, l) rest) := by
  have hmove : Moves cap q (s.proc q) (p, q, l) (s.chan (p, q, l)) rest (g m) := by
    rw [hq, hms]
    exact .get
  exact .single (step_iff.mpr ⟨_, _, _, hmove, rfl⟩)

theorem fill (hp : s.proc p = putAll q l ms >>= k)
    (hroom : (s.chan (p, q, l)).length + ms.length ≤ cap (p, q, l)) :
    Leads cap s ((s.write p (k ⟨⟩)).hold (p, q, l) (s.chan (p, q, l) ++ ms)) := by
  induction ms generalizing s with
  | nil =>
    have hk : k ⟨⟩ = s.proc p := hp.symm
    rw [hk, s.write_self, List.append_nil, s.hold_self]
    exact Leads.refl cap s
  | cons m ms ih =>
    rw [List.length_cons] at hroom
    have hput : s.proc p = .put q l m (putAll q l ms >>= k) := hp
    refine (send_one hput (by omega)).trans ?_
    have hlast := ih (s := (s.write p (putAll q l ms >>= k)).hold (p, q, l) (s.chan (p, q, l) ++ [m]))
      (Function.update_self ..) (by simp [System.hold]; omega)
    simpa [System.write, System.hold] using hlast

theorem drain (cap : P × P × L → ℕ) (hq : s.proc q = getAll p l ms.length >>= f)
    (hms : s.chan (p, q, l) = ms ++ rest) :
    Leads cap s ((s.write q (f ms)).hold (p, q, l) rest) := by
  induction ms generalizing s f with
  | nil =>
    have hf : f [] = s.proc q := hq.symm
    have hrest : rest = s.chan (p, q, l) := hms.symm
    rw [hf, hrest, s.write_self, s.hold_self]
    exact Leads.refl cap s
  | cons m ms ih =>
    have hget : s.proc q = .get p l fun m => getAll p l ms.length >>= fun ms => f (m :: ms) := by
      rw [hq]
      simp only [List.length_cons, getAll, get_bind, bind_assoc, pure_bind]
    refine (recv_one cap hget hms).trans ?_
    have hlast := ih (s := (s.write q (getAll p l ms.length >>= fun ms => f (m :: ms))).hold
      (p, q, l) (ms ++ rest)) (f := fun ms => f (m :: ms)) (Function.update_self ..)
      (Function.update_self ..)
    simpa [System.write, System.hold] using hlast

theorem transfer (hpq : p ≠ q) (hcap : 0 < cap (p, q, l)) (hp : s.proc p = putAll q l ms >>= k)
    (hq : s.proc q = getAll p l ms.length >>= f) (hc : s.chan (p, q, l) = []) :
    Leads cap s ((s.write p (k ⟨⟩)).write q (f ms)) := by
  induction ms generalizing s f with
  | nil =>
    have hk : k ⟨⟩ = s.proc p := hp.symm
    have hf : f [] = s.proc q := hq.symm
    rw [hk, s.write_self, hf, s.write_self]
    exact Leads.refl cap s
  | cons m ms ih =>
    have hget : s.proc q = .get p l fun m => getAll p l ms.length >>= fun ms => f (m :: ms) := by
      rw [hq]
      simp only [List.length_cons, getAll, get_bind, bind_assoc, pure_bind]
    have hput : s.proc p = .put q l m (putAll q l ms >>= k) := hp
    have hsent := send_one hput (by rw [hc]; exact hcap)
    rw [hc, List.nil_append] at hsent
    have hrecv := recv_one cap (s := (s.write p (putAll q l ms >>= k)).hold (p, q, l) [m])
      ((Function.update_of_ne hpq.symm _ _).trans hget) (Function.update_self ..)
    have hback : (((s.write p (putAll q l ms >>= k)).hold (p, q, l) [m]).write q
        (getAll p l ms.length >>= fun ms => f (m :: ms))).hold (p, q, l) [] =
        (s.write p (putAll q l ms >>= k)).write q
          (getAll p l ms.length >>= fun ms => f (m :: ms)) := by
      simp [System.write, System.hold, ← hc]
    refine hsent.trans ((hback ▸ hrecv).trans ?_)
    have hlast := ih (s := (s.write p (putAll q l ms >>= k)).write q
        (getAll p l ms.length >>= fun ms => f (m :: ms))) (f := fun ms => f (m :: ms))
        ((Function.update_of_ne hpq _ _).trans (Function.update_self ..))
        (Function.update_self ..) hc
    simpa [System.write, Function.update_comm hpq] using hlast

theorem exchange {l' : L} {xs ys : List M} {f' : List M → Proc P L M R} (hpq : p ≠ q)
    (hroom : xs.length ≤ cap (p, q, l)) (hcap : 0 < cap (q, p, l'))
    (hp : s.proc p = putAll q l xs >>= fun _ => getAll q l' ys.length >>= f)
    (hq : s.proc q = putAll p l' ys >>= fun _ => getAll p l xs.length >>= f')
    (hc : s.chan (p, q, l) = []) (hc' : s.chan (q, p, l') = []) :
    Leads cap s ((s.write p (f ys)).write q (f' xs)) := by
  have hne : (q, p, l') ≠ (p, q, l) := fun h => hpq (Prod.mk.inj h).1.symm
  have hfill := fill hp (by rw [hc, List.length_nil, Nat.zero_add]; exact hroom)
  rw [hc, List.nil_append] at hfill
  have htransfer := transfer (s := (s.write p (getAll q l' ys.length >>= f)).hold (p, q, l) xs)
    hpq.symm hcap ((Function.update_of_ne hpq.symm _ _).trans hq) (Function.update_self ..)
    ((Function.update_of_ne hne _ _).trans hc')
  have hdrain := drain cap (s := (((s.write p (getAll q l' ys.length >>= f)).hold (p, q, l) xs).write
    q (getAll p l xs.length >>= f')).write p (f ys)) (p := p) (q := q) (l := l)
    ((Function.update_of_ne hpq.symm _ _).trans (Function.update_self ..))
    ((Function.update_self ..).trans (List.append_nil xs).symm)
  have hchan : Function.update s.chan (p, q, l) [] = s.chan := by rw [← hc, Function.update_eq_self]
  have hlast := hfill.trans (htransfer.trans hdrain)
  simpa [System.write, System.hold, hchan, Function.update_comm hpq] using hlast

end rules

omit [DecidableEq L]

def advance (procs : P → Proc P L M R) (p q : P) (x y : Proc P L M R) : P → Proc P L M R :=
  Function.update (Function.update procs p x) q y

theorem advance_comm {procs : P → Proc P L M R} {x y : Proc P L M R} (hpq : p ≠ q) :
    advance procs q p y x = advance procs p q x y := Function.update_comm hpq.symm _ _ _

end systems

section sessions

variable {P L : Type*} {M R A A' B B' : Type u} [DecidableEq P] [DecidableEq L]
  {cap : P × P × L → ℕ} {p q : P} {l l' : L} {x : Proc P L M A} {y : Proc P L M B} {a : A} {b : B}

structure Session (R : Type u) (cap : P × P × L → ℕ) (p q : P) (x : Proc P L M A)
    (y : Proc P L M B) (a : A) (b : B) : Prop where
  ne : p ≠ q
  leads : ∀ (procs : P → Proc P L M R) (h : A → Proc P L M R) (k : B → Proc P L M R),
    procs p = x >>= h → procs q = y >>= k →
      Leads cap (System.quiet procs) (System.quiet (advance procs p q (h a) (k b)))

namespace Session

theorem symm (hs : Session R cap p q x y a b) : Session R cap q p y x b a := by
  refine ⟨hs.ne.symm, fun procs h k hq hp => ?_⟩
  rw [advance_comm hs.ne]
  exact hs.leads procs k h hp hq

theorem pure (hpq : p ≠ q) (a : A) (b : B) :
    Session R cap p q (Pure.pure a : Proc P L M A) (Pure.pure b) a b := by
  refine ⟨hpq, fun procs h k hp hq => ?_⟩
  have hp' : h a = procs p := hp.symm
  have hq' : k b = procs q := hq.symm
  rw [advance, hp', Function.update_eq_self, hq', Function.update_eq_self]
  exact Leads.refl ..

theorem bind {x' : A → Proc P L M A'} {y' : B → Proc P L M B'} {a' : A'} {b' : B'}
    (hs : Session R cap p q x y a b) (hs' : Session R cap p q (x' a) (y' b) a' b') :
    Session R cap p q (x >>= x') (y >>= y') a' b' := by
  refine ⟨hs.ne, fun procs h k hp hq => ?_⟩
  rw [bind_assoc] at hp hq
  refine (hs.leads procs _ _ hp hq).trans ?_
  have hnext := hs'.leads (advance procs p q (x' a >>= h) (y' b >>= k)) h k
    ((Function.update_of_ne hs.ne _ _).trans (Function.update_self ..)) (Function.update_self ..)
  simpa [advance, Function.update_comm hs.ne] using hnext

theorem map (f : A → A') (g : B → B') (hs : Session R cap p q x y a b) :
    Session R cap p q (x >>= fun a => Pure.pure (f a)) (y >>= fun b => Pure.pure (g b)) (f a)
      (g b) :=
  hs.bind (Session.pure hs.ne ..)

theorem bind_right {y' : B → Proc P L M B'} {b' : B'} (hs : Session R cap p q x y a b)
    (hy : y' b = Pure.pure b') : Session R cap p q x (y >>= y') a b' := by
  have hlast : Session R cap p q (Pure.pure a : Proc P L M A) (y' b) a b' :=
    hy ▸ Session.pure hs.ne a b'
  have h : Session R cap p q (x >>= Pure.pure) (y >>= y') a b' := hs.bind hlast
  rwa [bind_pure] at h

theorem map_right (g : B → B') (hs : Session R cap p q x y a b) :
    Session R cap p q x (y >>= fun b => Pure.pure (g b)) a (g b) := hs.bind_right rfl

theorem transfer (hpq : p ≠ q) (hcap : 0 < cap (p, q, l)) (ms : List M) :
    Session R cap p q (putAll q l ms) (getAll p l ms.length) ⟨⟩ ms :=
  ⟨hpq, fun _ _ _ hp hq => Processes.transfer hpq hcap hp hq rfl⟩

theorem swap {ms ms' : List M} (hpq : p ≠ q)
    (hroom : ms.length ≤ cap (p, q, l) ∨ ms.length ≤ cap (q, p, l')) (hcap : 0 < cap (p, q, l))
    (hcap' : 0 < cap (q, p, l')) (hlen : ms'.length = ms.length) :
    Session R cap p q (swap q l l' ms) (swap p l' l ms') ms' ms := by
  refine ⟨hpq, fun procs h k hp hq => ?_⟩
  rw [Proc.swap, bind_assoc, ← hlen] at hp
  rw [Proc.swap, bind_assoc, hlen] at hq
  rcases hroom with hroom | hroom
  · exact Processes.exchange hpq hroom hcap' hp hq rfl rfl
  · rw [← advance_comm hpq]
    exact Processes.exchange hpq.symm (by rwa [hlen]) hcap hq hp rfl rfl

theorem swapAll {xs ys : List (List M)} (hpq : p ≠ q)
    (hroom : ∀ ms ∈ xs, ms.length ≤ cap (p, q, l) ∨ ms.length ≤ cap (q, p, l'))
    (hcap : 0 < cap (p, q, l)) (hcap' : 0 < cap (q, p, l'))
    (hlen : List.Forall₂ (fun ms ms' : List M => ms'.length = ms.length) xs ys) :
    Session R cap p q (swapAll q l l' xs) (swapAll p l' l ys) ys xs := by
  induction hlen with
  | nil => exact Session.pure hpq ..
  | @cons ms ms' xs ys hms _ ih =>
    rw [Proc.swapAll, Proc.swapAll, List.mapM_cons, List.mapM_cons]
    have hfirst : Session R cap p q (Proc.swap q l l' ms) (Proc.swap p l' l ms') ms' ms :=
      swap hpq (hroom ms (List.mem_cons_self ..)) hcap hcap' hms
    have hrest := ih fun ms hms => hroom ms (List.mem_cons_of_mem _ hms)
    exact hfirst.bind (hrest.map (ms' :: ·) (ms :: ·))

end Session

inductive Hears {E : Type*} (R : Type u) (cap : P × P × L → ℕ) (p : P) (who : E → P)
    (body : A → P → Proc P L M A) (z : E → Proc P L M B) (b : E → B) : A → List E → A → Prop where
  | nil {a : A} : Hears R cap p who body z b a [] a
  | cons {a a' a'' : A} {e : E} {es : List E} :
      Session R cap p (who e) (body a (who e)) (z e) a' (b e) →
      Hears R cap p who body z b a' es a'' → Hears R cap p who body z b a (e :: es) a''

theorem Hears.const {E : Type*} {who : E → P} {body : A → P → Proc P L M A} {z : E → Proc P L M B}
    {b : E → B} {es : List E}
    (hs : ∀ e ∈ es, Session R cap p (who e) (body a (who e)) (z e) a (b e)) :
    Hears R cap p who body z b a es a := by
  induction es with
  | nil => exact .nil
  | cons e es ih =>
    exact .cons (hs e (List.mem_cons_self ..)) (ih fun e he => hs e (List.mem_cons_of_mem _ he))

theorem Hears.leads {E : Type*} {who : E → P} {body : A → P → Proc P L M A} {z : E → Proc P L M B}
    {b : E → B} {a a' : A} {es : List E} (hh : Hears R cap p who body z b a es a')
    (k : E → B → Proc P L M R) (hids : (es.map who).Nodup) (hp : p ∉ es.map who)
    {procs procs' : P → Proc P L M R} {h : A → Proc P L M R}
    (hprocs : procs p = (es.map who).foldlM body a >>= h)
    (hothers : ∀ e ∈ es, procs (who e) = z e >>= k e) (hp' : procs' p = h a')
    (he' : ∀ e ∈ es, procs' (who e) = k e (b e))
    (hr' : ∀ r, r ≠ p → r ∉ es.map who → procs' r = procs r) :
    Leads cap (System.quiet procs) (System.quiet procs') := by
  induction hh generalizing procs with
  | nil =>
    have hend : procs = procs' := by
      funext r
      rcases eq_or_ne r p with rfl | hr
      · exact hprocs.trans hp'.symm
      · exact (hr' r hr List.not_mem_nil).symm
    rw [hend]
    exact Leads.refl ..
  | @cons a _ _ e es hs _ ih =>
    rw [List.map_cons] at hids hp hprocs
    obtain ⟨hq, hids⟩ := List.nodup_cons.mp hids
    obtain ⟨hpq, hp⟩ := not_or.mp (List.mem_cons.not.mp hp)
    rw [List.foldlM_cons, bind_assoc] at hprocs
    have hmem := List.mem_cons_self (a := e) (l := es)
    refine (hs.leads procs _ _ hprocs (hothers e hmem)).trans (ih hids hp ?_ (fun e' he => ?_) hp'
      (fun e he => he' e (List.mem_cons_of_mem _ he)) fun r hrp hr => ?_)
    · rw [advance, Function.update_of_ne hpq, Function.update_self]
    · have hwho := List.mem_map_of_mem (f := who) he
      rw [advance, Function.update_of_ne fun h : who e' = who e => hq (h ▸ hwho),
        Function.update_of_ne fun h : who e' = p => hp (h ▸ hwho),
        hothers e' (List.mem_cons_of_mem _ he)]
    · rcases eq_or_ne r (who e) with rfl | hrq
      · rw [he' e hmem, advance, Function.update_self]
      · rw [advance, Function.update_of_ne hrq, Function.update_of_ne hrp,
          hr' r hrp (by simpa [hrq] using hr)]

theorem meetings {E : Type*} {act : P → E → Proc P L M PUnit} (ends : E → P × P) (l : List E)
    (hs : ∀ e ∈ l, Session R cap (ends e).1 (ends e).2 (act (ends e).1 e) (act (ends e).2 e) ⟨⟩ ⟨⟩)
    (hskip : ∀ e ∈ l, ∀ r, r ≠ (ends e).1 → r ≠ (ends e).2 → act r e = Pure.pure ⟨⟩)
    {procs : P → Proc P L M R} {k : P → PUnit → Proc P L M R}
    (hprocs : ∀ r, procs r = l.forM (act r) >>= k r) :
    Leads cap (System.quiet procs) (System.quiet fun r => k r ⟨⟩) := by
  induction l generalizing procs with
  | nil =>
    have hend : procs = fun r => k r ⟨⟩ := funext hprocs
    rw [hend]
    exact Leads.refl ..
  | cons e l ih =>
    have hstep : ∀ r, procs r = act r e >>= fun _ => l.forM (act r) >>= k r :=
      fun r => (hprocs r).trans (bind_assoc ..)
    have hfirst := (hs e (List.mem_cons_self ..)).leads procs _ _ (hstep _) (hstep _)
    refine hfirst.trans (ih (fun e he => hs e (List.mem_cons_of_mem _ he))
      (fun e he => hskip e (List.mem_cons_of_mem _ he)) fun r => ?_)
    rcases eq_or_ne r (ends e).2 with rfl | h2
    · exact Function.update_self ..
    · rw [advance, Function.update_of_ne h2]
      rcases eq_or_ne r (ends e).1 with rfl | h1
      · exact Function.update_self ..
      · rw [Function.update_of_ne h1, hstep, hskip e (List.mem_cons_self ..) r h1 h2]
        rfl

structure Jammed (cap : P × P × L → ℕ) (p q : P) (l l' : L) (s : System P L M R) : Prop where
  ne : p ≠ q
  left : ∃ m x, s.proc p = .put q l m x
  right : ∃ m x, s.proc q = .put p l' m x
  full : cap (p, q, l) ≤ (s.chan (p, q, l)).length
  full' : cap (q, p, l') ≤ (s.chan (q, p, l')).length

namespace Jammed

variable {s t : System P L M R}

theorem step (h : Jammed cap p q l l' s) {r : P} (hr : step cap s r = some t) :
    Jammed cap p q l l' t := by
  obtain ⟨c, ms, x, hmove, rfl⟩ := step_iff.mp hr
  obtain ⟨m, y, hp⟩ := h.left
  obtain ⟨m', y', hq⟩ := h.right
  have hrp : p ≠ r := by
    rintro rfl
    rw [hp] at hmove
    cases hmove with
    | put hroom => exact absurd h.full (Nat.not_le_of_lt hroom)
  have hrq : q ≠ r := by
    rintro rfl
    rw [hq] at hmove
    cases hmove with
    | put hroom => exact absurd h.full' (Nat.not_le_of_lt hroom)
  have hc : ∀ a b k, c = (a, b, k) → a = r ∨ b = r := by
    rintro a b k rfl
    generalize s.proc r = z at hmove
    generalize s.chan (a, b, k) = ns at hmove
    cases hmove with
    | put => exact Or.inl rfl
    | get => exact Or.inr rfl
  have hpq : (p, q, l) ≠ c := fun e => (hc p q l e.symm).elim hrp hrq
  have hqp : (q, p, l') ≠ c := fun e => (hc q p l' e.symm).elim hrq hrp
  refine ⟨h.ne, ⟨m, y, (Function.update_of_ne hrp _ _).trans hp⟩,
    ⟨m', y', (Function.update_of_ne hrq _ _).trans hq⟩, ?_, ?_⟩
  · simpa only [Function.update_of_ne hpq] using h.full
  · simpa only [Function.update_of_ne hqp] using h.full'

theorem run (h : Jammed cap p q l l' s) {sched : List P}
    (hs : sched.foldlM (Processes.step cap) s = some t) : Jammed cap p q l l' t := by
  induction sched generalizing s with
  | nil => exact Option.some.inj hs ▸ h
  | cons r sched ih =>
    obtain ⟨s1, hr, hrest⟩ := Option.bind_eq_some_iff.mp hs
    exact ih (h.step hr) hrest

end Jammed

theorem Leads.done {s t : System P L M R} {r : R} (h : Leads cap s t) (hp : s.proc p = .done r) :
    t.proc p = .done r := by
  obtain ⟨sched, hs⟩ := h
  induction sched generalizing s with
  | nil => exact Option.some.inj hs ▸ hp
  | cons q sched ih =>
    obtain ⟨s1, hq, hrest⟩ := Option.bind_eq_some_iff.mp hs
    refine ih ?_ hrest
    obtain ⟨c, ms, x, hmove, rfl⟩ := step_iff.mp hq
    rcases eq_or_ne p q with rfl | hpq
    · rw [hp] at hmove
      cases hmove
    · exact (Function.update_of_ne hpq _ _).trans hp

theorem Jammed.settles {s t : System P L M R} (h : Leads cap s t) (hj : Jammed cap p q l l' t)
    (live : Finset P) (hlive : ∀ r, r ∉ live → ∃ o, s.proc r = .done o) :
    ∃ z sched, Settles (Processes.step cap) s z sched ∧ Jammed cap p q l l' z := by
  obtain ⟨z, ⟨sched, hz⟩, hstuck⟩ := @exists_stuck _ _ _ _ _ _ cap live t fun r hr => by
    obtain ⟨o, ho⟩ := hlive r hr
    exact ⟨o, Leads.done h ho⟩
  obtain ⟨sched', hs⟩ := (h.trans ⟨sched, hz⟩).settles hstuck
  exact ⟨z, sched', hs, hj.run hz⟩

theorem jam {procs : P → Proc P L M R} {ms ms' : List M} {h k : List M → Proc P L M R} (hpq : p ≠ q)
    (hfull : cap (p, q, l) < ms.length) (hfull' : cap (q, p, l') < ms'.length)
    (hp : procs p = swap q l l' ms >>= h) (hq : procs q = swap p l' l ms' >>= k) :
    ∃ t, Leads cap (System.quiet procs) t ∧ Jammed cap p q l l' t := by
  rw [Proc.swap, bind_assoc] at hp hq
  obtain ⟨m, x, hx⟩ := putAll_split q l (fun _ => getAll q l' ms.length >>= h) hfull
  obtain ⟨m', x', hx'⟩ := putAll_split p l' (fun _ => getAll p l ms'.length >>= k) hfull'
  have hne : (q, p, l') ≠ (p, q, l) := fun h => hpq (Prod.mk.inj h).1.symm
  have hroom : ((System.quiet procs).chan (p, q, l)).length + (ms.take (cap (p, q, l))).length ≤
      cap (p, q, l) := by simp [System.quiet]
  have hfirst := fill (s := System.quiet procs) (hp.trans hx) hroom
  have hroom' : ((((System.quiet procs).write p (put q l m x)).hold (p, q, l)
      (ms.take (cap (p, q, l)))).chan (q, p, l')).length + (ms'.take (cap (q, p, l'))).length ≤
        cap (q, p, l') := by
    simp [System.quiet, System.hold, System.write, Function.update_of_ne hne]
  have hsecond := fill ((Function.update_of_ne hpq.symm _ _).trans (hq.trans hx')) hroom'
  refine ⟨_, hfirst.trans hsecond, ⟨hpq, ⟨m, x, ?_⟩, ⟨m', x', Function.update_self ..⟩, ?_, ?_⟩⟩
  · exact (Function.update_of_ne hpq _ _).trans (Function.update_self ..)
  · simp [System.hold, System.write, System.quiet, Function.update_of_ne hne.symm, Nat.le_of_lt hfull]
  · simp [System.hold, System.write, System.quiet, Function.update_of_ne hne, Nat.le_of_lt hfull']

end sessions

end Processes
