import GraphMpc.Exchanges
import GraphMpc.ResultSlices
import GraphMpc.SecureRun

namespace GraphMpc

open Tabulate Processes Proc Bytes NetIOMP Client

def stage (clients : List Client) (servers : Party → Net Outcome)
    (prog : ℕ → Client → Net Outcome) : ℕ → Net Outcome
  | 0 => servers .p0
  | 1 => servers .p1
  | 2 => servers .d
  | i + 3 => match clients[i]? with
    | some c => prog i c
    | none => pure .absent

section stages

variable {cap : Channels} {S : Launch} {E : Entropy} {clients : List Client}
  {servers servers' : Party → Net Outcome} {prog : ℕ → Client → Net Outcome}

theorem deploy_eq : deploy S E clients = stage clients (runServer S E clients.length)
    fun i c => runClient S clients.length (i + 3) c := by
  funext r
  obtain _ | _ | _ | i := r <;> rfl

theorem stage_pid (id : Party) : stage clients servers prog id.pid = servers id := by
  cases id <;> rfl

theorem stage_client {i : ℕ} {c : Client} (h : clients[i]? = some c) :
    stage clients servers prog (i + 3) = prog i c := by
  simp only [stage, h]

theorem stage_eq {procs : ℕ → Net Outcome} (hservers : ∀ id : Party, procs id.pid = servers id)
    (hprog : ∀ i c, clients[i]? = some c → procs (i + 3) = prog i c)
    (habsent : ∀ i, clients[i]? = none → procs (i + 3) = pure .absent) :
    procs = stage clients servers prog := by
  funext r
  obtain _ | _ | _ | i := r
  · exact hservers .p0
  · exact hservers .p1
  · exact hservers .d
  · cases h : clients[i]? with
    | none => simp only [stage, h, habsent i h]
    | some c => simp only [stage, h, hprog i c h]

theorem stage_session {A B : Type} (id id' : Party) {x : Net A} {y : Net B} {a : A} {b : B}
    {h : A → Net Outcome} {k : B → Net Outcome} (hs : Session Outcome cap id.pid id'.pid x y a b)
    (hx : servers id = x >>= h) (hy : servers id' = y >>= k) (hx' : servers' id = h a)
    (hy' : servers' id' = k b) (hr : ∀ r, r ≠ id → r ≠ id' → servers' r = servers r) :
    Leads cap (System.quiet (stage clients servers prog))
      (System.quiet (stage clients servers' prog)) := by
  have hlead := hs.leads (stage clients servers prog) h k ((stage_pid id).trans hx)
    ((stage_pid id').trans hy)
  have hfar : ∀ i, advance (stage clients servers prog) id.pid id'.pid (h a) (k b) (i + 3) =
      stage clients servers prog (i + 3) := fun i => by
    have h1 := id.pid_lt
    have h2 := id'.pid_lt
    rw [advance, Function.update_of_ne (by omega), Function.update_of_ne (by omega)]
  have hend : advance (stage clients servers prog) id.pid id'.pid (h a) (k b) =
      stage clients servers' prog := by
    refine stage_eq (fun r => ?_) (fun i c hc => ?_) fun i hi => ?_
    · rw [advance]
      rcases eq_or_ne r id' with rfl | h2
      · rw [Function.update_self, hy']
      · rw [Function.update_of_ne fun he => h2 (Party.pid_injective he)]
        rcases eq_or_ne r id with rfl | h1
        · rw [Function.update_self, hx']
        · rw [Function.update_of_ne fun he => h1 (Party.pid_injective he), stage_pid, hr r h1 h2]
    · rw [hfar, stage_client hc]
    · rw [hfar]
      simp only [stage, hi]
  rwa [hend] at hlead

theorem zipIdx_pids (clients : List Client) :
    clients.zipIdx.map (fun e => e.2 + 3) = InputServer.clientIds clients.length := by
  have hsnd := congrArg (List.map (3 + ·)) (List.zipIdx_map_snd 0 clients)
  rw [List.map_map, List.map_add_range'] at hsnd
  rw [InputServer.clientIds, ← hsnd]
  exact List.map_congr_left fun e _ => Nat.add_comm ..

abbrev Served {A B : Type} (cap : Channels) (id : Party) (body : A → ℕ → Net A)
    (z : ℕ → Client → Net B) (b : ℕ → Client → B) : A → List (Client × ℕ) → A → Prop :=
  Hears Outcome cap id.pid (fun e => e.2 + 3) body (fun e => z e.2 e.1) fun e => b e.2 e.1

theorem Served.leads {A B : Type} {id : Party} {body : A → ℕ → Net A} {z : ℕ → Client → Net B}
    {b : ℕ → Client → B} {h : A → Net Outcome} {k : ℕ → Client → B → Net Outcome} {a a' : A}
    (hs : Served cap id body z b a clients.zipIdx a')
    (hid : servers id = (InputServer.clientIds clients.length).foldlM body a >>= h)
    (hprog : ∀ i c, prog i c = z i c >>= k i c) :
    Leads cap (System.quiet (stage clients servers prog)) (System.quiet
      (stage clients (Function.update servers id (h a')) fun i c => k i c (b i c))) := by
  have hmem : ∀ e ∈ clients.zipIdx, clients[e.2]? = some e.1 := fun e he =>
    List.mem_zipIdx_iff_getElem?.mp he
  have hout : id.pid ∉ clients.zipIdx.map fun e => e.2 + 3 := by
    intro he
    obtain ⟨e, -, he⟩ := List.mem_map.mp he
    have := id.pid_lt
    omega
  have hnodup : (clients.zipIdx.map fun e => e.2 + 3).Nodup := by
    rw [zipIdx_pids]
    exact List.nodup_range'
  refine Hears.leads hs (fun e => k e.2 e.1) hnodup hout ?_ (fun e he => ?_)
    ((stage_pid id).trans (Function.update_self ..)) (fun e he => ?_) fun r hrp hr' => ?_
  · rw [stage_pid, zipIdx_pids, hid]
  · rw [stage_client (hmem e he), hprog]
  · rw [stage_client (hmem e he)]
  · have hother : ∀ id' : Party, id'.pid ≠ id.pid → Function.update servers id (h a') id' =
        servers id' := fun id' hne => Function.update_of_ne (fun he => hne (congrArg _ he)) _ _
    obtain _ | _ | _ | i := r
    · exact hother .p0 hrp
    · exact hother .p1 hrp
    · exact hother .d hrp
    · cases hi : clients[i]? with
      | none => simp only [stage, hi]
      | some c =>
        have hin : (c, i) ∈ clients.zipIdx := List.mem_zipIdx_iff_getElem?.mpr hi
        exact absurd (List.mem_map_of_mem (f := fun e : Client × ℕ => e.2 + 3) hin) hr'

theorem stage_sync (hcap : ∀ c, 0 < cap c) {k : Party → Unit → Net Outcome}
    {h : ℕ → Client → Unit → Net Outcome}
    (hid : ∀ id : Party, servers id = sync id.pid (3 + clients.length) >>= k id)
    (hprog : ∀ i c, prog i c = sync (i + 3) (3 + clients.length) >>= h i c) :
    Leads cap (System.quiet (stage clients servers prog))
      (System.quiet (stage clients (fun id => k id ()) fun i c => h i c ())) := by
  have hbegin : ∀ r, stage clients servers prog r = sync r (3 + clients.length) >>= fun u =>
      stage clients (fun id => k id u) (fun i c => h i c u) r := by
    intro r
    obtain _ | _ | _ | i := r
    · exact hid .p0
    · exact hid .p1
    · exact hid .d
    · cases hi : clients[i]? with
      | none =>
        have hout := List.getElem?_eq_none_iff.mp hi
        simp only [stage, hi]
        rw [sync_out (by omega)]
        rfl
      | some c => simp only [stage, hi, hprog i c]
  exact sync_leads hcap (3 + clients.length) hbegin

end stages

end GraphMpc
