import GraphMpc.InputMerge

namespace GraphMpc

open Tabulate Slices

structure Submission (bits : ℕ) where
  nodes : ℕ
  start : ℕ
  stop : ℕ
  payload : Vec
  fits : start ≤ stop → payload.length = 4 * (stop - start) + 2 * (stop - start) * bits

namespace Submission

variable {bits : ℕ}

def packet (s : Submission bits) : Packet := ⟨s.start, s.stop, s.payload⟩

def channel (s : Submission bits) : Channel := .size s.nodes :: InputClient.sendPacket s.packet

def slices (subs : List (Submission bits)) : List Slice := subs.map fun s => ⟨s.start, s.stop⟩

def total (subs : List (Submission bits)) : ℕ := (subs.map fun s => s.stop - s.start).sum

end Submission

namespace InputServer

variable {bits : ℕ} {asserts : Bool} {subs : List (Submission bits)}

-- a graph comes back only from slices that partition the list and then holds every entry sent;
-- on all other slices the server stops with an error
def Guarded (asserts : Bool) (subs : List (Submission bits)) : Prop :=
  (∀ g, recvGraph asserts bits (subs.map Submission.channel) = .ok g →
    Partition (Submission.slices subs) (Submission.total subs) ∧
      g.size = Submission.total subs ∧
        ∀ s ∈ subs, ∀ k < s.stop - s.start, Placed bits g s.packet k) ∧
  (¬ Partition (Submission.slices subs) (Submission.total subs) →
    ∃ e, recvGraph asserts bits (subs.map Submission.channel) = .error e ∧ e ≠ .blocked)

theorem recvVec_map (v : Vec) (ch : Channel) :
    Channel.recvVec v.length (v.map .ring ++ ch) = some (v, ch) := by
  induction v with
  | nil => cases ch <;> rfl
  | cons x v ih =>
    simp only [List.length_cons, List.map_cons, List.cons_append, Channel.recvVec, ih]
    rfl

theorem recvPacket_sent (s : Submission bits) :
    recvPacket bits (InputClient.sendPacket s.packet) =
      if s.start ≤ s.stop then .ok s.packet else .error .endBeforeStart := by
  by_cases h : s.start ≤ s.stop
  · have hv := recvVec_map s.payload []
    rw [s.fits h, List.append_nil] at hv
    simp only [recvPacket, InputClient.sendPacket, Submission.packet, List.cons_append,
      List.nil_append, Channel.recvSize, if_neg (not_lt.mpr h), if_pos h, hv]
  · simp only [recvPacket, InputClient.sendPacket, Submission.packet, List.cons_append,
      List.nil_append, Channel.recvSize, if_pos (not_le.mp h), if_neg h]

theorem recvNodes_sent (subs : List (Submission bits)) :
    recvNodes (subs.map Submission.channel) = some ((subs.map Submission.nodes).sum,
      subs.map fun s => InputClient.sendPacket s.packet) := by
  induction subs with
  | nil => rfl
  | cons s subs ih =>
    simp only [List.map_cons, recvNodes, ih, Submission.channel, Channel.recvSize,
      Option.bind_eq_bind, Option.bind_some, List.sum_cons]

theorem recvPackets_sent (h : ∀ s ∈ subs, s.start ≤ s.stop) :
    recvPackets bits (subs.map fun s => InputClient.sendPacket s.packet) =
      .ok (subs.map Submission.packet) := by
  induction subs with
  | nil => rfl
  | cons s subs ih =>
    rw [List.map_cons, recvPackets, recvPacket_sent, if_pos (h s (List.mem_cons_self ..)),
      ih fun t ht => h t (List.mem_cons_of_mem _ ht)]
    rfl

end InputServer

end GraphMpc
