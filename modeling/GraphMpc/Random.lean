import GraphMpc.Types

namespace GraphMpc

open Tabulate

structure PRG where
  word : ℕ → BitVec 64
  pos : ℕ

namespace PRG

def nextSize (g : PRG) : ℕ × PRG := ((g.word g.pos).toNat, { g with pos := g.pos + 1 })

def nextRing (g : PRG) : Ring × PRG := ((g.word g.pos).setWidth 32, { g with pos := g.pos + 1 })

def words (g : PRG) (n : ℕ) : List (BitVec 64) := tab n fun i => g.word (g.pos + i)

def vec (g : PRG) (n : ℕ) : Vec := tab n fun i => (g.word (g.pos + i)).setWidth 32

def skip (g : PRG) (n : ℕ) : PRG := { g with pos := g.pos + n }

@[simp] theorem vec_length (g : PRG) (n : ℕ) : (g.vec n).length = n := tab_length ..

@[simp] theorem words_length (g : PRG) (n : ℕ) : (g.words n).length = n := tab_length ..

theorem vec_words (g : PRG) (n : ℕ) : (g.words n).map (·.setWidth 32) = g.vec n := tab_map ..

theorem skip_zero (g : PRG) : g.skip 0 = g := rfl

theorem skip_skip (g : PRG) (m n : ℕ) : (g.skip m).skip n = g.skip (m + n) := by
  simp [skip, Nat.add_assoc]

theorem words_add (g : PRG) (m n : ℕ) : g.words (m + n) = g.words m ++ (g.skip m).words n := by
  simp only [words, skip, tab, List.range_add, List.map_append, List.map_map, Function.comp_def,
    Nat.add_assoc]

structure Yields (g : PRG) (ws : List (BitVec 64)) (g' : PRG) : Prop where
  words : ws = g.words ws.length
  rest : g' = g.skip ws.length

end PRG

inductive Stream where
  | prep
  | send
  | recv
  deriving DecidableEq, Repr

structure RandomGenerators where
  rng01 : PRG
  withDPrep : PRG
  withDSend : PRG
  withDRecv : PRG
  withP0Prep : PRG
  withP0Send : PRG
  withP0Recv : PRG
  withP1Prep : PRG
  withP1Send : PRG
  withP1Recv : PRG
  self : PRG

namespace RandomGenerators

def withServer (g : RandomGenerators) : Party → Stream → PRG
  | .p0, .prep => g.withP0Prep
  | .p0, .send => g.withP0Send
  | .p0, .recv => g.withP0Recv
  | _, .prep => g.withP1Prep
  | _, .send => g.withP1Send
  | _, .recv => g.withP1Recv

def withDealer (g : RandomGenerators) : Stream → PRG
  | .prep => g.withDPrep
  | .send => g.withDSend
  | .recv => g.withDRecv

def skipServer (g : RandomGenerators) (n : ℕ) : Party → Stream → RandomGenerators
  | .p0, .prep => { g with withP0Prep := g.withP0Prep.skip n }
  | .p0, .send => { g with withP0Send := g.withP0Send.skip n }
  | .p0, .recv => { g with withP0Recv := g.withP0Recv.skip n }
  | _, .prep => { g with withP1Prep := g.withP1Prep.skip n }
  | _, .send => { g with withP1Send := g.withP1Send.skip n }
  | _, .recv => { g with withP1Recv := g.withP1Recv.skip n }

def skipDealer (g : RandomGenerators) (n : ℕ) : Stream → RandomGenerators
  | .prep => { g with withDPrep := g.withDPrep.skip n }
  | .send => { g with withDSend := g.withDSend.skip n }
  | .recv => { g with withDRecv := g.withDRecv.skip n }

def draw (g : RandomGenerators) (id server : Party) (stream : Stream) (n : ℕ) :
    List (BitVec 64) × RandomGenerators :=
  if id = .d then ((g.withServer server stream).words n, g.skipServer n server stream)
  else ((g.withDealer stream).words n, g.skipDealer n stream)

end RandomGenerators

end GraphMpc
