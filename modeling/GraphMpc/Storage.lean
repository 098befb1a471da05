import GraphMpc.Permutation
import Mathlib.Logic.Function.Basic

namespace GraphMpc

open Tabulate

-- read_preproc and read_online: none where the code throws or reads past the end
def readChunk (buffer : Vec) (n idx : ℕ) : Option (Vec × ℕ) :=
  if buffer.length < idx + n then none
  else some ((buffer.drop idx).take n, if idx + n ≥ buffer.length then 0 else idx + n)

structure Storage where
  pi0 : ℕ → Permutation
  pi1 : ℕ → Permutation
  pi0p : ℕ → Permutation
  pi1p : ℕ → Permutation
  preprocessed : ℕ → Bool
  preproc : Party → Vec
  B : Party → Vec
  readIdx : ℕ
  rngs : RandomGenerators
  triplesA : ℕ → Vec
  triplesB : ℕ → Vec
  triplesC : ℕ → Vec

namespace Storage

def init (rngs : RandomGenerators) : Storage where
  pi0 _ := .null
  pi1 _ := .null
  pi0p _ := .null
  pi1p _ := .null
  preprocessed _ := false
  preproc _ := []
  B _ := []
  readIdx := 0
  rngs := rngs
  triplesA _ := []
  triplesB _ := []
  triplesC _ := []

def readPreproc (s : Storage) (id : Party) (n : ℕ) : Option (Vec × Storage) := do
  let (v, idx) ← readChunk (s.preproc id) n s.readIdx
  return (v, { s with readIdx := idx })

def storeB (s : Storage) (dst : Party) (v : Vec) : Storage :=
  { s with B := Function.update s.B dst (s.B dst ++ v) }

def storeVec (s : Storage) (dst : Party) (v : Vec) : Storage :=
  { s with preproc := Function.update s.preproc dst (s.preproc dst ++ v) }

def storeTriples (s : Storage) (a b c : Vec) (multIdx : ℕ) : Storage :=
  { s with
    triplesA := Function.update s.triplesA multIdx a
    triplesB := Function.update s.triplesB multIdx b
    triplesC := Function.update s.triplesC multIdx c }

end Storage

end GraphMpc
