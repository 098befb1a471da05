import Mathlib.Data.BitVec
import GraphMpc.Library.Tabulate

namespace GraphMpc

inductive Party where
  | p0
  | p1
  | d
  deriving DecidableEq, Repr

def Party.other : Party → Party
  | .p0 => .p1
  | _ => .p0

abbrev Ring := BitVec 32

abbrev Vec := List Ring

structure ProtocolConfig where
  size : ℕ
  nodes : ℕ
  depth : ℕ
  bits : ℕ
  -- Permutation::random takes the size as a C++ int
  size_int : size < 2 ^ 31

theorem ProtocolConfig.size_le (conf : ProtocolConfig) : conf.size ≤ 2 ^ 32 :=
  conf.size_int.le.trans (by decide)

end GraphMpc
