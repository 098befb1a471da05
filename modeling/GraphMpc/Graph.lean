import GraphMpc.Random

namespace GraphMpc

open Tabulate

structure Graph where
  src : Vec := []
  dst : Vec := []
  isV : Vec := []
  data : Vec := []
  isShared : Bool := false
  srcBits : List Vec := []
  dstBits : List Vec := []
  size : ℕ := 0
  nodes : ℕ := 0
  deriving DecidableEq, Repr

namespace Graph

def addListEntry (g : Graph) (src dst isV data : Ring) : Graph :=
  { g with
    src := g.src ++ [src], dst := g.dst ++ [dst], isV := g.isV ++ [isV], data := g.data ++ [data]
    size := g.size + 1
    nodes := if isV ≠ 0 then g.nodes + 1 else g.nodes }

def toBits (v : Vec) (nBits : ℕ) : List Vec :=
  tab nBits fun i => v.map fun x => (x &&& (1#32 <<< i)) >>> i

end Graph

end GraphMpc
