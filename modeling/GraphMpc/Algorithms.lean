import GraphMpc.Circuit

namespace GraphMpc

open Circuit

inductive Op where
  | multiply (x y : ℕ)
  | multiplyByConstant (x : ℕ) (constant : Ring)
  | add (x y : ℕ)
  | subtract (x y : ℕ)
  | addConstant (x : ℕ) (constant : Ring)
  | flip (x : ℕ)
  | clip (x : ℕ)
  | setConstVector (vals : Vec)
  deriving DecidableEq, Repr

namespace Op

def operands : Op → List ℕ
  | multiply x y | add x y | subtract x y => [x, y]
  | multiplyByConstant x _ | addConstant x _ | flip x | clip x => [x]
  | setConstVector _ => []

-- env holds the wires of the caller's variables; the result becomes a new variable
def exec (env : List ℕ) : Op → Build (List ℕ)
  | multiply x y => return env ++ [← Circuit.multiply (env.getD x 0) (env.getD y 0)]
  | multiplyByConstant x k => return env ++ [← mulConstSIMD (env.getD x 0) k]
  | add x y => return env ++ [← addSIMD (env.getD x 0) (env.getD y 0)]
  | subtract x y => return env ++ [← subSIMD (env.getD x 0) (env.getD y 0)]
  | addConstant x k => return env ++ [← addConstSIMD (env.getD x 0) k]
  | flip x => return env ++ [← flipSIMD (env.getD x 0)]
  | clip x => do
    let (out, x') ← clipSIMD (env.getD x 0)
    return env.set x x' ++ [out]
  | setConstVector vals => return env ++ [← setConstVecSIMD vals]

end Op

def inScope : ℕ → List Op → Bool
  | _, [] => true
  | k, op :: ops => op.operands.all (· < k) && inScope (k + 1) ops

structure Body (arity : ℕ) where
  ops : List Op
  ret : ℕ
  ops_scoped : inScope arity ops = true
  ret_lt : ret < arity + ops.length

namespace Body

variable {arity : ℕ}

def exec (b : Body arity) (args : List ℕ) : Build ℕ := do
  let env ← b.ops.foldlM Op.exec args
  return env.getD b.ret 0

def arg (k : ℕ) (h : k < arity) : Body arity := ⟨[], k, rfl, h⟩

def single (op : Op) (h : inScope arity [op] = true) : Body arity :=
  ⟨[op], arity, h, Nat.lt_succ_self _⟩

theorem clip_scoped : inScope 1 [.clip 0] = true := rfl

end Body

structure Program where
  columns : ℕ
  initNodes : ℕ → Option (Body 0)
  prepare : ℕ → ℕ → Body 1
  apply : ℕ → ℕ → Body 2
  postMp : ℕ → Body 1
  columnSums : Bool

def Program.algorithm (p : Program) : Algorithm where
  columns := p.columns
  initNodes column := match p.initNodes column with
    | none => return none
    | some b => return some (← b.exec [])
  prepare state i column := (p.prepare i column).exec [state]
  apply state update i column := (p.apply i column).exec [state, update]
  postMp state column := (p.postMp column).exec [state]
  postMpAggregate states := do
    if p.columnSums then
      return (some (← columnSumsToNodes states), states)
    else
      return (none, states)

def oneHot (nodes column : ℕ) : Vec := (List.replicate nodes 0).set column 1

def bfs : Program where
  columns := 1
  initNodes _ := none
  prepare _ _ := .arg 0 (by decide)
  apply _ _ := .single (.add 0 1) rfl
  postMp _ := .single (.clip 0) rfl
  columnSums := false

def bfs3Parallel (conf : ProtocolConfig) : Program where
  columns := 3
  initNodes column := some (.single (.setConstVector (oneHot conf.nodes column)) rfl)
  prepare _ _ := .arg 0 (by decide)
  apply _ _ := .single (.add 0 1) rfl
  postMp _ := .single (.clip 0) rfl
  columnSums := false

def piR (conf : ProtocolConfig) : Program where
  columns := conf.nodes
  initNodes column := some (.single (.setConstVector (oneHot conf.nodes column)) rfl)
  prepare _ _ := .arg 0 (by decide)
  apply _ _ := .single (.add 0 1) rfl
  postMp _ := .single (.clip 0) rfl
  columnSums := true

def katz (conf : ProtocolConfig) (weights : Vec) : Program where
  columns := 1
  initNodes _ := some (.single (.setConstVector (List.replicate conf.nodes 0)) rfl)
  prepare i _ := .single (.addConstant 0 (weights.getD (weights.length - 1 - i) 0)) rfl
  apply _ _ := .arg 1 (by decide)
  postMp _ := .arg 0 (by decide)
  columnSums := false

inductive Shipped where
  | bfs
  | bfs3Parallel
  | piM (weights : Vec)
  | piK (weights : Vec)
  | piR

namespace Shipped

def program (conf : ProtocolConfig) : Shipped → Program
  | bfs => GraphMpc.bfs
  | bfs3Parallel => GraphMpc.bfs3Parallel conf
  | piM weights => katz conf weights
  | piK weights => katz conf weights
  | piR => GraphMpc.piR conf

def create (conf : ProtocolConfig) : Shipped → Except String Circuit
  | bfs => .ok (Circuit.init conf 1)
  | bfs3Parallel =>
    if conf.nodes < 3 then .error "Not enough nodes (expects at least 3)!"
    else .ok (Circuit.init conf 3)
  | piM weights =>
    if weights.length ≠ conf.depth then .error "Number of provided weights must match depth!"
    else (Circuit.init conf 1).useReverseMessagePassing
  | piK weights =>
    if weights.length ≠ conf.depth then .error "Number of provided weights must match depth!"
    else do
      let c ← (Circuit.init conf 1).useReverseMessagePassing
      c.useEdgeDeduplication
  | piR => .ok (Circuit.init conf conf.nodes)

def circuit (conf : ProtocolConfig) (alg : Shipped) (inInputOrder : Bool) :
    Except String Circuit := do
  let c ← alg.create conf
  let c ← if inInputOrder then c.provideOutputsInInputOrder else pure c
  return (build (alg.program conf).algorithm c).2

end Shipped

end GraphMpc
