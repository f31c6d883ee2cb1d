import Scripting.Run.Fault
import Scripting.Typed.Lower

/-!
# Flow graphs

The straight runs of a piece of code and the ways control passes between them. Node 0 is where control
enters and the node with the greatest number is where it leaves; the runs of the code stand between
them in order, numbered from one.
-/

namespace Scripting.Typed

/-- What a block stands for: the entry, a run of code, or the exit. -/
inductive BlockKind
  | start
  | basic
  | stop
deriving DecidableEq, Repr

/-- A node, with the numbers of the edges that end and that start here. -/
structure Block where
  id : Nat
  kind : BlockKind
  code : Code
  incoming : List Nat
  outgoing : List Nat

/-- Control passes from `source` to `target`, always or under a condition. -/
structure Edge where
  id : Nat
  source : Nat
  target : Nat
  condition? : Option Expr

/-- Blocks and edges in the order they were added. -/
structure FlowGraph where
  blocks : List Block
  edges : List Edge
  stop : Nat
  nextEdge : Nat

def Block.returns (b : Block) : Bool :=
  match b.code.getLast? with
  | some (.ret _) => true
  | _ => false

/-! ## Straight runs -/

/-- Whether an instruction ends the straight run it stands in. -/
def Instr.closes : Instr → Bool
  | jump _ | branch .. | ret _ => true
  | _ => false

def Instr.label? : Instr → Option Label
  | label l => some l
  | _ => none

/-- Whether a run starts with a label. -/
def Code.opens : Code → Bool
  | .label _ :: _ => true
  | _ => false

/-- Splits code into straight runs: labels open one, jumps and returns close one. -/
def Code.runs : Code → List Code
  | [] => []
  | i :: rest =>
    match Code.runs rest with
    | [] => [[i]]
    | r :: rs => if i.closes || Code.opens r then [i] :: r :: rs else (i :: r) :: rs

/-- The straight runs of statements, which must have no structure. -/
def Stmt.runs (ss : List Stmt) : Except Fault (List Code) :=
  match Code.ofStmts? ss with
  | some code => .ok (Code.runs code)
  | none => .error .structuredCode

namespace FlowGraph

def block? (g : FlowGraph) (id : Nat) : Option Block := g.blocks.find? (·.id = id)

def edge? (g : FlowGraph) (id : Nat) : Option Edge := g.edges.find? (·.id = id)

def basicBlocks (g : FlowGraph) : List Block := g.blocks.filter (·.kind = .basic)

/-- The blocks of straight runs, numbered from `n`, and the exit behind them. -/
def blocksFrom (n : Nat) : List Code → List Block
  | [] => [⟨n, .stop, [], [], []⟩]
  | r :: rs => ⟨n, .basic, r, [], []⟩ :: blocksFrom (n + 1) rs

/-- The graph of straight runs before any edge. -/
def ofRuns (runs : List Code) : FlowGraph where
  blocks := ⟨0, .start, [], [], []⟩ :: blocksFrom 1 runs
  edges := []
  stop := runs.length + 1
  nextEdge := 0

/-! ## Edges -/

def addEdge (g : FlowGraph) (source target : Nat) (condition? : Option Expr) : FlowGraph where
  blocks := g.blocks.map fun b =>
    { b with
      outgoing := if b.id = source then b.outgoing ++ [g.nextEdge] else b.outgoing
      incoming := if b.id = target then b.incoming ++ [g.nextEdge] else b.incoming }
  edges := g.edges ++ [⟨g.nextEdge, source, target, condition?⟩]
  stop := g.stop
  nextEdge := g.nextEdge + 1

/-- Adds an edge unless its condition is never met; a condition that is always met is dropped. -/
def connect (g : FlowGraph) (source target : Nat) (condition? : Option Expr) : FlowGraph :=
  match condition?.bind Expr.constant? with
  | some false => g
  | some true => g.addEdge source target none
  | none => g.addEdge source target condition?

/-- The last block that a label opens. -/
def labelled (g : FlowGraph) (l : Label) : Except Fault Nat :=
  match g.blocks.reverse.find? (fun b => b.code.head?.bind Instr.label? = some l) with
  | some b => .ok b.id
  | none => .error (.undeclaredLabel l.name)

/-- Adds the edges that leave a block: where its last instruction says, or on to the next block. -/
def wireBlock (g : FlowGraph) (b : Block) : Except Fault FlowGraph :=
  match b.code.getLast? with
  | some (.jump l) => do return g.connect b.id (← g.labelled l) none
  | some (.branch l c on) => do
    let taken := if on then c else c.negate
    let passed := if on then c.negate else c
    return (g.connect b.id (← g.labelled l) (some taken)).connect b.id (b.id + 1) (some passed)
  | some (.ret _) => .ok (g.connect b.id g.stop none)
  | _ => .ok (g.connect b.id (b.id + 1) none)

/-- Adds the edges that leave the entry and each run of code. -/
def wire (g : FlowGraph) : Except Fault FlowGraph :=
  g.basicBlocks.foldlM wireBlock (g.connect 0 1 none)

/-! ## Pruning -/

/-- A run of code that no edge ends in. -/
def orphan? (g : FlowGraph) : Option Block :=
  g.blocks.find? fun b => b.kind = .basic ∧ b.incoming = []

/-- Removes an edge, also from the lists of the blocks that it joins. -/
def removeEdge (g : FlowGraph) (id : Nat) : FlowGraph :=
  match g.edge? id with
  | none => g
  | some e =>
    { g with
      blocks := g.blocks.map fun b =>
        { b with
          outgoing := if b.id = e.source then b.outgoing.filter (· ≠ id) else b.outgoing
          incoming := if b.id = e.target then b.incoming.filter (· ≠ id) else b.incoming }
      edges := g.edges.filter (·.id ≠ id) }

/-- Removes a block, and then the edges at it one after the other. -/
def removeBlock (g : FlowGraph) (b : Block) : FlowGraph :=
  (b.incoming ++ b.outgoing).foldl removeEdge { g with blocks := g.blocks.filter (·.id ≠ b.id) }

/-- Removes up to `n` orphans, one after the other. -/
def pruneTimes : Nat → FlowGraph → FlowGraph
  | 0, g => g
  | n + 1, g =>
    match g.orphan? with
    | some b => pruneTimes n (g.removeBlock b)
    | none => g

/-- Removes orphans until none are left. Removing one can make others. -/
def prune (g : FlowGraph) : FlowGraph := pruneTimes g.blocks.length g

/-! ## The graph of a piece of code -/

/-- The graph of a piece of code, without blocks that no edge ends in. -/
def ofCode (code : Code) : Except Fault FlowGraph :=
  (ofRuns (Code.runs code)).wire.map prune

/-- The graph of statements, which must have no structure. -/
def ofStmts (ss : List Stmt) : Except Fault FlowGraph :=
  (Stmt.runs ss).bind fun runs => (ofRuns runs).wire.map prune

/-- Whether control leaves only from blocks that end in a return. -/
def allPathsReturn (g : FlowGraph) : Bool :=
  match g.block? g.stop with
  | none => true
  | some exit =>
    exit.incoming.all fun e => (((g.edge? e).bind (g.block? ·.source)).map (·.returns)).getD false

end FlowGraph

/-- Whether every way through a piece of code ends in a return. -/
def Code.allPathsReturn (code : Code) : Bool :=
  match FlowGraph.ofCode code with
  | .ok g => g.allPathsReturn
  | .error _ => false

end Scripting.Typed
