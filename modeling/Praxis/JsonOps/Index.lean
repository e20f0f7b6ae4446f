/-
The trie over the pointers of an operation set, an arena of nodes. A token that is an array
index leads to the same child as an object key and as an array position. The token `-` of an add
is no child: it marks its parent as an array to append to.
-/
import Praxis.JsonOps.Ops

namespace Praxis.JsonOps

open Praxis.Lib.Json

inductive PathToken where
  | key (key : String)
  | index (idx : Nat)
deriving Repr, DecidableEq

/-- Whether a token of a pointer names this step of the walk. -/
def PathToken.isNamedBy : PathToken → String → Bool
  | .key k, token => k == token
  | .index i, token => arrayIndex token == some i

def pathEqTokens (path : List PathToken) (tokens : List String) : Bool :=
  path.length == tokens.length && (path.zip tokens).all fun (seg, token) => seg.isNamedBy token

/-! ## Building the trie -/

structure PathNode where
  nested : Bool
  extractIdx : Option Nat
  mutateIdx : Option Nat
  extractBranch : Bool
  objectChildren : List (String × Nat)
  arrayChildren : List (Nat × Nat)
  arrayAppend : Option Nat
deriving Repr, DecidableEq

/-- A node without operations and children. -/
def PathNode.default : PathNode :=
  { nested := false, extractIdx := none, mutateIdx := none, extractBranch := false, objectChildren := []
    arrayChildren := [], arrayAppend := none }

/-- `entry(..).or_insert(..)`. -/
def orInsert {κ : Type} [BEq κ] (children : List (κ × Nat)) (k : κ) (child : Nat) : List (κ × Nat) :=
  match children.lookup k with
  | some _ => children
  | none => children ++ [(k, child)]

def childIdForToken (nodes : List PathNode) (parent : Nat) (token : String) : Option Nat :=
  match nodes[parent]? with
  | none => none
  | some node =>
    match (arrayIndex token).bind fun idx => node.arrayChildren.lookup idx with
    | some id => some id
    | none => node.objectChildren.lookup token

def linkToken (nodes : List PathNode) (parent : Nat) (token : String) (child : Nat) : List PathNode :=
  nodes.modify parent fun node =>
    { node with
      objectChildren := orInsert node.objectChildren token child
      arrayChildren :=
        match arrayIndex token with
        | some idx => orInsert node.arrayChildren idx child
        | none => node.arrayChildren }

def ensureChild (nodes : List PathNode) (parent : Nat) (token : String) : List PathNode × Nat :=
  match childIdForToken nodes parent token with
  | some id => (linkToken nodes parent token id, id)
  | none => (linkToken (nodes ++ [.default]) parent token nodes.length, nodes.length)

/-- What an operation leaves at its parent on the way down. -/
def PathNode.passed (node : PathNode) (kind : OpKind) (last : Bool) : PathNode :=
  { node with
    nested := node.nested || !last
    extractBranch := node.extractBranch || decide (kind = .extract) }

/-- What an operation leaves at its target. -/
def PathNode.targeted (node : PathNode) (kind : OpKind) (idx : Nat) : PathNode :=
  if kind = .extract then { node with extractIdx := some idx } else { node with mutateIdx := some idx }

/-- The loop over the tokens of one operation. -/
def insertTokens (idx : Nat) (kind : OpKind) : List PathNode → Nat → List String → List PathNode
  | nodes, _, [] => nodes
  | nodes, id, token :: rest =>
    if token = "-" ∧ rest = [] ∧ kind = .add then nodes.modify id fun node => { node with arrayAppend := some idx }
    else
      let (nodes, child) := ensureChild nodes id token
      let nodes := nodes.modify id fun node => node.passed kind rest.isEmpty
      let nodes := if rest = [] then nodes.modify child fun node => node.targeted kind idx else nodes
      insertTokens idx kind nodes child rest

/-- One operation. -/
def insertOp (nodes : List PathNode) (idx : Nat) (op : CompiledOp) : List PathNode :=
  if op.tokens = [] then
    nodes.modify 0 fun node =>
      if op.kind = .extract then { node with extractIdx := some idx, extractBranch := true }
      else { node with mutateIdx := some idx }
  else insertTokens idx op.kind nodes 0 op.tokens

def insertOps : List PathNode → Nat → List CompiledOp → List PathNode
  | nodes, _, [] => nodes
  | nodes, idx, op :: rest => insertOps (insertOp nodes idx op) (idx + 1) rest

structure OpPathIndex where
  nodes : List PathNode
  miss : Nat
deriving Repr, DecidableEq

namespace OpPathIndex

def build (ops : List CompiledOp) : OpPathIndex :=
  let nodes := insertOps [.default] 0 ops
  { nodes := nodes ++ [.default], miss := nodes.length }

/-! ## Lookups -/

def node (index : OpPathIndex) (id : Nat) : PathNode :=
  match index.nodes[id]? with
  | some node => node
  | none => index.nodes.head?.getD .default

/-- The walk of `node_at`. -/
def walkTo (index : OpPathIndex) : Nat → List PathToken → Option Nat
  | id, [] => some id
  | id, seg :: path =>
    let next :=
      match seg with
      | .key key => (index.node id).objectChildren.lookup key
      | .index idx => (index.node id).arrayChildren.lookup idx
    match next with
    | some child => index.walkTo child path
    | none => none

variable (index : OpPathIndex) (path : List PathToken)

def nodeAt : PathNode :=
  match index.walkTo 0 path with
  | some id => index.node id
  | none => index.node index.miss

def nodeHasWork (node : PathNode) : Bool :=
  node.nested || node.mutateIdx.isSome || node.extractIdx.isSome || !node.objectChildren.isEmpty ||
    !node.arrayChildren.isEmpty || node.arrayAppend.isSome

def childObjectNode (key : String) : Option Nat := (index.nodeAt path).objectChildren.lookup key

def childArrayNode (idx : Nat) : Option Nat := (index.nodeAt path).arrayChildren.lookup idx

def extractBranchAt : Bool := (index.nodeAt path).extractBranch || (index.nodeAt path).extractIdx.isSome

def hasDescendantExtracts : Bool := (index.nodeAt path).extractBranch

def hasDescendantOps : Bool := nodeHasWork (index.nodeAt path)

def childNeedsRewrite (key : String) : Bool :=
  (index.childObjectNode path key).any fun id => nodeHasWork (index.node id)

def childIndexNeedsRewrite (idx : Nat) : Bool :=
  (index.childArrayNode path idx).any fun id => nodeHasWork (index.node id)

def extractAt : Option Nat := (index.nodeAt path).extractIdx

def mutateChildKey (key : String) : Option Nat :=
  (index.childObjectNode path key).bind fun id => (index.node id).mutateIdx

def mutateAtIndex (idx : Nat) : Option Nat := (index.childArrayNode path idx).bind fun id => (index.node id).mutateIdx

def addAppend : Option Nat := (index.nodeAt path).arrayAppend

end OpPathIndex

end Praxis.JsonOps
