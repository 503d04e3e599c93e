/-!
# Derivation trees

Leaves are words, nodes are symbols with the weight of the derivation below them. Every node knows
which part of the input it covers, counted from 0, the end excluded.
-/
namespace TabularParsing

structure Extent where
  start : Nat
  stop : Nat
  deriving DecidableEq, Inhabited

inductive Tree (W : Type) where
  | leaf (word : String) (extent : Extent)
  | node (symbol : String) (weight : W) (extent : Extent) (children : List (Tree W))

namespace Tree

variable {W : Type}

instance : Inhabited (Tree W) := ⟨leaf "" default⟩

def extent : Tree W → Extent
  | leaf _ e => e
  | node _ _ e _ => e

def children : Tree W → List (Tree W)
  | leaf _ _ => []
  | node _ _ _ cs => cs

/-- The word of a leaf or the symbol of a node. -/
def label : Tree W → String
  | leaf w _ => w
  | node s _ _ _ => s

mutual

/-- Every node of the tree with its depth, parents before children, from the left. -/
def walkFrom (depth : Nat) : Tree W → List (Nat × Tree W)
  | leaf w e => [(depth, leaf w e)]
  | node s p e cs => (depth, node s p e cs) :: walkAll (depth + 1) cs

def walkAll (depth : Nat) : List (Tree W) → List (Nat × Tree W)
  | [] => []
  | t :: ts => walkFrom depth t ++ walkAll depth ts

end

def walk (t : Tree W) : List (Nat × Tree W) := t.walkFrom 0

mutual

/-- The leaves from left to right. -/
def leaves : Tree W → List (String × Extent)
  | leaf w e => [(w, e)]
  | node _ _ _ cs => leavesAll cs

def leavesAll : List (Tree W) → List (String × Extent)
  | [] => []
  | t :: ts => leaves t ++ leavesAll ts

end

/-- The words at the leaves. -/
def words (t : Tree W) : List String := t.leaves.map Prod.fst

mutual

/-- How many nodes lie between the root and the deepest node. -/
def depth : Tree W → Nat
  | leaf _ _ => 0
  | node _ _ _ cs => depthAll cs

/-- One more than the greatest depth of the trees, zero for none. -/
def depthAll : List (Tree W) → Nat
  | [] => 0
  | t :: ts => max (depth t + 1) (depthAll ts)

end

mutual

/-- Equal trees, with weights compared by `==`. -/
def same [BEq W] : Tree W → Tree W → Bool
  | leaf w e, leaf w' e' => w == w' && e == e'
  | node s p e cs, node s' p' e' cs' => s == s' && p == p' && e == e' && sameAll cs cs'
  | _, _ => false

def sameAll [BEq W] : List (Tree W) → List (Tree W) → Bool
  | [], [] => true
  | t :: ts, u :: us => same t u && sameAll ts us
  | _, _ => false

end

instance [BEq W] : BEq (Tree W) := ⟨same⟩

@[simp] theorem walkFrom_leaf (depth : Nat) (w : String) (e : Extent) :
    walkFrom depth (leaf w e : Tree W) = [(depth, leaf w e)] := by simp [walkFrom]

@[simp] theorem leaves_leaf (w : String) (e : Extent) : leaves (leaf w e : Tree W) = [(w, e)] := by
  simp [leaves]

theorem leavesAll_eq (ts : List (Tree W)) : leavesAll ts = ts.flatMap leaves := by
  induction ts with
  | nil => simp [leavesAll]
  | cons t ts ih => simp [leavesAll, ih]

@[simp] theorem leaves_node (s : String) (p : W) (e : Extent) (cs : List (Tree W)) :
    leaves (node s p e cs) = cs.flatMap leaves := by simp [leaves, leavesAll_eq]

end Tree

end TabularParsing
