import Mathlib
import PolkadotSdk.Lib.Unordered

/-! # The fork tree

A forest of blocks over several branches. The caller supplies `isDescendentOf`, which may
fail; a failure ends the operation. `none` is a panic (an index out of range) or a loop
that did not end within its rounds. Where an operation fails after it has taken nodes out
of the tree, the tree it leaves behind is not part of the model.
-/

namespace PolkadotSdk.ForkTree

structure Node (H N V : Type) where
  hash : H
  number : N
  data : V
  children : List (Node H N V)

inductive Error (E : Type) where
  | duplicate
  | unfinalizedAncestor
  | revert
  | client (error : E)
  deriving DecidableEq, Repr

inductive FinalizationResult (V : Type) where
  | changed (data : Option V)
  | unchanged
  deriving DecidableEq, Repr

inductive FilterAction where
  | remove
  | keepNode
  | keepTree
  deriving DecidableEq, Repr

/-- The result of an operation that can panic and that can fail. -/
abbrev Outcome (E α : Type) : Type := Option (Except (Error E) α)

def Outcome.bind {E α β : Type} (x : Outcome E α) (f : α → Outcome E β) : Outcome E β :=
  match x with
  | none => none
  | some (.error e) => some (.error e)
  | some (.ok a) => f a

/-- The `?` of the source on the answer of `isDescendentOf`. -/
def clientError {E α : Type} : Except E α → Except (Error E) α
  | .error e => .error (.client e)
  | .ok a => .ok a

/-- `condition && answer?` -/
def andAlso {E : Type} (condition : Bool) (answer : Except (Error E) Bool) :
    Except (Error E) Bool :=
  if condition then answer else .ok false

variable {H N V W E : Type}

/-! ## Walks over a forest

A stack is a list whose head is its top.
-/

mutual

def Node.size : Node H N V → Nat
  | ⟨_, _, _, children⟩ => 1 + size children

def size : List (Node H N V) → Nat
  | [] => 0
  | node :: rest => node.size + size rest

end

mutual

def Node.nodes : Node H N V → List (Node H N V)
  | ⟨hash, number, data, children⟩ => ⟨hash, number, data, children⟩ :: nodesOf children

def nodesOf : List (Node H N V) → List (Node H N V)
  | [] => []
  | node :: rest => node.nodes ++ nodesOf rest

end

def iterate : Nat → List (Node H N V) → List (Node H N V)
  | 0, _ => []
  | _ + 1, [] => []
  | fuel + 1, node :: stack => node :: iterate fuel (node.children ++ stack)

def nodeIter (roots : List (Node H N V)) : List (Node H N V) := iterate (size roots) roots

def item (node : Node H N V) : H × N × V := (node.hash, node.number, node.data)

def removedItems (removed : List (Node H N V)) : List (H × N × V) :=
  (iterate (size removed) removed.reverse).map item

def maxDepthLoop : Nat → List (Node H N V × Nat) → Nat → Nat
  | 0, _, max => max
  | _ + 1, [], max => max
  | fuel + 1, (node, height) :: stack, max =>
    maxDepthLoop fuel ((node.children.map fun n => (n, height + 1)).reverse ++ stack)
      (if height > max then height else max)

def maxDepth (node : Node H N V) : Nat := maxDepthLoop (size [node]) [(node, 0)] 0

def sortByDepth (keyed : List (Nat × Node H N V)) : List (Node H N V) :=
  (keyed.insertionSort fun a b => b.1 ≤ a.1).map Prod.snd

mutual

def Node.rebalance : Node H N V → Node H N V
  | ⟨hash, number, data, children⟩ =>
    ⟨hash, number, data, sortByDepth (rebalanceKeyed children)⟩

def rebalanceKeyed : List (Node H N V) → List (Nat × Node H N V)
  | [] => []
  | node :: rest => (maxDepth node, node.rebalance) :: rebalanceKeyed rest

end

def rebalanceRoots (roots : List (Node H N V)) : List (Node H N V) :=
  sortByDepth (rebalanceKeyed roots)

/-! ## Paths -/

def nodeAt : List Nat → List (Node H N V) → Option (Node H N V)
  | [], _ => none
  | [i], roots => roots[i]?
  | i :: path, roots => roots[i]?.bind fun node => nodeAt path node.children

def childrenAt : List Nat → List (Node H N V) → Option (List (Node H N V))
  | [], roots => some roots
  | i :: path, roots => roots[i]?.bind fun node => childrenAt path node.children

def setChildrenAt : List Nat → List (Node H N V) → List (Node H N V) → List (Node H N V)
  | [], children, _ => children
  | i :: path, children, roots =>
    roots.modify i fun node =>
      { node with children := setChildrenAt path children node.children }

def setAt : List Nat → Node H N V → List (Node H N V) → List (Node H N V)
  | [], _, roots => roots
  | [i], changed, roots => roots.set i changed
  | i :: path, changed, roots =>
    roots.modify i fun node => { node with children := setAt path changed node.children }

def detachAt : List Nat → List (Node H N V) → Option (Node H N V × List (Node H N V))
  | [], _ => none
  | [i], roots => roots[i]?.map fun node => (node, roots.eraseIdx i)
  | i :: path, roots =>
    roots[i]?.bind fun node =>
      (detachAt path node.children).map fun (detached, children) =>
        (detached, roots.set i { node with children := children })

/-! ## The search for an ancestor -/

section Search

variable [LinearOrder N]
variable (hash : H) (number : N) (isDescendentOf : H → H → Except E Bool) (predicate : V → Bool)

/-- The inner loop: whether a node was found, whether an ancestor was met, and the stack that is
left. -/
def findLoop : Nat → List (Node H N V × Nat) → Bool →
    Outcome E (Bool × Bool × List (Node H N V × Nat))
  | 0, _, _ => none
  | _ + 1, [], isDescendent => some (.ok (false, isDescendent, []))
  | fuel + 1, (node, i) :: stack, isDescendent =>
    match if isDescendent then none else node.children[i]? with
    | some child =>
      if child.number < number then
        findLoop fuel ((child, 0) :: (node, i + 1) :: stack) isDescendent
      else
        findLoop fuel ((node, i + 1) :: stack) isDescendent
    | none =>
      match if isDescendent then .ok true else isDescendentOf node.hash hash with
      | .error e => some (.error (.client e))
      | .ok true =>
        if predicate node.data then some (.ok (true, true, stack))
        else findLoop fuel stack true
      | .ok false => findLoop fuel stack isDescendent

def findRoots : Nat → List (Node H N V) → Outcome E (Option (List Nat))
  | _, [] => some (.ok none)
  | rootIdx, root :: rest =>
    if number ≤ root.number then findRoots (rootIdx + 1) rest
    else
      match findLoop hash number isDescendentOf predicate (2 * size [root]) [(root, 0)] false with
      | none => none
      | some (.error e) => some (.error e)
      | some (.ok (found, isDescendent, stack)) =>
        if isDescendent then
          -- The stack holds the index of the next child, one past the one in progress.
          some (.ok (if found then
            some (rootIdx :: stack.reverse.map fun (_, i) => i - 1) else none))
        else findRoots (rootIdx + 1) rest

def findNodeIndexWhere (roots : List (Node H N V)) : Outcome E (Option (List Nat)) :=
  findRoots hash number isDescendentOf predicate 0 roots

def findNodeWhere (roots : List (Node H N V)) : Outcome E (Option (Node H N V)) :=
  (findNodeIndexWhere hash number isDescendentOf predicate roots).bind fun
    | none => some (.ok none)
    | some path => (nodeAt path roots).map fun node => .ok (some node)

/-- A mutable reference is the node with the forest that a change of it makes. -/
def findNodeWhereMut (roots : List (Node H N V)) :
    Outcome E (Option (Node H N V × (Node H N V → List (Node H N V)))) :=
  (findNodeIndexWhere hash number isDescendentOf predicate roots).bind fun
    | none => some (.ok none)
    | some path => (nodeAt path roots).map fun node =>
      .ok (some (node, fun changed => setAt path changed roots))

end Search

/-! ## Pruning -/

section Prune

variable [DecidableEq H] [LinearOrder N]
variable (hash : H) (number : N) (isDescendentOf : H → H → Except E Bool)

def atOrBelow (child : Node H N V) : Except (Error E) Bool :=
  if child.number = number ∧ child.hash = hash then .ok true
  else andAlso (number < child.number) (clientError (isDescendentOf hash child.hash))

def keepDescendents : List (Node H N V) → Except (Error E) (List (Node H N V) × List (Node H N V))
  | [] => .ok ([], [])
  | child :: rest => do
    let keep ← atOrBelow hash number isDescendentOf child
    let (kept, removed) ← keepDescendents rest
    if keep then .ok (child :: kept, removed) else .ok (kept, child :: removed)

mutual

/-- The node with the children that stay, and the nodes that are removed. -/
def Node.prune : Node H N V → Except (Error E) (Node H N V × List (Node H N V))
  | ⟨nodeHash, nodeNumber, data, children⟩ => do
    let (kept, removed) ← pruneChildren children []
    .ok (⟨nodeHash, nodeNumber, data, kept⟩, removed)

/-- `before` holds, last one first, the children that are no ancestors. -/
def pruneChildren : List (Node H N V) → List (Node H N V) →
    Except (Error E) (List (Node H N V) × List (Node H N V))
  | [], before => keepDescendents hash number isDescendentOf before.reverse
  | child :: rest, before => do
    let ancestor ← andAlso (child.number < number) (clientError (isDescendentOf child.hash hash))
    if ancestor then
      let (next, removed) ← child.prune
      .ok ([next], before.reverse ++ rest ++ removed)
    else pruneChildren rest (child :: before)

end

end Prune

/-! ## Rebuilding a tree through a flat queue

`map` and `drain_filter` empty the tree level by level into one list, in which every node
has the position of its parent, and then hand the nodes back to their parents from the end.
-/

/-- A node of the queue is removed, or put out, and its children are queued or not. -/
abbrev Visit (H N V W : Type) := Node H N V → Option (Node H N W × Bool)

structure Drained (H N V W : Type) where
  output : List (Option Nat × Node H N W)
  removed : List (Node H N V)
  nextQueue : List (Option Nat × Node H N V)

def drainQueue (visit : Visit H N V W) :
    List (Option Nat × Node H N V) → Drained H N V W → Drained H N V W
  | [], acc => acc
  | (parentIdx, node) :: queue, acc =>
    match visit node with
    | none => drainQueue visit queue { acc with removed := acc.removed ++ [node] }
    | some (kept, descend) =>
      let children := if descend then node.children else []
      drainQueue visit queue
        { acc with
          output := acc.output ++ [(parentIdx, kept)]
          nextQueue :=
            acc.nextQueue ++ children.reverse.map fun c => (some acc.output.length, c) }

def drainLevels (visit : Visit H N V W) :
    Nat → List (Option Nat × Node H N V) → List (Option Nat × Node H N W) → List (Node H N V) →
      Option (List (Option Nat × Node H N W) × List (Node H N V))
  | 0, _, _, _ => none
  | _ + 1, [], output, removed => some (output, removed)
  | fuel + 1, queue, output, removed =>
    let drained := drainQueue visit queue ⟨output, removed, []⟩
    drainLevels visit fuel drained.nextQueue drained.output drained.removed

def pushChild (child : Node H N W) (entry : Option Nat × Node H N W) : Option Nat × Node H N W :=
  (entry.1, { entry.2 with children := entry.2.children ++ [child] })

def handBack : List (Option Nat × Node H N W) → List (Node H N W) → Nat →
    Option (List (Node H N W))
  | _, roots, 0 => some roots
  | output, roots, rounds + 1 =>
    match output.getLast? with
    | none => some roots
    | some (none, node) => handBack output.dropLast (roots ++ [node]) rounds
    | some (some parentIdx, node) =>
      if parentIdx < output.dropLast.length then
        handBack (output.dropLast.modify parentIdx (pushChild node)) roots rounds
      else none

def rebuild (visit : Visit H N V W) (roots : List (Node H N V)) :
    Option (List (Node H N W) × List (Node H N V)) :=
  (drainLevels visit (size roots + 1) (roots.reverse.map fun node => (none, node)) [] []).bind
    fun (output, removed) =>
      (handBack output [] output.length).map fun newRoots => (newRoots, removed)

def visitMap (f : H → N → V → W) : Visit H N V W := fun node =>
  some (⟨node.hash, node.number, f node.hash node.number node.data, []⟩, true)

def visitFilter (filter : H → N → V → FilterAction) : Visit H N V V := fun node =>
  match filter node.hash node.number node.data with
  | .keepNode => some ({ node with children := [] }, true)
  | .keepTree => some (node, false)
  | .remove => none

end PolkadotSdk.ForkTree

namespace PolkadotSdk

open ForkTree

structure ForkTree (H N V : Type) where
  roots : List (Node H N V)
  bestFinalizedNumber : Option N

namespace ForkTree

variable {H N V W E : Type}

def new : ForkTree H N V := ⟨[], none⟩

def rebalance (tree : ForkTree H N V) : ForkTree H N V :=
  { tree with roots := rebalanceRoots tree.roots }

def map (f : H → N → V → W) (tree : ForkTree H N V) : Option (ForkTree H N W) :=
  (rebuild (visitMap f) tree.roots).map fun (roots, _) => ⟨roots, tree.bestFinalizedNumber⟩

def drainFilter (filter : H → N → V → FilterAction) (tree : ForkTree H N V) :
    Option (ForkTree H N V × List (H × N × V)) :=
  (rebuild (visitFilter filter) tree.roots).map fun (roots, removed) =>
    let tree := { tree with roots := roots }
    (if removed.isEmpty then tree else tree.rebalance, removedItems removed)

section Operations

variable [DecidableEq H] [LinearOrder N]

def reverts (tree : ForkTree H N V) (number : N) : Bool :=
  match tree.bestFinalizedNumber with
  | some bestFinalizedNumber => decide (number ≤ bestFinalizedNumber)
  | none => false

def importNode (tree : ForkTree H N V) (hash : H) (number : N) (data : V)
    (isDescendentOf : H → H → Except E Bool) : Outcome E (ForkTree H N V × Bool) :=
  if tree.reverts number then some (.error .revert)
  else
    (findNodeIndexWhere hash number isDescendentOf (fun _ => true) tree.roots).bind fun found =>
      let path := found.getD []
      match childrenAt path tree.roots with
      | none => none
      | some children =>
        if children.any fun elem => decide (elem.hash = hash) then some (.error .duplicate)
        else
          let children := children ++ [⟨hash, number, data, []⟩]
          let tree := { tree with roots := setChildrenAt path children tree.roots }
          let tree := if children.length = 1 then tree.rebalance else tree
          some (.ok (tree, found.isNone))

def prune (tree : ForkTree H N V) (hash : H) (number : N)
    (isDescendentOf : H → H → Except E Bool) (predicate : V → Bool) :
    Outcome E (ForkTree H N V × List (H × N × V)) :=
  (findNodeIndexWhere hash number isDescendentOf predicate tree.roots).bind fun
    | none => some (.ok (tree, []))
    | some newRootPath =>
      match detachAt newRootPath tree.roots with
      | none => none
      | some (root, removed) =>
        match root.prune hash number isDescendentOf with
        | .error e => some (.error e)
        | .ok (root, removedBelow) =>
          let tree := { tree with roots := [root] }
          some (.ok (tree.rebalance, removedItems (removed ++ removedBelow)))

def finalizeRootAt (tree : ForkTree H N V) (position : Nat) : Option (ForkTree H N V × V) :=
  (swapRemove tree.roots position).map fun (node, _) =>
    (⟨node.children, some node.number⟩, node.data)

def finalizeRoot (tree : ForkTree H N V) (hash : H) : Option (ForkTree H N V × Option V) :=
  match tree.roots.findIdx? fun node => decide (node.hash = hash) with
  | none => some (tree, none)
  | some position => (tree.finalizeRootAt position).map fun (tree, data) => (tree, some data)

def descendsFromRoot (hash : H) (number : N) (isDescendentOf : H → H → Except E Bool) :
    List (Node H N V) → Except (Error E) Bool
  | [] => .ok false
  | root :: rest => do
    let below ← andAlso (root.number < number) (clientError (isDescendentOf root.hash hash))
    if below then .ok true else descendsFromRoot hash number isDescendentOf rest

def retainRoots (retain : Node H N V → Except (Error E) Bool) :
    List (Node H N V) → Except (Error E) (List (Node H N V) × Bool)
  | [] => .ok ([], false)
  | root :: rest => do
    let keep ← retain root
    let (roots, changed) ← retainRoots retain rest
    if keep then .ok (root :: roots, changed) else .ok (roots, true)

def changedIf (changed : Bool) : FinalizationResult V :=
  if changed then .changed none else .unchanged

def finalize (tree : ForkTree H N V) (hash : H) (number : N)
    (isDescendentOf : H → H → Except E Bool) :
    Outcome E (ForkTree H N V × FinalizationResult V) :=
  if tree.reverts number then some (.error .revert)
  else
    match tree.finalizeRoot hash with
    | none => none
    | some (tree, some data) => some (.ok (tree, .changed (some data)))
    | some (tree, none) =>
      some do
        if ← descendsFromRoot hash number isDescendentOf tree.roots then
          .error .unfinalizedAncestor
        else
          let (roots, changed) ← retainRoots (fun root =>
            andAlso (number < root.number) (clientError (isDescendentOf hash root.hash)))
            tree.roots
          .ok (⟨roots, some number⟩, changedIf changed)

def finalizeAncestorsLoop (hash : H) (number : N) (isDescendentOf : H → H → Except E Bool) :
    Nat → ForkTree H N V → Nat → Bool → Outcome E (ForkTree H N V × FinalizationResult V)
  | 0, _, _, _ => none
  | fuel + 1, tree, idx, changed =>
    match tree.roots[idx]? with
    | none => some (.ok ({ tree with bestFinalizedNumber := some number }, changedIf changed))
    | some root =>
      if root.hash = hash then
        (tree.finalizeRootAt idx).map fun (tree, data) => .ok (tree, .changed (some data))
      else
        match andAlso (number < root.number) (clientError (isDescendentOf hash root.hash)) with
        | .error e => some (.error e)
        | .ok true => finalizeAncestorsLoop hash number isDescendentOf fuel tree (idx + 1) changed
        | .ok false =>
          match andAlso (root.number < number)
            (clientError (isDescendentOf root.hash hash)) with
          | .error e => some (.error e)
          | .ok isAncestor =>
            match swapRemove tree.roots idx with
            | none => none
            | some (root, roots) =>
              let roots := if isAncestor then roots ++ root.children else roots
              finalizeAncestorsLoop hash number isDescendentOf fuel
                { tree with roots := roots } idx true

def finalizeWithAncestors (tree : ForkTree H N V) (hash : H) (number : N)
    (isDescendentOf : H → H → Except E Bool) :
    Outcome E (ForkTree H N V × FinalizationResult V) :=
  if tree.reverts number then some (.error .revert)
  else
    match tree.finalizeRoot hash with
    | none => none
    | some (tree, some data) => some (.ok (tree, .changed (some data)))
    | some (tree, none) =>
      finalizeAncestorsLoop hash number isDescendentOf (size tree.roots + 1) tree 0 false

def equalOrDescendent (hash : H) (isDescendentOf : H → H → Except E Bool) (nodeHash : H) :
    Except (Error E) Bool :=
  if nodeHash = hash then .ok true else clientError (isDescendentOf nodeHash hash)

def passesChild (hash : H) (number : N) (isDescendentOf : H → H → Except E Bool) :
    List (Node H N V) → Except (Error E) Bool
  | [] => .ok false
  | child :: rest => do
    let passed ←
      andAlso (child.number ≤ number) (equalOrDescendent hash isDescendentOf child.hash)
    if passed then .ok true else passesChild hash number isDescendentOf rest

/-- The first node that passes the predicate and that the block is at or below, without being past
one of its children. -/
def findFinalized (hash : H) (number : N) (isDescendentOf : H → H → Except E Bool)
    (predicate : V → Bool) :
    Nat → List (Node H N V) → Except (Error E) (Option (Nat × Node H N V))
  | _, [] => .ok none
  | i, node :: rest => do
    let hit ← andAlso (predicate node.data) (equalOrDescendent hash isDescendentOf node.hash)
    if hit then
      if ← passesChild hash number isDescendentOf node.children then
        .error .unfinalizedAncestor
      else .ok (some (i, node))
    else findFinalized hash number isDescendentOf predicate (i + 1) rest

def finalizesAnyWithDescendentIf (tree : ForkTree H N V) (hash : H) (number : N)
    (isDescendentOf : H → H → Except E Bool) (predicate : V → Bool) :
    Except (Error E) (Option Bool) :=
  if tree.reverts number then .error .revert
  else do
    match ← findFinalized hash number isDescendentOf predicate 0 (nodeIter tree.roots) with
    | none => .ok none
    | some (_, node) => .ok (some (tree.roots.any fun root => decide (root.hash = node.hash)))

def retainsRoot (hash : H) (number : N) (isDescendentOf : H → H → Except E Bool)
    (root : Node H N V) : Except (Error E) Bool := do
  let below ← andAlso (number < root.number) (clientError (isDescendentOf hash root.hash))
  if below ∨ root.number = number ∧ root.hash = hash then .ok true
  else clientError (isDescendentOf root.hash hash)

def finalizeWithDescendentIf (tree : ForkTree H N V) (hash : H) (number : N)
    (isDescendentOf : H → H → Except E Bool) (predicate : V → Bool) :
    Except (Error E) (ForkTree H N V × FinalizationResult V) :=
  if tree.reverts number then .error .revert
  else do
    let found ← findFinalized hash number isDescendentOf predicate 0 tree.roots
    let roots := (found.map fun (_, node) => node.children).getD tree.roots
    let (roots, changed) ← retainRoots (retainsRoot hash number isDescendentOf) roots
    .ok (⟨roots, some number⟩,
      match found with
      | some (_, node) => .changed (some node.data)
      | none => changedIf changed)

end Operations

end ForkTree

end PolkadotSdk
