/-
`BPlusTree<K, V>` (`storageTree.hpp`).

Every vector is a list, every `Node *` an address. The loops and the calls that go up the tree have
a bound of fuel, which is the number of nodes that have ever been made.
-/
import NanoVault.Index.Heap

namespace NanoVault.Index

open Lib.KeyRange Op

variable {K V : Type} [LinearOrder K]

def maxKeys : Nat := 2 * 100 - 1
def minKeys : Nat := 100 - 1

def BPlusTree.empty : Heap K V where
  cells := [some { isLeaf := true }]
  root := 0

/-! ### Descent -/

/-- The loop of `find_leaf`. -/
def descend (key : K) : Nat → Addr → Op K V Addr
  | 0, _ => fail .endless
  | n + 1, a => do
      let node ← read a
      if node.isLeaf then return a
      else do
        let child ← locked (.node a) do
          let node ← read a
          element node.children (index node.keys key)
        descend key n child

def findLeaf (key : K) : Op K V Addr :=
  locked .tree do
    descend key (← fuel) (← root)

/-- `search`; `none` for `false`. -/
def search (key : K) : Op K V (Option V) := do
  let leaf ← findLeaf key
  locked (.node leaf) do
    let node ← read leaf
    if key ∈ node.keys then do
      let value ← element node.values (node.keys.idxOf key)
      return some value
    else return none

/-! ### Insertion -/

def insertIntoLeaf (leaf : Addr) (key : K) (value : V) : Op K V Unit :=
  locked (.node leaf) do
    let node ← read leaf
    let pos := lowerBound node.keys key
    if node.keys[pos]? = some key then
      write leaf { node with values := node.values.set pos value }
    else
      write leaf { node with
        keys := node.keys.insertIdx pos key
        values := node.values.insertIdx pos value }

/-- `child->parent = parent`, for children that are locked meanwhile. -/
def setParent (parent : Addr) (child : Addr) : Op K V Unit :=
  locked (.node child) do
    let node ← read child
    write child { node with parent := some parent }

/-- `split_internal`, given `insert_into_parent`. -/
def splitInternal (insertIntoParent : Addr → K → Addr → Op K V Unit) (a : Addr) :
    Op K V Unit := do
  let made ← locked (.node a) do
    let node ← read a
    let mid := node.keys.length / 2
    let promoted ← element node.keys mid
    let newNode ← new
      { keys := node.keys.drop (mid + 1)
        children := node.children.drop (mid + 1)
        isLeaf := false }
    each (setParent newNode) (node.children.drop (mid + 1))
    let node ← read a
    write a { node with
      keys := node.keys.take mid
      children := node.children.take (mid + 1) }
    let right ← read newNode
    write newNode { right with parent := node.parent }
    return (promoted, newNode)
  insertIntoParent a made.1 made.2

def insertIntoParent : Nat → Addr → K → Addr → Op K V Unit
  | 0, _, _, _ => fail .endless
  | n + 1, left, key, right => do
      if left = (← root) then do
        let newRoot ← new { keys := [key], children := [left, right], isLeaf := false }
        let node ← read left
        write left { node with parent := some newRoot }
        let node ← read right
        write right { node with parent := some newRoot }
        setRoot newRoot
      else do
        let node ← read left
        let parent ← pointee node.parent
        let needsSplit ← locked (.node parent) do
          let node ← read parent
          let pos := lowerBound node.keys key
          let keys := node.keys.insertIdx pos key
          write parent { node with
            keys := keys
            children := node.children.insertIdx (pos + 1) right }
          let node ← read right
          write right { node with parent := some parent }
          return decide (maxKeys < keys.length)
        if needsSplit then splitInternal (insertIntoParent n) parent
        else return ()

def splitLeaf (leaf : Addr) : Op K V Unit :=
  locked .tree do
    let made ← locked (.node leaf) do
      let node ← read leaf
      let mid := (node.keys.length + 1) / 2
      let newLeaf ← new
        { keys := node.keys.drop mid
          values := node.values.drop mid
          isLeaf := true
          next := node.next
          parent := node.parent }
      write leaf { node with
        keys := node.keys.take mid
        values := node.values.take mid
        next := some newLeaf }
      let promoted ← element (node.keys.drop mid) 0
      return (promoted, newLeaf)
    insertIntoParent (← fuel) leaf made.1 made.2

def insert (key : K) (value : V) : Op K V Unit := do
  let leaf ← findLeaf key
  insertIntoLeaf leaf key value
  let full ← locked (.node leaf) do
    let node ← read leaf
    return decide (maxKeys < node.keys.length)
  if full then splitLeaf leaf
  else return ()

/-! ### Removal -/

def borrowFromLeft (a left : Addr) (parentKeyPos : Nat) : Op K V Unit := do
  let node ← read a
  let parent ← pointee node.parent
  locked (.node a) do
    let node ← read a
    let sibling ← read left
    if node.isLeaf then do
      let key ← element sibling.keys (sibling.keys.length - 1)
      let value ← element sibling.values (sibling.values.length - 1)
      write left { sibling with
        keys := sibling.keys.dropLast
        values := sibling.values.dropLast }
      write a { node with keys := key :: node.keys, values := value :: node.values }
      let above ← read parent
      let _ ← element above.keys parentKeyPos
      write parent { above with keys := above.keys.set parentKeyPos key }
    else do
      let above ← read parent
      let parentKey ← element above.keys parentKeyPos
      let key ← element sibling.keys (sibling.keys.length - 1)
      let child ← element sibling.children (sibling.children.length - 1)
      write left { sibling with
        keys := sibling.keys.dropLast
        children := sibling.children.dropLast }
      write a { node with keys := parentKey :: node.keys, children := child :: node.children }
      setParent a child
      let above ← read parent
      write parent { above with keys := above.keys.set parentKeyPos key }

def borrowFromRight (a right : Addr) (parentKeyPos : Nat) : Op K V Unit := do
  let node ← read a
  let parent ← pointee node.parent
  locked (.node a) do
    let node ← read a
    let sibling ← read right
    if node.isLeaf then do
      let key ← element sibling.keys 0
      let value ← element sibling.values 0
      write right { sibling with keys := sibling.keys.tail, values := sibling.values.tail }
      write a { node with keys := node.keys ++ [key], values := node.values ++ [value] }
      let above ← read parent
      let _ ← element above.keys parentKeyPos
      let front ← element sibling.keys.tail 0
      write parent { above with keys := above.keys.set parentKeyPos front }
    else do
      let above ← read parent
      let parentKey ← element above.keys parentKeyPos
      let key ← element sibling.keys 0
      let child ← element sibling.children 0
      write right { sibling with keys := sibling.keys.tail, children := sibling.children.tail }
      write a { node with
        keys := node.keys ++ [parentKey]
        children := node.children ++ [child] }
      setParent a child
      let above ← read parent
      write parent { above with keys := above.keys.set parentKeyPos key }

/-- The end of a merge: the parent has a key less, and may have too few itself. A root without
keys is deleted, and `~Node` deletes the node that is to be the new root. -/
def afterMerge (handleUnderflow : Addr → Op K V Unit) (parent merged : Addr) : Op K V Unit := do
  let above ← read parent
  if parent ≠ (← root) ∧ above.keys.length < minKeys then handleUnderflow parent
  else if parent = (← root) ∧ above.keys = [] then do
    setRoot merged
    let node ← read merged
    write merged { node with parent := none }
    delete (← fuel) parent
  else return ()

/-- What is common to the merges: `right` moves into `left`. -/
def mergeInto (left right parent : Addr) (parentKeyPos : Nat) : Op K V Unit := do
  let node ← read right
  let sibling ← read left
  let above ← read parent
  let parentKey ← element above.keys parentKeyPos
  if node.isLeaf then
    write left { sibling with
      keys := sibling.keys ++ node.keys
      values := sibling.values ++ node.values
      next := node.next }
  else do
    write left { sibling with
      keys := sibling.keys ++ parentKey :: node.keys
      children := sibling.children ++ node.children }
    each (setParent left) node.children
  let above ← read parent
  write parent { above with
    keys := above.keys.eraseIdx parentKeyPos
    children := above.children.eraseIdx (parentKeyPos + 1) }

/-- `merge_with_left`, given `handle_underflow`. -/
def mergeWithLeft (handleUnderflow : Addr → Op K V Unit) (a left : Addr) (parentKeyPos : Nat) :
    Op K V Unit := do
  let node ← read a
  let parent ← pointee node.parent
  locked (.node a) (locked (.node left) (mergeInto left a parent parentKeyPos))
  delete (← fuel) a
  afterMerge handleUnderflow parent left

/-- `merge_with_right`, given `handle_underflow`. -/
def mergeWithRight (handleUnderflow : Addr → Op K V Unit) (a right : Addr) (parentKeyPos : Nat) :
    Op K V Unit := do
  let node ← read a
  let parent ← pointee node.parent
  locked (.node a) (locked (.node right) (mergeInto a right parent parentKeyPos))
  delete (← fuel) right
  afterMerge handleUnderflow parent a

/-- Borrow from a sibling that has keys to spare; whether it has. -/
def tryBorrow (sibling : Addr) (borrow : Op K V Unit) : Op K V Bool :=
  locked (.node sibling) do
    let node ← read sibling
    if minKeys < node.keys.length then do
      borrow
      return true
    else return false

def handleUnderflow : Nat → Addr → Op K V Unit
  | 0, _ => fail .endless
  | n + 1, a => do
      let node ← read a
      match node.parent with
      | none => return ()
      | some parent =>
          locked (.node parent) do
            let above ← read parent
            let pos := above.children.idxOf a
            let borrowedLeft ←
              if 0 < pos then do
                let left ← element above.children (pos - 1)
                tryBorrow left (borrowFromLeft a left (pos - 1))
              else pure false
            if borrowedLeft then return ()
            else do
              let borrowedRight ←
                if pos + 1 < above.children.length then do
                  let right ← element above.children (pos + 1)
                  tryBorrow right (borrowFromRight a right pos)
                else pure false
              if borrowedRight then return ()
              else if 0 < pos then do
                let left ← element above.children (pos - 1)
                mergeWithLeft (handleUnderflow n) a left (pos - 1)
              else do
                let right ← element above.children (pos + 1)
                mergeWithRight (handleUnderflow n) a right pos

def deleteFromLeaf (leaf : Addr) (key : K) : Op K V Bool := do
  let needsRebalance ← locked (.node leaf) do
    let node ← read leaf
    if key ∈ node.keys then do
      let pos := node.keys.idxOf key
      let keys := node.keys.eraseIdx pos
      write leaf { node with keys := keys, values := node.values.eraseIdx pos }
      return some (decide (leaf ≠ (← root) ∧ keys.length < minKeys))
    else return none
  match needsRebalance with
  | none => return false
  | some false => return true
  | some true => do
      locked .tree do
        handleUnderflow (← fuel) leaf
      return true

def remove (key : K) : Op K V Bool := do
  let leaf ← findLeaf key
  deleteFromLeaf leaf key

/-! ### Traversal -/

/-- The first loop of `forEachKey`. -/
def leftmost : Nat → Addr → Op K V Addr
  | 0, _ => fail .endless
  | n + 1, a => do
      let node ← read a
      if node.isLeaf then return a
      else do
        let child ← locked (.node a) do
          let node ← read a
          element node.children 0
        leftmost n child

/-- The second loop; the keys `fn` is called with. -/
def walk : Nat → Option Addr → Op K V (List K)
  | _, none => return []
  | 0, some _ => fail .endless
  | n + 1, some leaf => do
      let here ← locked (.node leaf) do
        let node ← read leaf
        return (node.keys, node.next)
      let rest ← walk n here.2
      return here.1 ++ rest

/-- `forEachKey`; the keys in the order in which `fn` is called with them. -/
def forEachKey : Op K V (List K) :=
  locked .tree do
    let leaf ← leftmost (← fuel) (← root)
    walk (← fuel) (some leaf)

end NanoVault.Index
