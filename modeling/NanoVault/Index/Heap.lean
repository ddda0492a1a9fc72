/-
The memory of `BPlusTree` (`storageTree.hpp`): nodes at addresses, `new`, `delete` and mutexes.

`delete` removes a node together with the children of an inner one, as `~Node` does; addresses are
not used again. The calls come one after the other from one thread, so a mutex is free unless
the call itself has locked it, shared or not, and to lock it again is undefined. All locks are
scoped: those that are held are a parameter of an operation.
-/
import NanoVault.Lib.Separators

namespace NanoVault.Index

abbrev Addr := Nat

structure Node (K V : Type) where
  keys : List K := []
  values : List V := []
  children : List Addr := []
  isLeaf : Bool
  next : Option Addr := none
  parent : Option Addr := none
deriving DecidableEq, Repr

inductive Mutex where
  | tree
  | node (a : Addr)
deriving DecidableEq, Repr

/-- Why a call does not go on. -/
inductive Fault where
  /-- A node that has been removed is used. -/
  | removed
  /-- A null pointer is followed. -/
  | null
  /-- A mutex is locked that the thread has locked already. -/
  | relocked
  /-- An element is used that a vector does not have. -/
  | outOfRange
  /-- A loop has run out of fuel. -/
  | endless
deriving DecidableEq, Repr

/-- The nodes that have been made, those that have been removed as `none`, and `root`. -/
structure Heap (K V : Type) where
  cells : List (Option (Node K V))
  root : Addr
deriving DecidableEq, Repr

/-- The node at an address, unless it has been removed. -/
def Heap.node {K V : Type} (t : Heap K V) (a : Addr) : Option (Node K V) := t.cells[a]?.join

/-- An operation under locks. -/
def Op (K V α : Type) : Type := List Mutex → Heap K V → Except Fault (α × Heap K V)

variable {K V α β : Type}

namespace Op

/-- One operation after the other. -/
def andThen (x : Op K V α) (f : α → Op K V β) : Op K V β := fun held t =>
  match x held t with
  | .error e => .error e
  | .ok (a, t) => f a held t

instance : Monad (Op K V) where
  pure a := fun _ t => .ok (a, t)
  bind := andThen

theorem andThen_pure (x : Op K V α) : andThen x (fun a _ t => .ok (a, t)) = x := by
  funext held t
  simp only [andThen]
  cases x held t <;> rfl

theorem andThen_assoc {γ : Type} (x : Op K V α) (f : α → Op K V β) (g : β → Op K V γ) :
    andThen (andThen x f) g = andThen x fun a => andThen (f a) g := by
  funext held t
  simp only [andThen]
  cases x held t <;> rfl

instance : LawfulMonad (Op K V) :=
  LawfulMonad.mk' (Op K V) andThen_pure (fun _ _ => rfl) andThen_assoc

def fail (e : Fault) : Op K V α := fun _ _ => .error e

/-- A bound for the loops: no path has more nodes than there are. -/
def fuel : Op K V Nat := fun _ t => .ok (t.cells.length, t)

def root : Op K V Addr := fun _ t => .ok (t.root, t)

def setRoot (a : Addr) : Op K V Unit := fun _ t => .ok ((), { t with root := a })

def read (a : Addr) : Op K V (Node K V) := fun _ t =>
  match t.node a with
  | none => .error .removed
  | some n => .ok (n, t)

def write (a : Addr) (n : Node K V) : Op K V Unit := fun _ t =>
  match t.node a with
  | none => .error .removed
  | some _ => .ok ((), { t with cells := t.cells.set a (some n) })

/-- `new Node`. -/
def new (n : Node K V) : Op K V Addr := fun _ t =>
  .ok (t.cells.length, { t with cells := t.cells ++ [some n] })

/-- The memory of a node is given back. -/
def free (a : Addr) : Op K V Unit := fun _ t =>
  match t.node a with
  | none => .error .removed
  | some _ => .ok ((), { t with cells := t.cells.set a none })

def element (l : List α) (i : Nat) : Op K V α :=
  match l[i]? with
  | none => fail .outOfRange
  | some a => pure a

def pointee (p : Option Addr) : Op K V Addr :=
  match p with
  | none => fail .null
  | some a => pure a

def each (f : Addr → Op K V Unit) : List Addr → Op K V Unit
  | [] => pure ()
  | a :: as => do
      f a
      each f as

/-- `delete`, with `~Node`. -/
def delete : Nat → Addr → Op K V Unit
  | 0, _ => fail .endless
  | n + 1, a => do
      let node ← read a
      if node.isLeaf then free a
      else do
        each (delete n) node.children
        free a

/-- A scope in which a mutex is locked; it is unlocked at the end. -/
def locked (m : Mutex) (body : Op K V α) : Op K V α := fun held t =>
  if m ∈ held then .error .relocked
  else
    match m with
    | .tree => body (m :: held) t
    | .node a =>
        match t.node a with
        | none => .error .removed
        | some _ =>
            match body (m :: held) t with
            | .error e => .error e
            | .ok (r, t') =>
                match t'.node a with
                | none => .error .removed
                | some _ => .ok (r, t')

end Op

namespace Heap

def put (t : Heap K V) (a : Addr) (n : Node K V) : Heap K V :=
  { t with cells := t.cells.set a (some n) }

def add (t : Heap K V) (n : Node K V) : Heap K V := { t with cells := t.cells ++ [some n] }

def drop (t : Heap K V) (a : Addr) : Heap K V := { t with cells := t.cells.set a none }

variable {t t' : Heap K V} {a b : Addr} {n m : Node K V}

/-- An address with a node is an address that has been handed out. -/
theorem lt_of_node (h : t.node a = some n) : a < t.cells.length := by
  by_contra hle
  rw [node, List.getElem?_eq_none (Nat.not_lt.mp hle)] at h
  cases h

/-- The nodes after one is overwritten. -/
theorem node_put (h : t.node a = some m) :
    (t.put a n).node = Function.update t.node a (some n) := by
  funext b
  rw [node, put, List.getElem?_set, Function.update_apply]
  by_cases hb : b = a
  · rw [if_pos hb.symm, if_pos (lt_of_node h), if_pos hb]
    rfl
  · rw [if_neg (Ne.symm hb), if_neg hb, node]

/-- The nodes after one is freed. -/
theorem node_drop (h : t.node a = some m) : (t.drop a).node = Function.update t.node a none := by
  funext b
  rw [node, drop, List.getElem?_set, Function.update_apply]
  by_cases hb : b = a
  · rw [if_pos hb.symm, if_pos (lt_of_node h), if_pos hb]
    rfl
  · rw [if_neg (Ne.symm hb), if_neg hb, node]

/-- The nodes after one is allocated. -/
theorem node_add (t : Heap K V) (n : Node K V) :
    (t.add n).node = Function.update t.node t.cells.length (some n) := by
  funext b
  rw [node, add, Function.update_apply]
  rcases lt_trichotomy b t.cells.length with hb | rfl | hb
  · rw [List.getElem?_append_left hb, if_neg hb.ne, node]
  · rw [List.getElem?_append_right (Nat.le_refl _), Nat.sub_self, if_pos rfl]
    rfl
  · rw [if_neg hb.ne', List.getElem?_eq_none (by simpa [Nat.succ_le_iff] using hb), node,
      List.getElem?_eq_none hb.le]

/-- The next address has no node yet. -/
theorem node_fresh (t : Heap K V) : t.node t.cells.length = none := by
  rw [node, List.getElem?_eq_none (Nat.le_refl _)]
  rfl

@[simp] theorem put_root (t : Heap K V) (a : Addr) (n : Node K V) : (t.put a n).root = t.root := rfl
@[simp] theorem add_root (t : Heap K V) (n : Node K V) : (t.add n).root = t.root := rfl
@[simp] theorem drop_root (t : Heap K V) (a : Addr) : (t.drop a).root = t.root := rfl

@[simp] theorem put_length (t : Heap K V) (a : Addr) (n : Node K V) :
    (t.put a n).cells.length = t.cells.length := List.length_set

@[simp] theorem drop_length (t : Heap K V) (a : Addr) :
    (t.drop a).cells.length = t.cells.length := List.length_set

@[simp] theorem add_length (t : Heap K V) (n : Node K V) :
    (t.add n).cells.length = t.cells.length + 1 := List.length_append

end Heap

namespace Op

variable {t t' : Heap K V} {a : Addr} {n m : Node K V} {held : List Mutex} {x : Op K V α}
  {f : α → Op K V β} {r : α} {e : Fault}

/-! ### How operations end -/

theorem bind_ok (h : x held t = .ok (r, t')) : (x >>= f) held t = f r held t' := by
  have hbind : (x >>= f) held t = andThen x f held t := rfl
  rw [hbind, andThen, h]

theorem bind_error (h : x held t = Except.error e) : (x >>= f) held t = Except.error e := by
  have hbind : (x >>= f) held t = andThen x f held t := rfl
  rw [hbind, andThen, h]

/-- Reading a node that is there. -/
theorem read_ok (h : t.node a = some n) : read a held t = .ok (n, t) := by
  rw [read, h]

/-- Writing a node that is there. -/
theorem write_ok (h : t.node a = some m) : write a n held t = .ok ((), t.put a n) := by
  rw [write, h]
  rfl

/-- Freeing a node that is there. -/
theorem free_ok (h : t.node a = some m) : free a held t = .ok ((), t.drop a) := by
  rw [free, h]
  rfl

/-- Allocation always succeeds, at the next address. -/
theorem new_ok (n : Node K V) : new n held t = .ok (t.cells.length, t.add n) := rfl

theorem element_ok {l : List α} {i : Nat} (h : l[i]? = some r) :
    (element l i : Op K V α) held t = .ok (r, t) := by
  rw [element, h]
  rfl

theorem pointee_ok (a : Addr) : (pointee (some a) : Op K V Addr) held t = .ok (a, t) := rfl

/-- The scope of a mutex that is free, of a node that is there before and after. -/
theorem locked_ok (hfree : Mutex.node a ∉ held) (hbefore : t.node a = some n)
    (h : x (.node a :: held) t = .ok (r, t')) (hafter : t'.node a = some m) :
    locked (.node a) x held t = .ok (r, t') := by
  rw [locked, if_neg hfree]
  simp only [hbefore, h, hafter]

/-- A mutex that is held is not locked again. -/
theorem locked_held (hheld : Mutex.node a ∈ held) :
    locked (.node a) x held t = .error .relocked := by
  rw [locked, if_pos hheld]

/-- An exception leaves a locked section as it leaves its body. -/
theorem locked_error (hfree : Mutex.node a ∉ held) (hbefore : t.node a = some n)
    (h : x (.node a :: held) t = .error e) : locked (.node a) x held t = .error e := by
  rw [locked, if_neg hfree]
  simp only [hbefore, h]

/-- A scope in which the node of its mutex is destroyed: the mutex is unlocked at the end. -/
theorem locked_removed (hfree : Mutex.node a ∉ held) (hbefore : t.node a = some n)
    (h : x (.node a :: held) t = .ok (r, t')) (hafter : t'.node a = none) :
    locked (.node a) x held t = .error .removed := by
  rw [locked, if_neg hfree]
  simp only [hbefore, h, hafter]

theorem locked_tree (hfree : Mutex.tree ∉ held) :
    locked .tree x held t = x (.tree :: held) t := by
  rw [locked, if_neg hfree]

/-- The tree's mutex is no node's. -/
theorem not_held_tree (a : Addr) : Mutex.node a ∉ [Mutex.tree] := by
  intro ha
  cases List.mem_singleton.mp ha

/-- A leaf is deleted alone. -/
theorem delete_leaf (h : t.node a = some n) (hleaf : n.isLeaf = true) (i : Nat) :
    delete (i + 1) a held t = .ok ((), t.drop a) := by
  rw [delete, bind_ok (read_ok h), if_pos hleaf, free_ok h]

end Op

end NanoVault.Index
