import MethodFlow.Datum
/-!
# Disjoint sets

A partition of `0 .. size - 1` into classes, kept as a forest: each element points towards the
root of its class. Finding a root shortens the path to it, and joining hangs the tree of lower
rank under the other. `pack` numbers the classes in the order in which they appear.
-/

namespace MethodFlow

structure DisjointSet where
  /-- The next element towards the root; a root points at itself. -/
  parent : Array Nat
  /-- A bound on the height of the tree below an element. -/
  rank : Array Nat
  classCount : Nat
deriving DecidableEq, Repr

namespace DisjointSet

/-- Ranks stop growing here. -/
def rankCap : Nat := 255

def empty : DisjointSet := ⟨#[], #[], 0⟩

/-- `n` classes of one element each. -/
def ofSize (n : Nat) : DisjointSet := ⟨.range n, .replicate n 0, n⟩

def size (s : DisjointSet) : Nat := s.parent.size

def isEmpty (s : DisjointSet) : Bool := s.parent.isEmpty

def create (s : DisjointSet) : Nat × DisjointSet :=
  (s.size, ⟨s.parent.push s.size, s.rank.push 0, s.classCount + 1⟩)

/-- Adds classes of one element each until there are at least `count` elements. -/
def ensure (s : DisjointSet) (count : Nat) : DisjointSet :=
  let missing := count - s.size
  if missing = 0 then s
  else ⟨s.parent ++ .range' s.size missing, s.rank ++ .replicate missing 0,
    s.classCount + missing⟩

/-! ## Finding roots -/

/-- An element outside the table is its own parent. -/
def parentOf (s : DisjointSet) (x : Nat) : Nat := s.parent[x]?.getD x

/-- The element reached from `x` after `steps` steps, or the root if that comes first. -/
def climb (s : DisjointSet) : (steps : Nat) → (x : Nat) → Nat
  | 0, x => x
  | n + 1, x => if s.parentOf x = x then x else s.climb n (s.parentOf x)

/-- The root of the class of `x`. A path meets no element twice, so `size` steps are enough. -/
def root (s : DisjointSet) (x : Nat) : Nat := s.climb s.size x

/-- Points every element on the path from `x` at `root`, for at most `steps` elements. -/
def compress (s : DisjointSet) (root : Nat) : (steps : Nat) → (x : Nat) → DisjointSet
  | 0, _ => s
  | n + 1, x =>
    let next := s.parentOf x
    if next = root then s
    else compress { s with parent := s.parent.setIfInBounds x root } root n next

/-- The root of the class of `x`, which is added if it is new; the path to the root is
compressed. -/
def find (s : DisjointSet) (x : Nat) : Nat × DisjointSet :=
  let s := s.ensure (x + 1)
  let root := s.root x
  (root, s.compress root s.size x)

/-! ## Joining -/

def rankOf (s : DisjointSet) (x : Nat) : Nat := s.rank[x]?.getD 0

/-- Joins the classes of two roots and gives the root of the result: the root of higher rank, or
of two equal ones the first, whose rank grows. -/
def link (s : DisjointSet) (a b : Nat) : Nat × DisjointSet :=
  if a = b then (a, s)
  else if s.rankOf a < s.rankOf b then
    (b, { s with parent := s.parent.setIfInBounds a b, classCount := s.classCount - 1 })
  else if s.rankOf b < s.rankOf a then
    (a, { s with parent := s.parent.setIfInBounds b a, classCount := s.classCount - 1 })
  else
    (a, {
      parent := s.parent.setIfInBounds b a
      rank := s.rank.setIfInBounds a (min (s.rankOf a + 1) rankCap)
      classCount := s.classCount - 1 })

def union (s : DisjointSet) (a b : Nat) : Nat × DisjointSet :=
  let (rootA, s) := s.find a
  let (rootB, s) := s.find b
  s.link rootA rootB

def connected (s : DisjointSet) (a b : Nat) : Bool × DisjointSet :=
  let (rootA, s) := s.find a
  let (rootB, s) := s.find b
  (rootA == rootB, s)

/-! ## Numbering the classes -/

/-- Numbers given to keys so far; the next new key gets the number `next`. -/
structure Numbering where
  numberOf : Array (Option Nat)
  next : Nat

/-- The number of a key: the one it has, or the next one. -/
def Numbering.assign (n : Numbering) (key : Nat) : Nat × Numbering :=
  match n.numberOf[key]? with
  | some (some id) => (id, n)
  | _ => (n.next, ⟨n.numberOf.setIfInBounds key (some n.next), n.next + 1⟩)

/-- Numbers keys below `bound` in the order in which they first appear. -/
def numberKeys (bound : Nat) (keys : Array Nat) : Array Nat :=
  (keys.foldl
    (fun (ids, numbering) key =>
      let (id, numbering) := numbering.assign key
      (ids.push id, numbering))
    ((#[] : Array Nat), Numbering.mk (.replicate bound none) 0)).1

/-- How many classes a numbering from 0 has used, if it numbers anything. -/
def classesOf? (ids : Array Nat) : Option Nat := ids.toList.max?.map (· + 1)

/-- The roots of the elements `0 .. count - 1`, found one after the other. -/
def findAll (s : DisjointSet) (count : Nat) : Array Nat × DisjointSet :=
  (List.range count).foldl
    (fun (roots, s) x =>
      let (root, s) := s.find x
      (roots.push root, s))
    (#[], s)

/-- The class of each element `0 .. count - 1`, classes being numbered from 0 in the order in
which they appear. -/
def pack (s : DisjointSet) (count : Nat) : Array Nat × DisjointSet :=
  let (roots, s) := (s.ensure count).findAll count
  (numberKeys s.size roots, s)

/-! ## Any table, any number

Operations on a set that was read from elsewhere, and on numbers of any size. They do what the
plain operations do, unless a number is too large to be an element or a pointer leads out of the
table; what was done up to then stays done. -/

abbrev Session := ExceptT Violation (StateM DisjointSet)

/-- Whether the first `steps` pointers from `x` stay in the table. -/
def staysInside (s : DisjointSet) : (steps : Nat) → (x : Nat) → Bool
  | 0, _ => true
  | n + 1, x =>
    match s.parent[x]? with
    | some next => next == x || s.staysInside n next
    | none => false

namespace Session

def ofSize (n : Nat) : Session Nat := do
  checkSize n
  set (DisjointSet.ofSize n)
  return n

def create : Session Nat := modifyGet (·.create)

def find (x : Nat) : Session Nat := do
  checkNumber x
  modify (·.ensure (x + 1))
  let s ← get
  unless s.staysInside s.size x do throw .outsideTable
  modifyGet (·.find x)

def union (a b : Nat) : Session Nat := do
  let rootA ← find a
  let rootB ← find b
  if rootA = rootB then return rootA
  let ranked := (← get).rank.size
  unless rootA < ranked && rootB < ranked do throw .outsideTable
  let classCount := (← get).classCount
  let root ← modifyGet (·.link rootA rootB)
  if classCount = 0 then throw .sizeOverflow
  return root

def connected (a b : Nat) : Session Bool := do
  let rootA ← find a
  let rootB ← find b
  return rootA == rootB

def pack (count : Nat) : Session (Array Nat) := do
  modify (·.ensure count)
  let roots ← (List.range count).foldlM (fun roots x => return roots.push (← find x)) #[]
  return numberKeys (← get).size roots

end Session

end DisjointSet

/-- The form of a set; a rank is read where it is no higher than ranks can be. -/
instance : Codec DisjointSet where
  encode s := .record [
    ("parent", encode s.parent),
    ("rank", encode s.rank),
    ("class_count", encode s.classCount)]
  decode d := do
    let parent ← d.field "parent"
    let rank : Array Nat ← d.field "rank"
    let classCount ← d.field "class_count"
    if rank.all (· ≤ DisjointSet.rankCap) then return { parent, rank, classCount } else none

end MethodFlow
