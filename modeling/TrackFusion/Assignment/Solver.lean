import TrackFusion.Linear.Matrix

/-!
Minimum-weight assignment of rows to columns.

`Solver` is the interface: it gives each row of an integer matrix a column. `Solver.augmentingPaths`
is the one that the tracker runs. It keeps a label for every row and column whose sum bounds the
(negated) weights, grows a tree of tight pairs from each row in turn, and augments along it. Among
columns of equal slack the first one enters the tree, which decides between equal optima. Labels are
64-bit integers.
-/

set_option autoImplicit false
set_option relaxedAutoImplicit false

namespace TrackFusion

/-- A way of assigning each row of a matrix, which is no taller than wide, to a column. -/
structure Solver where
  columns : {n m : Nat} → n ≤ m → Mat n m Int → Vector (Fin m) n

namespace Solver

structure Labelling (n m : Nat) where
  rows : Vector Int64 n
  columns : Vector Int64 m

structure Pairing (n m : Nat) where
  columnOf : Vector (Option (Fin m)) n
  rowOf : Vector (Option (Fin n)) m

/-- The tree of tight pairs grown from one row: its rows, the row that each of its columns hangs
from, and for every column the least gap to a row of the tree and that row. -/
structure Tree (n m : Nat) where
  rows : Vector Bool n
  parent : Vector (Option (Fin n)) m
  slack : Vector Int64 m
  nearest : Vector (Fin n) m

variable {n m : Nat}

def Labelling.gap (labels : Labelling n m) (gains : Mat n m Int64) (x : Fin n) (y : Fin m) :
    Int64 :=
  labels.rows.get x + labels.columns.get y - gains.entry x y

def Labelling.initial (gains : Mat n m Int64) : Labelling n m where
  rows := gains.rows.map fun row => row.toList.tail.foldl max (row.toList.headD 0)
  columns := Vector.replicate m 0

def Tree.root (labels : Labelling n m) (gains : Mat n m Int64) (root : Fin n) : Tree n m where
  rows := Vector.ofFn fun x => x == root
  parent := Vector.replicate m none
  slack := Vector.ofFn fun y => labels.gap gains root y
  nearest := Vector.replicate m root

def Tree.closest? (tree : Tree n m) : Option (Fin m) :=
  (List.finRange m).foldl
    (fun best y =>
      if (tree.parent.get y).isSome then best
      else
        match best with
        | none => some y
        | some b => if tree.slack.get y < tree.slack.get b then some y else some b)
    none

def Labelling.shift (labels : Labelling n m) (tree : Tree n m) (delta : Int64) : Labelling n m where
  rows := Vector.ofFn fun x =>
    if tree.rows.get x then labels.rows.get x - delta else labels.rows.get x
  columns := Vector.ofFn fun y =>
    if (tree.parent.get y).isSome then labels.columns.get y + delta else labels.columns.get y

def Tree.shift (tree : Tree n m) (delta : Int64) : Tree n m :=
  { tree with
    slack := Vector.ofFn fun y =>
      if (tree.parent.get y).isSome then tree.slack.get y else tree.slack.get y - delta }

def Tree.hang (tree : Tree n m) (y : Fin m) : Tree n m :=
  { tree with parent := tree.parent.set y (some (tree.nearest.get y)) y.isLt }

def Tree.addRow (tree : Tree n m) (labels : Labelling n m) (gains : Mat n m Int64) (x : Fin n) :
    Tree n m :=
  let nearer (y : Fin m) : Bool :=
    (tree.parent.get y).isNone && decide (labels.gap gains x y < tree.slack.get y)
  { tree with
    rows := tree.rows.set x true x.isLt
    slack := Vector.ofFn fun y => if nearer y then labels.gap gains x y else tree.slack.get y
    nearest := Vector.ofFn fun y => if nearer y then x else tree.nearest.get y }

/-- The pairing after the pairs along the path from column `y` to the root were exchanged. -/
def Pairing.augment (tree : Tree n m) : Nat → Fin m → Pairing n m → Pairing n m
  | 0, _, pairing => pairing
  | fuel + 1, y, pairing =>
    match tree.parent.get y with
    | none => pairing
    | some x =>
      let next : Pairing n m :=
        { columnOf := pairing.columnOf.set x (some y) x.isLt
          rowOf := pairing.rowOf.set y (some x) y.isLt }
      -- the column that the row had before is the next one of the path; only the root had none
      match pairing.columnOf.get x with
      | none => next
      | some previous => next.augment tree fuel previous

/-- Grows the tree until it reaches a free column, then augments. Every round adds a column, so `m`
rounds are enough. -/
def grow (gains : Mat n m Int64) :
    Nat → Labelling n m → Tree n m → Pairing n m → Labelling n m × Pairing n m
  | 0, labels, _, pairing => (labels, pairing)
  | fuel + 1, labels, tree, pairing =>
    match tree.closest? with
    | none => (labels, pairing)
    | some y =>
      let delta := tree.slack.get y
      let labels := if 0 < delta then labels.shift tree delta else labels
      let tree := (if 0 < delta then tree.shift delta else tree).hang y
      match pairing.rowOf.get y with
      | none => (labels, pairing.augment tree m y)
      | some x => grow gains fuel labels (tree.addRow labels gains x) pairing

def pairRows (gains : Mat n m Int64) : Pairing n m :=
  let start : Labelling n m × Pairing n m :=
    (.initial gains, ⟨Vector.replicate n none, Vector.replicate m none⟩)
  ((List.finRange n).foldl
    (fun (labels, pairing) root => grow gains m labels (.root labels gains root) pairing) start).2

def augmentingPaths : Solver where
  columns {n _} fits weights :=
    -- rows are paired at the largest gain, so a weight counts as a loss
    let pairing := pairRows (weights.map fun w => -Int64.ofInt w)
    Vector.ofFn fun x : Fin n => (pairing.columnOf.get x).getD (x.castLE fits)

end Solver

end TrackFusion
