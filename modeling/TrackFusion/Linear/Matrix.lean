import TrackFusion.Scalar

/-!
Matrices of fixed size, stored row by row.

A matrix is known by its entries: `entry_ofFn` reads a matrix back from the function that built it
and `ext` says that equal entries make equal matrices. Every operation is a full tabulation, so an
undefined entry reaches every entry that depends on it.
-/

set_option autoImplicit false
set_option relaxedAutoImplicit false

namespace TrackFusion

structure Mat (m n : Nat) (α : Type) where
  rows : Vector (Vector α n) m
  deriving DecidableEq

namespace Mat

variable {α : Type} {m n p : Nat}

def ofFn (f : Fin m → Fin n → α) : Mat m n α :=
  ⟨Vector.ofFn fun i => Vector.ofFn (f i)⟩

def entry (a : Mat m n α) (i : Fin m) (j : Fin n) : α :=
  (a.rows.get i).get j

@[simp] theorem entry_ofFn (f : Fin m → Fin n → α) (i : Fin m) (j : Fin n) :
    (ofFn f).entry i j = f i j := by
  change ((Vector.ofFn fun i => Vector.ofFn (f i))[i.1])[j.1] = f i j
  simp

theorem ext {a b : Mat m n α} (same : ∀ i j, a.entry i j = b.entry i j) : a = b := by
  rcases a with ⟨a⟩
  rcases b with ⟨b⟩
  congr 1
  apply Vector.ext
  intro i hi
  apply Vector.ext
  intro j hj
  exact same ⟨i, hi⟩ ⟨j, hj⟩

def toList (a : Mat m n α) : List α :=
  (a.rows.toList.map Vector.toList).flatten

def map {β : Type} (f : α → β) (a : Mat m n α) : Mat m n β :=
  ofFn fun i j => f (a.entry i j)

@[simp] theorem entry_map {β : Type} (f : α → β) (a : Mat m n α) (i : Fin m) (j : Fin n) :
    (a.map f).entry i j = f (a.entry i j) :=
  entry_ofFn _ i j

def transpose (a : Mat m n α) : Mat n m α :=
  ofFn fun i j => a.entry j i

@[simp] theorem entry_transpose (a : Mat m n α) (i : Fin n) (j : Fin m) :
    a.transpose.entry i j = a.entry j i :=
  entry_ofFn _ i j

section Arithmetic

variable [Scalar α]

instance : Add (Mat m n α) := ⟨fun a b => ofFn fun i j => a.entry i j + b.entry i j⟩

instance : Sub (Mat m n α) := ⟨fun a b => ofFn fun i j => a.entry i j - b.entry i j⟩

@[simp] theorem entry_add (a b : Mat m n α) (i : Fin m) (j : Fin n) :
    (a + b).entry i j = a.entry i j + b.entry i j :=
  entry_ofFn _ i j

@[simp] theorem entry_sub (a b : Mat m n α) (i : Fin m) (j : Fin n) :
    (a - b).entry i j = a.entry i j - b.entry i j :=
  entry_ofFn _ i j

def mul (a : Mat m n α) (b : Mat n p α) : Mat m p α :=
  ofFn fun i j => Fin.foldl n (fun acc k => acc + a.entry i k * b.entry k j) 0

instance : HMul (Mat m n α) (Mat n p α) (Mat m p α) := ⟨mul⟩

theorem entry_mul (a : Mat m n α) (b : Mat n p α) (i : Fin m) (j : Fin p) :
    (a * b).entry i j = Fin.foldl n (fun acc k => acc + a.entry i k * b.entry k j) 0 :=
  entry_ofFn _ i j

def scale (a : Mat m n α) (c : α) : Mat m n α :=
  a.map (· * c)

@[simp] theorem entry_scale (a : Mat m n α) (c : α) (i : Fin m) (j : Fin n) :
    (a.scale c).entry i j = a.entry i j * c :=
  entry_map _ a i j

def identity : Mat n n α :=
  ofFn fun i j => if i = j then 1 else 0

@[simp] theorem entry_identity (i j : Fin n) :
    (identity : Mat n n α).entry i j = if i = j then 1 else 0 :=
  entry_ofFn _ i j

def maxAbs (a : Mat m n α) : α :=
  a.toList.foldl (fun acc v => Scalar.max acc (Scalar.abs v)) 0

def isFinite (a : Mat m n α) : Bool :=
  a.toList.all Scalar.isFinite

end Arithmetic

end Mat

/-! The coordinates of the plane, of space, and of a planar position with its velocity. -/

namespace Plane

abbrev x : Fin 2 := 0

abbrev y : Fin 2 := 1

end Plane

namespace Space

abbrev x : Fin 3 := 0

abbrev y : Fin 3 := 1

abbrev z : Fin 3 := 2

end Space

namespace Motion

abbrev x : Fin 4 := 0

abbrev y : Fin 4 := 1

abbrev vx : Fin 4 := 2

abbrev vy : Fin 4 := 3

end Motion

abbrev onlyColumn : Fin 1 := 0

def Mat.planarBlock {α : Type} (a : Mat 3 3 α) : Mat 2 2 α :=
  ⟨#v[#v[a.entry Space.x Space.x, a.entry Space.x Space.y],
      #v[a.entry Space.y Space.x, a.entry Space.y Space.y]]⟩

end TrackFusion
