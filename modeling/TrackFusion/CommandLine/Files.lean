/-!
What the program needs of a file system.

`FileAccess` holds its operations in any monad, so that the same run works on real files and on a
file system held as a value.
-/

set_option autoImplicit false
set_option relaxedAutoImplicit false

namespace TrackFusion

inductive EntryKind where
  | file
  | folder
  deriving DecidableEq, Repr

/-- What came of an attempt to make one folder: it was made, a folder around it is missing, or
something else is in the way. -/
inductive FolderOutcome where
  | made
  | missing
  | refused
  deriving DecidableEq, Repr

/-- Access to files by path. `children` names the entries of a folder in any order, `read` gives the
bytes of a file, `makeFolder` makes one folder, and `write` tells whether it succeeded. -/
structure FileAccess (m : Type → Type) where
  kind : String → m (Option EntryKind)
  children : String → m (List String)
  read : String → m (Option (List UInt8))
  makeFolder : String → m FolderOutcome
  write : String → String → m Bool

def FileAccess.isFolder {m : Type → Type} [Monad m] (files : FileAccess m) (path : String) :
    m Bool := do
  return (← files.kind path) = some .folder

end TrackFusion
