/-!
Paths as texts.

A path is a row of pieces between separators; one that starts with a separator leads from the root.
Nothing is asked of the files here: `..` and repeated separators stay as they are written.
-/

set_option autoImplicit false
set_option relaxedAutoImplicit false

namespace TrackFusion

def startsAtRoot (path : String) : Bool :=
  path.toList.head? = some '/'

def endsOpen (path : String) : Bool :=
  path.toList.getLast? = some '/'

def joinPath (folder name : String) : String :=
  if endsOpen folder then folder ++ name else folder ++ "/" ++ name

/-- The pieces between separators of the rest of a path; `current` holds the characters of the piece
so far, last first. -/
def splitPathFrom (current : List Char) : List Char → List String
  | [] => [String.ofList current.reverse]
  | c :: rest =>
    if c = '/' then String.ofList current.reverse :: splitPathFrom [] rest
    else splitPathFrom (c :: current) rest

def splitPath (path : String) : List String :=
  splitPathFrom [] path.toList

def staysInPlace (piece : String) : Bool :=
  piece = "" || piece = "."

def isWorkingFolder (path : String) : Bool :=
  !startsAtRoot path && path ≠ "" && (splitPath path).all staysInPlace

/-- The paths of the folders around that of a path, from the innermost outwards. The last one is the
root or, for a relative path, the empty path. -/
def pathsAround (path : String) : List String :=
  let start := if startsAtRoot path then "/" else ""
  let names := (splitPath path).filter fun piece => !staysInPlace piece
  names.dropLast.foldl
    (fun around name =>
      let folder := around.headD start
      (if folder = "" then name else joinPath folder name) :: around)
    [start]

def fileName (path : String) : String :=
  (splitPath path).getLastD path

/-- The name of a file without its extension: what stands before the last dot, unless that is
nothing. -/
def fileStem (path : String) : String :=
  let name := (fileName path).toList
  let extension := name.reverse.takeWhile (· ≠ '.')
  let stem := name.take (name.length - extension.length - 1)
  String.ofList (if stem.isEmpty || extension.length = name.length then name else stem)

end TrackFusion
