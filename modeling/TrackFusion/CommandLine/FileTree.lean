import TrackFusion.CommandLine.Files
import TrackFusion.CommandLine.Path

/-!
A file system held as a value, in which the effects of a run can be read off.

A path is walked piece by piece from the root or from the working folder, and every piece, also an
empty one, `.` or `..`, can only be taken from a folder. The folders on the way stay with the place
that a walk reaches, so that what stands there can be replaced.
-/

set_option autoImplicit false
set_option relaxedAutoImplicit false

namespace TrackFusion

inductive FileEntry where
  | file (content : List UInt8)
  | folder (entries : List (String × FileEntry))

namespace FileEntry

def kind : FileEntry → EntryKind
  | .file _ => .file
  | .folder _ => .folder

def content? : FileEntry → Option (List UInt8)
  | .file content => some content
  | .folder _ => none

def entries : FileEntry → List (String × FileEntry)
  | .file _ => []
  | .folder entries => entries

def withEntry (around : FileEntry) (name : String) (entry : FileEntry) : FileEntry :=
  match around with
  | .file content => .file content
  | .folder entries => .folder ((name, entry) :: entries.filter fun e => e.1 ≠ name)

/-- What is around an entry, with the entry set under the names that lead to it. Folders that are
missing on the way are added. -/
def placedAt (entry : FileEntry) : List String → FileEntry → FileEntry
  | [], _ => entry
  | name :: rest, around =>
    let inner := (around.entries.lookup name).getD (.folder [])
    around.withEntry name (entry.placedAt rest inner)

end FileEntry

/-- Where a walk has come to: what stands there, if anything, and the folders around it, each under
the name that was taken from it, innermost first. -/
structure Place where
  entry : Option FileEntry
  around : List (String × FileEntry)

namespace Place

def greatestName : Nat := 255

def outward (place : Place) : Place :=
  match place.around with
  | [] => place
  | (_, folder) :: further => ⟨some folder, further⟩

def step (place : Place) (piece : String) : Except FolderOutcome Place :=
  match place.entry with
  | none => .error .missing
  | some (.file _) => .error .refused
  | some (.folder entries) =>
    if greatestName < piece.utf8ByteSize then .error .refused
    else if staysInPlace piece then .ok place
    else if piece = ".." then .ok place.outward
    else .ok ⟨entries.lookup piece, (piece, .folder entries) :: place.around⟩

def walk (place : Place) : List String → Except FolderOutcome Place
  | [] => .ok place
  | piece :: rest =>
    match place.step piece with
    | .ok next => next.walk rest
    | .error outcome => .error outcome

def rootWith (entry : FileEntry) : List (String × FileEntry) → FileEntry
  | [] => entry
  | (name, folder) :: further => rootWith (folder.withEntry name entry) further

end Place

structure FileTree where
  root : FileEntry
  home : List String

namespace FileTree

def greatestPath : Nat := 4095

def walk (tree : FileTree) (path : String) (pieces : List String) : Except FolderOutcome Place :=
  let start := if startsAtRoot path then [] else tree.home
  (Place.mk (some tree.root) []).walk (start ++ pieces)

/-- The place of a path, whether or not something stands there. The empty path has none. -/
def place? (tree : FileTree) (path : String) : Option Place :=
  if path = "" ∨ greatestPath < path.utf8ByteSize then none
  else (tree.walk path (splitPath path)).toOption

def found? (tree : FileTree) (path : String) : Option FileEntry :=
  (tree.place? path).bind Place.entry

def entriesOf (tree : FileTree) (path : String) : List (String × FileEntry) :=
  ((tree.found? path).map FileEntry.entries).getD []

def filesIn (tree : FileTree) (path : String) : List (String × List UInt8) :=
  (tree.entriesOf path).filterMap fun (name, entry) =>
    entry.content?.map fun content => (name, content)

/-- Makes the folder of a path in a folder that is there. Separators at the end of the path do not
matter. -/
def makeFolder (tree : FileTree) (path : String) : FolderOutcome × FileTree :=
  if path = "" then (.missing, tree)
  else if greatestPath < path.utf8ByteSize then (.refused, tree)
  else
    match tree.walk path ((splitPath path).reverse.dropWhile (· = "")).reverse with
    -- a walk still succeeds where the last piece is missing, and only that one
    | .error outcome => (outcome, tree)
    | .ok ⟨some _, _⟩ => (.refused, tree)
    | .ok ⟨none, around⟩ => (.made, { tree with root := Place.rootWith (.folder []) around })

def write? (tree : FileTree) (path : String) (content : List UInt8) : Option FileTree :=
  match tree.place? path with
  | none | some ⟨some (.folder _), _⟩ => none
  | some ⟨_, around⟩ => some { tree with root := Place.rootWith (.file content) around }

def enter (names : List String) (piece : String) : List String :=
  if staysInPlace piece then names
  else if piece = ".." then names.dropLast
  else names ++ [piece]

def newHome : List String := ["tmp", "work"]

def ofFiles (files : List (String × List UInt8)) : FileTree where
  root := files.foldl
    (fun root (path, content) =>
      (FileEntry.file content).placedAt ((splitPath path).foldl enter newHome) root)
    ((FileEntry.folder []).placedAt newHome (.folder []))
  home := newHome

def access : FileAccess (StateM FileTree) where
  kind path := return ((← get).found? path).map FileEntry.kind
  children path := return ((← get).entriesOf path).map Prod.fst
  read path := return ((← get).found? path).bind FileEntry.content?
  makeFolder path := modifyGet fun tree => tree.makeFolder path
  write path content := modifyGet fun tree =>
    match tree.write? path content.toUTF8.toList with
    | some changed => (true, changed)
    | none => (false, tree)

end FileTree

end TrackFusion
