import TrackFusion.CommandLine.Files
import TrackFusion.CommandLine.Path

/-!
Patterns of file names.

`?` stands for one character, `*` for any number of them, `[abc]`, `[a-z]` and `[!abc]` for one
character of a set or of its complement; each matches within one component of a path. `**` is a
component of its own and stands for any number of folders. The paths that match are found component
by component, the entries of each folder in alphabetical order.
-/

set_option autoImplicit false
set_option relaxedAutoImplicit false

namespace TrackFusion

/-- A unit of a pattern. A set is a list of ranges. -/
inductive PatternToken where
  | char (c : Char)
  | anyChar
  | anySequence
  | oneOf (ranges : List (Char × Char))
  | noneOf (ranges : List (Char × Char))
  | anyFolders
  deriving DecidableEq

inductive PatternComponent where
  | name (text : String)
  | anyFolders
  | tokens (units : List PatternToken)
  deriving DecidableEq

structure PathPattern where
  absolute : Bool
  components : List PatternComponent
  foldersOnly : Bool
  deriving DecidableEq

namespace PatternToken

def ranges : List Char → List (Char × Char)
  | first :: '-' :: last :: rest => (first, last) :: ranges rest
  | c :: rest => (c, c) :: ranges rest
  | [] => []

/-- Reads a set after its opening bracket. A closing bracket that comes first belongs to the set. -/
def set? : List Char → Option (PatternToken × List Char)
  | '!' :: first :: rest =>
    if rest.contains ']' then
      some (.noneOf (ranges (first :: rest.takeWhile (· ≠ ']'))), (rest.dropWhile (· ≠ ']')).tail)
    else none
  | first :: rest =>
    if first ≠ '!' && rest.contains ']' then
      some (.oneOf (ranges (first :: rest.takeWhile (· ≠ ']'))), (rest.dropWhile (· ≠ ']')).tail)
    else none
  | [] => none

/-- The tokens of a pattern, each reached with one unit of fuel. `previous` is the character before.
-/
def tokenize? : Nat → Option Char → List Char → Option (List PatternToken)
  | _, _, [] => some []
  | 0, _, _ :: _ => none
  | fuel + 1, previous, c :: rest =>
    match c, rest with
    | '?', _ => (tokenize? fuel (some '?') rest).map (.anyChar :: ·)
    | '*', '*' :: '*' :: _ => none
    | '*', '*' :: after =>
      -- `**` has to be a component of its own
      if previous.all (· = '/') then
        match after with
        | [] => some [.anyFolders]
        | '/' :: after => (tokenize? fuel (some '/') after).map (.anyFolders :: ·)
        | _ => none
      else none
    | '*', _ => (tokenize? fuel (some '*') rest).map (.anySequence :: ·)
    | '[', _ =>
      match set? rest with
      | some (token, after) => (tokenize? fuel (some ']') after).map (token :: ·)
      | none => none
    | c, _ => (tokenize? fuel (some c) rest).map (.char c :: ·)

def ofText? (text : String) : Option (List PatternToken) :=
  let cs := text.toList
  tokenize? cs.length none cs

def accepts : PatternToken → Char → Bool
  | .char d, c => c = d
  | .anyChar, _ => true
  | .oneOf ranges, c => ranges.any fun r => r.1 ≤ c && c ≤ r.2
  | .noneOf ranges, c => !(ranges.any fun r => r.1 ≤ c && c ≤ r.2)
  | .anySequence, _ | .anyFolders, _ => false

def holdsFromHere : List Bool → List Bool
  | [] => []
  | here :: later =>
    let settled := holdsFromHere later
    (here || settled.headD false) :: settled

/-- For each suffix of a name, from the whole name down to the empty one, whether the tokens match
it. A sequence matches where the tokens after it match here or further on. -/
def matchedSuffixes : List PatternToken → List Char → List Bool
  | [], cs => cs.map (fun _ => false) ++ [true]
  | .anySequence :: rest, cs => holdsFromHere (matchedSuffixes rest cs)
  | token :: rest, cs =>
    List.zipWith (fun c later => token.accepts c && later) cs (matchedSuffixes rest cs).tail ++
      [false]

def matchesName (tokens : List PatternToken) (name : List Char) : Bool :=
  (matchedSuffixes tokens name).headD false

end PatternToken

namespace PatternComponent

def ofTokens (tokens : List PatternToken) : PatternComponent :=
  let characters := tokens.filterMap fun
    | .char c => some c
    | _ => none
  if characters.length = tokens.length then .name (String.ofList characters)
  else if tokens.contains .anyFolders then .anyFolders
  else .tokens tokens

def matchesName (component : PatternComponent) (name : String) : Bool :=
  match component with
  | .name text => name = text
  | .anyFolders => true
  | .tokens units => PatternToken.matchesName units name.toList

end PatternComponent

namespace PathPattern

def pieces (path : String) : List String :=
  let all := splitPath path
  if all.getLast? = some "" then all.dropLast else all

def collapse : List PatternComponent → List PatternComponent
  -- two such components in a row stand for what one of them does
  | .anyFolders :: rest =>
    match collapse rest with
    | .anyFolders :: further => .anyFolders :: further
    | collapsed => .anyFolders :: collapsed
  | component :: rest => component :: collapse rest
  | [] => []

def parse? (text : String) : Option PathPattern := do
  let _ ← PatternToken.ofText? text
  let absolute := startsAtRoot text
  let relative := String.ofList (text.toList.drop (if absolute then 1 else 0))
  let components ← (pieces relative).mapM PatternToken.ofText?
  return {
    absolute := absolute
    components :=
      if relative = "" then [.name ""]
      else collapse (components.map PatternComponent.ofTokens)
    foldersOnly := endsOpen text }

def insertName (name : String) : List String → List String
  | [] => [name]
  | first :: rest => if first < name then first :: insertName name rest else name :: first :: rest

section Expansion

variable {m : Type → Type} [Monad m] (files : FileAccess m) (foldersOnly : Bool)

def entryPath (folder name : String) : String :=
  if isWorkingFolder folder then name else joinPath folder name

def keep (path : String) : m (List String) := do
  if foldersOnly && !(← files.isFolder path) then return [] else return [path]

def sortedChildren (folder : String) : m (List String) := do
  if ← files.isFolder folder then return (← files.children folder).foldr insertName []
  else return []

def entriesBelow : Nat → String → m (List String)
  | 0, _ => return []
  | depth + 1, folder => do
    let nested ← (← sortedChildren files folder).mapM fun name => do
      let path := entryPath folder name
      return path :: (← entriesBelow depth path)
    return nested.flatten

/-- The greatest number of folders that `**` stands for, beyond the depth of any path that can be
opened. -/
def greatestDepth : Nat := 4096

def expandIn : List PatternComponent → String → m (List String)
  | [], _ => return []
  | .name text :: rest, folder => do
    let path := entryPath folder text
    let found ←
      if text = "." ∨ text = ".." then files.isFolder folder
      else (·.isSome) <$> files.kind path
    if !found then return []
    else if rest.isEmpty then keep files foldersOnly path
    else expandIn rest path
  | [.anyFolders], folder => do
    (← entriesBelow files greatestDepth folder).filterM files.isFolder
  | .anyFolders :: next :: rest, folder => do
    let nested ← (← entriesBelow files greatestDepth folder).mapM fun path =>
      if !next.matchesName (fileName path) then return []
      else if rest.isEmpty then keep files foldersOnly path
      else expandIn rest path
    return nested.flatten
  | .tokens units :: rest, folder => do
    let names ← sortedChildren files folder
    -- the entries `..` and `.` are matched by tokens that begin with a dot only
    let dotted := units.head? = some (.char '.') && (← files.isFolder folder)
    let dots := if dotted then ["..", "."] else []
    let special := (dots.filter fun name => PatternToken.matchesName units name.toList).map
      (joinPath folder)
    let matching := names.filter fun name => PatternToken.matchesName units name.toList
    let nested ← (special ++ matching.map (entryPath folder)).mapM fun path =>
      if rest.isEmpty then keep files foldersOnly path else expandIn rest path
    return nested.flatten

end Expansion

def expand {m : Type → Type} [Monad m] (files : FileAccess m) (p : PathPattern) : m (List String) :=
  expandIn files p.foldersOnly p.components (if p.absolute then "/" else ".")

end PathPattern

end TrackFusion
