import Mathlib.Data.Set.Image
import TrackFusion.CommandLine.FileTree
import TrackFusion.Proofs.CommandLine.Path

/-!
Files by address, and what a change of the tree keeps.

The address of a path is the row of names that it denotes from the root, with `.` and `..` resolved.
Two paths with one address lead to the same place, whatever the tree holds, and a tree is changed at
one address at a time: every folder stays a folder, and every file at another address stays as it is.
-/

set_option autoImplicit false
set_option relaxedAutoImplicit false

namespace TrackFusion

theorem lookup_filter_ne {β : Type} {name other : String} (entries : List (String × β))
    (differs : other ≠ name) :
    (entries.filter fun e => e.1 ≠ name).lookup other = entries.lookup other := by
  induction entries with
  | nil => rfl
  | cons e entries ih =>
    obtain ⟨key, value⟩ := e
    by_cases removed : key = name
    · have passed : (other == key) = false := by simpa [removed] using differs
      rw [List.filter_cons_of_neg (by simpa using removed), List.lookup_cons, passed, ih]
    · rw [List.filter_cons_of_pos (by simpa using removed), List.lookup_cons, List.lookup_cons, ih]

namespace FileEntry

/-- What stands at an address, the names that lead from an entry inwards. -/
def at? : FileEntry → List String → Option FileEntry
  | entry, [] => some entry
  | entry, name :: rest => (entry.entries.lookup name).bind fun inner => inner.at? rest

def fileAt? (entry : FileEntry) (address : List String) : Option (List UInt8) :=
  (entry.at? address).bind content?

def IsFolderAt (entry : FileEntry) (address : List String) : Prop :=
  ∃ entries, entry.at? address = some (.folder entries)

def IsOpen (root : FileEntry) : List String → List String → Prop
  | _, [] => True
  | address, piece :: rest =>
    root.IsFolderAt address ∧ piece.utf8ByteSize ≤ Place.greatestName ∧
      root.IsOpen (FileTree.enter address piece) rest

theorem at?_append (entry : FileEntry) (outer inner : List String) :
    entry.at? (outer ++ inner) = (entry.at? outer).bind fun e => e.at? inner := by
  induction outer generalizing entry with
  | nil => rfl
  | cons name outer ih =>
    rw [List.cons_append, at?, at?, Option.bind_assoc]
    simp only [ih]

theorem fileAt?_eq_some_iff {entry : FileEntry} {address : List String} {content : List UInt8} :
    entry.fileAt? address = some content ↔ entry.at? address = some (.file content) := by
  rw [fileAt?]
  cases entry.at? address with
  | none => simp
  | some e => cases e <;> simp [content?]

theorem at?_withEntry_self (entries : List (String × FileEntry)) (name : String) (e : FileEntry)
    (rest : List String) :
    ((FileEntry.folder entries).withEntry name e).at? (name :: rest) = e.at? rest := by
  rw [at?, withEntry, FileEntry.entries, List.lookup_cons_self, Option.bind_some]

theorem at?_withEntry_of_ne {name other : String} (entries : List (String × FileEntry))
    (e : FileEntry) (rest : List String) (differs : other ≠ name) :
    ((FileEntry.folder entries).withEntry name e).at? (other :: rest) =
      (FileEntry.folder entries).at? (other :: rest) := by
  have passed : (other == name) = false := beq_false_of_ne differs
  rw [at?, at?, withEntry, FileEntry.entries, FileEntry.entries, List.lookup_cons, passed,
    lookup_filter_ne entries differs]

/-- An entry that takes the place of another one, or of none, changes files at touched addresses
only: what was a folder is one, and all other files are the same. -/
structure ChangesOnly (touched : Set (List String)) (before : Option FileEntry)
    (after : FileEntry) : Prop where
  folders : ∀ address entries,
    (before.bind fun e => e.at? address) = some (.folder entries) → after.IsFolderAt address
  files : ∀ address ∉ touched,
    after.fileAt? address = before.bind fun e => e.fileAt? address

namespace ChangesOnly

variable {touched : Set (List String)} {before : Option FileEntry}

theorem file {content : List UInt8} (free : ∀ entries, before ≠ some (.folder entries)) :
    ChangesOnly {[]} before (.file content) := by
  have leaf : ∀ name rest, (before.bind fun e => e.at? (name :: rest)) = none := by
    intro name rest
    match before, free with
    | none, _ => rfl
    | some (.file _), _ => rfl
    | some (.folder entries), free => exact absurd rfl (free entries)
  constructor
  · intro address entries found
    cases address with
    | nil =>
      rw [Option.bind_eq_some_iff] at found
      obtain ⟨e, rfl, found⟩ := found
      exact absurd found (free entries)
    | cons name rest =>
      rw [leaf] at found
      cases found
  · intro address untouched
    cases address with
    | nil => exact absurd rfl untouched
    | cons name rest =>
      have none_before := congrArg (Option.bind · content?) (leaf name rest)
      rw [Option.bind_assoc] at none_before
      exact none_before.symm

theorem newFolder : ChangesOnly ∅ none (.folder []) where
  folders _ _ found := nomatch found
  files address _ := by
    cases address <;> rfl

theorem withEntry {entries : List (String × FileEntry)} {name : String} {e : FileEntry}
    (change : ChangesOnly (Set.preimage (List.cons name) touched) (entries.lookup name) e) :
    ChangesOnly touched (some (.folder entries))
      ((FileEntry.folder entries).withEntry name e) := by
  constructor
  · intro address found_entries found
    cases address with
    | nil => exact ⟨_, rfl⟩
    | cons other rest =>
      by_cases same : other = name
      · subst same
        obtain ⟨inner, there⟩ := change.folders rest found_entries found
        exact ⟨inner, by rw [at?_withEntry_self, there]⟩
      · exact ⟨found_entries, by rwa [at?_withEntry_of_ne entries e rest same]⟩
  · intro address untouched
    cases address with
    | nil => rfl
    | cons other rest =>
      by_cases same : other = name
      · subst same
        rw [fileAt?, at?_withEntry_self, Option.bind_some, fileAt?, at?, Option.bind_assoc]
        exact change.files rest untouched
      · rw [fileAt?, at?_withEntry_of_ne entries e rest same]
        rfl

theorem isOpen {root after : FileEntry} {address pieces : List String}
    (change : ChangesOnly touched (some root) after) (way : root.IsOpen address pieces) :
    after.IsOpen address pieces := by
  induction pieces generalizing address with
  | nil => trivial
  | cons piece rest ih =>
    obtain ⟨⟨entries, folder⟩, short, onwards⟩ := way
    exact ⟨change.folders address entries folder, short, ih onwards⟩

end ChangesOnly

end FileEntry

namespace Place

variable {root : FileEntry} {place next : Place} {piece : String}

def address (place : Place) : List String :=
  (place.around.map Prod.fst).reverse

/-- The place is one of a tree: it is the root, or what an entry of a place of the tree holds under
a name. -/
inductive StandsIn (root : FileEntry) : Place → Prop
  | atRoot : StandsIn root ⟨some root, []⟩
  | inside {entries : List (String × FileEntry)} {around : List (String × FileEntry)}
      (name : String) (outer : StandsIn root ⟨some (.folder entries), around⟩) :
      StandsIn root ⟨entries.lookup name, (name, .folder entries) :: around⟩

theorem address_inside (entry : Option FileEntry) (name : String) (folder : FileEntry)
    (around : List (String × FileEntry)) :
    (Place.mk entry ((name, folder) :: around)).address =
      (Place.mk (some folder) around).address ++ [name] := by
  rw [address, List.map_cons, List.reverse_cons]
  rfl

/-- All that a step can do: stay, lead outward or take an entry of the folder. -/
theorem step_cases (taken : place.step piece = .ok next) :
    ∃ entries, place.entry = some (.folder entries) ∧ piece.utf8ByteSize ≤ greatestName ∧
      (staysInPlace piece = true ∧ next = place ∨
        piece = ".." ∧ next = place.outward ∨
        IsName piece ∧
          next = ⟨entries.lookup piece, (piece, .folder entries) :: place.around⟩) := by
  obtain ⟨entry, around⟩ := place
  match entry, taken with
  | some (.folder entries), taken =>
    refine ⟨entries, rfl, ?_⟩
    simp only [step] at taken
    split at taken
    · cases taken
    · refine ⟨Nat.le_of_not_lt ‹_›, ?_⟩
      split at taken
      · cases taken
        exact .inl ⟨‹_›, rfl⟩
      · split at taken
        · cases taken
          exact .inr (.inl ⟨‹_›, rfl⟩)
        · cases taken
          exact .inr (.inr ⟨⟨Bool.eq_false_iff.mpr ‹_›, ‹_›⟩, rfl⟩)

theorem exists_step {entries : List (String × FileEntry)}
    (folder : place.entry = some (.folder entries)) (short : piece.utf8ByteSize ≤ greatestName) :
    ∃ next, place.step piece = .ok next := by
  simp only [step, folder, Nat.not_lt.mpr short, if_false]
  split
  · exact ⟨_, rfl⟩
  · split
    · exact ⟨_, rfl⟩
    · exact ⟨_, rfl⟩

theorem address_of_step (taken : place.step piece = .ok next) :
    next.address = FileTree.enter place.address piece := by
  obtain ⟨entries, folder, -, ⟨stays, rfl⟩ | ⟨rfl, rfl⟩ | ⟨named, rfl⟩⟩ := step_cases taken
  · rw [FileTree.enter, if_pos stays]
  · obtain ⟨entry, around⟩ := place
    rw [FileTree.enter, if_neg (by decide), if_pos rfl, address, address, List.dropLast_reverse]
    cases around <;> rfl
  · obtain ⟨entry, around⟩ := place
    rw [FileTree.enter, if_neg (Bool.eq_false_iff.mp named.1), if_neg named.2, address_inside]
    rfl

namespace StandsIn

theorem outward (stands : StandsIn root place) : StandsIn root place.outward := by
  cases stands with
  | atRoot => exact .atRoot
  | inside name outer => exact outer

theorem step (stands : StandsIn root place) (taken : place.step piece = .ok next) :
    StandsIn root next := by
  obtain ⟨entries, folder, -, ⟨-, rfl⟩ | ⟨-, rfl⟩ | ⟨-, rfl⟩⟩ := step_cases taken
  · exact stands
  · exact stands.outward
  · obtain ⟨entry, around⟩ := place
    cases folder
    exact stands.inside piece

theorem at?_address (stands : StandsIn root place) : root.at? place.address = place.entry := by
  induction stands with
  | atRoot => rfl
  | @inside entries around name outer ih =>
    rw [address_inside, FileEntry.at?_append, ih, Option.bind_some, FileEntry.at?,
      FileEntry.entries]
    exact Option.bind_fun_some _

variable {entry : Option FileEntry} {around : List (String × FileEntry)}

theorem at?_rootWith (stands : StandsIn root ⟨entry, around⟩) (e : FileEntry) :
    (rootWith e around).at? (Place.mk entry around).address = some e := by
  induction around generalizing entry e with
  | nil => rfl
  | cons first around ih =>
    cases stands with
    | @inside entries _ name outer =>
      rw [address_inside, FileEntry.at?_append, rootWith, ih outer, Option.bind_some,
        FileEntry.at?_withEntry_self]
      rfl

/-- A change of what stands at a place, seen from the root. -/
theorem changesOnly_rootWith {touched : Set (List String)} {e : FileEntry}
    (stands : StandsIn root ⟨entry, around⟩)
    (change : FileEntry.ChangesOnly
      (Set.preimage ((Place.mk entry around).address ++ ·) touched) entry e) :
    FileEntry.ChangesOnly touched (some root) (rootWith e around) := by
  induction around generalizing entry e with
  | nil =>
    cases stands with
    | atRoot => exact change
  | cons first around ih =>
    cases stands with
    | @inside entries _ name outer =>
      apply ih outer
      apply FileEntry.ChangesOnly.withEntry
      -- inside the folder, addresses lose the name
      have inner : Set.preimage (List.cons name) (Set.preimage
          ((Place.mk (some (FileEntry.folder entries)) around).address ++ ·) touched) =
            Set.preimage
              ((Place.mk (entries.lookup name) ((name, .folder entries) :: around)).address ++ ·)
              touched := by
        ext rest
        rw [address_inside]
        simp only [Set.mem_preimage, List.append_assoc, List.singleton_append]
      rwa [inner]

theorem of_walk {pieces : List String} (stands : StandsIn root place)
    (walked : place.walk pieces = .ok next) :
    StandsIn root next ∧ next.address = pieces.foldl FileTree.enter place.address := by
  induction pieces generalizing place with
  | nil =>
    cases walked
    exact ⟨stands, rfl⟩
  | cons piece rest ih =>
    rw [walk] at walked
    split at walked
    · rename_i mid taken
      rw [List.foldl_cons, ← address_of_step taken]
      exact ih (stands.step taken) walked
    · cases walked

theorem exists_walk_iff {pieces : List String} (stands : StandsIn root place) :
    (∃ next, place.walk pieces = .ok next) ↔ root.IsOpen place.address pieces := by
  induction pieces generalizing place with
  | nil => exact ⟨fun _ => trivial, fun _ => ⟨place, rfl⟩⟩
  | cons piece rest ih =>
    constructor
    · rintro ⟨next, walked⟩
      rw [walk] at walked
      split at walked
      · rename_i mid taken
        obtain ⟨entries, folder, short, -⟩ := step_cases taken
        refine ⟨⟨entries, by rw [stands.at?_address, folder]⟩, short, ?_⟩
        rw [← address_of_step taken]
        exact (ih (stands.step taken)).mp ⟨next, walked⟩
      · cases walked
    · rintro ⟨⟨entries, folder⟩, short, onwards⟩
      rw [stands.at?_address] at folder
      obtain ⟨mid, taken⟩ := exists_step folder short
      rw [← address_of_step taken] at onwards
      obtain ⟨next, walked⟩ := (ih (stands.step taken)).mpr onwards
      exact ⟨next, by rw [walk, taken]; exact walked⟩

/-- A walk comes to a file only by its name. -/
theorem isName_of_walk {pieces : List String} {last : String} {content : List UInt8}
    (stands : StandsIn root place) (walked : place.walk (pieces ++ [last]) = .ok next)
    (file : next.entry = some (.file content)) : IsName last := by
  induction pieces generalizing place with
  | nil =>
    rw [List.nil_append, walk] at walked
    split at walked
    · rename_i mid taken
      cases walked
      -- a piece that stays, or leads outward, ends at a folder
      obtain ⟨entries, folder, -, ⟨-, rfl⟩ | ⟨-, rfl⟩ | ⟨named, -⟩⟩ := step_cases taken
      · rw [folder] at file
        cases file
      · cases stands with
        | atRoot =>
          cases folder
          cases file
        | inside name outer => cases file
      · exact named
    · cases walked
  | cons piece rest ih =>
    rw [List.cons_append, walk] at walked
    split at walked
    · rename_i mid taken
      exact ih (stands.step taken) walked
    · cases walked

end StandsIn

end Place

namespace FileTree

variable {tree before after : FileTree} {path : String} {place : Place}

def piecesOf (tree : FileTree) (path : String) : List String :=
  (if startsAtRoot path then [] else tree.home) ++ splitPath path

def addressOf (tree : FileTree) (path : String) : List String :=
  (tree.piecesOf path).foldl enter []

theorem addressOf_congr (same : after.home = before.home) (path : String) :
    after.addressOf path = before.addressOf path := by
  rw [addressOf, addressOf, piecesOf, piecesOf, same]

theorem enter_of_isName {names : List String} {piece : String} (named : IsName piece) :
    enter names piece = names ++ [piece] := by
  rw [enter, if_neg (Bool.eq_false_iff.mp named.1), if_neg named.2]

theorem addressOf_joinPath {folder name : String} (named : IsName name)
    (closed : '/' ∉ name.toList) (tree : FileTree) :
    tree.addressOf (joinPath folder name) = tree.addressOf (joinPath folder "") ++ [name] := by
  have shut : splitPath (joinPath folder "") = (splitPath (joinPath folder "")).dropLast ++ [""] :=
    splitPath_joinPath List.not_mem_nil
  rw [addressOf, addressOf, piecesOf, piecesOf, startsAtRoot_joinPath folder name,
    splitPath_joinPath closed, shut, List.dropLast_concat, ← List.append_assoc, ← List.append_assoc,
    List.foldl_concat, List.foldl_concat, enter_of_isName named]
  rfl

theorem exists_addressOf_eq (named : IsName (fileName path)) (tree : FileTree) :
    ∃ folder, tree.addressOf path = folder ++ [fileName path] := by
  rw [addressOf, piecesOf, splitPath_eq_append_fileName, ← List.append_assoc, List.foldl_concat,
    enter_of_isName named]
  exact ⟨_, rfl⟩

section Lookup

theorem walk_splitPath (tree : FileTree) (path : String) :
    tree.walk path (splitPath path) = (Place.mk (some tree.root) []).walk (tree.piecesOf path) :=
  rfl

theorem place?_eq_some_iff : tree.place? path = some place ↔
    (path ≠ "" ∧ path.utf8ByteSize ≤ greatestPath) ∧
      (Place.mk (some tree.root) []).walk (tree.piecesOf path) = .ok place := by
  rw [place?, walk_splitPath]
  split
  · rename_i bad
    constructor
    · intro found
      cases found
    · rintro ⟨⟨nonempty, short⟩, -⟩
      exact absurd bad (not_or.mpr ⟨nonempty, Nat.not_lt.mpr short⟩)
  · rename_i good
    rw [not_or, Nat.not_lt] at good
    cases (Place.mk (some tree.root) []).walk (tree.piecesOf path) with
    | ok found => simp [good, Except.toOption]
    | error outcome => simp [Except.toOption]

theorem of_place? (there : tree.place? path = some place) :
    place.StandsIn tree.root ∧ place.address = tree.addressOf path :=
  Place.StandsIn.of_walk .atRoot (place?_eq_some_iff.mp there).2

theorem exists_place?_iff : (∃ place, tree.place? path = some place) ↔
    (path ≠ "" ∧ path.utf8ByteSize ≤ greatestPath) ∧ tree.root.IsOpen [] (tree.piecesOf path) := by
  simp only [place?_eq_some_iff, exists_and_left]
  exact and_congr_right fun _ => Place.StandsIn.exists_walk_iff .atRoot

theorem at?_of_found? {entry : FileEntry} (found : tree.found? path = some entry) :
    tree.root.at? (tree.addressOf path) = some entry := by
  obtain ⟨place, there, holds⟩ := Option.bind_eq_some_iff.mp found
  obtain ⟨stands, address⟩ := of_place? there
  rw [← address, stands.at?_address, holds]

theorem fileAt?_of_found? {content : List UInt8} (found : tree.found? path = some (.file content)) :
    tree.root.fileAt? (tree.addressOf path) = some content :=
  FileEntry.fileAt?_eq_some_iff.mpr (at?_of_found? found)

theorem isName_fileName {content : List UInt8} (found : tree.found? path = some (.file content)) :
    IsName (fileName path) := by
  obtain ⟨place, there, holds⟩ := Option.bind_eq_some_iff.mp found
  have walked := (place?_eq_some_iff.mp there).2
  rw [piecesOf, splitPath_eq_append_fileName, ← List.append_assoc] at walked
  exact Place.StandsIn.isName_of_walk .atRoot walked holds

end Lookup

structure ChangesOnly (touched : Set (List String)) (before after : FileTree) : Prop where
  home : after.home = before.home
  root : FileEntry.ChangesOnly touched (some before.root) after.root

namespace ChangesOnly

variable {touched more : Set (List String)}

theorem refl (touched : Set (List String)) (tree : FileTree) : ChangesOnly touched tree tree where
  home := rfl
  root := ⟨fun _ entries found => ⟨entries, found⟩, fun _ _ => rfl⟩

theorem mono (subset : touched ⊆ more) (change : ChangesOnly touched before after) :
    ChangesOnly more before after where
  home := change.home
  root := ⟨change.root.folders, fun address free =>
    change.root.files address fun mem => free (subset mem)⟩

theorem trans {between : FileTree} (first : ChangesOnly touched before between)
    (second : ChangesOnly touched between after) : ChangesOnly touched before after where
  home := second.home.trans first.home
  root := by
    refine ⟨fun address entries found => ?_, fun address free => ?_⟩
    · obtain ⟨inner, there⟩ := first.root.folders address entries found
      exact second.root.folders address inner there
    · rw [second.root.files address free]
      exact first.root.files address free

theorem fileAt? {address : List String} (change : ChangesOnly touched before after)
    (free : address ∉ touched) : after.root.fileAt? address = before.root.fileAt? address :=
  change.root.files address free

theorem exists_place? (change : ChangesOnly touched before after)
    (there : ∃ place, before.place? path = some place) : ∃ place, after.place? path = some place := by
  rw [exists_place?_iff] at there ⊢
  refine ⟨there.1, ?_⟩
  rw [piecesOf, change.home]
  exact change.root.isOpen there.2

theorem found?_file {content : List UInt8} (change : ChangesOnly touched before after)
    (there : ∃ place, before.place? path = some place)
    (file : after.root.fileAt? (before.addressOf path) = some content) :
    after.found? path = some (.file content) := by
  obtain ⟨place, found⟩ := change.exists_place? there
  obtain ⟨stands, address⟩ := of_place? found
  rw [found?, found, Option.bind_some, ← stands.at?_address, address,
    addressOf_congr change.home path, FileEntry.fileAt?_eq_some_iff.mp file]

theorem found?_of_found? {content : List UInt8} (change : ChangesOnly touched before after)
    (found : before.found? path = some (.file content)) (free : before.addressOf path ∉ touched) :
    after.found? path = some (.file content) := by
  obtain ⟨place, there, -⟩ := Option.bind_eq_some_iff.mp found
  refine change.found?_file ⟨place, there⟩ ?_
  rw [change.fileAt? free, fileAt?_of_found? found]

theorem found?_of_found?_folder {entries : List (String × FileEntry)}
    (change : ChangesOnly touched before after)
    (found : before.found? path = some (.folder entries)) :
    ∃ inner, after.found? path = some (.folder inner) := by
  obtain ⟨place, there, -⟩ := Option.bind_eq_some_iff.mp found
  obtain ⟨place', there'⟩ := change.exists_place? ⟨place, there⟩
  obtain ⟨stands, address⟩ := of_place? there'
  obtain ⟨inner, folder⟩ := change.root.folders _ entries (at?_of_found? found)
  refine ⟨inner, ?_⟩
  rw [found?, there', Option.bind_some, ← stands.at?_address, address,
    addressOf_congr change.home path, folder]

end ChangesOnly

section Operations

theorem write?_eq_some_iff {content : List UInt8} : tree.write? path content = some after ↔
    ∃ entry around, tree.place? path = some ⟨entry, around⟩ ∧
      (∀ entries, entry ≠ some (.folder entries)) ∧
      after = { tree with root := Place.rootWith (.file content) around } := by
  unfold write?
  cases tree.place? path with
  | none => simp
  | some place =>
    obtain ⟨entry, around⟩ := place
    match entry with
    | none => simp [eq_comm]
    | some (.file _) => simp [eq_comm]
    | some (.folder entries) => simp

/-- Writing sets the file of a path and changes nothing else. -/
theorem of_write? {content : List UInt8} (written : tree.write? path content = some after) :
    after.found? path = some (.file content) ∧
      ChangesOnly {tree.addressOf path} tree after := by
  obtain ⟨entry, around, there, free, rfl⟩ := write?_eq_some_iff.mp written
  obtain ⟨stands, address⟩ := of_place? there
  have change : ChangesOnly {tree.addressOf path} tree
      { tree with root := Place.rootWith (.file content) around } := by
    refine ⟨rfl, stands.changesOnly_rootWith ?_⟩
    have top : Set.preimage ((Place.mk entry around).address ++ ·) {tree.addressOf path} =
        {[]} := by
      ext rest
      rw [address, Set.mem_preimage, Set.mem_singleton_iff, Set.mem_singleton_iff,
        List.append_right_eq_self]
    rw [top]
    exact .file free
  refine ⟨change.found?_file ⟨_, there⟩ ?_, change⟩
  rw [FileEntry.fileAt?_eq_some_iff, ← address]
  exact stands.at?_rootWith _

theorem changesOnly_makeFolder (tree : FileTree) (path : String) :
    ChangesOnly ∅ tree (tree.makeFolder path).2 := by
  unfold makeFolder
  split
  · exact .refl _ _
  · split
    · exact .refl _ _
    · split
      · exact .refl _ _
      · exact .refl _ _
      · rename_i around walked
        obtain ⟨stands, -⟩ := Place.StandsIn.of_walk .atRoot walked
        refine ⟨rfl, stands.changesOnly_rootWith ?_⟩
        rw [Set.preimage_empty]
        exact .newFolder

end Operations

end FileTree

end TrackFusion
