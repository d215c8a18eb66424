import Mathlib.Data.List.Basic
import TrackFusion.CommandLine.Path

/-!
The pieces of paths.

A name without separators, joined to the path of a folder, adds one piece and changes nothing before
it. The stem of a file name has no separator either, and a table is named after it alone.
-/

set_option autoImplicit false
set_option relaxedAutoImplicit false

namespace TrackFusion

/-- The piece is the name of an entry: it does not lead back, and it leads somewhere. -/
def IsName (piece : String) : Prop :=
  staysInPlace piece = false ∧ piece ≠ ".."

theorem splitPathFrom_append_separator (current before after : List Char) :
    splitPathFrom current (before ++ '/' :: after) =
      splitPathFrom current before ++ splitPathFrom [] after := by
  induction before generalizing current with
  | nil => rfl
  | cons c before ih =>
    rw [List.cons_append, splitPathFrom, splitPathFrom, ih, ih]
    split <;> rfl

theorem splitPathFrom_of_not_mem {current cs : List Char} (closed : '/' ∉ cs) :
    splitPathFrom current cs = [String.ofList (current.reverse ++ cs)] := by
  induction cs generalizing current with
  | nil => rw [splitPathFrom, List.append_nil]
  | cons c cs ih =>
    rw [List.mem_cons, not_or] at closed
    rw [splitPathFrom, if_neg (Ne.symm closed.1), ih closed.2, List.reverse_cons, List.append_assoc]
    rfl

theorem not_mem_of_mem_splitPathFrom {current cs : List Char} {piece : String}
    (closed : '/' ∉ current) (mem : piece ∈ splitPathFrom current cs) : '/' ∉ piece.toList := by
  have read : '/' ∉ (String.ofList current.reverse).toList := by
    rwa [String.toList_ofList, List.mem_reverse]
  induction cs generalizing current with
  | nil =>
    rw [splitPathFrom, List.mem_singleton] at mem
    rwa [mem]
  | cons c cs ih =>
    rw [splitPathFrom] at mem
    split at mem
    · obtain rfl | mem := List.mem_cons.mp mem
      · exact read
      · exact ih List.not_mem_nil mem (by simp)
    · rename_i other
      have closed' : '/' ∉ c :: current := by
        simp only [List.mem_cons, not_or]
        exact ⟨Ne.symm other, closed⟩
      exact ih closed' mem (by rwa [String.toList_ofList, List.mem_reverse])

theorem splitPath_ne_nil (path : String) : splitPath path ≠ [] := by
  have any : ∀ current cs, splitPathFrom current cs ≠ [] := by
    intro current cs
    induction cs generalizing current with
    | nil => simp [splitPathFrom]
    | cons c cs ih =>
      rw [splitPathFrom]
      split
      · exact List.cons_ne_nil _ _
      · exact ih _
  exact any _ _

theorem fileName_eq_getLast (path : String) :
    fileName path = (splitPath path).getLast (splitPath_ne_nil path) := by
  rw [fileName, List.getLastD_eq_getLast?, List.getLast?_eq_getLast_of_ne_nil, Option.getD_some]

theorem splitPath_eq_append_fileName (path : String) :
    splitPath path = (splitPath path).dropLast ++ [fileName path] := by
  rw [fileName_eq_getLast, List.dropLast_append_getLast]

theorem not_mem_fileName (path : String) : '/' ∉ (fileName path).toList := by
  rw [fileName_eq_getLast]
  exact not_mem_of_mem_splitPathFrom List.not_mem_nil (List.getLast_mem _)

section Join

theorem exists_toList_joinPath (folder : String) :
    ∃ front, ∀ name, (joinPath folder name).toList = front ++ '/' :: name.toList := by
  unfold joinPath
  split
  · rename_i isOpen
    have last : '/' ∈ folder.toList.getLast? := by simpa [endsOpen] using isOpen
    refine ⟨folder.toList.dropLast, fun name => ?_⟩
    rw [String.toList_append]
    nth_rewrite 1 [← List.dropLast_append_getLast? '/' last]
    rw [List.append_assoc]
    rfl
  · exact ⟨folder.toList, fun name => by simp⟩

theorem splitPath_joinPath {folder name : String} (closed : '/' ∉ name.toList) :
    splitPath (joinPath folder name) = (splitPath (joinPath folder "")).dropLast ++ [name] := by
  obtain ⟨front, split⟩ := exists_toList_joinPath folder
  rw [splitPath, splitPath, split, split, splitPathFrom_append_separator,
    splitPathFrom_append_separator, splitPathFrom_of_not_mem closed]
  simp [splitPathFrom]

theorem startsAtRoot_joinPath (folder name : String) :
    startsAtRoot (joinPath folder name) = startsAtRoot (joinPath folder "") := by
  obtain ⟨front, split⟩ := exists_toList_joinPath folder
  rw [startsAtRoot, startsAtRoot, split, split, List.head?_append, List.head?_append]
  rfl

end Join

section Stem

variable {path stem : String}

theorem toList_fileStem_prefix_toList (path : String) :
    (fileStem path).toList <+: (fileName path).toList := by
  unfold fileStem
  rw [String.toList_ofList]
  split
  · exact List.prefix_refl _
  · exact List.take_prefix _ _

theorem not_mem_fileStem (path : String) : '/' ∉ (fileStem path).toList :=
  fun mem => not_mem_fileName path ((toList_fileStem_prefix_toList path).subset mem)

theorem fileStem_ne_empty (named : fileName path ≠ "") : fileStem path ≠ "" := by
  have named : (fileName path).toList ≠ [] := by simpa using named
  intro empty
  have empty : (fileStem path).toList = [] := by rw [empty]; rfl
  simp only [fileStem, String.toList_ofList] at empty
  split at empty
  · exact named empty
  · rename_i kept
    rw [empty] at kept
    exact kept rfl

/-- The stem of the name of a table is what the table was named after. -/
theorem fileStem_of_fileName (named : fileName path = stem ++ ".csv") (nonempty : stem ≠ "") :
    fileStem path = stem := by
  have nonempty : stem.toList ≠ [] := by simpa using nonempty
  have chars : (fileName path).toList = stem.toList ++ ['.', 'c', 's', 'v'] := by
    rw [named, String.toList_append]
    rfl
  have taken : (stem.toList ++ ['.', 'c', 's', 'v']).reverse.takeWhile (· ≠ '.') =
      ['v', 's', 'c'] := by
    rw [List.reverse_append]
    rfl
  simp only [fileStem, chars, taken]
  rw [if_neg (by simp [nonempty])]
  simp

theorem isName_append_csv (stem : String) : IsName (stem ++ ".csv") := by
  have long : 4 ≤ (stem ++ ".csv").length := by
    rw [String.length_append]
    exact Nat.le_add_left _ _
  have differs : ∀ short : String, short.length < 4 → stem ++ ".csv" ≠ short := by
    rintro short less rfl
    omega
  refine ⟨?_, differs ".." (by decide)⟩
  rw [staysInPlace, Bool.or_eq_false_iff, decide_eq_false_iff_not, decide_eq_false_iff_not]
  exact ⟨differs "" (by decide), differs "." (by decide)⟩

theorem append_csv_inj {other : String} : stem ++ ".csv" = other ++ ".csv" ↔ stem = other := by
  constructor
  · intro same
    have same := congrArg String.toList same
    rw [String.toList_append, String.toList_append, List.append_left_inj] at same
    exact String.toList_inj.mp same
  · rintro rfl
    rfl

end Stem

end TrackFusion
