import Mathlib.Data.List.Basic
import TrackFusion.Text.Lines

/-!
The lines of a file as a relation.

A file is nothing, or text without a newline, or text without a newline, a newline, and a file again.
Splitting finds the only lines there are, and after a newline it starts anew, so that the lines of two
files are those of the one put behind the other if the first one ends with a newline.
-/

set_option autoImplicit false
set_option relaxedAutoImplicit false

namespace TrackFusion

namespace Lines

/-- A line without the carriage return at its end, if there is one. -/
def withoutReturn (line : List UInt8) : List UInt8 :=
  if line.getLast? = some 13 then line.dropLast else line

/-- A file and its lines. -/
inductive AreLines : List UInt8 → List (List UInt8) → Prop
  | nil : AreLines [] []
  | unended {line : List UInt8} : line ≠ [] → 10 ∉ line → AreLines line [line]
  | ended {line rest : List UInt8} {lines : List (List UInt8)} : 10 ∉ line → AreLines rest lines →
    AreLines (line ++ 10 :: rest) (withoutReturn line :: lines)

def IsEnded (bytes : List UInt8) : Prop :=
  ∀ last ∈ bytes.getLast?, last = 10

def Encodes (line : List UInt8) (text : String) : Prop :=
  text.toList.flatMap String.utf8EncodeChar = line

def IsBlank (line : List UInt8) : Prop :=
  ∃ text, Encodes line text ∧ isBlank text

theorem decode?_eq_some_iff {line : List UInt8} {text : String} :
    decode? line = some text ↔ Encodes line text := by
  have encoded : text.toList.utf8Encode = text.toByteArray := String.utf8Encode_toList
  unfold decode? Encodes String.fromUTF8?
  constructor
  · intro decoded
    split at decoded
    · obtain rfl := Option.some.inj decoded
      have same := congrArg (fun bytes => bytes.data.toList) encoded
      rwa [List.utf8Encode, List.toList_data_toByteArray] at same
    · cases decoded
  · rintro rfl
    have same : ByteArray.mk (text.toList.flatMap String.utf8EncodeChar).toArray =
        text.toByteArray := by
      exact ByteArray.ext (congrArg ByteArray.data encoded ▸ List.data_toByteArray.symm)
    rw [same]
    exact dif_pos text.isValidUTF8

theorem finish_eq (reversed : List UInt8) : finish reversed = withoutReturn reversed.reverse := by
  unfold finish withoutReturn
  rw [List.getLast?_reverse, List.dropLast_reverse]
  split
  · rfl
  · rename_i other
    rw [if_neg]
    intro first
    obtain ⟨rest, rfl⟩ := List.head?_eq_some_iff.mp first
    exact other rest rfl

theorem splitFrom_newline (current rest : List UInt8) :
    splitFrom current (10 :: rest) = finish current :: split rest :=
  rfl

theorem splitFrom_cons_of_ne {byte : UInt8} (other : byte ≠ 10) (current rest : List UInt8) :
    splitFrom current (byte :: rest) = splitFrom (byte :: current) rest := by
  rw [splitFrom]
  exact other

theorem splitFrom_append {line : List UInt8} (unbroken : 10 ∉ line) (current rest : List UInt8) :
    splitFrom current (line ++ rest) = splitFrom (line.reverse ++ current) rest := by
  induction line generalizing current with
  | nil => rfl
  | cons byte line ih =>
    rw [List.mem_cons, not_or] at unbroken
    rw [List.cons_append, splitFrom_cons_of_ne (Ne.symm unbroken.1), ih unbroken.2,
      List.reverse_cons, List.append_assoc, List.singleton_append]

/-- The bytes of the line so far are those before the rest of the file. -/
theorem areLines_splitFrom {current : List UInt8} (unbroken : 10 ∉ current) (bytes : List UInt8) :
    AreLines (current.reverse ++ bytes) (splitFrom current bytes) := by
  induction bytes generalizing current with
  | nil =>
    rw [List.append_nil, splitFrom]
    cases current with
    | nil => exact .nil
    | cons byte current =>
      have nonempty : (byte :: current).reverse ≠ [] := by simp
      exact .unended nonempty fun found => unbroken (List.mem_reverse.mp found)
  | cons byte bytes ih =>
    by_cases newline : byte = 10
    · subst newline
      rw [splitFrom_newline, finish_eq]
      exact .ended (fun found => unbroken (List.mem_reverse.mp found)) (ih List.not_mem_nil)
    · have longer : 10 ∉ byte :: current := by
        rw [List.mem_cons, not_or]
        exact ⟨Ne.symm newline, unbroken⟩
      rw [splitFrom_cons_of_ne newline, ← List.singleton_append, ← List.append_assoc,
        ← List.reverse_cons]
      exact ih longer

theorem areLines_split (bytes : List UInt8) : AreLines bytes (split bytes) :=
  areLines_splitFrom List.not_mem_nil bytes

theorem AreLines.split_eq {bytes : List UInt8} {lines : List (List UInt8)}
    (are : AreLines bytes lines) : split bytes = lines := by
  induction are with
  | nil => rfl
  | @unended line nonempty unbroken =>
    have whole := splitFrom_append unbroken [] []
    rw [List.append_nil, List.append_nil, splitFrom, List.isEmpty_reverse, List.reverse_reverse,
      if_neg (by simpa using nonempty)] at whole
    exact whole
  | ended unbroken _ ih =>
    rw [split, splitFrom_append unbroken, List.append_nil, splitFrom_newline, finish_eq,
      List.reverse_reverse]
    exact congrArg (_ :: ·) ih

theorem AreLines.append {bytes more : List UInt8} {lines others : List (List UInt8)}
    (are : AreLines bytes lines) (ended : IsEnded bytes) (next : AreLines more others) :
    AreLines (bytes ++ more) (lines ++ others) := by
  induction are with
  | nil => exact next
  | unended nonempty unbroken =>
    have last := ended _ (List.getLast?_eq_some_getLast nonempty)
    exact absurd (last ▸ List.getLast_mem nonempty) unbroken
  | @ended line rest lines unbroken _ ih =>
    rw [List.append_assoc, List.cons_append]
    refine .ended unbroken (ih fun last found => ended last ?_)
    rw [Option.mem_def] at found ⊢
    rw [List.getLast?_append, List.getLast?_cons, found]
    rfl

theorem split_append {bytes : List UInt8} (ended : IsEnded bytes) (more : List UInt8) :
    split (bytes ++ more) = split bytes ++ split more :=
  ((areLines_split bytes).append ended (areLines_split more)).split_eq

/-- A carriage return belongs to the newline behind it only. -/
example : split [97, 13, 10, 10, 98, 13] = [[97], [], [98, 13]] := by decide

end Lines

end TrackFusion
