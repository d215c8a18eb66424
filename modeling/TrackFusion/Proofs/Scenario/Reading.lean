import Mathlib.Data.List.ReduceOption
import TrackFusion.Proofs.Sequencing
import TrackFusion.Proofs.Text.Lines
import TrackFusion.Scenario.Event

/-!
What reading a scenario gives.

Each line yields nothing or one event, or there is an objection to it. A scenario is accepted if there
is no objection to any of its lines, and else the first objection is the answer, with the number of
its line. Events do not depend on the numbers of their lines, so that scenarios can be put one behind
the other and blank lines can be added to them.
-/

set_option autoImplicit false
set_option relaxedAutoImplicit false

namespace TrackFusion

namespace Scenario

open Lines (AreLines Encodes IsBlank IsEnded)

variable {ε : Type}

/-- What a line yields: nothing, or an event. -/
inductive Yields (parse : String → Option ε) (line : List UInt8) : Option ε → Prop
  | nothing : IsBlank line → Yields parse line none
  | event {text : String} {event : ε} : Encodes line text → ¬ Lines.isBlank text →
    parse text = some event → Yields parse line (some event)

/-- What is wrong with a line of the given number. -/
inductive Objection (parse : String → Option ε) (number : Nat) (line : List UInt8) :
    ScenarioError → Prop
  | notText : (∀ text, ¬ Encodes line text) → Objection parse number line .notText
  | invalidEvent {text : String} : Encodes line text → ¬ Lines.isBlank text → parse text = none →
    Objection parse number line (.invalidEvent number)

/-- A way to read files goes through their lines. -/
structure IsReader (parse : String → Option ε)
    (reader : List UInt8 → Except ScenarioError (List ε)) : Prop where
  ok_iff : ∀ bytes lines, AreLines bytes lines → ∀ events, reader bytes = .ok events ↔
    ∃ found, List.Forall₂ (Yields parse) lines found ∧ events = found.reduceOption
  /-- Otherwise the answer is the objection to the first line to which there is one. -/
  error_iff : ∀ bytes lines, AreLines bytes lines → ∀ e, reader bytes = .error e ↔
    ∃ before line after, lines = before ++ line :: after ∧
      (∀ earlier ∈ before, ∃ found, Yields parse earlier found) ∧
      Objection parse (before.length + 1) line e
  append : ∀ bytes more, IsEnded bytes → ∀ events, reader (bytes ++ more) = .ok events ↔
    ∃ first second, reader bytes = .ok first ∧ reader more = .ok second ∧ events = first ++ second
  insert_blank : ∀ bytes blank more, IsEnded bytes → IsEnded blank →
    (∀ lines, AreLines blank lines → ∀ line ∈ lines, IsBlank line) →
    ∀ events, reader (bytes ++ blank ++ more) = .ok events ↔ reader (bytes ++ more) = .ok events

variable {parse : String → Option ε} {number : Nat} {line : List UInt8} {lines : List (List UInt8)}

theorem readLine_eq_ok_of_yields {found : Option ε} (yields : Yields parse line found) :
    readLine parse number line = .ok found := by
  cases yields with
  | nothing blank =>
    obtain ⟨text, encodes, white⟩ := blank
    have decoded := Lines.decode?_eq_some_iff.mpr encodes
    simp only [readLine, decoded, if_pos white]
  | event encodes written parsed =>
    have decoded := Lines.decode?_eq_some_iff.mpr encodes
    simp only [readLine, decoded, if_neg written, parsed]

theorem readLine_eq_error_of_objection {e : ScenarioError}
    (objection : Objection parse number line e) : readLine parse number line = .error e := by
  cases objection with
  | notText foreign =>
    have decoded : Lines.decode? line = none :=
      Option.eq_none_iff_forall_ne_some.mpr fun text decodes =>
        foreign text (Lines.decode?_eq_some_iff.mp decodes)
    simp only [readLine, decoded]
  | invalidEvent encodes written unparsed =>
    have decoded := Lines.decode?_eq_some_iff.mpr encodes
    simp only [readLine, decoded, if_neg written, unparsed]

theorem yields_or_objection (parse : String → Option ε) (number : Nat) (line : List UInt8) :
    (∃ found, Yields parse line found) ∨ ∃ e, Objection parse number line e := by
  by_cases known : ∃ text, Encodes line text
  · obtain ⟨text, encodes⟩ := known
    by_cases white : Lines.isBlank text
    · exact .inl ⟨none, .nothing ⟨text, encodes, white⟩⟩
    · cases parsed : parse text with
      | some event => exact .inl ⟨some event, .event encodes white parsed⟩
      | none => exact .inr ⟨_, .invalidEvent encodes white parsed⟩
  · exact .inr ⟨_, .notText (not_exists.mp known)⟩

theorem readLine_eq_ok_iff {found : Option ε} :
    readLine parse number line = .ok found ↔ Yields parse line found := by
  refine ⟨fun read => ?_, readLine_eq_ok_of_yields⟩
  rcases yields_or_objection parse number line with ⟨other, yields⟩ | ⟨e, objection⟩
  · rw [readLine_eq_ok_of_yields yields] at read
    exact Except.ok.inj read ▸ yields
  · rw [readLine_eq_error_of_objection objection] at read
    cases read

theorem readLine_eq_error_iff {e : ScenarioError} :
    readLine parse number line = .error e ↔ Objection parse number line e := by
  refine ⟨fun read => ?_, readLine_eq_error_of_objection⟩
  rcases yields_or_objection parse number line with ⟨found, yields⟩ | ⟨other, objection⟩
  · rw [readLine_eq_ok_of_yields yields] at read
    cases read
  · rw [readLine_eq_error_of_objection objection] at read
    exact Except.error.inj read ▸ objection

theorem readLines_cons (parse : String → Option ε) (number : Nat) (line : List UInt8)
    (lines : List (List UInt8)) :
    readLines parse number (line :: lines) = readLine parse number line >>= fun found =>
      readLines parse (number + 1) lines >>= fun events => pure (found.toList ++ events) :=
  rfl

theorem reduceOption_cons (found : Option ε) (others : List (Option ε)) :
    (found :: others).reduceOption = found.toList ++ others.reduceOption := by
  cases found <;> rfl

theorem readLines_eq_ok_iff {events : List ε} :
    readLines parse number lines = .ok events ↔
      ∃ found, List.Forall₂ (Yields parse) lines found ∧ events = found.reduceOption := by
  induction lines generalizing number events with
  | nil => simp [readLines, List.reduceOption_nil, eq_comm]
  | cons line lines ih =>
    simp only [readLines_cons, bind_eq_ok_iff, pure_eq_ok_iff, readLine_eq_ok_iff, ih]
    constructor
    · rintro ⟨found, yields, -, ⟨others, rest, rfl⟩, rfl⟩
      exact ⟨found :: others, .cons yields rest, (reduceOption_cons found others).symm⟩
    · rintro ⟨-, _ | ⟨yields, rest⟩, rfl⟩
      exact ⟨_, yields, _, ⟨_, rest, rfl⟩, (reduceOption_cons ..).symm⟩

theorem readLines_cons_eq_error_iff {e : ScenarioError} :
    readLines parse number (line :: lines) = .error e ↔ Objection parse number line e ∨
      (∃ found, Yields parse line found) ∧ readLines parse (number + 1) lines = .error e := by
  simp only [readLines_cons, bind_eq_error_iff, readLine_eq_error_iff, readLine_eq_ok_iff,
    pure_ne_error, and_false, exists_false, or_false, exists_and_right]

/-- The answer is the first objection. -/
theorem readLines_eq_error_iff {e : ScenarioError} :
    readLines parse number lines = .error e ↔
      ∃ before line after, lines = before ++ line :: after ∧
        (∀ earlier ∈ before, ∃ found, Yields parse earlier found) ∧
        Objection parse (number + before.length) line e := by
  induction lines generalizing number with
  | nil => simp [readLines]
  | cons first lines ih =>
    rw [readLines_cons_eq_error_iff, ih]
    constructor
    · rintro (objection | ⟨yields, before, line, after, rfl, accepted, objection⟩)
      · exact ⟨[], first, lines, rfl, nofun, objection⟩
      · refine ⟨first :: before, line, after, rfl, List.forall_mem_cons.mpr ⟨yields, accepted⟩, ?_⟩
        rwa [List.length_cons, Nat.add_comm before.length, ← Nat.add_assoc]
    · rintro ⟨before, line, after, same, accepted, objection⟩
      cases before with
      | nil =>
        obtain ⟨rfl, -⟩ := List.cons.inj same
        exact .inl objection
      | cons earlier before =>
        obtain ⟨rfl, rfl⟩ := List.cons.inj same
        obtain ⟨yields, accepted⟩ := List.forall_mem_cons.mp accepted
        refine .inr ⟨yields, before, line, after, rfl, accepted, ?_⟩
        rwa [List.length_cons, Nat.add_comm before.length, ← Nat.add_assoc] at objection

theorem readLines_number (number other : Nat) (lines : List (List UInt8)) {events : List ε} :
    readLines parse number lines = .ok events ↔ readLines parse other lines = .ok events := by
  rw [readLines_eq_ok_iff, readLines_eq_ok_iff]

theorem readLines_append_eq_ok_iff {others : List (List UInt8)} {events : List ε} :
    readLines parse number (lines ++ others) = .ok events ↔ ∃ first second,
      readLines parse number lines = .ok first ∧ readLines parse number others = .ok second ∧
        events = first ++ second := by
  induction lines generalizing number events with
  | nil => simp [readLines, eq_comm]
  | cons line lines ih =>
    -- After the first line the others have other numbers, which their events do not show.
    simp only [List.cons_append, readLines_cons, bind_eq_ok_iff, pure_eq_ok_iff, ih,
      readLines_number (number + 1) number others]
    constructor
    · rintro ⟨found, yields, -, ⟨first, second, rest, behind, rfl⟩, rfl⟩
      exact ⟨_, second, ⟨found, yields, first, rest, rfl⟩, behind, (List.append_assoc ..).symm⟩
    · rintro ⟨-, second, ⟨found, yields, first, rest, rfl⟩, behind, rfl⟩
      exact ⟨found, yields, _, ⟨first, second, rest, behind, rfl⟩, (List.append_assoc ..).symm⟩

theorem readLines_of_blank (blank : ∀ line ∈ lines, IsBlank line) :
    readLines parse number lines = .ok [] := by
  induction lines generalizing number with
  | nil => rfl
  | cons line lines ih =>
    obtain ⟨white, others⟩ := List.forall_mem_cons.mp blank
    rw [readLines_cons, readLine_eq_ok_of_yields (.nothing white), ok_bind, ih others, ok_bind]
    rfl

theorem read_append_eq_ok_iff {bytes more : List UInt8} (ended : IsEnded bytes) {events : List ε} :
    read parse (bytes ++ more) = .ok events ↔ ∃ first second, read parse bytes = .ok first ∧
      read parse more = .ok second ∧ events = first ++ second := by
  unfold read
  rw [Lines.split_append ended, readLines_append_eq_ok_iff]

theorem read_insert_blank {bytes blank more : List UInt8} (ended : IsEnded bytes)
    (blankEnded : IsEnded blank) (white : ∀ line ∈ Lines.split blank, IsBlank line)
    {events : List ε} :
    read parse (bytes ++ blank ++ more) = .ok events ↔ read parse (bytes ++ more) = .ok events := by
  have skipped : read parse blank = .ok [] := readLines_of_blank white
  have rest (second : List ε) :
      read parse (blank ++ more) = .ok second ↔ read parse more = .ok second := by
    rw [read_append_eq_ok_iff blankEnded, skipped]
    simp [eq_comm]
  simp only [List.append_assoc, read_append_eq_ok_iff ended, rest]

/-- A file has one division into lines. It is read line by line: the events are what the lines yield,
in order, and the first line to which there is an objection is reported with its number, blank lines
included. -/
theorem isReader_read (parse : String → Option ε) :
    (∀ bytes, ∃! lines, AreLines bytes lines) ∧ IsReader parse (read parse) where
  left bytes := ⟨Lines.split bytes, Lines.areLines_split bytes, fun _ are => are.split_eq.symm⟩
  right := {
    ok_iff := fun _ _ are _ => are.split_eq ▸ readLines_eq_ok_iff
    error_iff := fun bytes _ are e => by
      obtain rfl := are.split_eq
      rw [read, readLines_eq_error_iff]
      simp only [Nat.add_comm 1]
    append := fun _ _ ended _ => read_append_eq_ok_iff ended
    insert_blank := fun _ blank _ ended blankEnded white _ =>
      read_insert_blank ended blankEnded (white _ (Lines.areLines_split blank)) }

/-- Lines with a digit are read as it: the line after `1` and a blank line is the third one, and a
blank line between `1` and `2` does not show. -/
theorem read_counts_blank :
    let digit (text : String) : Option Char := text.toList.find? Char.isDigit
    read digit [49, 13, 10, 32, 10, 120] = .error (.invalidEvent 3) ∧
      read digit ([49, 10] ++ [32, 10] ++ [50]) = .ok ['1', '2'] := by
  intro digit
  have reader := (isReader_read digit).right
  constructor
  · have are : AreLines [49, 13, 10, 32, 10, 120] [[49], [32], [120]] := Lines.areLines_split _
    refine (reader.error_iff _ _ are _).mpr ⟨[[49], [32]], [120], [], rfl, ?_, ?_⟩
    · have one : Encodes [49] "1" := rfl
      have blank : Encodes [32] " " := rfl
      refine List.forall_mem_cons.mpr ⟨⟨_, .event one (by decide) rfl⟩, ?_⟩
      exact List.forall_mem_singleton.mpr ⟨_, .nothing ⟨_, blank, by decide⟩⟩
    · have letter : Encodes [120] "x" := rfl
      exact .invalidEvent letter (by decide) rfl
  · have white : ∀ lines, AreLines [32, 10] lines → ∀ line ∈ lines, IsBlank line := by
      rintro lines are line listed
      obtain rfl := are.split_eq
      have blank : Encodes [32] " " := rfl
      obtain rfl := List.mem_singleton.mp listed
      exact ⟨_, blank, by decide⟩
    have ended : IsEnded [49, 10] := by rintro _ ⟨⟩; rfl
    have blankEnded : IsEnded [32, 10] := by rintro _ ⟨⟩; rfl
    rw [reader.insert_blank _ _ _ ended blankEnded white, reader.append _ _ ended]
    exact ⟨['1'], ['2'], by decide, by decide, rfl⟩

end Scenario

end TrackFusion
