import TrackFusion.Scalar

/-!
Points in time and lengths of time.

A `Duration` counts whole nanoseconds and is shorter than 2 ^ 64 seconds. Capture times are
durations since a fixed epoch. Subtraction stops at zero; addition is the one operation that can
fail.
-/

set_option autoImplicit false
set_option relaxedAutoImplicit false

namespace TrackFusion

def nanosecondsPerSecond : Nat := 1000000000

def durationLimit : Nat := 18446744073709551616 * nanosecondsPerSecond

/-- A length of time in nanoseconds, shorter than 2 ^ 64 seconds. -/
structure Duration where
  nanoseconds : Nat
  bounded : nanoseconds < durationLimit
  deriving DecidableEq

inductive DurationOverflow where
  | addition
  deriving DecidableEq, Repr

def DurationOverflow.message : DurationOverflow → String
  | .addition => "overflow when adding durations"

namespace Duration

theorem ext {a b : Duration} (same : a.nanoseconds = b.nanoseconds) : a = b := by
  rcases a with ⟨a, _⟩
  rcases b with ⟨b, _⟩
  cases same
  rfl

def ofNanoseconds? (n : Nat) : Option Duration :=
  if h : n < durationLimit then some ⟨n, h⟩ else none

theorem ofNanoseconds?_eq_some_iff {n : Nat} {d : Duration} :
    ofNanoseconds? n = some d ↔ d.nanoseconds = n := by
  unfold ofNanoseconds?
  constructor
  · intro found
    split at found
    · cases found
      rfl
    · cases found
  · intro same
    subst same
    rw [dif_pos d.bounded]

/-- The duration of whole seconds and nanoseconds; a whole second of nanoseconds carries over. -/
def ofParts? (seconds nanoseconds : Nat) : Option Duration :=
  ofNanoseconds? (seconds * nanosecondsPerSecond + nanoseconds)

instance : Zero Duration := ⟨⟨0, by decide⟩⟩

instance : Inhabited Duration := ⟨0⟩

instance : LT Duration := ⟨fun a b => a.nanoseconds < b.nanoseconds⟩

instance : LE Duration := ⟨fun a b => a.nanoseconds ≤ b.nanoseconds⟩

instance : DecidableLT Duration := fun a b =>
  inferInstanceAs (Decidable (a.nanoseconds < b.nanoseconds))

instance : DecidableLE Duration := fun a b =>
  inferInstanceAs (Decidable (a.nanoseconds ≤ b.nanoseconds))

def add (a b : Duration) : Except DurationOverflow Duration :=
  match ofNanoseconds? (a.nanoseconds + b.nanoseconds) with
  | some sum => .ok sum
  | none => .error .addition

theorem add_eq_ok_iff {a b c : Duration} :
    a.add b = .ok c ↔ c.nanoseconds = a.nanoseconds + b.nanoseconds := by
  rw [← ofNanoseconds?_eq_some_iff]
  unfold add
  cases ofNanoseconds? (a.nanoseconds + b.nanoseconds) with
  | none => exact ⟨nofun, nofun⟩
  | some sum => exact ⟨fun same => by cases same; rfl, fun same => by cases same; rfl⟩

/-- The time by which `a` exceeds `b`, zero if it does not. -/
def monus (a b : Duration) : Duration :=
  ⟨a.nanoseconds - b.nanoseconds, Nat.lt_of_le_of_lt (Nat.sub_le _ _) a.bounded⟩

@[simp] theorem nanoseconds_monus (a b : Duration) :
    (a.monus b).nanoseconds = a.nanoseconds - b.nanoseconds :=
  rfl

def distance (a b : Duration) : Duration :=
  if b < a then a.monus b else b.monus a

def wholeSeconds (d : Duration) : Nat :=
  d.nanoseconds / nanosecondsPerSecond

def subsecond (d : Duration) : Nat :=
  d.nanoseconds % nanosecondsPerSecond

def seconds {α : Type} [Scalar α] (d : Duration) : α :=
  Scalar.ofNat d.wholeSeconds + Scalar.ofNat d.subsecond / 1e9

end Duration

end TrackFusion
