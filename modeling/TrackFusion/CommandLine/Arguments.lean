import TrackFusion.Duration
import TrackFusion.Text.Decimal

/-!
The arguments of the program.

Every option takes one value, which follows as an argument of its own, after an equals sign or, for
a one-letter option, directly. An option may be given once. There are no other arguments.
-/

set_option autoImplicit false
set_option relaxedAutoImplicit false

namespace TrackFusion

inductive OptionName where
  | input
  | output
  | frame
  | pruningTime
  | pruningTicks
  | config
  deriving DecidableEq, Repr

def OptionName.ofLong? : String → Option OptionName
  | "input" => some .input
  | "output" => some .output
  | "frame" => some .frame
  | "pruning-time" => some .pruningTime
  | "pruning-ticks" => some .pruningTicks
  | "config" => some .config
  | _ => none

def OptionName.ofLetter? : Char → Option OptionName
  | 'i' => some .input
  | 'o' => some .output
  | 'f' => some .frame
  | 'c' => some .config
  | _ => none

/-- What the arguments ask for: the pattern of the scenario files, the output folder, the options
that override the configuration, and the configuration file. -/
structure Arguments where
  input : String
  output : String
  frame : Option String
  pruningTime : Option Float
  pruningTicks : Option Nat
  config : Option String

inductive Invocation where
  | run (arguments : Arguments)
  | explain
  | refused

namespace Arguments

structure Given where
  input : Option String
  output : Option String
  frame : Option String
  pruningTime : Option Float
  pruningTicks : Option Nat
  config : Option String

def Given.nothing : Given :=
  ⟨none, none, none, none, none, none⟩

def path? (value : String) : Option String :=
  if value.isEmpty then none else some value

def once {α : Type} (before value : Option α) : Option (Option α) :=
  if before.isSome then none else value.map some

def Given.add? (given : Given) (option : OptionName) (value : String) : Option Given :=
  match option with
  | .input => (once given.input (some value)).map fun v => { given with input := v }
  | .output => (once given.output (path? value)).map fun v => { given with output := v }
  | .frame => (once given.frame (some value)).map fun v => { given with frame := v }
  | .pruningTime =>
    (once given.pruningTime (Numeral.parseFloat? value)).map fun v =>
      { given with pruningTime := v }
  | .pruningTicks =>
    (once given.pruningTicks (Numeral.parseNat? 18446744073709551616 value)).map fun v =>
      { given with pruningTicks := v }
  | .config => (once given.config (path? value)).map fun v => { given with config := v }

/-- The call with all options given. The input has to be among them; the output is `out` unless
given. -/
def Given.finish (given : Given) : Invocation :=
  match given.input with
  | some input =>
    .run ⟨input, given.output.getD "out", given.frame, given.pruningTime, given.pruningTicks,
      given.config⟩
  | none => .refused

inductive Reading where
  | value (option : OptionName) (text : String)
  | awaits (option : OptionName)
  | explains
  | ends
  | isRefused

def readLong (body : List Char) : Reading :=
  let name := String.ofList (body.takeWhile (· ≠ '='))
  match body.dropWhile (· ≠ '='), OptionName.ofLong? name with
  | [], some option => .awaits option
  | _ :: value, some option => .value option (String.ofList value)
  | [], none => if name = "help" ∨ name = "version" then .explains else .isRefused
  | _ :: _, none => .isRefused

def readLetter (letter : Char) (body : List Char) : Reading :=
  match OptionName.ofLetter? letter, body with
  | some option, [] => .awaits option
  | some option, '=' :: value => .value option (String.ofList value)
  | some option, value => .value option (String.ofList value)
  | none, _ => if letter = 'h' ∨ letter = 'V' then .explains else .isRefused

def readArgument (argument : String) : Reading :=
  match argument.toList with
  | ['-', '-'] => .ends
  | '-' :: '-' :: body => readLong body
  | '-' :: letter :: body => readLetter letter body
  | _ => .isRefused

/-- The argument cannot be the value of the option before it. -/
def isOption (argument : String) : Bool :=
  argument.toList.head? = some '-' && argument ≠ "-"

def readFrom (given : Given) : List String → Invocation
  | [] => given.finish
  | argument :: rest =>
    match readArgument argument with
    | .explains => .explain
    | .isRefused => .refused
    -- no argument goes without a name, so nothing may follow
    | .ends => if rest.isEmpty then given.finish else .refused
    | .value option text =>
      match given.add? option text with
      | some given => readFrom given rest
      | none => .refused
    | .awaits option =>
      match rest with
      | [] => .refused
      | text :: rest =>
        if isOption text then .refused
        else
          match given.add? option text with
          | some given => readFrom given rest
          | none => .refused

def read (arguments : List String) : Invocation :=
  readFrom .nothing arguments

end Arguments

/-- The duration of a number of seconds, rounded to the nearest nanosecond and a half to the even
one; `none` if it is negative, undefined or too long. -/
def Duration.ofSeconds? (v : Float) : Option Duration :=
  match BinaryValue.ofFloat v with
  | .finite negative mantissa exponent =>
    if negative && mantissa ≠ 0 then none
    else
      let numerator := mantissa * nanosecondsPerSecond * twoTo exponent.toNat
      Duration.ofNanoseconds? (roundQuotient numerator (twoTo (-exponent).toNat))
  | _ => none

end TrackFusion
