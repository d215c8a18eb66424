import TrackFusion.Text.Numeral

/-!
Strict JSON.

`Json.parse?` accepts exactly one value between blanks. Numerals are kept as written and objects
keep all their members in order, so that a reader can tell an integer from `1.0` and find a repeated
name. A text whose escapes leave a surrogate alone is well formed but denotes no string.
-/

set_option autoImplicit false
set_option relaxedAutoImplicit false

namespace TrackFusion

/-- A JSON value. A text is `none` if its escapes leave a surrogate alone. -/
inductive Json where
  | null
  | boolean (value : Bool)
  | number (value : Numeral)
  | text (value : Option String)
  | array (items : List Json)
  | object (members : List (Option String × Json))

namespace Json

/-- One written unit of a text: a character, or the 16-bit code of an escape. -/
inductive TextUnit where
  | char (c : Char)
  | code (n : Nat)

def isBlank (c : Char) : Bool :=
  c = ' ' || c = '\t' || c = '\n' || c = '\r'

def skipBlanks (cs : List Char) : List Char :=
  cs.dropWhile isBlank

def hexDigit? (c : Char) : Option Nat :=
  if '0' ≤ c ∧ c ≤ '9' then some (c.toNat - '0'.toNat)
  else if 'a' ≤ c ∧ c ≤ 'f' then some (c.toNat - 'a'.toNat + 10)
  else if 'A' ≤ c ∧ c ≤ 'F' then some (c.toNat - 'A'.toNat + 10)
  else none

def hexCode? (a b c d : Char) : Option Nat := do
  return ((← hexDigit? a) * 16 + (← hexDigit? b)) * 256 + (← hexDigit? c) * 16 + (← hexDigit? d)

def escape? : Char → Option Char
  | '"' => some '"'
  | '\\' => some '\\'
  | '/' => some '/'
  | 'b' => some '\x08'
  | 'f' => some '\x0c'
  | 'n' => some '\n'
  | 'r' => some '\r'
  | 't' => some '\t'
  | _ => none

def scanText (read : List TextUnit) : List Char → Option (List TextUnit × List Char)
  | [] => none
  | '"' :: rest => some (read.reverse, rest)
  | '\\' :: 'u' :: a :: b :: c :: d :: rest =>
    match hexCode? a b c d with
    | some n => scanText (.code n :: read) rest
    | none => none
  | '\\' :: e :: rest =>
    match escape? e with
    | some c => scanText (.char c :: read) rest
    | none => none
  | c :: rest => if c < ' ' ∨ c = '\\' then none else scanText (.char c :: read) rest

def isLeading (n : Nat) : Bool :=
  0xD800 ≤ n && n < 0xDC00

def isTrailing (n : Nat) : Bool :=
  0xDC00 ≤ n && n < 0xE000

/-- The characters that units spell; `spelled` holds those before, last first, and `lead` is a first
half that waits for its second one. Fails if a half stays alone. -/
def spell (spelled : List Char) (lead : Option Nat) : List TextUnit → Option (List Char)
  | [] => if lead.isSome then none else some spelled.reverse
  | .char c :: rest => if lead.isSome then none else spell (c :: spelled) none rest
  | .code n :: rest =>
    match lead with
    | some first =>
      if isTrailing n then
        spell (Char.ofNat (0x10000 + (first - 0xD800) * 0x400 + (n - 0xDC00)) :: spelled) none rest
      else none
    | none =>
      if isLeading n then spell spelled (some n) rest
      else if isTrailing n then none
      else spell (Char.ofNat n :: spelled) none rest

def text? (cs : List Char) : Option (Option String × List Char) :=
  match scanText [] cs with
  | some (units, rest) => some ((spell [] none units).map String.ofList, rest)
  | none => none

def number? (cs : List Char) : Option (Numeral × List Char) :=
  let (negative, body) :=
    match cs with
    | '-' :: rest => (true, rest)
    | _ => (false, cs)
  let (whole, rest) := Numeral.splitDigits body
  if whole.isEmpty || (whole.head? = some '0' && 1 < whole.length) then none
  else
    let (fraction, pointed, rest) :=
      match rest with
      | '.' :: rest => ((Numeral.splitDigits rest).1, true, (Numeral.splitDigits rest).2)
      | _ => ([], false, rest)
    if pointed && fraction.isEmpty then none
    else
      match Numeral.splitExponent rest with
      | some (exponent, scaled, rest) =>
        some (.ofParts negative whole fraction exponent (!pointed && !scaled), rest)
      | none => none

mutual

def value? : Nat → List Char → Option (Json × List Char)
  | 0, _ => none
  | fuel + 1, cs =>
    match skipBlanks cs with
    | 'n' :: 'u' :: 'l' :: 'l' :: rest => some (.null, rest)
    | 't' :: 'r' :: 'u' :: 'e' :: rest => some (.boolean true, rest)
    | 'f' :: 'a' :: 'l' :: 's' :: 'e' :: rest => some (.boolean false, rest)
    | '"' :: rest => (text? rest).map fun (s, rest) => (.text s, rest)
    | '[' :: rest =>
      match skipBlanks rest with
      | ']' :: rest => some (.array [], rest)
      | rest => items? fuel [] rest
    | '\x7b' :: rest =>
      match skipBlanks rest with
      | '\x7d' :: rest => some (.object [], rest)
      | rest => members? fuel [] rest
    | rest => (number? rest).map fun (n, rest) => (.number n, rest)

def items? : Nat → List Json → List Char → Option (Json × List Char)
  | 0, _, _ => none
  | fuel + 1, read, cs =>
    match value? fuel cs with
    | none => none
    | some (item, rest) =>
      match skipBlanks rest with
      | ',' :: rest => items? fuel (item :: read) rest
      | ']' :: rest => some (.array (item :: read).reverse, rest)
      | _ => none

def members? : Nat → List (Option String × Json) → List Char → Option (Json × List Char)
  | 0, _, _ => none
  | fuel + 1, read, cs =>
    match skipBlanks cs with
    | '"' :: rest =>
      match text? rest with
      | none => none
      | some (name, rest) =>
        match skipBlanks rest with
        | ':' :: rest =>
          match value? fuel rest with
          | none => none
          | some (member, rest) =>
            match skipBlanks rest with
            | ',' :: rest => members? fuel ((name, member) :: read) rest
            | '\x7d' :: rest => some (.object ((name, member) :: read).reverse, rest)
            | _ => none
        | _ => none
    | _ => none

end

/-- Reads a whole text as one value. Every call consumes a character or directly precedes one that
does, so twice the length bounds the depth. -/
def parse? (s : String) : Option Json :=
  let cs := s.toList
  match value? (2 * cs.length + 2) cs with
  | some (value, rest) => if (skipBlanks rest).isEmpty then some value else none
  | none => none

end Json

end TrackFusion
