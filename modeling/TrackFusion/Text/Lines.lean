/-!
Lines of a file.

A line ends at a newline, of which a carriage return just before it is part; text after the last
newline is a line of its own. A line is blank if it holds white space only.
-/

set_option autoImplicit false
set_option relaxedAutoImplicit false

namespace TrackFusion

namespace Lines

def isWhiteSpace (c : Char) : Bool :=
  let n := c.toNat
  (9 ≤ n && n ≤ 13) || n = 0x20 || n = 0x85 || n = 0xA0 || n = 0x1680 ||
    (0x2000 ≤ n && n ≤ 0x200A) || n = 0x2028 || n = 0x2029 || n = 0x202F || n = 0x205F ||
    n = 0x3000

def isBlank (line : String) : Bool :=
  line.toList.all isWhiteSpace

/-- The bytes of an ended line, last first, without the carriage return of its end, in order. -/
def finish (reversed : List UInt8) : List UInt8 :=
  match reversed with
  | 13 :: rest => rest.reverse
  | _ => reversed.reverse

/-- The lines of a file; `current` holds the bytes of the line so far, last first. -/
def splitFrom (current : List UInt8) : List UInt8 → List (List UInt8)
  | [] => if current.isEmpty then [] else [current.reverse]
  | 10 :: rest => finish current :: splitFrom [] rest
  | byte :: rest => splitFrom (byte :: current) rest

def split (bytes : List UInt8) : List (List UInt8) :=
  splitFrom [] bytes

def decode? (line : List UInt8) : Option String :=
  String.fromUTF8? (ByteArray.mk line.toArray)

end Lines

end TrackFusion
