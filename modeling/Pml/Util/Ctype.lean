import Mathlib.Data.UInt

/-!
# Characters and strings (`include/ctype.h`)

The macros compare the numbers of ASCII characters.  A pointer into a string is the list of the characters from there
to the terminator.
-/

namespace Pml.Util

def isblank (c : UInt8) : Bool := c == 0x20 || c == 0x09

def isspace (c : UInt8) : Bool := isblank c || c == 0x0a || c == 0x0b || c == 0x0c || c == 0x0d

def isdigit (c : UInt8) : Bool := 0x30 ≤ c && c ≤ 0x39

def isupper (c : UInt8) : Bool := 0x41 ≤ c && c ≤ 0x5a

def islower (c : UInt8) : Bool := 0x61 ≤ c && c ≤ 0x7a

def toupper (c : UInt8) : UInt8 := if islower c then c - 0x20 else c

abbrev CStr := List UInt8

def deref (str : CStr) : UInt8 := str.headD 0

/-- `str + 1`, unless it is past the terminator. -/
def advance : CStr → Option CStr
  | [] => none
  | _ :: str => some str

end Pml.Util
