import Gondola.Text.Alphabetic
import Gondola.Text.Numeric
import Gondola.Text.Blank
import Gondola.Text.Unprintable
import Gondola.Text.Extending
import Gondola.Text.Ignorable

/-! The classes of characters that scanning and quoting tell apart. -/
namespace Gondola.Text

def isAlphabetic (c : Char) : Bool := inRanges c.toNat alphabeticRanges

def isNumeric (c : Char) : Bool := inRanges c.toNat numericRanges

def isAlphanumeric (c : Char) : Bool := isAlphabetic c || isNumeric c

def isBlank (c : Char) : Bool := inRanges c.toNat blankRanges

def isPrintable (c : Char) : Bool := !inRanges c.toNat unprintableRanges

def isExtending (c : Char) : Bool := inRanges c.toNat extendingRanges

def isIgnorable (c : Char) : Bool := inRanges c.toNat ignorableRanges

def startsName (c : Char) : Bool := isAlphabetic c || c == '_'

def continuesName (c : Char) : Bool := isAlphanumeric c || c == '_'

/-- Integer literals have ASCII digits only. -/
def isDigit (c : Char) : Bool := '0' ≤ c && c ≤ '9'

end Gondola.Text
