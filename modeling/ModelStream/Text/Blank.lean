/-
Blank characters and trimming. A character is blank when it carries the Unicode property
White_Space: the five controls from tab to carriage return, the space, the next-line control, and
the spaces and separators of the higher planes. The zero-width space, the byte-order mark and the
four information separators are not blank.
-/
namespace ModelStream.Text

/-- Carries the Unicode property White_Space. -/
def isBlank (c : Char) : Bool :=
  let n := c.toNat
  (9 ≤ n && n ≤ 13) || n == 0x20 || n == 0x85 || n == 0xA0 || n == 0x1680 ||
    (0x2000 ≤ n && n ≤ 0x200A) || n == 0x2028 || n == 0x2029 || n == 0x202F || n == 0x205F ||
    n == 0x3000

/-! ## Lists of characters -/

def trimStart (cs : List Char) : List Char := cs.dropWhile isBlank

def trimEnd (cs : List Char) : List Char := (cs.reverse.dropWhile isBlank).reverse

def trim (cs : List Char) : List Char := trimEnd (trimStart cs)

/-! ## Strings -/

/-- The text without the blanks at its two ends. -/
def trimmed (s : String) : String := String.ofList (trim s.toList)

/-- Holds blanks only. -/
def blank (s : String) : Bool := s.toList.all isBlank

/-- The text without the slashes at its end. -/
def withoutTrailingSlashes (s : String) : String :=
  String.ofList (s.toList.reverse.dropWhile (· == '/')).reverse

end ModelStream.Text
