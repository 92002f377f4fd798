import LoxLang.Text.Ranges
/-! White space, as it is trimmed from a line of input. -/
namespace LoxLang.Text

/-- The white space of Unicode, with the four separators of the ASCII control block. -/
def blankRanges : List (Nat × Nat) :=
  [(9, 13), (28, 32), (133, 133), (160, 160), (5760, 5760), (8192, 8202), (8232, 8233),
   (8239, 8239), (8287, 8287), (12288, 12288)]

def isBlank (c : Char) : Bool := inRanges blankRanges c

/-- The text without the white space at its two ends. -/
def trim (s : String) : String :=
  String.ofList (((s.toList.dropWhile isBlank).reverse.dropWhile isBlank).reverse)

end LoxLang.Text
