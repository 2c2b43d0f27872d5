/-!
# Blanks, runs and words

Text is cut at separators. `runs` gives the maximal separator-free pieces, so how many separators
stand between two pieces, or around them, never shows in the result.
-/

namespace ContractAlgebra.Text

/-- The characters that separate words: the ASCII layout characters and information separators,
and the Unicode spaces that may be broken at or that have a fixed width. -/
def isBlank (c : Char) : Bool :=
  let n := c.toNat
  (0x09 ≤ n && n ≤ 0x0D) || (0x1C ≤ n && n ≤ 0x20) || n == 0x85 || n == 0xA0 || n == 0x1680 ||
    (0x2000 ≤ n && n ≤ 0x200A) || n == 0x2028 || n == 0x2029 || n == 0x202F || n == 0x205F ||
    n == 0x3000

/-- The maximal non-empty pieces of a text that hold no separator, in order. -/
def runs (isSeparator : Char → Bool) (text : List Char) : List (List Char) :=
  (text.splitOnP isSeparator).filter (!·.isEmpty)

/-- The words of a text: its runs between blanks. -/
def words (text : List Char) : List (List Char) :=
  runs isBlank text

/-- A text without the characters of a class at its two ends. -/
def trimBy (p : Char → Bool) (text : List Char) : List Char :=
  ((text.dropWhile p).reverse.dropWhile p).reverse

/-- A text without the blanks at its two ends. -/
def trim (text : List Char) : List Char :=
  trimBy isBlank text

/-- Words with one space between each two. -/
def unwords (words : List (List Char)) : List Char :=
  List.intercalate [' '] words

end ContractAlgebra.Text
