import PolishArithmetic.Text

/-!
Lines of bytes, the texts that they encode, and lines filled with words.
-/
namespace PolishArithmetic

abbrev Bytes := List UInt8

namespace Bytes

/-- A line without the carriage return at its end. -/
def dropReturn (line : Bytes) : Bytes :=
  if line.getLast? = some 13 then line.dropLast else line

/-- Every newline ends a line, and takes a carriage return before it along. What follows the last
newline is a line if there is anything. -/
def lines (input : Bytes) : List Bytes :=
  let parts := input.splitOn 10
  parts.dropLast.map dropReturn ++ parts.getLast?.toList.filter (!·.isEmpty)

/-- The text that the bytes encode in UTF-8. -/
def text? (bytes : Bytes) : Option Text :=
  (String.fromUTF8? ⟨bytes.toArray⟩).map String.toList

end Bytes

namespace Text

/-- Adds the words to the line, one space apart, and starts a new line where a word would reach
beyond `width`. -/
def fillFrom (width : Nat) (line : Text) : List Text → List Text
  | [] => [line]
  | word :: words =>
    if line.length + 1 + word.length ≤ width then
      fillFrom width (line ++ ' ' :: word) words
    else
      line :: fillFrom width word words

def fill (width : Nat) (text : Text) : List Text :=
  match text.splitOn ' ' with
  | [] => []
  | word :: words => fillFrom width word words

end Text

end PolishArithmetic
