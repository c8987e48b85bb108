import PolishArithmetic.Diagnostic
import PolishArithmetic.Text.Cells

/-!
A rejection drawn under the text that it is about. The drawing is a list of pieces, each in one ink
or in none; colour is a way of writing the pieces and has no part in the layout.
-/
namespace PolishArithmetic

namespace Text

/-- The characters that end a line: newline, vertical tab, form feed, return, and three of Unicode. -/
def lineTerminators : List Char :=
  ['\n', '\x0b', '\x0c', '\r', '\u0085', '\u2028', '\u2029']

/-- The text is all on one line, with no terminator at its end either. -/
def IsOneLine (text : Text) : Prop :=
  ∀ c ∈ lineTerminators, c ∉ text

instance (text : Text) : Decidable text.IsOneLine :=
  List.decidableBAll (· ∉ text) lineTerminators

end Text

inductive Ink where
  | alarm | frame | gutter | source | mark | advice
  deriving DecidableEq, Repr

def Ink.code : Ink → Text
  | .alarm => "31".toList
  | .frame => "38;5;246".toList
  | .gutter => "38;5;240".toList
  | .source => "38;5;249".toList
  | .mark => "38;5;155".toList
  | .advice => "38;5;115".toList

structure Piece where
  ink : Option Ink
  text : Text
  deriving DecidableEq, Repr

namespace Piece

def plain (text : Text) : Piece := ⟨none, text⟩

def inked (ink : Ink) (text : Text) : Piece := ⟨some ink, text⟩

def escape : Char := '\x1b'

def write (coloured : Bool) (p : Piece) : Text :=
  match p.ink, coloured with
  | some ink, true =>
    escape :: '[' :: (ink.code ++ 'm' :: (p.text ++ [escape, '[', '0', 'm']))
  | _, _ => p.text

end Piece

namespace Report

open Piece

/-- The characters `first` to `stop`, without `stop`, of the source. -/
structure Extent where
  first : Nat
  stop : Nat
  deriving DecidableEq, Repr

namespace Extent

def ofSpan (source : Text) (span : Span) : Extent :=
  ⟨source.charsBefore span.start, source.charsBefore span.stop⟩

/-- The character from which the arrow starts. -/
def middle (x : Extent) : Nat :=
  (x.first + x.stop) / 2

def contains (x : Extent) (index : Nat) : Bool :=
  x.first ≤ index && index < x.stop

end Extent

/-- White space at the end of the source is not drawn. -/
def drawnPart (source : Text) : Text :=
  (source.reverse.dropWhile Cells.isBlank).reverse

def drawnChar (x : Extent) (c : Char) (index : Nat) : List Piece :=
  let ink := if x.contains index then Ink.mark else Ink.source
  if Cells.isBlank c then
    List.replicate (Cells.widthAt index c) (inked ink [' '])
  else
    [inked ink [c]]

def drawnLine (x : Extent) (source : Text) : List Piece :=
  (drawnPart source).zipIdx.flatMap fun (c, index) => drawnChar x c index

/-- The widths of the first `count` characters of a line; beyond its end each is one. -/
def widths (line : Text) (count : Nat) : List Nat :=
  (line.zipIdx.map (fun (c, index) => Cells.widthAt index c) ++ List.replicate count 1).take count

/-- A `head` and as many tails as fill `width` cells. -/
def strip (head tail : Piece) : Nat → List Piece
  | 0 => []
  | width + 1 => head :: List.replicate width tail

def blankCells : Nat → List Piece :=
  strip (plain [' ']) (plain [' '])

def marks (head tail : Char) : Nat → List Piece :=
  strip (inked .mark [head]) (inked .mark [tail])

def underlineAt (x : Extent) (width index : Nat) : List Piece :=
  if index = x.middle then
    if x.contains index then marks '┬' '─' width else marks '│' ' ' width
  else if x.contains index then
    marks '─' '─' width
  else
    blankCells width

def arrowAt (x : Extent) (width index : Nat) : List Piece :=
  if index < x.middle then blankCells width
  else if index = x.middle then marks '╰' '─' width
  else marks '─' '─' width

/-- A row below the line, which ends two characters after the extent. -/
def row (x : Extent) (source : Text) (cells : Extent → Nat → Nat → List Piece) : List Piece :=
  (widths (drawnPart source) (x.stop + 2)).zipIdx.flatMap fun (width, index) => cells x width index

def margin : List Piece :=
  [plain [' '], inked .gutter "  │".toList, plain [' ']]

def lineEnd : Piece := plain ['\n']

def label (fault : Fault) (d : Diagnostic) : Text :=
  match fault with
  | .unexpectedEnd => "expression ends here".toList
  | _ => d.message

def title (d : Diagnostic) : Text :=
  (match d.code with
    | some code => '[' :: (code ++ "] ".toList)
    | none => []) ++ "Error:".toList

def heading (x : Extent) (d : Diagnostic) : List Piece := [
  inked .alarm (title d), plain (' ' :: d.message), lineEnd,
  plain "   ".toList, inked .frame ['╭'], inked .frame ['─'], inked .frame ['['],
  plain (" <expression>:1:".toList ++ Nat.toDigits 10 (x.first + 1) ++ [' ']), inked .frame [']'],
  lineEnd,
  plain "   ".toList, inked .frame ['│'], lineEnd]

def body (x : Extent) (source caption : Text) : List Piece :=
  plain [' '] :: inked .frame "1 │".toList :: plain [' '] :: drawnLine x source ++ [lineEnd] ++
  margin ++ row x source underlineAt ++ [lineEnd] ++
  margin ++ row x source arrowAt ++ [plain (' ' :: caption), lineEnd]

def advice (d : Diagnostic) : List Piece :=
  d.help.flatMap fun text =>
    margin ++ [lineEnd] ++ margin ++ [inked .advice "Help".toList, plain (": ".toList ++ text), lineEnd]

def footing : List Piece :=
  [inked .frame "───╯".toList, lineEnd]

/-- The drawing for a source of one line, which is not empty. A source on several lines would be shown
with its lines one below the other, which is not done here. -/
def drawing (r : Rejection) (source : Text) : List Piece :=
  let d := r.diagnostic source
  let x := Extent.ofSpan source d.span
  heading x d ++ body x source (label r.fault d) ++ advice d ++ footing

end Report

/-- Without a source there is nothing to draw under, and the diagnostic stands by itself. The drawing
is meant for one line, as `Text.IsOneLine` says. -/
def Rejection.report (r : Rejection) (coloured : Bool) (source : Text) : Text :=
  if source = [] then
    (r.diagnostic source).text ++ ['\n']
  else
    (Report.drawing r source).flatMap (Piece.write coloured)

end PolishArithmetic
