/-!
A text is a list of characters. Positions in a text count the bytes of its UTF-8 form, so a
position may fall inside a character; the operations that take one say what happens then.
-/
namespace PolishArithmetic

abbrev Text := List Char

namespace Text

def byteLength : Text → Nat
  | [] => 0
  | c :: cs => c.utf8Size + byteLength cs

@[simp] theorem byteLength_nil : byteLength [] = 0 := rfl

@[simp] theorem byteLength_cons (c : Char) (cs : Text) :
    byteLength (c :: cs) = c.utf8Size + byteLength cs := rfl

@[simp] theorem byteLength_append (s t : Text) :
    byteLength (s ++ t) = byteLength s + byteLength t := by
  induction s with
  | nil => simp
  | cons c cs ih => simp [ih, Nat.add_assoc]

/-- The text after its first `n` bytes; none if `n` is past the end or inside a character. -/
def dropBytes? : Text → Nat → Option Text
  | s, 0 => some s
  | [], _ + 1 => none
  | c :: cs, n + 1 => if c.utf8Size ≤ n + 1 then dropBytes? cs (n + 1 - c.utf8Size) else none

/-- The first `n` bytes of the text; none if `n` is past the end or inside a character. -/
def takeBytes? : Text → Nat → Option Text
  | _, 0 => some []
  | [], _ + 1 => none
  | c :: cs, n + 1 =>
    if c.utf8Size ≤ n + 1 then (takeBytes? cs (n + 1 - c.utf8Size)).map (c :: ·) else none

/-- How many characters start before byte `n`. -/
def charsBefore : Text → Nat → Nat
  | _, 0 => 0
  | [], _ + 1 => 0
  | c :: cs, n + 1 => charsBefore cs (n + 1 - c.utf8Size) + 1

/-- A text that is not empty has a byte, and its first character ends at one of its bytes. -/
theorem exists_byteLength_cons (c : Char) (cs : Text) :
    ∃ n, byteLength (c :: cs) = n + 1 ∧ c.utf8Size ≤ n + 1 ∧
      n + 1 - c.utf8Size = byteLength cs := by
  have hc := c.utf8Size_pos
  refine ⟨c.utf8Size + byteLength cs - 1, ?_, by omega, by omega⟩
  rw [byteLength_cons]
  omega

theorem dropBytes?_byteLength_append (s t : Text) :
    dropBytes? (s ++ t) (byteLength s) = some t := by
  induction s with
  | nil => cases t <;> rfl
  | cons c cs ih =>
    obtain ⟨n, hn, hle, hsub⟩ := exists_byteLength_cons c cs
    rw [hn, List.cons_append, dropBytes?, if_pos hle, hsub, ih]

theorem takeBytes?_byteLength_append (s t : Text) :
    takeBytes? (s ++ t) (byteLength s) = some s := by
  induction s with
  | nil => cases t <;> rfl
  | cons c cs ih =>
    obtain ⟨n, hn, hle, hsub⟩ := exists_byteLength_cons c cs
    rw [hn, List.cons_append, takeBytes?, if_pos hle, hsub, ih, Option.map_some]

theorem charsBefore_byteLength_append (s t : Text) :
    charsBefore (s ++ t) (byteLength s) = s.length := by
  induction s with
  | nil => cases t <;> rfl
  | cons c cs ih =>
    obtain ⟨n, hn, -, hsub⟩ := exists_byteLength_cons c cs
    rw [hn, List.cons_append, charsBefore, hsub, ih, List.length_cons]

end Text

/-- A range of bytes in a text. -/
structure Span where
  start : Nat
  stop : Nat
  deriving DecidableEq, Repr

namespace Span

def isEmpty (s : Span) : Bool := s.stop ≤ s.start

/-- The part of `source` that the span covers; none if an end is past the source, inside a
character, or the ends are in the wrong order. -/
def text? (s : Span) (source : Text) : Option Text :=
  if s.start ≤ s.stop then
    (source.dropBytes? s.start).bind (Text.takeBytes? · (s.stop - s.start))
  else
    none

end Span

end PolishArithmetic
