import PolishArithmetic.Proofs.Number.ReadBack
import PolishArithmetic.Proofs.Number.Nearest

/-!
The grammar of literals, and the number that each one denotes. A literal is read exactly if the
grammar derives it.
-/
namespace PolishArithmetic.Literal

/-- A sign, and whether it is a minus. -/
inductive Sign : Text → Bool → Prop
  | none : Sign [] false
  | plus : Sign ['+'] false
  | minus : Sign ['-'] true

/-- Digits with a point among them, and the digits on both sides of the point. -/
inductive Mantissa : Text → Text → Text → Prop
  | whole {whole : Text} (hwhole : isNumeral whole) : Mantissa whole whole []
  | point {whole fraction : Text} (hwhole : isNumeral whole)
      (hfraction : ∀ c ∈ fraction, c.isDigit) :
      Mantissa (whole ++ '.' :: fraction) whole fraction
  | fraction {fraction : Text} (hfraction : isNumeral fraction) :
      Mantissa ('.' :: fraction) [] fraction

/-- A power of ten and its exponent. -/
inductive Power : Text → Int → Prop
  | none : Power [] 0
  | mark {mark : Char} {sign digits : Text} {negative : Bool} (hmark : mark = 'e' ∨ mark = 'E')
      (hsign : Sign sign negative) (hdigits : isNumeral digits) :
      Power (mark :: (sign ++ digits))
        (if negative then -(ofNumeral digits : Int) else ofNumeral digits)

/-- A literal, whether it is negative, and the number that it denotes without its sign. -/
inductive Denotes : Text → Bool → ℚ → Prop
  | intro {sign mantissa whole fraction power : Text} {negative : Bool} {exponent : Int}
      (hsign : Sign sign negative) (hmantissa : Mantissa mantissa whole fraction)
      (hpower : Power power exponent) :
      Denotes (sign ++ (mantissa ++ power)) negative
        ((ofNumeral whole + ofNumeral fraction / 10 ^ fraction.length) * 10 ^ exponent)

variable {text rest sign mantissa whole fraction power digits : Text} {negative : Bool}
  {exponent : Int} {q : ℚ}

theorem isNumeral_iff : isNumeral text ↔ text ≠ [] ∧ ∀ c ∈ text, c.isDigit := by
  simp [isNumeral]

theorem number_mk (whole fraction : Text) (exponent : Int) :
    (⟨ofNumeral (whole ++ fraction), exponent - fraction.length⟩ : Decimal).number =
      (ofNumeral whole + ofNumeral fraction / 10 ^ fraction.length) * 10 ^ exponent := by
  have hdigits : ofNumeral (whole ++ fraction) =
      10 ^ fraction.length * ofNumeral whole + ofNumeral fraction := by
    rw [ofNumeral, Nat.ofDigitChars_append, Nat.ofDigitChars_eq_ofDigitChars_zero]
    rfl
  rw [Decimal.number, hdigits, zpow_sub₀ (by norm_num), zpow_natCast]
  push_cast
  field_simp

theorem Sign.takeSign_append (h : Sign sign negative)
    (hrest : ∀ c, rest.head? = some c → c ≠ '-' ∧ c ≠ '+') :
    takeSign (sign ++ rest) = (negative, rest) := by
  cases h with
  | none => exact takeSign_of_head hrest
  | plus => rfl
  | minus => rfl

theorem exists_sign_of_takeSign (h : takeSign text = (negative, rest)) :
    ∃ sign, Sign sign negative ∧ text = sign ++ rest := by
  unfold takeSign at h
  split at h <;> cases h
  · exact ⟨_, .minus, rfl⟩
  · exact ⟨_, .plus, rfl⟩
  · exact ⟨_, .none, rfl⟩

theorem head_of_isNumeral (h : isNumeral digits) {c : Char}
    (hc : (digits ++ rest).head? = some c) : c.isDigit := by
  obtain ⟨hne, hall⟩ := isNumeral_iff.mp h
  rw [List.head?_append_of_ne_nil _ hne] at hc
  exact hall c (List.mem_of_head? hc)

theorem Power.readExponent? (h : Power power exponent) : readExponent? power = some exponent := by
  cases h with
  | none => rfl
  | @mark mark sign digits negative hmark hsign hdigits =>
    have hhead : ∀ c, digits.head? = some c → c ≠ '-' ∧ c ≠ '+' := by
      intro c hc
      exact unsigned_of_isDigit ((isNumeral_iff.mp hdigits).2 c (List.mem_of_head? hc))
    rw [Literal.readExponent?, hsign.takeSign_append hhead]
    exact if_pos ⟨hmark, hdigits⟩

theorem power_of_readExponent? (h : readExponent? power = some exponent) :
    Power power exponent := by
  cases power with
  | nil =>
    cases h
    exact .none
  | cons mark rest =>
    obtain ⟨⟨negative, digits⟩, htake⟩ : ∃ p, takeSign rest = p := ⟨_, rfl⟩
    rw [readExponent?, htake] at h
    obtain ⟨sign, hsign, rfl⟩ := exists_sign_of_takeSign htake
    dsimp only at h
    split at h
    · next hcond =>
      cases h
      exact .mark hcond.1 hsign hcond.2
    · cases h

theorem Power.head (h : Power power exponent) {c : Char} (hc : power.head? = some c) :
    c.isDigit = false ∧ c ≠ '.' := by
  cases h with
  | none => cases hc
  | mark hmark =>
    cases hc
    rcases hmark with rfl | rfl <;> decide

theorem takeFraction_of_head (h : ∀ c, text.head? = some c → c ≠ '.') :
    takeFraction text = ([], text) := by
  unfold takeFraction
  split
  · exact absurd rfl (h _ rfl)
  · rfl

theorem Mantissa.take (h : Mantissa mantissa whole fraction)
    (hrest : ∀ c, rest.head? = some c → c.isDigit = false ∧ c ≠ '.') :
    ∃ after, takeDigits (mantissa ++ rest) = (whole, after) ∧
      takeFraction after = (fraction, rest) := by
  have hdigit : ∀ c, rest.head? = some c → c.isDigit = false := fun c hc => (hrest c hc).1
  cases h with
  | whole hwhole =>
    exact ⟨rest, takeDigits_append (isNumeral_iff.mp hwhole).2 hdigit,
      takeFraction_of_head fun c hc => (hrest c hc).2⟩
  | point hwhole hfraction =>
    refine ⟨'.' :: (fraction ++ rest), ?_, takeDigits_append hfraction hdigit⟩
    rw [List.append_assoc]
    refine takeDigits_append (isNumeral_iff.mp hwhole).2 ?_
    rintro c ⟨⟩
    rfl
  | fraction hfraction =>
    exact ⟨'.' :: (fraction ++ rest), rfl, takeDigits_append (isNumeral_iff.mp hfraction).2 hdigit⟩

theorem Mantissa.ne_nil (h : Mantissa mantissa whole fraction) :
    (whole.isEmpty && fraction.isEmpty) = false := by
  cases h with
  | whole hwhole => simp [(isNumeral_iff.mp hwhole).1]
  | point hwhole => simp [(isNumeral_iff.mp hwhole).1]
  | fraction hfraction => simp [(isNumeral_iff.mp hfraction).1]

theorem Mantissa.head (h : Mantissa mantissa whole fraction) {c : Char}
    (hc : (mantissa ++ rest).head? = some c) : c ≠ '-' ∧ c ≠ '+' := by
  cases h with
  | whole hwhole => exact unsigned_of_isDigit (head_of_isNumeral hwhole hc)
  | point hwhole =>
    rw [List.append_assoc] at hc
    exact unsigned_of_isDigit (head_of_isNumeral hwhole hc)
  | fraction =>
    cases hc
    decide

theorem takeDigits_eq {after : Text} (h : takeDigits text = (digits, after)) :
    (∀ c ∈ digits, c.isDigit) ∧ text = digits ++ after := by
  cases h
  exact ⟨List.all_eq_true.mp List.all_takeWhile, List.takeWhile_append_dropWhile.symm⟩

theorem exists_mantissa_of_take {after : Text} (hwhole : takeDigits text = (whole, after))
    (hfraction : takeFraction after = (fraction, rest))
    (hne : ¬ (whole.isEmpty && fraction.isEmpty)) :
    ∃ mantissa, Mantissa mantissa whole fraction ∧ text = mantissa ++ rest := by
  obtain ⟨hdigits, rfl⟩ := takeDigits_eq hwhole
  unfold takeFraction at hfraction
  split at hfraction
  · obtain ⟨hplaces, rfl⟩ := takeDigits_eq hfraction
    by_cases hempty : whole = []
    · subst hempty
      refine ⟨_, .fraction (isNumeral_iff.mpr ⟨?_, hplaces⟩), rfl⟩
      simpa using hne
    · exact ⟨_, .point (isNumeral_iff.mpr ⟨hempty, hdigits⟩) hplaces, by simp⟩
  · cases hfraction
    refine ⟨_, .whole (isNumeral_iff.mpr ⟨?_, hdigits⟩), rfl⟩
    simpa using hne

theorem Denotes.exists_read? (h : Denotes text negative q) :
    ∃ l, read? text = some l ∧ l.negative = negative ∧ l.magnitude.number = q := by
  obtain ⟨hsign, hmantissa, hpower⟩ := h
  obtain ⟨after, hwhole, hfraction⟩ := hmantissa.take fun c => hpower.head
  refine ⟨⟨_, _, _⟩, ?_, rfl, number_mk _ _ _⟩
  rw [read?, hsign.takeSign_append fun c => hmantissa.head]
  dsimp only
  rw [hwhole]
  dsimp only
  rw [hfraction]
  dsimp only
  rw [hmantissa.ne_nil, hpower.readExponent?]
  rfl

theorem denotes_of_read? {l : Literal} (h : read? text = some l) :
    Denotes text l.negative l.magnitude.number := by
  obtain ⟨⟨negative, unsigned⟩, htake⟩ : ∃ p, takeSign text = p := ⟨_, rfl⟩
  obtain ⟨⟨whole, after⟩, hwhole⟩ : ∃ p, takeDigits unsigned = p := ⟨_, rfl⟩
  obtain ⟨⟨fraction, power⟩, hfraction⟩ : ∃ p, takeFraction after = p := ⟨_, rfl⟩
  simp only [read?, htake, hwhole, hfraction] at h
  split at h
  · cases h
  · next hne =>
    obtain ⟨exponent, hexponent, rfl⟩ := Option.map_eq_some_iff.mp h
    obtain ⟨sign, hsign, rfl⟩ := exists_sign_of_takeSign htake
    obtain ⟨mantissa, hmantissa, rfl⟩ := exists_mantissa_of_take hwhole hfraction hne
    rw [number_mk]
    exact .intro hsign hmantissa (power_of_readExponent? hexponent)

/-- A literal is read exactly if the grammar derives it, and as the number that it denotes. -/
theorem denotes_iff : Denotes text negative q ↔
    ∃ l, read? text = some l ∧ l.negative = negative ∧ l.magnitude.number = q := by
  constructor
  · exact Denotes.exists_read?
  · rintro ⟨l, hl, rfl, rfl⟩
    exact denotes_of_read? hl

end PolishArithmetic.Literal
