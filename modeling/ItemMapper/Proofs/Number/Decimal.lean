import ItemMapper.Number.Text
import ItemMapper.Proofs.Number.Rounding

/-!
# Numbers are read back from their text

`exists_parse?_text`: the wire text of every number but not-a-number is read as an equal number.
(The two zeros are equal; a negative zero is written as `0`.)

A text is read by its digits and a power of ten, so what has to be shown is that writing the same
decimal with more digits and a smaller power makes no difference (`toBinary64_shift`).  Writing
tries digits until they read back, and falls back on all of them.  The test that is made there is
the statement to be proved; it is left to show that no step from the digits to the text spoils it,
and that the fallback reads back, for which its order of magnitude must be inside the range that
`toBinary64` computes with (`toBinary64_exact`).
-/

namespace ItemMapper

/-! ## Signs and equal quotients -/

namespace Binary64

/-- A quotient is rounded by its value, not by its form. -/
theorem ofRatio_congr (negative : Bool) {num den num' den' : Nat} (hden : 0 < den)
    (hden' : 0 < den') (hvalue : num * den' = num' * den) :
    ofRatio negative num den = ofRatio negative num' den' := by
  have hunits : num * one * den' = num' * one * den := by
    rw [Nat.mul_right_comm, hvalue, Nat.mul_right_comm]
  have hfloor : num * one / den = num' * one / den' :=
    le_antisymm (div_mono hden hden' hunits.le) (div_mono hden' hden hunits.ge)
  have hround : ∀ scale, roundDiv (num * one) (den <<< scale) =
      roundDiv (num' * one) (den' <<< scale) := by
    intro scale
    have hpos := shiftLeft_pos hden scale
    have hpos' := shiftLeft_pos hden' scale
    have hsame : num * one * (den' <<< scale) = num' * one * (den <<< scale) := by
      rw [Nat.shiftLeft_eq, Nat.shiftLeft_eq, ← Nat.mul_assoc, ← Nat.mul_assoc, hunits]
    exact le_antisymm (roundDiv_mono hpos hpos' hsame.le) (roundDiv_mono hpos' hpos hsame.ge)
  unfold ofRatio
  dsimp only
  rw [hfloor, hround]

/-- The number with the other sign. -/
def neg : Binary64 → Binary64
  | .nan => .nan
  | .infinite negative => .infinite (!negative)
  | .finite negative mantissa scale h => .finite (!negative) mantissa scale h

theorem ofParts_true (mantissa scale : Nat) :
    ofParts true mantissa scale = (ofParts false mantissa scale).neg := by
  unfold ofParts
  split <;> rfl

theorem ofRatio_true (num den : Nat) : ofRatio true num den = (ofRatio false num den).neg := by
  unfold ofRatio
  dsimp only
  split <;> exact ofParts_true _ _

end Binary64

namespace Decimal

open Binary64

theorem power_pos (exponent : Nat) : 0 < power exponent :=
  Nat.pow_pos (by decide)

theorem power_add (a b : Nat) : power (a + b) = power a * power b :=
  Nat.pow_add 10 a b

theorem power_mono {a b : Nat} (hle : a ≤ b) : power a ≤ power b :=
  Nat.pow_le_pow_right (by decide) hle

/-! ## The same decimal with other digits -/

theorem digitCount_le_iff {n : Nat} (hpos : 0 < n) {count : Nat} :
    digitCount n ≤ count ↔ n < power count := by
  unfold digitCount
  rw [if_neg hpos.ne']
  rcases Nat.eq_zero_or_pos count with rfl | hcount
  · have hlength : 0 < (Nat.toDigits 10 n).length := Nat.length_toDigits_pos
    have hone : power 0 = 1 := rfl
    omega
  · exact Nat.length_toDigits_le_iff (by decide) hcount

theorem digitCount_mul_power {n : Nat} (hpos : 0 < n) (k : Nat) :
    digitCount (n * power k) = digitCount n + k := by
  have hpos' : 0 < n * power k := Nat.mul_pos hpos (power_pos k)
  -- both counts are at most the same numbers
  apply eq_of_forall_ge_iff
  intro count
  rw [digitCount_le_iff hpos']
  rcases Nat.lt_or_ge count k with hlt | hge
  · have hsmall : power count ≤ n * power k := by
      calc power count ≤ power k := power_mono hlt.le
        _ ≤ n * power k := Nat.le_mul_of_pos_left _ hpos
    omega
  · obtain ⟨more, rfl⟩ := Nat.exists_eq_add_of_le' hge
    rw [power_add, Nat.mul_lt_mul_right (power_pos k), Nat.add_le_add_iff_right,
      digitCount_le_iff hpos]

theorem toBinary64_true (digits : Nat) (exponent : Int) :
    toBinary64 true digits exponent = (toBinary64 false digits exponent).neg := by
  unfold toBinary64
  dsimp only
  split
  · rfl
  · split
    · rfl
    · split <;> exact ofRatio_true _ _

/-- Zeros at the end of the digits count like a power of ten. -/
theorem toBinary64_shift (negative : Bool) (digits k : Nat) (exponent : Int) :
    toBinary64 negative (digits * power k) exponent = toBinary64 negative digits (exponent + k) := by
  rcases Nat.eq_zero_or_pos digits with rfl | hpos
  · simp [toBinary64]
  have hpos' : digits * power k ≠ 0 := (Nat.mul_pos hpos (power_pos k)).ne'
  have horder : (digitCount (digits * power k) : Int) + exponent =
      digitCount digits + (exponent + k) := by
    rw [digitCount_mul_power hpos]
    omega
  unfold toBinary64
  dsimp only
  rw [horder, decide_eq_false hpos', decide_eq_false hpos.ne']
  split
  · rfl
  · split
    · rfl
    -- what is left are quotients of the same value
    · split
      -- the exponent of the longer form decides the one of the shorter if it is not negative
      · have hexponent : 0 ≤ exponent + k := by omega
        rw [if_pos hexponent]
        have hpower : power (exponent + k).toNat = power exponent.toNat * power k := by
          rw [← power_add]
          congr 1
          omega
        rw [hpower]
        refine ofRatio_congr negative (by decide) (by decide) ?_
        ring
      · split
        · refine ofRatio_congr negative (power_pos _) (by decide) ?_
          have hpower : power k = power (exponent + k).toNat * power (-exponent).toNat := by
            rw [← power_add]
            congr 1
            omega
          rw [hpower]
          ring
        · refine ofRatio_congr negative (power_pos _) (power_pos _) ?_
          have hpower : power (-exponent).toNat = power (-(exponent + k)).toNat * power k := by
            rw [← power_add]
            congr 1
            omega
          rw [hpower]
          ring

/-! ## Reading digits -/

theorem isDigit_toDigits {n : Nat} : ∀ c ∈ Nat.toDigits 10 n, c.isDigit = true :=
  fun _ hc => Nat.isDigit_of_mem_toDigits (by decide) (by decide) hc

theorem ofDigits_toDigits (n : Nat) : ofDigits (Nat.toDigits 10 n) = n :=
  Nat.ofDigitChars_ten_toDigits

theorem ofDigits_append_zeros (chars : List Char) (count : Nat) :
    ofDigits (chars ++ List.replicate count '0') = ofDigits chars * power count := by
  rw [ofDigits, Nat.ofDigitChars_append, Nat.ofDigitChars_replicate_zero, Nat.mul_comm]
  rfl

theorem ofDigits_zeros_append (count : Nat) (chars : List Char) :
    ofDigits (List.replicate count '0' ++ chars) = ofDigits chars := by
  rw [ofDigits, Nat.ofDigitChars_append, Nat.ofDigitChars_replicate_zero, Nat.mul_zero]
  rfl

theorem spanDigits_append {digits rest : List Char} (hdigits : ∀ c ∈ digits, c.isDigit = true)
    (hrest : ∀ c ∈ rest.head?, c.isDigit = false) : spanDigits (digits ++ rest) = (digits, rest) := by
  have hnone : rest.takeWhile Char.isDigit = [] ∧ rest.dropWhile Char.isDigit = rest := by
    cases rest with
    | nil => exact ⟨rfl, rfl⟩
    | cons c more => simp [hrest c rfl]
  rw [spanDigits, List.takeWhile_append_of_pos hdigits, List.dropWhile_append_of_pos hdigits,
    hnone.1, hnone.2, List.append_nil]

/-- Digits without a point are read as they are. -/
theorem parseUnsigned?_digits (negative : Bool) {digits : List Char} (hne : digits ≠ [])
    (hdigits : ∀ c ∈ digits, c.isDigit = true) :
    parseUnsigned? negative digits = some (toBinary64 negative (ofDigits digits) 0) := by
  have hspan : spanDigits (digits ++ []) = (digits, []) := spanDigits_append hdigits (by simp)
  rw [List.append_nil] at hspan
  simp [parseUnsigned?, hspan, hne, parseExponent?]

/-- Each digit after the point takes away one power of ten. -/
theorem parseUnsigned?_point (negative : Bool) {whole fraction : List Char} (hne : whole ≠ [])
    (hwhole : ∀ c ∈ whole, c.isDigit = true) (hfraction : ∀ c ∈ fraction, c.isDigit = true) :
    parseUnsigned? negative (whole ++ '.' :: fraction) =
      some (toBinary64 negative (ofDigits (whole ++ fraction)) (-fraction.length)) := by
  have hspan : spanDigits (whole ++ '.' :: fraction) = (whole, '.' :: fraction) :=
    spanDigits_append hwhole (by simp)
  have hspan' : spanDigits (fraction ++ []) = (fraction, []) :=
    spanDigits_append hfraction (by simp)
  rw [List.append_nil] at hspan'
  simp [parseUnsigned?, hspan, hspan', hne, parseExponent?]

theorem toLower_of_isDigit {c : Char} (hdigit : c.isDigit = true) : c.toLower = c := by
  simp only [Char.isDigit, Bool.and_eq_true, decide_eq_true_eq] at hdigit
  unfold Char.toLower
  rw [dif_neg]
  rintro ⟨hletter, -⟩
  have hle : 'A'.val ≤ '9'.val := UInt32.le_trans hletter hdigit.2
  exact absurd hle (by decide)

theorem splitSign_of_isDigit {first : Char} (rest : List Char) (hdigit : first.isDigit = true) :
    splitSign (first :: rest) = (false, first :: rest) := by
  unfold splitSign
  split <;> simp_all

theorem word_ne_of_isDigit {first : Char} (rest : List Char) (hdigit : first.isDigit = true)
    {word : String} (hword : word.toList.head?.any Char.isDigit = false) :
    String.ofList ((first :: rest).map Char.toLower) ≠ word := by
  rintro rfl
  simp [toLower_of_isDigit hdigit, hdigit] at hword

/-- What begins with a digit after the sign is no word. -/
theorem parse?_of_isDigit {text : String} {negative : Bool} {first : Char} {rest : List Char}
    (hsign : splitSign text.toList = (negative, first :: rest)) (hdigit : first.isDigit = true) :
    parse? text = parseUnsigned? negative (first :: rest) := by
  have hword : ∀ word : String, word.toList.head?.any Char.isDigit = false →
      String.ofList ((first :: rest).map Char.toLower) ≠ word :=
    fun _ => word_ne_of_isDigit rest hdigit
  have hnan := hword "nan" (by decide)
  have hinf := hword "inf" (by decide)
  have hinfinity := hword "infinity" (by decide)
  unfold parse?
  rw [hsign]
  simp only [hnan, hinf, hinfinity, if_false, decide_false, Bool.or_false, Bool.false_eq_true]

/-- Digits with an optional point, and a sign before them, are read as without the sign. -/
theorem parse?_of_signed {negative : Bool} {first : Char} {rest : List Char}
    (hdigit : first.isDigit = true) :
    parse? ((if negative then "-" else "") ++ String.ofList (first :: rest)) =
      parseUnsigned? negative (first :: rest) := by
  refine parse?_of_isDigit ?_ hdigit
  cases negative with
  | false => simpa using splitSign_of_isDigit rest hdigit
  | true => simp [splitSign]

theorem parse?_digits (negative : Bool) {digits : List Char} (hne : digits ≠ [])
    (hdigits : ∀ c ∈ digits, c.isDigit = true) :
    parse? ((if negative then "-" else "") ++ String.ofList digits) =
      some (toBinary64 negative (ofDigits digits) 0) := by
  rw [← parseUnsigned?_digits negative hne hdigits]
  obtain ⟨first, rest, rfl⟩ := List.exists_cons_of_ne_nil hne
  exact parse?_of_signed (hdigits first (by simp))

theorem parse?_point (negative : Bool) {whole fraction : List Char} (hne : whole ≠ [])
    (hwhole : ∀ c ∈ whole, c.isDigit = true) (hfraction : ∀ c ∈ fraction, c.isDigit = true) :
    parse? ((if negative then "-" else "") ++ String.ofList (whole ++ '.' :: fraction)) =
      some (toBinary64 negative (ofDigits (whole ++ fraction)) (-fraction.length)) := by
  rw [← parseUnsigned?_point negative hne hwhole hfraction]
  obtain ⟨first, rest, rfl⟩ := List.exists_cons_of_ne_nil hne
  exact parse?_of_signed (hwhole first (by simp))

/-- An integer is written as its digits, with a sign before them if it is negative. -/
theorem toString_eq_ofList_toDigits (n : Int) :
    toString n = (if decide (n < 0) then "-" else "") ++
      String.ofList (Nat.toDigits 10 n.natAbs) := by
  cases n with
  | ofNat m =>
      have hsign : ¬ ((m : Int) < 0) := by omega
      simp [toString, Int.repr, Nat.repr_eq_ofList_toDigits, hsign]
  | negSucc m => simp [toString, Int.repr, Nat.repr_eq_ofList_toDigits, Int.negSucc_lt_zero]

/-- An integer is read as its digits. -/
theorem parse?_toString (n : Int) :
    parse? (toString n) = some (toBinary64 (decide (n < 0)) n.natAbs 0) := by
  rw [toString_eq_ofList_toDigits, parse?_digits _ Nat.toDigits_ne_nil isDigit_toDigits, ofDigits_toDigits]

theorem isDigit_append_zeros {chars : List Char} (hchars : ∀ c ∈ chars, c.isDigit = true)
    (count : Nat) : ∀ c ∈ chars ++ List.replicate count '0', c.isDigit = true := by
  intro c hc
  rcases List.mem_append.mp hc with hc | hc
  · exact hchars c hc
  · rw [List.eq_of_mem_replicate hc]
    rfl

/-- Positional notation is read as the decimal that it shows. -/
theorem parse?_positional (negative : Bool) (decimal : Shortest) :
    parse? ((if negative then "-" else "") ++ decimal.positional) =
      some (toBinary64 negative decimal.digits decimal.exponent) := by
  have hdigits := @isDigit_toDigits decimal.digits
  have hvalue := ofDigits_toDigits decimal.digits
  have hne : Nat.toDigits 10 decimal.digits ≠ [] := Nat.toDigits_ne_nil
  unfold Shortest.positional
  dsimp only
  generalize Nat.toDigits 10 decimal.digits = chars at hdigits hvalue hne
  by_cases hexponent : 0 ≤ decimal.exponent
  · rw [if_pos hexponent, parse?_digits negative (by simp [hne]) (isDigit_append_zeros hdigits _),
      ofDigits_append_zeros, hvalue, toBinary64_shift, Int.zero_add, Int.toNat_of_nonneg hexponent]
  have hplaces : -((-decimal.exponent).toNat : Int) = decimal.exponent := by omega
  rw [if_neg hexponent]
  by_cases hshort : chars.length ≤ (-decimal.exponent).toNat
  -- all digits stand after the point, behind some zeros
  · have hfraction : ∀ c ∈ List.replicate ((-decimal.exponent).toNat - chars.length) '0' ++ chars,
        c.isDigit = true := by
      intro c hc
      exact isDigit_append_zeros hdigits _ c
        (List.mem_append.mpr (List.mem_append.mp hc).symm)
    have hlength : (List.replicate ((-decimal.exponent).toNat - chars.length) '0' ++
        chars).length = (-decimal.exponent).toNat := by
      rw [List.length_append, List.length_replicate]
      omega
    have hsame : ofDigits (['0'] ++
        (List.replicate ((-decimal.exponent).toNat - chars.length) '0' ++ chars)) =
        decimal.digits := by
      rw [← hvalue, ← ofDigits_zeros_append ((-decimal.exponent).toNat - chars.length + 1) chars,
        List.replicate_succ]
      rfl
    have hparse := parse?_point negative (List.cons_ne_nil '0' []) (by simp) hfraction
    rw [hlength, hplaces, hsame] at hparse
    rw [if_pos hshort, ← hparse]
    simp
  -- the point stands among the digits
  · have hlength : (chars.drop (chars.length - (-decimal.exponent).toNat)).length =
        (-decimal.exponent).toNat := by
      rw [List.length_drop]
      omega
    have hwhole : chars.take (chars.length - (-decimal.exponent).toNat) ≠ [] := by
      rw [Ne, List.take_eq_nil_iff, not_or]
      exact ⟨by omega, hne⟩
    have hfraction : ∀ c ∈ chars.drop (chars.length - (-decimal.exponent).toNat),
        c.isDigit = true := fun c hc => hdigits c (List.mem_of_mem_drop hc)
    have hparse := parse?_point negative hwhole
      (fun c hc => hdigits c (List.mem_of_mem_take hc)) hfraction
    rw [hlength, hplaces, List.take_append_drop, hvalue] at hparse
    rw [if_neg hshort, ← hparse]
    simp

/-! ## Numbers of the format as decimals -/

theorem toBinary64_natural {negative : Bool} {n mantissa scale : Nat} (hpos : 0 < n)
    (hsmall : n < power 400) (h : Canonical mantissa scale)
    (hvalue : n * one = mantissa * 2 ^ scale) :
    toBinary64 negative n 0 = .finite negative mantissa scale h := by
  have horder : digitCount n ≤ 400 := (digitCount_le_iff hpos).mpr hsmall
  unfold toBinary64
  dsimp only
  rw [if_neg (by simp; omega), if_neg (by omega), if_pos le_rfl]
  refine ofRatio_of_eq negative h (by decide) ?_
  rw [Nat.mul_one, ← hvalue, show power (0 : Int).toNat = 1 from rfl, Nat.mul_one]

end Decimal

namespace Shortest

open Binary64 Decimal

/-- A hit reads back, also if it is written with one digit less. -/
theorem toBinary64_ofCount (digits : Nat) {count : Nat} (hcount : 0 < count) (exponent : Int) :
    toBinary64 false (ofCount digits count exponent).digits
      (ofCount digits count exponent).exponent = toBinary64 false digits exponent := by
  unfold ofCount
  split
  case isTrue hpower =>
    have hshift := toBinary64_shift false (power (count - 1)) 1 exponent
    rw [← power_add, Nat.sub_add_cancel hcount, ← hpower] at hshift
    exact hshift.symm
  case isFalse => rfl

theorem nearest_eq (tie : Tie) (below rest den : Nat) :
    nearest tie below rest den = below ∨ nearest tie below rest den = below + 1 := by
  unfold nearest
  cases tie with
  | greater => split_ifs <;> simp
  | even => split_ifs <;> simp

theorem toBinary64_of_atCount? {tie : Tie} {x : Binary64} {num den count : Nat}
    {decimal : Shortest} (hcount : 0 < count) (hhit : atCount? tie x num den count = some decimal) :
    toBinary64 false decimal.digits decimal.exponent = x := by
  unfold atCount? at hhit
  dsimp only at hhit
  split at hhit
  case h_1 hbelow habove =>
    obtain rfl := Option.some.inj hhit
    rw [toBinary64_ofCount _ hcount]
    rcases nearest_eq tie _ _ _ with hdigits | hdigits <;> rw [hdigits]
    · exact of_decide_eq_true hbelow
    · exact of_decide_eq_true habove
  case h_2 hbelow _ =>
    obtain rfl := Option.some.inj hhit
    rw [toBinary64_ofCount _ hcount]
    exact of_decide_eq_true hbelow
  case h_3 _ habove =>
    obtain rfl := Option.some.inj hhit
    rw [toBinary64_ofCount _ hcount]
    exact of_decide_eq_true habove
  case h_4 => simp at hhit

/-- All digits together read back: their order of magnitude lies far inside the range that is
computed with. -/
theorem toBinary64_exact {mantissa scale : Nat} (h : Canonical mantissa scale)
    (hpos : 0 < mantissa) :
    toBinary64 false (exact (mantissa <<< scale)).digits (exact (mantissa <<< scale)).exponent =
      .finite false mantissa scale h := by
  have hten : power (-(-1074 : Int)).toNat = Nat.pow 5 1074 * one := by decide +kernel
  have hleast : power 674 ≤ Nat.pow 5 1074 := by decide +kernel
  have hgreatest : 2 ^ 2098 * Nat.pow 5 1074 ≤ power 1474 := by decide +kernel
  have hrange := h.units_lt
  unfold exact toBinary64
  dsimp only
  rw [Nat.shiftLeft_eq]
  -- the two powers are kept from being computed
  generalize Nat.pow 5 1074 = five at hten hleast hgreatest ⊢
  generalize 2 ^ 2098 = range at hrange hgreatest
  have hunits : 0 < mantissa * 2 ^ scale := Nat.mul_pos hpos (Nat.two_pow_pos _)
  have hfive : 0 < five := lt_of_lt_of_le (power_pos _) hleast
  have hdigits : 0 < mantissa * 2 ^ scale * five := Nat.mul_pos hunits hfive
  have hlower : 674 < digitCount (mantissa * 2 ^ scale * five) := by
    rw [← not_le, digitCount_le_iff hdigits, not_lt]
    exact hleast.trans (Nat.le_mul_of_pos_left _ hunits)
  have hupper : digitCount (mantissa * 2 ^ scale * five) ≤ 1474 := by
    rw [digitCount_le_iff hdigits]
    exact (Nat.mul_lt_mul_of_pos_right hrange hfive).trans_le hgreatest
  rw [if_neg (by simp only [decide_eq_false hdigits.ne', Bool.false_or, decide_eq_true_eq]; omega),
    if_neg (by omega), if_neg (by decide), hten]
  refine ofRatio_of_eq false h (hten ▸ power_pos _) ?_
  ring

/-- The digits of a positive number read back. -/
theorem toBinary64_ofParts (tie : Tie) {mantissa scale : Nat} (h : Canonical mantissa scale)
    (hpos : 0 < mantissa) :
    toBinary64 false (ofParts tie mantissa scale).digits (ofParts tie mantissa scale).exponent =
      .finite false mantissa scale h := by
  unfold ofParts
  dsimp only
  rw [ofParts_of_canonical h]
  cases hhit : (List.range 17).findSome? fun i =>
      atCount? tie (.finite false mantissa scale h) (mantissa <<< scale) one (i + 1) with
  | none => exact toBinary64_exact h hpos
  | some decimal =>
      obtain ⟨i, -, hdecimal⟩ := List.exists_of_findSome?_eq_some hhit
      exact toBinary64_of_atCount? (Nat.succ_pos i) hdecimal

end Shortest

/-! ## The text of a number -/

namespace Binary64

open Decimal

theorem equal_self {negative : Bool} {mantissa scale : Nat} (h : Canonical mantissa scale) :
    (finite negative mantissa scale h).equal (.finite negative mantissa scale h) = true := by
  simp [equal]

/-- Only the two zeros are equal without being the same. -/
theorem eq_or_zero_of_equal {x y : Binary64} (hequal : x.equal y = true) :
    x = y ∨ ∃ negative negative', x = zero negative ∧ y = zero negative' := by
  cases x with
  | nan => simp [equal] at hequal
  | infinite negative =>
      cases y with
      | infinite negative' => exact .inl (by simpa [equal] using hequal)
      | _ => simp [equal] at hequal
  | finite negative mantissa scale h =>
      cases y with
      | finite negative' mantissa' scale' h' =>
          simp only [equal, Bool.and_eq_true, beq_iff_eq, Bool.or_eq_true] at hequal
          obtain ⟨⟨rfl, rfl⟩, rfl | rfl⟩ := hequal
          · exact .inl rfl
          · obtain rfl : scale = 0 := h.le_or.resolve_right (by decide)
            exact .inr ⟨negative, negative', rfl, rfl⟩
      | _ => simp [equal] at hequal

theorem equal_zero (negative negative' : Bool) : (zero negative).equal (zero negative') = true := by
  simp [equal, zero]

theorem equal_of_equal_left {x y z : Binary64} (hx : z.equal x = true) (hy : z.equal y = true) :
    x.equal y = true := by
  rcases eq_or_zero_of_equal hx with rfl | ⟨_, _, rfl, rfl⟩
  · exact hy
  · rcases eq_or_zero_of_equal hy with rfl | ⟨_, _, -, rfl⟩ <;> exact equal_zero _ _

/-- Positional notation of the shortest digits reads back. -/
theorem parse?_signed (negative : Bool) {mantissa scale : Nat} (h : Canonical mantissa scale)
    (hpos : 0 < mantissa) :
    parse? (if negative then "-" ++ (Shortest.ofParts .greater mantissa scale).positional
        else (Shortest.ofParts .greater mantissa scale).positional) =
      some (.finite negative mantissa scale h) := by
  have hparse := parse?_positional negative (Shortest.ofParts .greater mantissa scale)
  have hvalue := Shortest.toBinary64_ofParts .greater h hpos
  cases negative with
  | false => simpa [hvalue] using hparse
  | true =>
      rw [toBinary64_true, hvalue] at hparse
      exact hparse

/-- The units of a number that is an integer. -/
theorem toInt?_eq_some {negative : Bool} {mantissa scale : Nat} {h : Canonical mantissa scale}
    {n : Int} (hinteger : toInt? (.finite negative mantissa scale h) = some n) :
    n.natAbs * one = mantissa * 2 ^ scale ∧ (0 < mantissa → decide (n < 0) = negative) := by
  rw [toInt?, Nat.shiftLeft_eq] at hinteger
  split at hinteger
  case isFalse => simp at hinteger
  case isTrue hwhole =>
    have hunits : mantissa * 2 ^ scale / one * one = mantissa * 2 ^ scale :=
      Nat.div_mul_cancel (Nat.dvd_of_mod_eq_zero hwhole)
    have hquotient : 0 < mantissa → 0 < mantissa * 2 ^ scale / one := by
      intro hpos
      have hprod : 0 < mantissa * 2 ^ scale / one * one := by
        rw [hunits]
        exact Nat.mul_pos hpos (Nat.two_pow_pos _)
      exact Nat.pos_of_mul_pos_right hprod
    generalize mantissa * 2 ^ scale / one = quotient at *
    obtain rfl := Option.some.inj hinteger
    cases negative with
    | false => exact ⟨by simpa using hunits, fun _ => by simp⟩
    | true => exact ⟨by simpa using hunits, fun hpos => by simpa using hquotient hpos⟩

/-- The wire text of a number is read as an equal number. -/
theorem exists_parse?_text {x : Binary64} (hx : x ≠ .nan) :
    ∃ y, parse? x.text = some y ∧ y.equal x = true := by
  cases x with
  | nan => exact absurd rfl hx
  | infinite negative =>
      refine ⟨.infinite negative, ?_, by simp [equal]⟩
      cases negative <;> decide
  | finite negative mantissa scale h =>
      rcases Nat.eq_zero_or_pos mantissa with rfl | hpos
      -- the sign of a zero is lost
      · obtain rfl : scale = 0 := h.le_or.resolve_right (by decide)
        refine ⟨.zero false, ?_, by simp [equal, zero]⟩
        have hzero : ∀ negative, parse? (zero negative).text = some (.zero false) := by
          intro negative
          cases negative <;> decide +kernel
        exact hzero negative
      -- integers that are not too great are written without a point, all others by their digits
      · refine ⟨_, ?_, equal_self h⟩
        have hsigned := parse?_signed negative h hpos
        unfold text
        dsimp only
        split
        case h_2 => exact hsigned
        case h_1 n hinteger =>
          split
          case isFalse => exact hsigned
          case isTrue hbound =>
            obtain ⟨hunits, hsign⟩ := toInt?_eq_some hinteger
            have hpositive : 0 < n.natAbs := by
              apply Nat.pos_of_ne_zero
              intro hzero
              rw [hzero, Nat.zero_mul] at hunits
              exact absurd hunits (Nat.mul_pos hpos (Nat.two_pow_pos _)).ne
            have hsmall : n.natAbs < power 400 := by
              simp only [Bool.and_eq_true, decide_eq_true_eq] at hbound
              have hten : integerBound = 1000000000000000 := rfl
              calc n.natAbs < power 15 := by
                    have hpower : power 15 = 1000000000000000 := rfl
                    omega
                _ ≤ power 400 := power_mono (by decide)
            rw [parse?_toString, hsign hpos, toBinary64_natural hpositive hsmall h hunits]

end Binary64

end ItemMapper
