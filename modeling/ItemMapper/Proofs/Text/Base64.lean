import ItemMapper.Text.Base64
import Mathlib.Data.List.Basic

/-!
# Base64 texts are canonical

Bytes have one Base64 text and a text stands for one list of bytes at most: reading gives back what
was written (`decode?_encode`), and a text that can be read is the text of its bytes
(`encode_of_decode?`).  Which texts these are is said by `Canonical` without a reader: groups of
four characters of the alphabet, of which the last one may be padded, with no stray bits before
the padding (`canonical_iff`).
-/

namespace ItemMapper.Base64

/-! ## The alphabet -/

theorem digitValue?_digit_of_lt : ∀ value < 64, digitValue? (digit value) = some value := by
  decide +kernel

theorem digit_mod (value : Nat) : digit (value % 64) = digit value := by
  simp only [digit, Nat.mod_mod]

@[simp] theorem digitValue?_digit (value : Nat) : digitValue? (digit value) = some (value % 64) := by
  rw [← digit_mod, digitValue?_digit_of_lt _ (Nat.mod_lt _ (by decide))]

/-- The value of a character is below sixty-four, and the character is the digit for it. -/
theorem digit_of_digitValue? {c : Char} {value : Nat} (hvalue : digitValue? c = some value) :
    value < 64 ∧ digit value = c := by
  rw [digitValue?, List.idxOf?_eq_some_iff] at hvalue
  obtain ⟨hlt, hget, -⟩ := hvalue
  have hlength : alphabet.length = 64 := by decide
  have hsmall : value < 64 := hlength ▸ hlt
  refine ⟨hsmall, ?_⟩
  rw [digit, Nat.mod_eq_of_lt hsmall, List.getD_eq_getElem?_getD, List.getElem?_eq_getElem hlt, hget,
    Option.getD_some]

theorem digitValue?_padding : digitValue? '=' = none := by
  decide

theorem digit_ne_padding (value : Nat) : digit value ≠ '=' := by
  intro heq
  have hvalue := digitValue?_digit value
  rw [heq, digitValue?_padding] at hvalue
  contradiction

/-! ## Bytes of a group -/

theorem ofNat_eq_of_mod {byte : UInt8} {n : Nat} (hmod : n % 256 = byte.toNat) :
    UInt8.ofNat n = byte := by
  rw [← UInt8.toNat_inj, UInt8.toNat_ofNat', ← hmod]

/-! ## Reading what was written -/

theorem decodeChars_encodeBytes (bytes : List UInt8) :
    decodeChars (encodeBytes bytes) = some bytes := by
  fun_induction encodeBytes bytes with
  | case1 => rfl
  | case2 a n =>
      have ha := a.toNat_lt
      have hgroup : n / 64 % 64 * 64 + n % 64 = n := by omega
      have hbyte : UInt8.ofNat (n / 16) = a := ofNat_eq_of_mod (by omega)
      simp only [decodeChars, digitValue?_digit, Option.bind_eq_bind, Option.bind_some, hgroup, hbyte]
      rw [if_pos (by omega)]
  | case3 a b n =>
      have ha := a.toNat_lt
      have hb := b.toNat_lt
      have hgroup : (n / 4096 % 64 * 64 + n / 64 % 64) * 64 + n % 64 = n := by omega
      have hfirst : UInt8.ofNat (n / 1024) = a := ofNat_eq_of_mod (by omega)
      have hsecond : UInt8.ofNat (n / 4) = b := ofNat_eq_of_mod (by omega)
      rw [decodeChars.eq_3 _ _ _ (fun heq => absurd heq (digit_ne_padding _))]
      simp only [digitValue?_digit, Option.bind_eq_bind, Option.bind_some, hgroup, hfirst, hsecond]
      rw [if_pos (by omega)]
  | case4 a b c rest n ih =>
      have ha := a.toNat_lt
      have hb := b.toNat_lt
      have hc := c.toNat_lt
      have hgroup : ((n / 262144 % 64 * 64 + n / 4096 % 64) * 64 + n / 64 % 64) * 64 + n % 64 = n := by
        omega
      have hfirst : UInt8.ofNat (n / 65536) = a := ofNat_eq_of_mod (by omega)
      have hsecond : UInt8.ofNat (n / 256) = b := ofNat_eq_of_mod (by omega)
      have hthird : UInt8.ofNat n = c := ofNat_eq_of_mod (by omega)
      rw [decodeChars.eq_4]
      · simp only [digitValue?_digit, Option.bind_eq_bind, Option.bind_some, hgroup, hfirst, hsecond,
          hthird, ih]
      · intro _ heq _
        exact absurd heq (digit_ne_padding _)
      · intro heq _
        exact absurd heq (digit_ne_padding _)

@[simp] theorem decode?_encode (bytes : List UInt8) : decode? (encode bytes) = some bytes := by
  rw [decode?, encode, String.toList_ofList, decodeChars_encodeBytes]

/-! ## Writing what was read

A group is written from the values of its characters again. -/

theorem encodeBytes_oneByte {p bits : Nat} (hp : p < 64) (hbits : bits < 4) :
    encodeBytes [UInt8.ofNat (p * 4 + bits)] = [digit p, digit (bits * 16), '=', '='] := by
  have hbyte : (UInt8.ofNat (p * 4 + bits)).toNat = p * 4 + bits := by
    rw [UInt8.toNat_ofNat', Nat.mod_eq_of_lt (by omega)]
  have hfirst : (p * 4 + bits) * 16 / 64 = p := by omega
  have hlast : (p * 4 + bits) * 16 % 64 = bits * 16 := by omega
  simp only [encodeBytes, hbyte, hfirst]
  rw [← digit_mod ((p * 4 + bits) * 16), hlast]

theorem encodeBytes_twoBytes {p q bits : Nat} (hp : p < 64) (hq : q < 64) (hbits : bits < 16) :
    encodeBytes [UInt8.ofNat (p * 4 + q / 16), UInt8.ofNat (q * 16 + bits)] =
      [digit p, digit q, digit (bits * 4), '='] := by
  have hjoined : ((UInt8.ofNat (p * 4 + q / 16)).toNat * 256 + (UInt8.ofNat (q * 16 + bits)).toNat) * 4 =
      (p * 64 + q) * 64 + bits * 4 := by
    simp only [UInt8.toNat_ofNat']
    omega
  have hfirst : ((p * 64 + q) * 64 + bits * 4) / 4096 = p := by omega
  have hsecond : ((p * 64 + q) * 64 + bits * 4) / 64 % 64 = q := by omega
  have hlast : ((p * 64 + q) * 64 + bits * 4) % 64 = bits * 4 := by omega
  simp only [encodeBytes, hjoined, hfirst]
  rw [← digit_mod (((p * 64 + q) * 64 + bits * 4) / 64), hsecond,
    ← digit_mod ((p * 64 + q) * 64 + bits * 4), hlast]

theorem encodeBytes_group {p q r s : Nat} (hp : p < 64) (hq : q < 64) (hr : r < 64) (hs : s < 64)
    (rest : List UInt8) :
    encodeBytes (UInt8.ofNat (p * 4 + q / 16) :: UInt8.ofNat (q * 16 + r / 4) ::
        UInt8.ofNat (r * 64 + s) :: rest) =
      digit p :: digit q :: digit r :: digit s :: encodeBytes rest := by
  have hjoined : ((UInt8.ofNat (p * 4 + q / 16)).toNat * 256 + (UInt8.ofNat (q * 16 + r / 4)).toNat) *
      256 + (UInt8.ofNat (r * 64 + s)).toNat = ((p * 64 + q) * 64 + r) * 64 + s := by
    simp only [UInt8.toNat_ofNat']
    omega
  have hfirst : (((p * 64 + q) * 64 + r) * 64 + s) / 262144 = p := by omega
  have hsecond : (((p * 64 + q) * 64 + r) * 64 + s) / 4096 % 64 = q := by omega
  have hthird : (((p * 64 + q) * 64 + r) * 64 + s) / 64 % 64 = r := by omega
  have hfourth : (((p * 64 + q) * 64 + r) * 64 + s) % 64 = s := by omega
  simp only [encodeBytes, hjoined, hfirst]
  rw [← digit_mod ((((p * 64 + q) * 64 + r) * 64 + s) / 4096), hsecond,
    ← digit_mod ((((p * 64 + q) * 64 + r) * 64 + s) / 64), hthird,
    ← digit_mod (((p * 64 + q) * 64 + r) * 64 + s), hfourth]

theorem encodeBytes_of_decodeChars {chars : List Char} {bytes : List UInt8}
    (hread : decodeChars chars = some bytes) : encodeBytes bytes = chars := by
  fun_induction decodeChars chars generalizing bytes with
  | case1 =>
      obtain rfl := Option.some.inj hread
      rfl
  | case2 a b =>
      simp only [Option.bind_eq_bind, Option.bind_eq_some_iff] at hread
      obtain ⟨p, ha, q, hb, hread⟩ := hread
      obtain ⟨hp, rfl⟩ := digit_of_digitValue? ha
      obtain ⟨hq, rfl⟩ := digit_of_digitValue? hb
      split at hread
      · next hbits =>
          obtain rfl := Option.some.inj hread
          have hbyte : (p * 64 + q) / 16 = p * 4 + q / 16 := by omega
          have hspare : q / 16 * 16 = q := by omega
          rw [hbyte, encodeBytes_oneByte hp (by omega), hspare]
      · contradiction
  | case3 a b c hne =>
      simp only [Option.bind_eq_bind, Option.bind_eq_some_iff] at hread
      obtain ⟨p, ha, q, hb, r, hc, hread⟩ := hread
      obtain ⟨hp, rfl⟩ := digit_of_digitValue? ha
      obtain ⟨hq, rfl⟩ := digit_of_digitValue? hb
      obtain ⟨hr, rfl⟩ := digit_of_digitValue? hc
      split at hread
      · next hbits =>
          obtain rfl := Option.some.inj hread
          have hfirst : ((p * 64 + q) * 64 + r) / 1024 = p * 4 + q / 16 := by omega
          have hsecond : UInt8.ofNat (((p * 64 + q) * 64 + r) / 4) = UInt8.ofNat (q * 16 + r / 4) := by
            apply ofNat_eq_of_mod
            rw [UInt8.toNat_ofNat']
            omega
          have hspare : r / 4 * 4 = r := by omega
          rw [hfirst, hsecond, encodeBytes_twoBytes hp hq (by omega), hspare]
      · contradiction
  | case4 a b c d rest hne hne' ih =>
      simp only [Option.bind_eq_bind, Option.bind_eq_some_iff] at hread
      obtain ⟨p, ha, q, hb, r, hc, s, hd, bytes, hrest, hread⟩ := hread
      obtain ⟨hp, rfl⟩ := digit_of_digitValue? ha
      obtain ⟨hq, rfl⟩ := digit_of_digitValue? hb
      obtain ⟨hr, rfl⟩ := digit_of_digitValue? hc
      obtain ⟨hs, rfl⟩ := digit_of_digitValue? hd
      obtain rfl := Option.some.inj hread
      have hfirst : (((p * 64 + q) * 64 + r) * 64 + s) / 65536 = p * 4 + q / 16 := by omega
      have hsecond : UInt8.ofNat ((((p * 64 + q) * 64 + r) * 64 + s) / 256) =
          UInt8.ofNat (q * 16 + r / 4) := by
        apply ofNat_eq_of_mod
        rw [UInt8.toNat_ofNat']
        omega
      have hthird : UInt8.ofNat (((p * 64 + q) * 64 + r) * 64 + s) = UInt8.ofNat (r * 64 + s) := by
        apply ofNat_eq_of_mod
        rw [UInt8.toNat_ofNat']
        omega
      rw [hfirst, hsecond, hthird, encodeBytes_group hp hq hr hs, ih hrest]
  | case5 => contradiction

theorem encode_of_decode? {text : String} {bytes : List UInt8} (hread : decode? text = some bytes) :
    encode bytes = text := by
  rw [encode, encodeBytes_of_decodeChars hread, String.ofList_toList]

theorem decode?_eq_some_iff {text : String} {bytes : List UInt8} :
    decode? text = some bytes ↔ text = encode bytes := by
  constructor
  · exact fun hread => (encode_of_decode? hread).symm
  · rintro rfl
    exact decode?_encode bytes

/-! ## Canonical texts -/

/-- A canonical text: groups of four characters of the alphabet.  The last group may stand for
fewer than three bytes; then it is padded, and its last character has no bits to spare. -/
inductive Canonical : List Char → Prop where
  | nil : Canonical []
  | oneByte {a b : Char} {bits : Nat} (hfirst : a ∈ alphabet)
      (hlast : digitValue? b = some (bits * 16)) : Canonical [a, b, '=', '=']
  | twoBytes {a b c : Char} {bits : Nat} (hfirst : a ∈ alphabet) (hsecond : b ∈ alphabet)
      (hlast : digitValue? c = some (bits * 4)) : Canonical [a, b, c, '=']
  | group {a b c d : Char} {rest : List Char} (hfirst : a ∈ alphabet) (hsecond : b ∈ alphabet)
      (hthird : c ∈ alphabet) (hfourth : d ∈ alphabet) (hrest : Canonical rest) :
      Canonical (a :: b :: c :: d :: rest)

theorem digit_mem (value : Nat) : digit value ∈ alphabet := by
  have hlt : value % 64 < alphabet.length := Nat.mod_lt _ (by decide)
  rw [digit, List.getD_eq_getElem?_getD, List.getElem?_eq_getElem hlt, Option.getD_some]
  exact List.getElem_mem hlt

/-- Every character of the alphabet is the digit for some value. -/
theorem exists_digit {c : Char} (hmem : c ∈ alphabet) : ∃ value < 64, digit value = c := by
  obtain ⟨value, hvalue⟩ := Option.isSome_iff_exists.mp (List.isSome_idxOf?.mpr hmem)
  exact ⟨value, digit_of_digitValue? hvalue⟩

theorem canonical_encodeBytes (bytes : List UInt8) : Canonical (encodeBytes bytes) := by
  fun_induction encodeBytes bytes with
  | case1 => exact .nil
  | case2 a n =>
      have hlast : digitValue? (digit n) = some (a.toNat % 4 * 16) := by
        rw [digitValue?_digit]
        congr 1
        omega
      exact .oneByte (digit_mem _) hlast
  | case3 a b n =>
      have hlast : digitValue? (digit n) = some ((a.toNat * 256 + b.toNat) % 16 * 4) := by
        rw [digitValue?_digit]
        congr 1
        omega
      exact .twoBytes (digit_mem _) (digit_mem _) hlast
  | case4 a b c rest n ih =>
      exact .group (digit_mem _) (digit_mem _) (digit_mem _) (digit_mem _) ih

theorem exists_encodeBytes_of_canonical {chars : List Char} (hcanonical : Canonical chars) :
    ∃ bytes, encodeBytes bytes = chars := by
  induction hcanonical with
  | nil => exact ⟨[], rfl⟩
  | oneByte hfirst hlast =>
      obtain ⟨p, hp, rfl⟩ := exists_digit hfirst
      obtain ⟨hbits, rfl⟩ := digit_of_digitValue? hlast
      exact ⟨_, encodeBytes_oneByte hp (by omega)⟩
  | twoBytes hfirst hsecond hlast =>
      obtain ⟨p, hp, rfl⟩ := exists_digit hfirst
      obtain ⟨q, hq, rfl⟩ := exists_digit hsecond
      obtain ⟨hbits, rfl⟩ := digit_of_digitValue? hlast
      exact ⟨_, encodeBytes_twoBytes hp hq (by omega)⟩
  | group hfirst hsecond hthird hfourth hrest ih =>
      obtain ⟨p, hp, rfl⟩ := exists_digit hfirst
      obtain ⟨q, hq, rfl⟩ := exists_digit hsecond
      obtain ⟨r, hr, rfl⟩ := exists_digit hthird
      obtain ⟨s, hs, rfl⟩ := exists_digit hfourth
      obtain ⟨bytes, rfl⟩ := ih
      exact ⟨_, encodeBytes_group hp hq hr hs bytes⟩

/-- The canonical texts are those that some bytes are written as. -/
theorem canonical_iff {text : String} : Canonical text.toList ↔ ∃ bytes, text = encode bytes := by
  constructor
  · intro hcanonical
    obtain ⟨bytes, hbytes⟩ := exists_encodeBytes_of_canonical hcanonical
    exact ⟨bytes, by rw [encode, hbytes, String.ofList_toList]⟩
  · rintro ⟨bytes, rfl⟩
    rw [encode, String.toList_ofList]
    exact canonical_encodeBytes bytes

/-- Bits before the padding that stand for nothing are refused. -/
example : decode? "QR==" = none := by decide +kernel

end ItemMapper.Base64
