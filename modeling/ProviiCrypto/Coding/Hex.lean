import Mathlib.Data.List.Nodup
import ProviiCrypto.Number.Bits

/-!
# Hexadecimal text

A byte is two digits, the high one first, and a text is its bytes. Writing uses lower-case letters and
reading takes letters of either case, so a text is read exactly when its lower-case form is what is
written for the bytes (`decodeHex_eq_ok`). A text that is not read is of odd length, or else the error
names the first character that is no digit, and its position (`decodeHex_eq_error`).
-/

namespace ProviiCrypto.Coding

/-- The digits, as bytes. -/
def hexAlphabet : List UInt8 := "0123456789abcdef".toList.map Char.toUInt8

/-- The text of a byte string. -/
def hex (bytes : List UInt8) : List UInt8 :=
  bytes.flatMap fun b => [hexAlphabet.getD (b.toNat / 16) 48, hexAlphabet.getD (b.toNat % 16) 48]

/-- A capital letter as a small one. -/
def lowerByte (c : UInt8) : UInt8 := if 65 ≤ c ∧ c ≤ 90 then c + 32 else c

/-- The lower-case form of a text. -/
def lowerCase (text : List UInt8) : List UInt8 := text.map lowerByte

/-- The value of a digit, in either case. -/
def hexValue (c : UInt8) : Option ℕ := hexAlphabet.idxOf? (lowerByte c)

/-- Why a text is not read. -/
inductive FromHexError where
  | invalidHexCharacter (c : Char) (index : ℕ)
  | oddLength
  deriving DecidableEq, Repr

/-- The value of the character at a position. -/
def hexValueAt (c : UInt8) (index : ℕ) : Except FromHexError ℕ :=
  match hexValue c with
  | some n => .ok n
  | none => .error (.invalidHexCharacter (Char.ofUInt8 c) index)

/-- The bytes of a text from a position on, pair by pair. -/
def decodePairs : ℕ → List UInt8 → Except FromHexError (List UInt8)
  | _, [] => .ok []
  -- no pair is cut short when the length is even
  | _, [_] => .error .oddLength
  | index, a :: b :: rest => do
    let high ← hexValueAt a index
    let low ← hexValueAt b (index + 1)
    let bytes ← decodePairs (index + 2) rest
    return UInt8.ofNat (16 * high + low) :: bytes

/-- The bytes of a text. -/
def decodeHex (text : List UInt8) : Except FromHexError (List UInt8) :=
  if text.length % 2 ≠ 0 then .error .oddLength else decodePairs 0 text

theorem hexValue_eq_some {c : UInt8} {n : ℕ} :
    hexValue c = some n ↔ n < 16 ∧ lowerByte c = hexAlphabet.getD n 48 := by
  have hnodup : hexAlphabet.Nodup := by decide
  have hlen : hexAlphabet.length = 16 := by decide
  unfold hexValue
  rw [List.idxOf?_eq_some_iff]
  constructor
  · rintro ⟨hn, hc, -⟩
    exact ⟨hlen ▸ hn, by rw [List.getD_eq_getElem _ _ hn, hc]⟩
  · rintro ⟨hn, hc⟩
    have hn' : n < hexAlphabet.length := hlen.symm ▸ hn
    rw [List.getD_eq_getElem _ _ hn'] at hc
    refine ⟨hn', hc.symm, fun j hj heq => ?_⟩
    exact hj.ne (hnodup.getElem_inj_iff.mp (heq.trans hc))

/-! ## What is read -/

/-- A pair is read when both its characters are digits. -/
theorem decodePairs_pair {index : ℕ} {a b : UInt8} {rest bytes : List UInt8} :
    decodePairs index (a :: b :: rest) = .ok bytes ↔ ∃ high low bytes', hexValue a = some high ∧
      hexValue b = some low ∧ decodePairs (index + 2) rest = .ok bytes' ∧
      bytes = UInt8.ofNat (16 * high + low) :: bytes' := by
  rw [decodePairs, hexValueAt, hexValueAt]
  cases hexValue a with
  | none => simp [bind, Except.bind]
  | some high =>
    cases hexValue b with
    | none => simp [bind, Except.bind]
    | some low =>
      cases decodePairs (index + 2) rest with
      | error e => simp [bind, Except.bind]
      | ok bytes' => simp [bind, Except.bind, pure, Except.pure, eq_comm]

/-- A pair of digits is read as a byte. -/
theorem decodePairs_cons_cons {index : ℕ} {a b : UInt8} {rest : List UInt8} {byte : UInt8}
    {bytes : List UInt8} : decodePairs index (a :: b :: rest) = .ok (byte :: bytes) ↔
      hexValue a = some (byte.toNat / 16) ∧ hexValue b = some (byte.toNat % 16) ∧
        decodePairs (index + 2) rest = .ok bytes := by
  have hbyte := byte.toNat_lt
  have hpair : ∀ {high low : ℕ}, high < 16 → low < 16 → (byte = UInt8.ofNat (16 * high + low) ↔
      high = byte.toNat / 16 ∧ low = byte.toNat % 16) := by
    intro high low hhigh hlow
    have hlt : 16 * high + low < UInt8.size := show _ < 256 by omega
    rw [← UInt8.toNat_inj, UInt8.toNat_ofNat_of_lt' hlt]
    omega
  rw [decodePairs_pair]
  constructor
  · rintro ⟨high, low, bytes', ha, hb, hrest, heq⟩
    obtain ⟨hhigh, rfl⟩ := List.cons.inj heq
    obtain ⟨rfl, rfl⟩ := (hpair (hexValue_eq_some.mp ha).1 (hexValue_eq_some.mp hb).1).mp hhigh
    exact ⟨ha, hb, hrest⟩
  · rintro ⟨ha, hb, hrest⟩
    refine ⟨_, _, _, ha, hb, hrest, ?_⟩
    rw [← (hpair (hexValue_eq_some.mp ha).1 (hexValue_eq_some.mp hb).1).mpr ⟨rfl, rfl⟩]

theorem hex_cons (byte : UInt8) (bytes : List UInt8) :
    hex (byte :: bytes) =
      hexAlphabet.getD (byte.toNat / 16) 48 :: hexAlphabet.getD (byte.toNat % 16) 48 :: hex bytes :=
  rfl

@[simp] theorem length_hex (bytes : List UInt8) : (hex bytes).length = 2 * bytes.length := by
  simp [hex, List.length_flatMap, mul_comm]

@[simp] theorem length_lowerCase (text : List UInt8) : (lowerCase text).length = text.length :=
  List.length_map _

theorem decodePairs_eq_ok : ∀ {index : ℕ} {text bytes : List UInt8},
    decodePairs index text = .ok bytes ↔ lowerCase text = hex bytes
  | _, [], bytes => by cases bytes <;> simp [decodePairs, lowerCase, hex]
  | _, [c], bytes => by
    refine iff_of_false nofun fun h => ?_
    have hlen := congrArg List.length h
    rw [length_hex, length_lowerCase, List.length_singleton] at hlen
    omega
  | index, a :: b :: rest, [] => by
    refine iff_of_false (fun h => ?_) nofun
    obtain ⟨_, _, _, -, -, -, heq⟩ := decodePairs_pair.mp h
    cases heq
  | index, a :: b :: rest, byte :: bytes => by
    have hbyte := byte.toNat_lt
    rw [decodePairs_cons_cons, hexValue_eq_some, hexValue_eq_some, decodePairs_eq_ok, hex_cons]
    simp only [lowerCase, List.map_cons, List.cons.injEq]
    constructor
    · exact fun ⟨ha, hb, hrest⟩ => ⟨ha.2, hb.2, hrest⟩
    · exact fun ⟨ha, hb, hrest⟩ => ⟨⟨by omega, ha⟩, ⟨by omega, hb⟩, hrest⟩

/-- **What is read**: the texts whose lower-case form is the one written. -/
theorem decodeHex_eq_ok {text bytes : List UInt8} :
    decodeHex text = .ok bytes ↔ lowerCase text = hex bytes := by
  unfold decodeHex
  split_ifs with hodd
  · refine iff_of_false nofun fun h => hodd ?_
    have hlen := congrArg List.length h
    rw [length_hex, length_lowerCase] at hlen
    omega
  · exact decodePairs_eq_ok

theorem lowerCase_hex (bytes : List UInt8) : lowerCase (hex bytes) = hex bytes := by
  have hdigit : ∀ n < 16, lowerByte (hexAlphabet.getD n 48) = hexAlphabet.getD n 48 := by decide
  induction bytes with
  | nil => rfl
  | cons byte bytes ih =>
    have hbyte := byte.toNat_lt
    rw [hex_cons, lowerCase, List.map_cons, List.map_cons, hdigit _ (by omega), hdigit _ (by omega)]
    exact congrArg _ (congrArg _ ih)

theorem decodeHex_hex (bytes : List UInt8) : decodeHex (hex bytes) = .ok bytes :=
  decodeHex_eq_ok.mpr (lowerCase_hex bytes)

theorem hex_injective : Function.Injective hex := fun bytes bytes' h =>
  Except.ok.inj ((decodeHex_hex bytes).symm.trans (h ▸ decodeHex_hex bytes'))

/-! ## What is not -/

/-- The first character of a text that is no digit, and how many digits stand before it. -/
def FirstNonDigit (text : List UInt8) (index : ℕ) (c : UInt8) : Prop :=
  ∃ digits rest, text = digits ++ c :: rest ∧ digits.length = index ∧ hexValue c = none ∧
    ∀ d ∈ digits, hexValue d ≠ none

theorem firstNonDigit_cons {a c : UInt8} {text : List UInt8} {index : ℕ} :
    FirstNonDigit (a :: text) index c ↔ (index = 0 ∧ c = a ∧ hexValue a = none) ∨
      hexValue a ≠ none ∧ ∃ k, index = k + 1 ∧ FirstNonDigit text k c := by
  constructor
  · rintro ⟨digits, rest, htext, rfl, hc, hdigits⟩
    cases digits with
    | nil =>
      obtain ⟨rfl, rfl⟩ := List.cons.inj htext
      exact .inl ⟨rfl, rfl, hc⟩
    | cons d digits =>
      obtain ⟨rfl, rfl⟩ := List.cons.inj htext
      obtain ⟨ha, hdigits⟩ := List.forall_mem_cons.mp hdigits
      exact .inr ⟨ha, _, rfl, digits, rest, rfl, rfl, hc, hdigits⟩
  · rintro (⟨rfl, rfl, hc⟩ | ⟨ha, k, rfl, digits, rest, rfl, rfl, hc, hdigits⟩)
    · exact ⟨[], text, rfl, rfl, hc, nofun⟩
    · exact ⟨a :: digits, rest, rfl, rfl, hc, List.forall_mem_cons.mpr ⟨ha, hdigits⟩⟩

/-- The error of a text that is not read. -/
def FromHexError.Of (text : List UInt8) : FromHexError → Prop
  | .oddLength => text.length % 2 ≠ 0
  | .invalidHexCharacter c index =>
    text.length % 2 = 0 ∧ ∃ byte, c = Char.ofUInt8 byte ∧ FirstNonDigit text index byte

theorem decodePairs_eq_error : ∀ {index : ℕ} {text : List UInt8} {e : FromHexError},
    text.length % 2 = 0 → (decodePairs index text = .error e ↔
      ∃ k c, e = .invalidHexCharacter (Char.ofUInt8 c) (index + k) ∧ FirstNonDigit text k c)
  | _, [], _, _ => by
    refine iff_of_false nofun ?_
    rintro ⟨k, c, -, digits, rest, htext, -⟩
    exact List.append_ne_nil_of_right_ne_nil digits (List.cons_ne_nil c rest) htext.symm
  | index, a :: b :: rest, e, hlen => by
    have hrest : rest.length % 2 = 0 := by
      rw [List.length_cons, List.length_cons] at hlen
      omega
    have ih := @decodePairs_eq_error (index + 2) rest e hrest
    simp only [firstNonDigit_cons]
    rw [decodePairs, hexValueAt, hexValueAt]
    -- the first character that is no digit is in this pair, or after it
    cases ha : hexValue a with
    | none =>
      simp only [bind, Except.bind, Except.error.injEq]
      constructor
      · rintro rfl
        exact ⟨0, a, rfl, .inl ⟨rfl, rfl, trivial⟩⟩
      · rintro ⟨k, c, rfl, ⟨rfl, rfl, -⟩ | ⟨h, -⟩⟩
        · rfl
        · exact absurd rfl h
    | some high =>
      cases hb : hexValue b with
      | none =>
        simp only [bind, Except.bind, Except.error.injEq]
        constructor
        · rintro rfl
          exact ⟨1, b, rfl, .inr ⟨nofun, 0, rfl, .inl ⟨rfl, rfl, trivial⟩⟩⟩
        · rintro ⟨k, c, rfl, ⟨-, -, h⟩ | ⟨-, k, rfl, ⟨rfl, rfl, -⟩ | ⟨h, -⟩⟩⟩
          · cases h
          · rfl
          · exact absurd rfl h
      | some low =>
        have hread : ((decodePairs (index + 2) rest).bind fun bytes =>
            Except.ok (UInt8.ofNat (16 * high + low) :: bytes)) = .error e ↔
              decodePairs (index + 2) rest = .error e := by
          cases decodePairs (index + 2) rest <;> simp [Except.bind]
        refine Iff.trans hread (ih.trans ⟨?_, ?_⟩)
        · rintro ⟨k, c, rfl, hfirst⟩
          exact ⟨k + 2, c, by rw [show index + (k + 2) = index + 2 + k by omega], .inr ⟨nofun, k + 1, rfl,
            .inr ⟨nofun, k, rfl, hfirst⟩⟩⟩
        · rintro ⟨k, c, rfl, ⟨-, -, h⟩ | ⟨-, k, rfl, ⟨-, -, h⟩ | ⟨-, k, rfl, hfirst⟩⟩⟩
          · cases h
          · cases h
          · exact ⟨k, c, by rw [show index + (k + 1 + 1) = index + 2 + k by omega], hfirst⟩

/-- **What is not read**, and how it is reported. -/
theorem decodeHex_eq_error {text : List UInt8} {e : FromHexError} :
    decodeHex text = .error e ↔ e.Of text := by
  unfold decodeHex
  split_ifs with hodd
  · cases e with
    | oddLength => exact iff_of_true rfl hodd
    | invalidHexCharacter c index => exact iff_of_false nofun fun h => hodd h.1
  · have hlen : text.length % 2 = 0 := not_not.mp hodd
    rw [decodePairs_eq_error hlen]
    simp only [Nat.zero_add]
    cases e with
    | oddLength => exact iff_of_false nofun hodd
    | invalidHexCharacter c index =>
      constructor
      · rintro ⟨k, byte, heq, hfirst⟩
        obtain ⟨rfl, rfl⟩ := FromHexError.invalidHexCharacter.inj heq
        exact ⟨hlen, byte, rfl, hfirst⟩
      · rintro ⟨-, byte, rfl, hfirst⟩
        exact ⟨index, byte, rfl, hfirst⟩

/-! ## The case of letters -/

/-- The error with the character it names in lower case. -/
def FromHexError.lower : FromHexError → FromHexError
  | .invalidHexCharacter c index => .invalidHexCharacter c.toLower index
  | .oddLength => .oddLength

theorem val_ofUInt8 (c : UInt8) : (Char.ofUInt8 c).val = c.toUInt32 := rfl

theorem toLower_ofUInt8 (c : UInt8) : (Char.ofUInt8 c).toLower = Char.ofUInt8 (lowerByte c) := by
  have hcapital : (Char.ofUInt8 c).val ≥ 'A'.val ∧ (Char.ofUInt8 c).val ≤ 'Z'.val ↔
      65 ≤ c ∧ c ≤ 90 := by
    simp only [ge_iff_le, UInt32.le_iff_toNat_le, UInt8.le_iff_toNat_le, val_ofUInt8,
      UInt8.toNat_toUInt32]
    rfl
  unfold Char.toLower lowerByte
  by_cases h : 65 ≤ c ∧ c ≤ 90
  · rw [dif_pos (hcapital.mpr h), if_pos h]
    obtain ⟨-, h⟩ := h
    rw [UInt8.le_iff_toNat_le] at h
    refine Char.ext (UInt32.toNat_inj.mp ?_)
    simp only [val_ofUInt8, UInt32.toNat_add, UInt8.toNat_toUInt32, UInt8.toNat_add]
    have h90 : c.toNat ≤ 90 := h
    show (c.toNat + 32) % 2 ^ 32 = (c.toNat + 32) % 2 ^ 8
    omega
  · rw [dif_neg fun h' => h (hcapital.mp h'), if_neg h]

theorem lowerByte_lowerByte (c : UInt8) : lowerByte (lowerByte c) = lowerByte c := by
  unfold lowerByte
  split_ifs with h h'
  · grind
  · rfl
  · rfl

theorem hexValueAt_lowerByte (c : UInt8) (index : ℕ) :
    (hexValueAt (lowerByte c) index).mapError FromHexError.lower =
      (hexValueAt c index).mapError FromHexError.lower := by
  unfold hexValueAt hexValue
  rw [lowerByte_lowerByte]
  cases hexAlphabet.idxOf? (lowerByte c) with
  | none => simp [Except.mapError, FromHexError.lower, toLower_ofUInt8, lowerByte_lowerByte]
  | some n => rfl

theorem mapError_bind {ε ε' α β : Type} (f : ε → ε') (x : Except ε α) (g : α → Except ε β) :
    (x >>= g).mapError f = x.mapError f >>= fun a => (g a).mapError f := by
  cases x <;> rfl

theorem decodePairs_lowerCase : ∀ (index : ℕ) (text : List UInt8),
    (decodePairs index (lowerCase text)).mapError FromHexError.lower =
      (decodePairs index text).mapError FromHexError.lower
  | _, [] => rfl
  | _, [_] => rfl
  | index, a :: b :: rest => by
    have ih := decodePairs_lowerCase (index + 2) rest
    rw [lowerCase, List.map_cons, List.map_cons, decodePairs, decodePairs]
    simp only [mapError_bind, hexValueAt_lowerByte]
    rw [← ih]
    rfl

/-- **Case does not matter**, but for the character that an error names. -/
theorem decodeHex_lowerCase (text : List UInt8) :
    (decodeHex (lowerCase text)).mapError FromHexError.lower =
      (decodeHex text).mapError FromHexError.lower := by
  unfold decodeHex
  rw [length_lowerCase]
  split_ifs
  · rfl
  · exact decodePairs_lowerCase 0 text

end ProviiCrypto.Coding
