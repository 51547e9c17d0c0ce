import Mathlib.Data.Nat.Digits.Lemmas
import SuwappuDb.Lib.Utf8
import SuwappuDb.Lib.Prog

/-!
# Hexadecimal texts

Hexadecimal digits are used for bytes, two digits to a byte (`nibbles`), and for numbers, in as few
digits as there can be (`shortestDigits`).

* `Codec` — a codec of bytes, which a program takes from a library, and `Codec.Lawful`, what its
  documentation says: it decodes the digits of both cases, and it encodes in lower case.
* `Codec.Lawful.decode_encode` — what was encoded is read back.
* `Codec.Lawful.decode_of_digits` — if a number has an even number of digits, decoding them gives
  the bytes of the number, and as many as that takes.
* `Codec.Lawful.decode_odd` — an odd number of digits does not decode.

`codec` is a codec that does what is documented (`codec_lawful`).
-/

namespace Hex

/-- The value of a digit. -/
def digitValue (c : Byte) : Option Nat :=
  if 0x41 ≤ c ∧ c ≤ 0x46 then some (c.val - 0x41 + 10)
  else if 0x61 ≤ c ∧ c ≤ 0x66 then some (c.val - 0x61 + 10)
  else if 0x30 ≤ c ∧ c ≤ 0x39 then some (c.val - 0x30)
  else none

theorem digitValue_lt {c : Byte} {v : Nat} (h : digitValue c = some v) : v < 16 := by
  simp only [digitValue, Fin.le_def] at h
  split_ifs at h <;> cases h <;> simp_all <;> omega

/-! ## Bytes -/

/-- The two halves of each byte, the high one first. -/
def nibbles (bytes : List Byte) : List Nat := bytes.flatMap fun b => [b.val / 16, b.val % 16]

theorem nibbles_cons (b : Byte) (bytes : List Byte) :
    nibbles (b :: bytes) = b.val / 16 :: b.val % 16 :: nibbles bytes := rfl

theorem length_nibbles (bytes : List Byte) : (nibbles bytes).length = 2 * bytes.length := by
  induction bytes with
  | nil => rfl
  | cons b bytes ih =>
      rw [nibbles_cons, List.length_cons, List.length_cons, List.length_cons, ih]
      ring

theorem nibbles_injective : Function.Injective nibbles := by
  refine flatMap_inj (by decide : 0 < 2) (fun _ => rfl) fun b b' h => Fin.ext ?_
  simp only [List.cons.injEq, and_true] at h
  omega

/-- An even number of digits are the halves of some bytes. -/
theorem exists_nibbles : ∀ {digits : List Nat}, digits.length % 2 = 0 → (∀ d ∈ digits, d < 16) →
    ∃ bytes, nibbles bytes = digits
  | [], _, _ => ⟨[], rfl⟩
  | [_], heven, _ => by simp at heven
  | d :: d' :: digits, heven, hlt => by
      have hd : d < 16 := hlt d (by simp)
      have hd' : d' < 16 := hlt d' (by simp)
      have hrest : digits.length % 2 = 0 := by
        simpa only [List.length_cons, Nat.add_assoc, Nat.add_mod_right] using heven
      obtain ⟨bytes, rfl⟩ := exists_nibbles hrest fun e he => hlt e (by simp [he])
      refine ⟨⟨16 * d + d', by omega⟩ :: bytes, ?_⟩
      have hdiv : (16 * d + d') / 16 = d := by omega
      have hmod : (16 * d + d') % 16 = d' := by omega
      rw [nibbles_cons, hdiv, hmod]

/-- The digit of a value below 16, in lower case. -/
def digit (v : Nat) : Byte := Fin.ofNat 256 (if v < 10 then 0x30 + v else 0x61 + (v - 10))

theorem digitValue_digit {v : Nat} (h : v < 16) : digitValue (digit v) = some v := by
  have hall : ∀ v : Fin 16, digitValue (digit v.val) = some v.val := by decide
  exact hall ⟨v, h⟩

/-- Two digits to a byte: `format!("{b:02x}")` of each. -/
def lowerDigits (bytes : List Byte) : List Byte :=
  bytes.flatMap fun b => [digit (b.val / 16), digit (b.val % 16)]

theorem map_digitValue_lowerDigits (bytes : List Byte) :
    (lowerDigits bytes).map digitValue = (nibbles bytes).map some := by
  induction bytes with
  | nil => rfl
  | cons b bytes ih =>
      show digitValue (digit (b.val / 16)) :: digitValue (digit (b.val % 16)) ::
          (lowerDigits bytes).map digitValue =
        some (b.val / 16) :: some (b.val % 16) :: (nibbles bytes).map some
      rw [digitValue_digit (by omega), digitValue_digit (by omega), ih]

/-- Digits are ASCII. -/
theorem le_of_map_digitValue {text : List Byte} {digits : List Nat}
    (h : text.map digitValue = digits.map some) : ∀ c ∈ text, c ≤ 0x7f := by
  intro c hc
  have hdigit : digitValue c ∈ digits.map some := h ▸ List.mem_map_of_mem hc
  obtain ⟨d, -, hd⟩ := List.mem_map.1 hdigit
  simp only [digitValue, Fin.le_def] at hd ⊢
  split_ifs at hd <;> simp_all <;> omega

theorem isUtf8_lowerDigits (bytes : List Byte) : isUtf8 (lowerDigits bytes) = true :=
  isUtf8_of_ascii (le_of_map_digitValue (map_digitValue_lowerDigits bytes))

def lowerText (bytes : List Byte) : Text := ⟨lowerDigits bytes, isUtf8_lowerDigits bytes⟩

/-! ## Numbers -/

/-- The number with these digits, most significant first. -/
def ofDigits (digits : List Nat) : Nat := digits.foldl (fun n d => 16 * n + d) 0

/-- The halves of some bytes are the digits of their number. -/
theorem ofDigits_nibbles (bytes : List Byte) : ofDigits (nibbles bytes) = beValue bytes := by
  have hfold : ∀ n, (nibbles bytes).foldl (fun n d => 16 * n + d) n =
      bytes.foldl (fun n b => 256 * n + b.val) n := by
    induction bytes with
    | nil => exact fun _ => rfl
    | cons b bytes ih =>
        intro n
        rw [nibbles_cons, List.foldl_cons, List.foldl_cons, ih, List.foldl_cons]
        congr 1
        omega
  exact hfold 0

/-- The base 16 digits of a number, most significant first, and a single zero for zero. -/
def shortestDigits (n : Nat) : List Nat := if n = 0 then [0] else (Nat.digits 16 n).reverse

theorem ofDigits_shortestDigits (n : Nat) : ofDigits (shortestDigits n) = n := by
  unfold shortestDigits
  split_ifs with hzero
  · exact hzero.symm
  · have hdigits := Nat.ofDigits_digits 16 n
    rw [Nat.ofDigits_eq_foldr] at hdigits
    simpa only [ofDigits, List.foldl_reverse, Nat.add_comm, Nat.cast_id] using hdigits

/-- A number is written with at most `k` digits if it is below `16 ^ k`. -/
theorem length_shortestDigits_le {n k : Nat} (hk : 0 < k) :
    (shortestDigits n).length ≤ k ↔ n < 16 ^ k := by
  unfold shortestDigits
  split_ifs with hzero
  · subst hzero
    exact iff_of_true hk (Nat.pow_pos (by decide))
  · rw [List.length_reverse, Nat.digits_length_le_iff (by decide)]

theorem lt_of_mem_shortestDigits {n d : Nat} (h : d ∈ shortestDigits n) : d < 16 := by
  unfold shortestDigits at h
  split_ifs at h with hzero
  · rw [List.mem_singleton.1 h]
    decide
  · exact Nat.digits_lt_base (by decide) (List.mem_reverse.1 h)

/-! ## Codecs -/

/-- A codec of bytes. An error is its display text. -/
structure Codec where
  decode : List Byte → Except String (List Byte)
  encode : List Byte → Text

/-- What the documentation of a codec says. -/
structure Codec.Lawful (hex : Codec) : Prop where
  /-- The texts of some bytes are the digits of their halves, in either case. -/
  decode_eq_ok_iff : ∀ {text bytes : List Byte},
    hex.decode text = .ok bytes ↔ text.map digitValue = (nibbles bytes).map some
  encode_eq : ∀ bytes, hex.encode bytes = lowerText bytes

namespace Codec.Lawful

variable {hex : Codec} {text bytes : List Byte}

theorem length_of_decode (h : hex.Lawful) (hdecode : hex.decode text = .ok bytes) :
    text.length = 2 * bytes.length := by
  simpa [length_nibbles] using congrArg List.length (h.decode_eq_ok_iff.1 hdecode)

theorem decode_odd (h : hex.Lawful) (hodd : text.length % 2 ≠ 0) :
    ∃ e, hex.decode text = .error e := by
  cases hdecode : hex.decode text with
  | error e => exact ⟨e, rfl⟩
  | ok bytes =>
      have hlength := h.length_of_decode hdecode
      omega

theorem decode_lowerDigits (h : hex.Lawful) (bytes : List Byte) :
    hex.decode (lowerDigits bytes) = .ok bytes :=
  h.decode_eq_ok_iff.2 (map_digitValue_lowerDigits bytes)

theorem decode_encode (h : hex.Lawful) (bytes : List Byte) :
    hex.decode (hex.encode bytes).val = .ok bytes := by
  rw [h.encode_eq]
  exact h.decode_lowerDigits bytes

/-- An even number of digits decodes to the bytes of the number, and to half as many. -/
theorem decode_of_digits (h : hex.Lawful) {n : Nat}
    (htext : text.map digitValue = (shortestDigits n).map some) (heven : text.length % 2 = 0) :
    ∃ bytes, hex.decode text = .ok bytes ∧ beValue bytes = n ∧ 2 * bytes.length = text.length := by
  have hlength : text.length = (shortestDigits n).length := by
    simpa using congrArg List.length htext
  obtain ⟨bytes, hbytes⟩ :=
    exists_nibbles (hlength ▸ heven) fun _ hd => lt_of_mem_shortestDigits hd
  have hdecode : hex.decode text = .ok bytes := by
    rw [h.decode_eq_ok_iff, htext, hbytes]
  refine ⟨bytes, hdecode, ?_, (h.length_of_decode hdecode).symm⟩
  rw [← ofDigits_nibbles, hbytes, ofDigits_shortestDigits]

end Codec.Lawful

/-! ## A codec -/

def invalidCharacter (c : Byte) (index : Nat) : String :=
  "Invalid character '" ++ String.singleton (Char.ofNat c.val) ++ "' at position " ++ toString index

/-- Two digits to a byte; `index` is the position of the first. -/
def decodePairs : Nat → List Byte → Except String (List Byte)
  | index, c :: c' :: rest => do
      let high ← okOr (invalidCharacter c index) (digitValue c)
      let low ← okOr (invalidCharacter c' (index + 1)) (digitValue c')
      let bytes ← decodePairs (index + 2) rest
      pure (Fin.ofNat 256 (16 * high + low) :: bytes)
  | _, _ => .ok []

theorem decodePairs_eq_ok {index : Nat} {text bytes : List Byte} (heven : text.length % 2 = 0)
    (h : decodePairs index text = .ok bytes) :
    text.map digitValue = (nibbles bytes).map some := by
  induction index, text using decodePairs.induct generalizing bytes with
  | case1 index c c' rest ih =>
      rw [decodePairs] at h
      cases hhigh : digitValue c with
      | none =>
          rw [hhigh] at h
          cases h
      | some high =>
          cases hlow : digitValue c' with
          | none =>
              rw [hhigh, hlow] at h
              cases h
          | some low =>
              cases htail : decodePairs (index + 2) rest with
              | error e =>
                  rw [hhigh, hlow, htail] at h
                  cases h
              | ok tail =>
                  rw [hhigh, hlow, htail] at h
                  cases h
                  have hlt := digitValue_lt hhigh
                  have hlt' := digitValue_lt hlow
                  have hrest := ih (by
                    simpa only [List.length_cons, Nat.add_assoc, Nat.add_mod_right] using heven)
                    htail
                  have hbyte : (Fin.ofNat 256 (16 * high + low)).val = 16 * high + low :=
                    Nat.mod_eq_of_lt (by omega)
                  have hdiv : (16 * high + low) / 16 = high := by omega
                  have hmod : (16 * high + low) % 16 = low := by omega
                  show digitValue c :: digitValue c' :: rest.map digitValue =
                    some ((Fin.ofNat 256 (16 * high + low)).val / 16) ::
                      some ((Fin.ofNat 256 (16 * high + low)).val % 16) ::
                        (nibbles tail).map some
                  rw [hbyte, hdiv, hmod, hhigh, hlow, hrest]
  | case2 text index hshort =>
      rcases text with _ | ⟨c, _ | ⟨c', rest⟩⟩
      · cases h
        rfl
      · simp at heven
      · exact absurd rfl (hshort c c' rest)

theorem decodePairs_of_nibbles (index : Nat) {text bytes : List Byte}
    (h : text.map digitValue = (nibbles bytes).map some) : decodePairs index text = .ok bytes := by
  induction bytes generalizing index text with
  | nil =>
      obtain rfl : text = [] := by simpa [nibbles] using h
      rfl
  | cons b bytes ih =>
      rcases text with _ | ⟨c, _ | ⟨c', rest⟩⟩
      · simp [nibbles] at h
      · simp [nibbles] at h
      · have hcons : nibbles (b :: bytes) = b.val / 16 :: b.val % 16 :: nibbles bytes := rfl
        simp only [hcons, List.map_cons, List.cons.injEq] at h
        obtain ⟨hhigh, hlow, hrest⟩ := h
        have hbyte : Fin.ofNat 256 (16 * (b.val / 16) + b.val % 16) = b := by
          rw [Nat.div_add_mod]
          exact Fin.ext (Nat.mod_eq_of_lt b.isLt)
        rw [decodePairs, hhigh, hlow, ih _ hrest]
        exact congrArg (fun c => Except.ok (c :: bytes)) hbyte

/-- A text of odd length is rejected before any digit is looked at. -/
def codec : Codec where
  decode text :=
    if text.length % 2 ≠ 0 then .error "Odd number of digits" else decodePairs 0 text
  encode := lowerText

theorem codec_lawful : codec.Lawful where
  decode_eq_ok_iff := by
    intro text bytes
    constructor
    · intro h
      simp only [codec] at h
      split_ifs at h with hodd
      exact decodePairs_eq_ok (not_not.1 hodd) h
    · intro h
      have hlength : text.length = 2 * bytes.length := by
        simpa [length_nibbles] using congrArg List.length h
      simp only [codec]
      rw [if_neg (by omega), decodePairs_of_nibbles 0 h]
  encode_eq _ := rfl

end Hex
