import SuwappuDb.Lib.Bytes

/-!
# Texts

A text is a sequence of bytes that is well-formed UTF-8 (`Text`). ASCII bytes always are
(`isUtf8_of_ascii`).

* `sliceFrom` — a text from a byte on, if a character starts there.
* `stripStart` — what follows a given beginning, if there is one (`stripStart_eq_some`).
-/

/-- A byte that goes on with a character. -/
def isContinuation (b : Byte) : Bool := 0x80 ≤ b && b ≤ 0xbf

/-- The well-formed byte sequences of UTF-8: neither overlong, nor surrogates, nor past
`U+10FFFF`. -/
def isUtf8 : List Byte → Bool
  | [] => true
  | b₁ :: rest =>
      if b₁ ≤ 0x7f then isUtf8 rest
      else
        match rest with
        | [] => false
        | b₂ :: rest =>
            if 0xc2 ≤ b₁ && b₁ ≤ 0xdf then isContinuation b₂ && isUtf8 rest
            else
              match rest with
              | [] => false
              | b₃ :: rest =>
                  if 0xe0 ≤ b₁ && b₁ ≤ 0xef then
                    isContinuation b₂ && (b₁ != 0xe0 || 0xa0 ≤ b₂) && (b₁ != 0xed || b₂ ≤ 0x9f) &&
                      isContinuation b₃ && isUtf8 rest
                  else
                    match rest with
                    | [] => false
                    | b₄ :: rest =>
                        0xf0 ≤ b₁ && b₁ ≤ 0xf4 && isContinuation b₂ &&
                          (b₁ != 0xf0 || 0x90 ≤ b₂) && (b₁ != 0xf4 || b₂ ≤ 0x8f) &&
                          isContinuation b₃ && isContinuation b₄ && isUtf8 rest

/-- ASCII in front of a text. -/
theorem isUtf8_append {start rest : List Byte} (hstart : ∀ b ∈ start, b ≤ 0x7f)
    (hrest : isUtf8 rest = true) : isUtf8 (start ++ rest) = true := by
  induction start with
  | nil => exact hrest
  | cons b start ih =>
      obtain ⟨hb, hstart⟩ := List.forall_mem_cons.1 hstart
      rw [List.cons_append, isUtf8.eq_def]
      exact (if_pos hb).trans (ih hstart)

theorem isUtf8_of_ascii {s : List Byte} (h : ∀ b ∈ s, b ≤ 0x7f) : isUtf8 s = true := by
  have happend : isUtf8 (s ++ []) = true := isUtf8_append h rfl
  rwa [List.append_nil] at happend

/-- A `String`. -/
abbrev Text := { bytes : List Byte // isUtf8 bytes = true }

/-- `str::is_char_boundary`. -/
def isCharBoundary (text : List Byte) (index : Nat) : Bool :=
  match text[index]? with
  | some b => index = 0 || !isContinuation b
  | none => index = text.length

theorem le_length_of_isCharBoundary {text : List Byte} {index : Nat}
    (h : isCharBoundary text index = true) : index ≤ text.length := by
  unfold isCharBoundary at h
  split at h
  · rename_i b hget
    exact (List.getElem?_eq_some_iff.1 hget).1.le
  · exact (of_decide_eq_true h).le

/-- `&text[start..]`. It panics inside of a character, and past the end. -/
def sliceFrom (text : List Byte) (start : Nat) : Option (List Byte) :=
  if isCharBoundary text start then some (text.drop start) else none

/-- An ASCII text can be cut off from another one. -/
theorem sliceFrom_append {start rest : List Byte} (h : ∀ b ∈ rest, b ≤ 0x7f) :
    sliceFrom (start ++ rest) start.length = some rest := by
  have hboundary : isCharBoundary (start ++ rest) start.length = true := by
    rw [isCharBoundary, List.getElem?_append_right le_rfl, Nat.sub_self]
    cases rest with
    | nil => simp
    | cons b rest =>
        have hb : b ≤ 0x7f := h b List.mem_cons_self
        have hnot : isContinuation b = false := by
          rw [isContinuation, Bool.and_eq_false_iff, decide_eq_false_iff_not, not_le]
          exact .inl (hb.trans_lt (by decide))
        simp [hnot]
  rw [sliceFrom, if_pos hboundary, List.drop_left]

/-- `str::strip_prefix`. -/
def stripStart (start text : List Byte) : Option (List Byte) :=
  if start.isPrefixOf text then some (text.drop start.length) else none

theorem stripStart_eq_some {start text rest : List Byte} :
    stripStart start text = some rest ↔ text = start ++ rest := by
  unfold stripStart
  constructor
  · intro h
    split_ifs at h with hstart
    obtain ⟨tail, rfl⟩ := List.isPrefixOf_iff_prefix.1 hstart
    rw [List.drop_left] at h
    rw [Option.some.inj h]
  · intro h
    rw [h, if_pos (List.isPrefixOf_iff_prefix.2 (List.prefix_append _ _)), List.drop_left]

/-- The bytes of an ASCII literal. -/
def asciiBytes (s : String) : List Byte :=
  s.toList.map fun c => if c.toNat ≤ 0x7f then Fin.ofNat 256 c.toNat else 0x3f

theorem isUtf8_asciiBytes (s : String) : isUtf8 (asciiBytes s) = true := by
  refine isUtf8_of_ascii fun b hb => ?_
  obtain ⟨c, -, rfl⟩ := List.mem_map.1 hb
  split_ifs with hc
  · rw [Fin.le_def, Fin.val_ofNat, Nat.mod_eq_of_lt (by omega)]
    exact hc
  · decide

/-- The text of an ASCII literal. -/
def asciiText (s : String) : Text := ⟨asciiBytes s, isUtf8_asciiBytes s⟩
