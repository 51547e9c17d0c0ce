import SuwappuDb.Lib.Decode

/-!
# Readers over a buffer

A reader that is given a whole buffer moves an index over it, and takes slices. It fails with an
error. A slice out of bounds is a panic, and memory that it asks for and does not get is the end of
the process: both are `none`.

Such a reader *implements* a decoder if it never panics and has the decoder's outcome on what is
behind its index (`BufReader.Implements`). Code written with indices is proved correct by way of the
decoder it implements. The relation goes through `bind` and `readMany`, and a record of fixed width,
whose length is checked before its fields are sliced, implements an exact decoder of its fields
(`implements_record`).
-/

/-- A reader of `α` that fails with an `ε`, as a function of its index. -/
def BufReader (ε α : Type) := Nat → Option (Except ε (α × Nat))

namespace BufReader

variable {ε α β : Type}

instance : Monad (BufReader ε) where
  pure a := fun cur => some (.ok (a, cur))
  bind p f := fun cur =>
    match p cur with
    | none => none
    | some (.error e) => some (.error e)
    | some (.ok (a, cur')) => f a cur'

/-- The index. -/
def index : BufReader ε Nat := fun cur => some (.ok (cur, cur))

/-- Set the index. -/
def seek (cur : Nat) : BufReader ε Unit := fun _ => some (.ok ((), cur))

/-- `&buf[start..stop]`. -/
def slice (buf : List Byte) (start stop : Nat) : BufReader ε (List Byte) := fun cur =>
  if start ≤ stop ∧ stop ≤ buf.length then some (.ok ((buf.drop start).take (stop - start), cur))
  else none

/-- An array of `n` bytes filled from a slice, which must have that length. -/
def toArr (n : Nat) (bytes : List Byte) : BufReader ε (ByteArr n) := fun cur =>
  if h : bytes.length = n then some (.ok (⟨bytes, h⟩, cur)) else none

/-- Go on only under a condition. -/
def require (condition : Prop) [Decidable condition] (e : ε) : BufReader ε Unit := fun cur =>
  if condition then some (.ok ((), cur)) else some (.error e)

/-- Go on only with the memory that is asked for. -/
def reserve (granted : Bool) : BufReader ε Unit := fun cur =>
  if granted then some (.ok ((), cur)) else none

/-- Run from the start of the buffer. -/
def parse (p : BufReader ε α) : Option (Except ε α) := (p 0).map (Except.map Prod.fst)

/-! ## Symbolic execution -/

section Run

variable {p : BufReader ε α} {f : α → BufReader ε β} {cur cur' : Nat} {buf bytes : List Byte}

theorem bind_of_ok {a : α} (h : p cur = some (.ok (a, cur'))) : (p >>= f) cur = f a cur' := by
  change (match p cur with
    | none => none
    | some (Except.error e) => some (Except.error e)
    | some (Except.ok (a, cur')) => f a cur') = _
  rw [h]

theorem bind_of_error {e : ε} (h : p cur = some (.error e)) :
    (p >>= f) cur = some (.error e) := by
  change (match p cur with
    | none => none
    | some (Except.error e) => some (Except.error e)
    | some (Except.ok (a, cur')) => f a cur') = _
  rw [h]

theorem bind_of_none (h : p cur = none) : (p >>= f) cur = none := by
  change (match p cur with
    | none => none
    | some (Except.error e) => some (Except.error e)
    | some (Except.ok (a, cur')) => f a cur') = _
  rw [h]

theorem bind_reserve_true {granted : Bool} {f : Unit → BufReader ε β} (h : granted = true) :
    (reserve granted >>= f) cur = f () cur :=
  bind_of_ok (if_pos h)

theorem bind_reserve_false {granted : Bool} {f : Unit → BufReader ε β} (h : granted ≠ true) :
    (reserve granted >>= f) cur = none :=
  bind_of_none (if_neg h)

/-- Records of `w` bytes each are read until there is not enough left for one. -/
theorem readMany_record {w : Nat}
    (hlong : ∀ cur, cur + w ≤ buf.length → ∃ a, p cur = some (.ok (a, cur + w)))
    (hshort : ∀ cur, buf.length < cur + w → ∃ e, p cur = some (.error e)) (n : Nat) {cur : Nat}
    (hcur : cur ≤ buf.length) :
    (cur + w * n ≤ buf.length ∧ ∃ as, readMany p n cur = some (.ok (as, cur + w * n))) ∨
      buf.length < cur + w * n ∧ ∃ e, readMany p n cur = some (.error e) := by
  induction n generalizing cur with
  | zero => exact Or.inl ⟨hcur, [], rfl⟩
  | succ n ih =>
      have hindex : cur + w * (n + 1) = cur + w + w * n := by
        rw [Nat.mul_succ, Nat.add_assoc, Nat.add_comm w]
      rw [hindex, readMany]
      rcases Nat.lt_or_ge buf.length (cur + w) with hend | hnext
      · obtain ⟨e, he⟩ := hshort cur hend
        exact Or.inr ⟨hend.trans_le (Nat.le_add_right _ _), e, bind_of_error he⟩
      · obtain ⟨a, ha⟩ := hlong cur hnext
        rw [bind_of_ok ha]
        rcases ih hnext with ⟨hle, as, has⟩ | ⟨hlt, e, he⟩
        · exact Or.inl ⟨hle, a :: as, bind_of_ok has⟩
        · exact Or.inr ⟨hlt, e, bind_of_error he⟩

theorem length_slice {start n : Nat} (h : start + n ≤ buf.length) :
    ((buf.drop start).take n).length = n := by
  rw [List.length_take, List.length_drop]
  omega

theorem bind_index (f : Nat → BufReader ε β) (cur : Nat) : (index >>= f) cur = f cur cur := rfl

theorem bind_seek (f : Unit → BufReader ε β) (cur next : Nat) :
    (seek next >>= f) cur = f () next := rfl

theorem bind_require_pos {condition : Prop} [Decidable condition] {e : ε}
    {f : Unit → BufReader ε β} (h : condition) : (require condition e >>= f) cur = f () cur :=
  bind_of_ok (if_pos h)

theorem bind_require_neg {condition : Prop} [Decidable condition] {e : ε}
    {f : Unit → BufReader ε β} (h : ¬ condition) :
    (require condition e >>= f) cur = some (.error e) :=
  bind_of_error (if_neg h)

theorem bind_slice {start n : Nat} {f : List Byte → BufReader ε β} (h : start + n ≤ buf.length) :
    (slice buf start (start + n) >>= f) cur = f ((buf.drop start).take n) cur := by
  refine bind_of_ok ((if_pos ⟨Nat.le_add_right _ _, h⟩).trans ?_)
  rw [Nat.add_sub_cancel_left]

theorem bind_toArr {n : Nat} {f : ByteArr n → BufReader ε β} (h : bytes.length = n) :
    (toArr n bytes >>= f) cur = f ⟨bytes, h⟩ cur :=
  bind_of_ok (dif_pos h)

end Run

/-! ## Decoders with one error -/

/-- The decoder has no error but `e`. -/
def FailsWith (e : ε) (q : Decoder ε α) : Prop :=
  ∀ input, (∃ a rest, q.run input = .ok (a, rest)) ∨ q.run input = .error e

theorem failsWith_bytes (e : ε) (n : Nat) : FailsWith e (Decoder.bytes e n) := by
  intro input
  by_cases h : input.length < n
  · exact Or.inr (if_pos h)
  · exact Or.inl ⟨_, _, if_neg h⟩

theorem failsWith_arr (e : ε) (n : Nat) : FailsWith e (Decoder.arr e n) := by
  intro input
  by_cases h : input.length < n
  · exact Or.inr (dif_pos h)
  · exact Or.inl ⟨_, _, dif_neg h⟩

theorem failsWith_pure (e : ε) (a : α) : FailsWith e (pure a) :=
  fun input => Or.inl ⟨a, input, rfl⟩

theorem FailsWith.bind {e : ε} {q : Decoder ε α} {f : α → Decoder ε β} (hq : FailsWith e q)
    (hf : ∀ a, FailsWith e (f a)) : FailsWith e (q >>= f) := by
  intro input
  rw [StateT.run_bind]
  rcases hq input with ⟨a, rest, hok⟩ | herror
  · rw [hok]
    exact hf a rest
  · rw [herror]
    exact Or.inr rfl

theorem FailsWith.map {e : ε} {q : Decoder ε α} (hq : FailsWith e q) (f : α → β) :
    FailsWith e (f <$> q) := by
  rw [map_eq_pure_bind]
  exact hq.bind fun a => failsWith_pure e (f a)

/-! ## Implementing a decoder -/

/-- The reader does not panic, and does on a buffer what the decoder does on the rest of it. -/
def Implements (buf : List Byte) (p : BufReader ε α) (q : Decoder ε α) : Prop :=
  ∀ cur ≤ buf.length,
    (∃ e, p cur = some (.error e) ∧ q.run (buf.drop cur) = .error e) ∨
    ∃ a cur', p cur = some (.ok (a, cur')) ∧ cur' ≤ buf.length ∧
      q.run (buf.drop cur) = .ok (a, buf.drop cur')

variable {buf : List Byte} {p : BufReader ε α} {q : Decoder ε α}

theorem implements_pure (buf : List Byte) (a : α) :
    Implements buf (pure a : BufReader ε α) (pure a) :=
  fun cur hcur => Or.inr ⟨a, cur, rfl, hcur, rfl⟩

theorem Implements.bind {f : α → BufReader ε β} {g : α → Decoder ε β} (h : Implements buf p q)
    (hf : ∀ a, Implements buf (f a) (g a)) : Implements buf (p >>= f) (q >>= g) := by
  intro cur hcur
  rw [StateT.run_bind]
  rcases h cur hcur with ⟨e, hp, hq⟩ | ⟨a, cur', hp, hcur', hq⟩
  · rw [bind_of_error hp, hq]
    exact Or.inl ⟨e, rfl, rfl⟩
  · rw [bind_of_ok hp, hq]
    exact hf a cur' hcur'

theorem Implements.readMany (h : Implements buf p q) (n : Nat) :
    Implements buf (readMany p n) (readMany q n) := by
  induction n with
  | zero => exact implements_pure buf []
  | succ n ih => exact h.bind fun a => ih.bind fun as => implements_pure buf (a :: as)

/-- A record of `n` bytes: the reader checks that they are there, and then slices its fields. -/
theorem implements_record (n : Nat) {e : ε} {fits : α → Prop} {encode : α → List Byte}
    (hq : q.Exact fits encode) (hlen : ∀ a, fits a → (encode a).length = n) (hfails : FailsWith e q)
    (hshort : ∀ cur, buf.length < cur + n → p cur = some (.error e))
    (hlong : ∀ cur, cur + n ≤ buf.length → ∃ a, fits a ∧ encode a = (buf.drop cur).take n ∧
      p cur = some (.ok (a, cur + n))) : Implements buf p q := by
  intro cur hcur
  by_cases hn : cur + n ≤ buf.length
  · obtain ⟨a, ha, henc, hp⟩ := hlong cur hn
    refine Or.inr ⟨a, cur + n, hp, hn, (hq _ a _).2 ⟨ha, ?_⟩⟩
    rw [henc, ← List.drop_drop, List.take_append_drop]
  · refine Or.inl ⟨e, hshort cur (not_le.1 hn), ?_⟩
    rcases hfails (buf.drop cur) with ⟨a, rest, hok⟩ | herror
    · obtain ⟨ha, henc⟩ := (hq _ a rest).1 hok
      have hlength := congrArg List.length henc
      rw [List.length_append, hlen a ha, List.length_drop] at hlength
      omega
    · exact herror

/-- The reader at the end: an error unless the whole buffer is read. -/
def finish (buf : List Byte) (e : Nat → ε) : BufReader ε Unit := fun cur =>
  if cur = buf.length then some (.ok ((), cur)) else some (.error (e (buf.length - cur)))

theorem implements_finish (buf : List Byte) (e : Nat → ε) :
    Implements buf (finish buf e) (Decoder.eof e) := by
  intro cur hcur
  by_cases hend : cur = buf.length
  · have hnil : buf.drop cur = [] := List.drop_eq_nil_of_le hend.ge
    have heof : (Decoder.eof e).run (buf.drop cur) = .ok ((), []) := if_pos hnil
    exact Or.inr ⟨(), cur, if_pos hend, hcur, by rw [heof, hnil]⟩
  · have hne : buf.drop cur ≠ [] := fun hnil => hend (hcur.antisymm (List.drop_eq_nil_iff.1 hnil))
    have heof : (Decoder.eof e).run (buf.drop cur) = .error (e (buf.drop cur).length) := if_neg hne
    rw [List.length_drop] at heof
    exact Or.inl ⟨_, if_neg hend, heof⟩

/-- Outcomes of the reader are those of the decoder on the whole buffer. -/
theorem Implements.parse_eq (h : Implements buf p q) : p.parse = some (q.run' buf) := by
  have hstart := h 0 (Nat.zero_le _)
  rw [List.drop_zero] at hstart
  change Option.map _ (p 0) = some (Prod.fst <$> q.run buf)
  rcases hstart with ⟨e, hp, hq⟩ | ⟨a, cur, hp, -, hq⟩
  · rw [hp, hq]
    rfl
  · rw [hp, hq]
    rfl

end BufReader
