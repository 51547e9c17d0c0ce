import SuwappuDb.Lib.Bytes
import SuwappuDb.Lib.Prog

/-!
# Decoders

A decoder takes bytes from the front of its input, or fails. It is *exact* for an encoding if the
inputs it accepts are the encodings of the values that fit, followed by what it leaves
(`Decoder.Exact`). Both halves of a codec's correctness are in that one equivalence: what was
encoded is read back, and there is no second spelling of a value.

The primitives are exact (`exact_bytes`, `exact_arr`, `exact_beNat`, `exact_leNat`), and exactness
goes through `map` and `readMany`. A decoder written as a `do` block is taken apart bind by bind
with `Exact.run_bind`, `run_bind_check` and `run_bind_eof`, down to `run_pure`.
-/

/-- A decoder of `α` that fails with an `ε`. -/
abbrev Decoder (ε α : Type) := StateT (List Byte) (Except ε) α

theorem length_take_of_not_lt {α : Type*} {l : List α} {n : Nat} (h : ¬ l.length < n) :
    (l.take n).length = n :=
  List.length_take_of_le (not_lt.1 h)

/-- `n` values, read one after another. -/
def readMany {m : Type → Type} [Monad m] {α : Type} (p : m α) : Nat → m (List α)
  | 0 => pure []
  | n + 1 => do
      let a ← p
      let rest ← readMany p n
      return a :: rest

namespace Decoder

variable {ε α β : Type}

/-! ## Primitives -/

/-- The next `n` bytes. -/
def bytes (e : ε) (n : Nat) : Decoder ε (List Byte) := fun input =>
  if input.length < n then .error e else .ok (input.take n, input.drop n)

/-- The next `n` bytes, as an array. -/
def arr (e : ε) (n : Nat) : Decoder ε (ByteArr n) := fun input =>
  if h : input.length < n then .error e
  else .ok (⟨input.take n, length_take_of_not_lt h⟩, input.drop n)

/-- The next `w` bytes as a number, most significant first. -/
def beNat (e : ε) (w : Nat) : Decoder ε Nat := beValue <$> bytes e w

/-- The next `w` bytes as a number, least significant first. -/
def leNat (e : ε) (w : Nat) : Decoder ε Nat := leValue <$> bytes e w

/-- Go on only under a condition. -/
def check (e : ε) (condition : Prop) [Decidable condition] : Decoder ε Unit :=
  if condition then pure () else throw e

/-- Go on only at the end of the input; the error may tell how much is left. -/
def eof (e : Nat → ε) : Decoder ε Unit := fun input =>
  if input = [] then .ok ((), []) else .error (e input.length)

/-! ## Exactness -/

/-- The decoder accepts the encodings of the values that fit, and nothing else. -/
def Exact (p : Decoder ε α) (fits : α → Prop) (encode : α → List Byte) : Prop :=
  ∀ input a rest, p.run input = .ok (a, rest) ↔ fits a ∧ encode a ++ rest = input

section Rules

variable {e : ε} {p : Decoder ε α} {fits : α → Prop} {encode : α → List Byte}
  {input rest : List Byte}

theorem run_pure {a b : α} :
    (pure a : Decoder ε α).run input = .ok (b, rest) ↔ a = b ∧ input = rest := by
  change Except.ok (a, input) = .ok (b, rest) ↔ _
  rw [Except.ok.injEq, Prod.mk.injEq]

theorem run_throw {b : α} : ¬ (throw e : Decoder ε α).run input = .ok (b, rest) := nofun

theorem run_bind_check {condition : Prop} [Decidable condition] {f : Unit → Decoder ε β} {b : β} :
    (check e condition >>= f).run input = .ok (b, rest) ↔
      condition ∧ (f ()).run input = .ok (b, rest) := by
  unfold check
  split_ifs with h
  · rw [pure_bind, and_iff_right h]
  · exact iff_of_false run_throw fun hc => h hc.1

theorem run_bind_eof {e : Nat → ε} {f : Unit → Decoder ε β} {b : β} :
    (eof e >>= f).run input = .ok (b, rest) ↔
      input = [] ∧ (f ()).run [] = .ok (b, rest) := by
  rw [StateT.run_bind]
  change ((if input = [] then Except.ok ((), []) else .error (e input.length)) >>= _) = _ ↔ _
  split_ifs with h
  · exact (and_iff_right h).symm
  · exact iff_of_false nofun fun heq => h heq.1

theorem run_bind {f : α → Decoder ε β} {b : β} : (p >>= f).run input = .ok (b, rest) ↔
    ∃ a mid, p.run input = .ok (a, mid) ∧ (f a).run mid = .ok (b, rest) := by
  rw [StateT.run_bind, bind_eq_ok_iff, Prod.exists]

theorem Exact.run_bind (h : Exact p fits encode) {f : α → Decoder ε β} {b : β} :
    (p >>= f).run input = .ok (b, rest) ↔
      ∃ a mid, (fits a ∧ encode a ++ mid = input) ∧ (f a).run mid = .ok (b, rest) := by
  rw [Decoder.run_bind]
  simp only [h input]

theorem run'_eq_ok {a : α} : p.run' input = .ok a ↔ ∃ rest, p.run input = .ok (a, rest) := by
  change Prod.fst <$> p.run input = .ok a ↔ _
  cases p.run input with
  | error e => exact iff_of_false nofun nofun
  | ok result =>
      change Except.ok result.1 = .ok a ↔ _
      simp [Prod.ext_iff]

theorem exact_bytes (e : ε) (n : Nat) : Exact (bytes e n) (fun l => l.length = n) fun l => l := by
  intro input l rest
  change (if input.length < n then Except.error e else .ok (input.take n, input.drop n)) =
    .ok (l, rest) ↔ _
  split_ifs with h
  · refine iff_of_false nofun ?_
    rintro ⟨rfl, rfl⟩
    simp at h
  · rw [Except.ok.injEq, Prod.mk.injEq]
    constructor
    · rintro ⟨rfl, rfl⟩
      exact ⟨length_take_of_not_lt h, List.take_append_drop n input⟩
    · rintro ⟨rfl, rfl⟩
      exact ⟨List.take_left, List.drop_left⟩

theorem exact_arr (e : ε) (n : Nat) : Exact (arr e n) (fun _ => True) Subtype.val := by
  intro input l rest
  have hbytes := exact_bytes e n input l.val rest
  rw [and_iff_right l.property] at hbytes
  rw [true_and]
  refine Iff.trans ?_ hbytes
  change (if h : input.length < n then Except.error e else
      .ok (⟨input.take n, length_take_of_not_lt h⟩, input.drop n)) = .ok (l, rest) ↔
    (if input.length < n then Except.error e else .ok (input.take n, input.drop n)) =
      .ok (l.val, rest)
  split_ifs with h
  · exact iff_of_false nofun nofun
  · rw [Except.ok.injEq, Except.ok.injEq, Prod.mk.injEq, Prod.mk.injEq, Subtype.ext_iff]

/-- Exactness through a change of representation: `f` and `back` are inverse where it fits. -/
theorem Exact.map (h : Exact p fits encode) {f : α → β} {back : β → α} {fits' : β → Prop}
    (hto : ∀ a, fits a → fits' (f a) ∧ back (f a) = a)
    (hback : ∀ b, fits' b → fits (back b) ∧ f (back b) = b) :
    Exact (f <$> p) fits' (encode ∘ back) := by
  intro input b rest
  rw [map_eq_pure_bind, h.run_bind]
  simp only [run_pure]
  constructor
  · rintro ⟨a, mid, ⟨ha, rfl⟩, rfl, rfl⟩
    obtain ⟨hfits, hinv⟩ := hto a ha
    exact ⟨hfits, by rw [Function.comp_apply, hinv]⟩
  · rintro ⟨hb, rfl⟩
    obtain ⟨hfits, hinv⟩ := hback b hb
    exact ⟨back b, rest, ⟨hfits, rfl⟩, hinv, rfl⟩

theorem exact_beNat (e : ε) (w : Nat) : Exact (beNat e w) (fun n => n < 256 ^ w) (beBytes w) :=
  (exact_bytes e w).map
    (fun l hl => ⟨hl ▸ beValue_lt l, hl ▸ beBytes_beValue l⟩)
    (fun n hn => ⟨length_beBytes w n, beValue_beBytes hn⟩)

theorem exact_leNat (e : ε) (w : Nat) : Exact (leNat e w) (fun n => n < 256 ^ w) (leBytes w) :=
  (exact_bytes e w).map
    (fun l hl => ⟨hl ▸ leValue_lt l, hl ▸ leBytes_leValue l⟩)
    (fun n hn => ⟨length_leBytes w n, leValue_leBytes hn⟩)

/-- A number that fills its machine type. -/
theorem Exact.fin {p : Decoder ε Nat} {N : Nat} [NeZero N] {encode : Nat → List Byte}
    (h : Exact p (fun n => n < N) encode) :
    Exact (Fin.ofNat N <$> p) (fun _ => True) fun n => encode n.val :=
  h.map (fun _ hn => ⟨trivial, Nat.mod_eq_of_lt hn⟩)
    (fun n _ => ⟨n.isLt, Fin.ext (Nat.mod_eq_of_lt n.isLt)⟩)

theorem Exact.readMany (h : Exact p fits encode) (n : Nat) :
    Exact (readMany p n) (fun l => l.length = n ∧ ∀ a ∈ l, fits a) (List.flatMap encode) := by
  induction n with
  | zero =>
      intro input l rest
      rw [readMany.eq_def, run_pure]
      constructor
      · rintro ⟨rfl, rfl⟩
        simp
      · rintro ⟨⟨hlen, -⟩, rfl⟩
        obtain rfl := List.length_eq_zero_iff.1 hlen
        exact ⟨rfl, rfl⟩
  | succ n ih =>
      intro input l rest
      rw [readMany.eq_def, h.run_bind]
      simp only [ih.run_bind, run_pure]
      constructor
      · rintro ⟨a, mid, ⟨ha, rfl⟩, as, mid', ⟨⟨rfl, has⟩, rfl⟩, rfl, rfl⟩
        exact ⟨⟨rfl, List.forall_mem_cons.2 ⟨ha, has⟩⟩, by simp⟩
      · rintro ⟨⟨hlen, hall⟩, rfl⟩
        obtain ⟨a, as, rfl⟩ := List.exists_cons_of_length_eq_add_one hlen
        obtain ⟨ha, has⟩ := List.forall_mem_cons.1 hall
        exact ⟨a, as.flatMap encode ++ rest, ⟨ha, by simp⟩, as, rest,
          ⟨⟨Nat.succ.inj hlen, has⟩, rfl⟩, rfl, rfl⟩

end Rules

end Decoder
