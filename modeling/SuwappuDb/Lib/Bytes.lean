import Mathlib.Data.Vector.Basic
import Mathlib.Data.Fintype.Vector
import Mathlib.Data.List.Lex
import Mathlib.Order.Fin.Basic
import Mathlib.Tactic.Ring

/-!
# Bytes

Fixed-width numbers and concatenations of fixed-width records, with the facts a hash or a codec over
them needs: a number is determined by its bytes (`beBytes_inj`, `leValue_leBytes`) and bytes by
their number (`beBytes_beValue`, `leBytes_leValue`), and a list of records by their concatenation
(`flatMap_inj`). Buffers that are written piece by piece (`copyFromSlice`).
-/

/-- A byte. -/
abbrev Byte := Fin 256

instance Byte.neZero : NeZero 256 := ⟨by decide⟩

/-- An array of `n` bytes, ordered lexicographically. -/
abbrev ByteArr (n : Nat) := { l : List Byte // l.length = n }

/-- `[b; n]`. -/
def constBytes (n : Nat) (b : Byte) : ByteArr n := ⟨List.replicate n b, List.length_replicate⟩

/-- The `w` low bytes of `n`, most significant first. -/
def beBytes : Nat → Nat → List Byte
  | 0, _ => []
  | w + 1, n => beBytes w (n / 256) ++ [Fin.ofNat 256 n]

@[simp] theorem length_beBytes (w n : Nat) : (beBytes w n).length = w := by
  induction w generalizing n with
  | zero => rfl
  | succ w ih => simp [beBytes, ih]

/-- A number below `256 ^ w` is determined by its `w` bytes. -/
theorem beBytes_inj {w m n : Nat} (hm : m < 256 ^ w) (hn : n < 256 ^ w)
    (h : beBytes w m = beBytes w n) : m = n := by
  induction w generalizing m n with
  | zero => simp at hm hn; omega
  | succ w ih =>
      rw [pow_succ] at hm hn
      obtain ⟨hhigh, hlow⟩ := List.append_inj h (by simp)
      have hdiv : m / 256 = n / 256 :=
        ih (Nat.div_lt_of_lt_mul (by rwa [mul_comm])) (Nat.div_lt_of_lt_mul (by rwa [mul_comm]))
          hhigh
      have hmod : m % 256 = n % 256 := by
        have hval := congrArg Fin.val (List.cons.inj hlow).1
        simpa [Fin.ofNat] using hval
      omega

/-- Records of one positive width, concatenated, determine the records. -/
theorem flatMap_inj {α β : Type*} {f : α → List β} {w : Nat} (hw : 0 < w)
    (hlen : ∀ a, (f a).length = w) (hf : Function.Injective f) :
    Function.Injective fun l : List α => l.flatMap f := by
  intro l l' h
  induction l generalizing l' with
  | nil =>
      cases l' with
      | nil => rfl
      | cons a' l' =>
          have hnil := congrArg List.length h
          simp only [List.flatMap_nil, List.flatMap_cons, List.length_nil, List.length_append,
            hlen] at hnil
          omega
  | cons a l ih =>
      cases l' with
      | nil =>
          have hnil := congrArg List.length h
          simp only [List.flatMap_nil, List.flatMap_cons, List.length_nil, List.length_append,
            hlen] at hnil
          omega
      | cons a' l' =>
          simp only [List.flatMap_cons] at h
          obtain ⟨hhead, htail⟩ := List.append_inj h (by rw [hlen, hlen])
          rw [hf hhead, ih htail]

/-- The number with these bytes, least significant first. -/
def leValue : List Byte → Nat
  | [] => 0
  | b :: bs => b.val + 256 * leValue bs

/-- The `w` low bytes of `n`, least significant first. -/
def leBytes : Nat → Nat → List Byte
  | 0, _ => []
  | w + 1, n => Fin.ofNat 256 n :: leBytes w (n / 256)

@[simp] theorem length_leBytes (w n : Nat) : (leBytes w n).length = w := by
  induction w generalizing n with
  | zero => rfl
  | succ w ih => simp [leBytes, ih]

theorem leValue_leBytes {w n : Nat} (hn : n < 256 ^ w) : leValue (leBytes w n) = n := by
  induction w generalizing n with
  | zero =>
      obtain rfl : n = 0 := by simpa using hn
      rfl
  | succ w ih =>
      rw [pow_succ] at hn
      rw [leBytes, leValue, ih (Nat.div_lt_of_lt_mul (by rwa [mul_comm]))]
      exact Nat.mod_add_div n 256

theorem leBytes_leValue (bytes : List Byte) : leBytes bytes.length (leValue bytes) = bytes := by
  induction bytes with
  | nil => rfl
  | cons b bs ih =>
      have hlow : Fin.ofNat 256 (b.val + 256 * leValue bs) = b := by
        ext
        simp [Fin.ofNat, Nat.mod_eq_of_lt b.isLt]
      have hhigh : (b.val + 256 * leValue bs) / 256 = leValue bs := by omega
      rw [List.length_cons, leValue, leBytes, hlow, hhigh, ih]

theorem leValue_lt (bytes : List Byte) : leValue bytes < 256 ^ bytes.length := by
  induction bytes with
  | nil => exact Nat.one_pos
  | cons b bs ih =>
      rw [List.length_cons, leValue, pow_succ]
      omega

/-- The number with these bytes, most significant first. -/
def beValue (bytes : List Byte) : Nat := bytes.foldl (fun n b => 256 * n + b.val) 0

theorem beValue_concat (bytes : List Byte) (b : Byte) :
    beValue (bytes ++ [b]) = 256 * beValue bytes + b.val := by
  rw [beValue, List.foldl_append]
  rfl

theorem beValue_beBytes {w n : Nat} (hn : n < 256 ^ w) : beValue (beBytes w n) = n := by
  induction w generalizing n with
  | zero =>
      obtain rfl : n = 0 := by simpa using hn
      rfl
  | succ w ih =>
      rw [pow_succ] at hn
      rw [beBytes, beValue_concat, ih (Nat.div_lt_of_lt_mul (by rwa [mul_comm]))]
      exact Nat.div_add_mod n 256

theorem beBytes_beValue (bytes : List Byte) : beBytes bytes.length (beValue bytes) = bytes := by
  induction bytes using List.reverseRecOn with
  | nil => rfl
  | append_singleton bs b ih =>
      have hlow : Fin.ofNat 256 (256 * beValue bs + b.val) = b := by
        ext
        simp [Fin.ofNat, Nat.mod_eq_of_lt b.isLt]
      have hhigh : (256 * beValue bs + b.val) / 256 = beValue bs := by omega
      rw [List.length_append, List.length_singleton, beValue_concat, beBytes, hlow, hhigh, ih]

theorem beValue_lt (bytes : List Byte) : beValue bytes < 256 ^ bytes.length := by
  induction bytes using List.reverseRecOn with
  | nil => exact Nat.one_pos
  | append_singleton bs b ih =>
      rw [List.length_append, List.length_singleton, beValue_concat, pow_succ]
      omega

/-- Zeros on the left do not count. -/
theorem beValue_zeros_append (n : Nat) (bytes : List Byte) :
    beValue (List.replicate n 0 ++ bytes) = beValue bytes := by
  have hzeros : beValue (List.replicate n 0) = 0 := by
    induction n with
    | zero => rfl
    | succ n ih =>
        rw [List.replicate_succ', beValue_concat, ih]
        rfl
  rw [beValue, List.foldl_append]
  show bytes.foldl _ (beValue (List.replicate n 0)) = _
  rw [hzeros, beValue]

/-- Overwrite a buffer from `start` on. -/
def copyFromSlice (buf : List Byte) (start : Nat) (src : List Byte) : List Byte :=
  buf.take start ++ src ++ buf.drop (start + src.length)

/-- The next write to a buffer that is filled from left to right, with a gap of zeros before it. -/
theorem copyFromSlice_zeros {filled src : List Byte} {start n gap rest : Nat}
    (hstart : start = filled.length + gap) (hn : n = gap + (src.length + rest)) :
    copyFromSlice (filled ++ List.replicate n 0) start src =
      filled ++ List.replicate gap 0 ++ src ++ List.replicate rest 0 := by
  subst hstart hn
  rw [copyFromSlice, List.take_length_add_append, List.take_replicate, Nat.add_assoc,
    List.drop_length_add_append, List.drop_replicate]
  congr 2
  · rw [Nat.min_eq_left (Nat.le_add_right _ _)]
  · omega

/-- A number at the end of a buffer of zeros. -/
theorem beValue_copyFromSlice {n : Nat} {src : List Byte} (h : src.length ≤ n) :
    beValue (copyFromSlice (List.replicate n 0) (n - src.length) src) = beValue src := by
  have hzeros : copyFromSlice (List.replicate n 0) (n - src.length) src =
      List.replicate (n - src.length) 0 ++ src := by
    rw [copyFromSlice, List.take_replicate, Nat.min_eq_left (Nat.sub_le _ _), Nat.sub_add_cancel h,
      List.drop_replicate, Nat.sub_self, List.replicate_zero, List.append_nil]
  rw [hzeros, beValue_zeros_append]

@[simp] theorem beBytes_zero (w : Nat) : beBytes w 0 = List.replicate w 0 := by
  induction w with
  | zero => rfl
  | succ w ih => simp [beBytes, ih, List.replicate_succ', Fin.ofNat]

/-- A number below `256 ^ w` has zeros in front in a wider field. -/
theorem beBytes_of_lt {w n : Nat} (hn : n < 256 ^ w) (k : Nat) :
    beBytes (k + w) n = List.replicate k 0 ++ beBytes w n := by
  induction w generalizing n with
  | zero =>
      obtain rfl : n = 0 := by simpa using hn
      simp [beBytes]
  | succ w ih =>
      rw [pow_succ] at hn
      rw [← Nat.add_assoc, beBytes, ih (Nat.div_lt_of_lt_mul (by rwa [mul_comm])), beBytes,
        List.append_assoc]

/-- The bytes of an ASCII text. -/
def ascii (s : String) : List Byte := s.toList.map fun c => Fin.ofNat 256 c.toNat
