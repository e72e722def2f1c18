/-
**Numbers as text: `printint` of `printf.c` and of `console.c`, and `atoi` of `ulib.c`.**

Both `printint`s store the digits of a number in a buffer of 16 bytes, the last digit first, and
write the buffer backwards. `printint_numerals`: what they write is the decimal numeral of the
signed value, or the hexadecimal numeral of the unsigned one, and the stores stay inside the buffer.
`atoi` reads a decimal numeral back.
-/

import Mathlib.Algebra.Group.Nat.Defs
import Mathlib.Data.List.Basic
import Mathlib.Tactic.Common
import Xv6.Str

namespace Xv6.Print

/-! ### The two `printint`s -/

/-- `sizeof buf`. -/
def BUFSIZE : Nat := 16

/-- `buf[i++] = c`, where `buf` is what was stored before; `none` is a store past the end. -/
def store (buf : List UInt8) (c : UInt8) : Option (List UInt8) :=
  if buf.length < BUFSIZE then some (buf ++ [c]) else none

/-- `do{ buf[i++] = digits[x % base]; }while((x /= base) != 0)`. There are at most `BUFSIZE + 1`
turns: the last of them would store past the end. -/
def digitLoop (digits : List UInt8) (base : BitVec 32) :
    Nat → List UInt8 → BitVec 32 → Option (List UInt8)
  | 0, _, _ => none
  | turns + 1, buf, x =>
    -- a division by zero, or a read past the end of `digits`
    if base = 0 then none
    else do
      let c ← digits[(x % base).toNat]?
      let buf ← store buf c
      if x / base ≠ 0 then digitLoop digits base turns buf (x / base) else some buf

/-- What `printint` does once it has `x` and knows whether there is a sign: the characters it
writes. -/
def emit (digits : List UInt8) (base x : BitVec 32) (neg : Bool) : Option (List UInt8) := do
  let buf ← digitLoop digits base (BUFSIZE + 1) [] x
  let buf ← if neg then store buf '-'.toUInt8 else some buf
  return buf.reverse

/-- `digits` of `printf.c`. -/
def User.digits : List UInt8 := bytes "0123456789ABCDEF".toList

/-- `printint` of `printf.c`. -/
def User.printint (xx base sgn : BitVec 32) : Option (List UInt8) :=
  if sgn ≠ 0 ∧ xx.toInt < 0 then emit User.digits base (-xx) true
  else emit User.digits base xx false

/-- `digits` of `console.c`. -/
def digits : List UInt8 := bytes "0123456789abcdef".toList

/-- `printint` of `console.c`; `sign` is reused for the sign of `xx`. -/
def printint (xx base sign : BitVec 32) : Option (List UInt8) :=
  let sign := decide (sign ≠ 0) && decide (xx.toInt < 0)
  if sign = true then emit digits base (-xx) sign else emit digits base xx sign

theorem printint_eq (xx base sign : BitVec 32) : printint xx base sign =
    if sign ≠ 0 ∧ xx.toInt < 0 then emit digits base (-xx) true else emit digits base xx false := by
  unfold printint
  by_cases signed : sign ≠ 0 ∧ xx.toInt < 0
  · rw [if_pos signed, decide_eq_true signed.1, decide_eq_true signed.2]
    rfl
  · have unsigned : (decide (sign ≠ 0) && decide (xx.toInt < 0)) = false := by
      rw [← Bool.decide_and, decide_eq_false signed]
    rw [if_neg signed, unsigned]
    rfl

/-- The loop of `atoi`; behind the end of the list is a zero. -/
def atoiLoop : BitVec 32 → List UInt8 → BitVec 32
  | n, [] => n
  | n, c :: s =>
    if '0'.toUInt8 ≤ c ∧ c ≤ '9'.toUInt8 then
      atoiLoop (n * 10#32 + c.toBitVec.setWidth 32 - '0'.toUInt8.toBitVec.setWidth 32) s
    else n

/-- `atoi`. -/
def atoi (s : List UInt8) : BitVec 32 := atoiLoop 0 s

/-! ### The digits -/

variable {table buf : List UInt8} {letter : Char → Char} {b room turns : Nat} {x xx : BitVec 32}

/-- The entries of a table are the digits below `b`, in the letters that `letter` makes of them. -/
def Table (table : List UInt8) (letter : Char → Char) (b : Nat) : Prop :=
  ∀ d < b, table[d]? = some (letter (Nat.digitChar d)).toUInt8

theorem digitLoop_turn (shown : Table table letter b) (two : 1 < b) (word : b < 2 ^ 32)
    (inside : buf.length < BUFSIZE) :
    digitLoop table (BitVec.ofNat 32 b) (turns + 1) buf x =
      if b ≤ x.toNat then
        digitLoop table (BitVec.ofNat 32 b) turns
          (buf ++ [(letter (Nat.digitChar (x.toNat % b))).toUInt8])
          (x / BitVec.ofNat 32 b)
      else some (buf ++ [(letter (Nat.digitChar (x.toNat % b))).toUInt8]) := by
  have base : (BitVec.ofNat 32 b).toNat = b := Nat.mod_eq_of_lt word
  have nonzero : BitVec.ofNat 32 b ≠ 0 := by
    intro zero
    have none : b = 0 := base.symm.trans (congrArg BitVec.toNat zero)
    omega
  have more : x / BitVec.ofNat 32 b ≠ 0 ↔ b ≤ x.toNat := by
    rw [ne_eq, ← BitVec.toNat_inj, BitVec.toNat_udiv, base]
    show ¬ x.toNat / b = 0 ↔ _
    rw [Nat.div_eq_zero_iff]
    omega
  have room : ∀ c, store buf c = some (buf ++ [c]) := fun c => if_pos inside
  rw [digitLoop, if_neg nonzero, BitVec.toNat_umod, base, shown _ (Nat.mod_lt _ (by omega))]
  show (store buf _).bind _ = _
  rw [room]
  exact if_congr more rfl rfl

theorem digitLoop_eq (shown : Table table letter b) (two : 1 < b) (word : b < 2 ^ 32)
    (small : x.toNat < b ^ (room + 1)) (inside : buf.length + room < BUFSIZE)
    (enough : room < turns) :
    digitLoop table (BitVec.ofNat 32 b) turns buf x =
      some (buf ++ (bytes ((Nat.toDigits b x.toNat).map letter)).reverse) := by
  obtain ⟨turns, rfl⟩ := Nat.exists_eq_add_one_of_ne_zero (Nat.ne_zero_of_lt enough)
  induction room generalizing turns buf x with
  | zero =>
    rw [Nat.zero_add, Nat.pow_one] at small
    rw [digitLoop_turn shown two word (by omega), if_neg (by omega), Nat.toDigits_of_lt_base small,
      Nat.mod_eq_of_lt small]
    rfl
  | succ room ih =>
    rw [digitLoop_turn shown two word (by omega)]
    by_cases more : b ≤ x.toNat
    · have quotient : (x / BitVec.ofNat 32 b).toNat = x.toNat / b := by
        rw [BitVec.toNat_udiv, BitVec.toNat_ofNat, Nat.mod_eq_of_lt word]
      obtain ⟨turns, rfl⟩ := Nat.exists_eq_add_one_of_ne_zero (n := turns) (by omega)
      rw [if_pos more, ih _ _ turns (by omega), quotient, Nat.toDigits_of_base_le two more]
      · simp [bytes]
      · rw [quotient]
        exact Nat.div_lt_of_lt_mul (by rw [← Nat.pow_succ']; exact small)
      · rw [List.length_append, List.length_singleton]
        omega
    · rw [if_neg more, Nat.toDigits_of_lt_base (by omega), Nat.mod_eq_of_lt (by omega)]
      rfl

theorem emit_eq (shown : Table table letter b) (two : 1 < b) (word : b < 2 ^ 32)
    (small : x.toNat < b ^ 15) (neg : Bool) :
    emit table (BitVec.ofNat 32 b) x neg =
      some ((if neg then ['-'.toUInt8] else []) ++
      bytes ((Nat.toDigits b x.toNat).map letter)) := by
  have stored : digitLoop table (BitVec.ofNat 32 b) (BUFSIZE + 1) [] x =
      some (bytes ((Nat.toDigits b x.toNat).map letter)).reverse :=
    digitLoop_eq shown two word small (by decide) (by decide)
  have short : (Nat.toDigits b x.toNat).length < BUFSIZE :=
    Nat.lt_succ_of_le ((Nat.length_toDigits_le_iff two (by decide)).mpr small)
  unfold emit
  rw [stored]
  cases neg with
  | false => simp
  | true => simp [store, bytes, short]

theorem table_lower : Table digits id 16 := by
  unfold Table
  decide

theorem table_upper : Table User.digits Char.toUpper 16 := by
  unfold Table
  decide

theorem Table.ten (shown : Table table letter 16)
    (plain : ∀ d < 10, letter (Nat.digitChar d) = Nat.digitChar d) :
    Table table id 10 := fun d small => by
  rw [shown d (by omega), plain d small]
  rfl

theorem toString_toInt (xx : BitVec 32) : (toString xx.toInt).toList =
    if xx.toInt < 0 then '-' :: Nat.toDigits 10 (-xx).toNat else Nat.toDigits 10 xx.toNat := by
  have bound := xx.isLt
  by_cases neg : xx.toInt < 0
  · obtain ⟨m, value⟩ := Int.eq_negSucc_of_lt_zero neg
    have size : (-xx).toNat = m + 1 := by
      rw [BitVec.toInt_eq_toNat_cond] at value
      rw [BitVec.toNat_neg]
      split at value <;> omega
    rw [if_pos neg, value, size]
    show ("-" ++ toString (m + 1)).toList = _
    rw [String.toList_append, Nat.toString_eq_ofList_toDigits]
    exact congrArg ('-' :: ·) String.toList_ofList
  · have value : xx.toInt = (xx.toNat : Int) := by
      rw [BitVec.toInt_eq_toNat_cond] at neg ⊢
      split <;> omega
    rw [if_neg neg, value]
    show (toString xx.toNat).toList = _
    rw [Nat.toString_eq_ofList_toDigits, String.toList_ofList]

theorem emit_decimal (shown : Table table id 10) (xx : BitVec 32) :
    (if xx.toInt < 0 then emit table 10 (-xx) true else emit table 10 xx false) =
      some (bytes (toString xx.toInt).toList) := by
  have small : ∀ x : BitVec 32, x.toNat < 10 ^ 15 := fun x => Nat.lt_trans x.isLt (by decide)
  rw [toString_toInt]
  split
  · exact (emit_eq shown (by decide) (by decide) (small _) true).trans (by simp [bytes])
  · exact (emit_eq shown (by decide) (by decide) (small _) false).trans (by simp [bytes])

/-! ### Reading a numeral back -/

theorem digit_facts : ∀ d < 10, '0'.toUInt8 ≤ (Nat.digitChar d).toUInt8 ∧
    (Nat.digitChar d).toUInt8 ≤ '9'.toUInt8 ∧
    (Nat.digitChar d).toUInt8.toBitVec.setWidth 32 = BitVec.ofNat 32 d +
    '0'.toUInt8.toBitVec.setWidth 32 := by
  decide

theorem atoiLoop_digit {d : Nat} (small : d < 10) (n : Nat) (rest : List UInt8) :
    atoiLoop (BitVec.ofNat 32 n) ((Nat.digitChar d).toUInt8 :: rest) =
      atoiLoop (BitVec.ofNat 32 (10 * n + d)) rest := by
  obtain ⟨low, high, value⟩ := digit_facts d small
  rw [atoiLoop, if_pos ⟨low, high⟩, value, ← BitVec.add_assoc, BitVec.add_sub_cancel,
    BitVec.ofNat_add, BitVec.ofNat_mul, BitVec.mul_comm]

theorem atoiLoop_toDigits (n : Nat) (rest : List UInt8) :
    atoiLoop 0 (bytes (Nat.toDigits 10 n) ++ rest) = atoiLoop (BitVec.ofNat 32 n) rest := by
  induction n using Nat.strongRecOn generalizing rest with
  | ind n ih =>
    by_cases single : n < 10
    · rw [Nat.toDigits_of_lt_base single]
      exact (atoiLoop_digit single 0 rest).trans (by rw [Nat.mul_zero, Nat.zero_add])
    · rw [Nat.toDigits_of_base_le (by decide) (Nat.le_of_not_lt single)]
      unfold bytes
      rw [List.map_append, List.append_assoc]
      refine (ih (n / 10) (by omega) _).trans
        ((atoiLoop_digit (Nat.mod_lt _ (by decide)) _ rest).trans ?_)
      rw [Nat.div_add_mod]

/-- **Printing and parsing.** Both `printint`s write the decimal numeral of a signed value and the
hexadecimal numeral of an unsigned one, in small letters and in capitals, within their buffers;
`atoi` returns the value of the decimal numeral of a value that is not negative. -/
theorem printint_numerals (xx sign : BitVec 32) (signed : sign ≠ 0) :
    printint xx 10 sign = some (bytes (toString xx.toInt).toList) ∧
      User.printint xx 10 sign = some (bytes (toString xx.toInt).toList) ∧
      printint xx 16 0 = some (bytes (Nat.toDigits 16 xx.toNat)) ∧
      User.printint xx 16 0 = some (bytes ((Nat.toDigits 16 xx.toNat).map Char.toUpper)) ∧
      (0 ≤ xx.toInt → ∀ rest, atoi (bytes (toString xx.toInt).toList ++ 0 :: rest) = xx) := by
  have fits : xx.toNat < 16 ^ 15 := Nat.lt_trans xx.isLt (by decide)
  refine ⟨?_, ?_, ?_, ?_, ?_⟩
  · refine Eq.trans ?_ (emit_decimal (table_lower.ten fun _ _ => rfl) xx)
    rw [printint_eq]
    exact if_congr (and_iff_right signed) rfl rfl
  · refine Eq.trans ?_ (emit_decimal (table_upper.ten (by decide)) xx)
    exact if_congr (and_iff_right signed) rfl rfl
  · have written := emit_eq table_lower (by decide) (by decide) fits false
    rw [List.map_id] at written
    rw [printint_eq]
    exact (if_neg fun both => both.1 rfl).trans written
  · exact (if_neg fun both => both.1 rfl).trans (emit_eq table_upper (by decide)
      (by decide) fits false)
  · intro nonneg rest
    rw [toString_toInt, if_neg (Int.not_lt.mpr nonneg)]
    refine (atoiLoop_toDigits _ _).trans ?_
    rw [BitVec.ofNat_toNat, BitVec.setWidth_eq]
    rfl

theorem printint_numerals_least :
    printint (BitVec.intMin 32) 10 1 = some (bytes "-2147483648".toList) :=
  (printint_numerals (BitVec.intMin 32) 1 (by decide)).1.trans (by decide)

end Xv6.Print
