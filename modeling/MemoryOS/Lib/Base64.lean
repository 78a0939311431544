/-
Base64, as a text of characters in groups of four (RFC 4648, and the reader
`binascii.a2b_base64` is when it is not strict).

The reader skips what is no digit, and stops at padding that fills a group.
It reads every text the writer writes (`decode_encode`).
-/
import Mathlib.Data.List.Basic

namespace MemoryOS.Lib.Base64

/-- The digit of six bits. -/
def digit (n : Nat) : Char :=
  if n < 26 then Char.ofNat (65 + n)
  else if n < 52 then Char.ofNat (71 + n)
  else if n < 62 then Char.ofNat (n - 4)
  else if n = 62 then '+' else '/'

/-- The six bits of a digit. -/
def value (c : Char) : Option Nat :=
  if 'A' ≤ c ∧ c ≤ 'Z' then some (c.toNat - 65)
  else if 'a' ≤ c ∧ c ≤ 'z' then some (c.toNat - 71)
  else if '0' ≤ c ∧ c ≤ '9' then some (c.toNat + 4)
  else if c = '+' then some 62
  else if c = '/' then some 63 else none

/-- The writer: three bytes at a time, and padding. -/
def encode : List UInt8 → List Char
  | a :: b :: c :: rest =>
    digit (a.toNat / 4) :: digit (a.toNat % 4 * 16 + b.toNat / 16)
      :: digit (b.toNat % 16 * 4 + c.toNat / 64) :: digit (c.toNat % 64)
      :: encode rest
  | [a, b] =>
    [digit (a.toNat / 4), digit (a.toNat % 4 * 16 + b.toNat / 16),
      digit (b.toNat % 16 * 4), '=']
  | [a] => [digit (a.toNat / 4), digit (a.toNat % 4 * 16), '=', '=']
  | [] => []

/-- The reader, `place` digits into a group, with the bits left over of the
last and the padding since. `none` is an error. -/
def read (place left pads : Nat) : List Char → Option (List UInt8)
  | [] => if place = 0 then some [] else none
  | c :: rest =>
    if c = '=' then
      if place < 2 then read place left pads rest
      else if 4 ≤ place + (pads + 1) then some []
      else read place left (pads + 1) rest
    else
      match value c with
      | none => read place left pads rest
      | some v =>
        match place with
        | 0 => read 1 v 0 rest
        | 1 =>
          (read 2 (v % 16) 0 rest).map (.ofNat (left * 4 + v / 16) :: ·)
        | 2 => (read 3 (v % 4) 0 rest).map (.ofNat (left * 16 + v / 4) :: ·)
        | _ => (read 0 0 0 rest).map (.ofNat (left * 64 + v) :: ·)

/-- Read a text from its start. -/
def decode : List Char → Option (List UInt8) := read 0 0 0

theorem value_digit (n : Nat) (h : n < 64) :
    value (digit n) = some n ∧ digit n ≠ '=' := by
  have hall : ∀ n : Fin 64, value (digit n) = some n.val ∧ digit n ≠ '=' := by
    decide +kernel
  exact hall ⟨n, h⟩

theorem digit_ascii (n : Nat) : (digit n).toNat < 128 := by
  by_cases h : n < 62
  · have hall : ∀ n : Fin 62, (digit n).toNat < 128 := by decide +kernel
    exact hall ⟨n, h⟩
  · unfold digit
    rw [if_neg (by omega), if_neg (by omega), if_neg h]
    split <;> decide

theorem encode_ascii (bs : List UInt8) : ∀ c ∈ encode bs, c.toNat < 128 := by
  induction bs using encode.induct with
  | case1 a b c rest ih => simpa [encode, digit_ascii] using ih
  | case2 a b => simp [encode, digit_ascii]
  | case3 a => simp [encode, digit_ascii]
  | case4 => simp [encode]

theorem read_digit {n : Nat} (h : n < 64) (place left pads : Nat)
    (rest : List Char) : read place left pads (digit n :: rest)
      = match place with
        | 0 => read 1 n 0 rest
        | 1 =>
          (read 2 (n % 16) 0 rest).map (.ofNat (left * 4 + n / 16) :: ·)
        | 2 => (read 3 (n % 4) 0 rest).map (.ofNat (left * 16 + n / 4) :: ·)
        | _ => (read 0 0 0 rest).map (.ofNat (left * 64 + n) :: ·) := by
  obtain ⟨hvalue, hpad⟩ := value_digit n h
  rw [read, if_neg hpad, hvalue]

theorem decode_encode (bs : List UInt8) : decode (encode bs) = some bs := by
  unfold decode
  have hbyte : ∀ {b : UInt8} {n : Nat}, n = b.toNat → UInt8.ofNat n = b := by
    rintro b n rfl
    exact UInt8.ofNat_toNat
  induction bs using encode.induct with
  | case1 a b c rest ih =>
    have ha := a.toNat_lt
    have hb := b.toNat_lt
    have hc := c.toNat_lt
    simp (disch := omega) only [encode, read_digit, ih, Option.map_some]
    rw [hbyte (show _ = a.toNat by omega), hbyte (show _ = b.toNat by omega),
      hbyte (show _ = c.toNat by omega)]
  | case2 a b =>
    have ha := a.toNat_lt
    have hb := b.toNat_lt
    simp (disch := omega) only [encode, read_digit]
    rw [hbyte (show _ = a.toNat by omega), hbyte (show _ = b.toNat by omega)]
    rfl
  | case3 a =>
    have ha := a.toNat_lt
    simp (disch := omega) only [encode, read_digit]
    rw [hbyte (show _ = a.toNat by omega)]
    rfl
  | case4 => rfl

end MemoryOS.Lib.Base64
