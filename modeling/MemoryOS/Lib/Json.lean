/-
JSON texts: written in ASCII, and read back.

A value is written with `", "` and `": "` between its parts, and everything that
is not printable ASCII as `\uXXXX` (`dumps`). A text is read by two machines
that take one symbol at a time, so what they do with a text that is put together
from pieces is what they do with the pieces in turn: the first makes tokens of
characters (`lexStep`), the second values of tokens (`parseStep`).

A written value is read as its tokens wherever something follows that is no
digit (`lex_dumps`), and its tokens as the value (`parse_tokens`). Numbers are
natural numbers, and text is Unicode without surrogates.
-/
import Mathlib.Data.List.Basic

namespace MemoryOS.Lib

/-- A JSON value. -/
inductive Json
  | null
  | bool (b : Bool)
  | num (n : Nat)
  | str (s : List Char)
  | arr (items : List Json)
  | obj (fields : List (List Char × Json))

namespace Json

/-- The quotation mark. -/
def quote : Char := '\x22'

/-- The backslash. -/
def backslash : Char := '\x5c'

-- ========= writing

/-- A hexadecimal digit, in lower case. -/
def hexDigit (n : Nat) : Char :=
  if n < 10 then Char.ofNat (48 + n) else Char.ofNat (87 + n)

/-- Four hexadecimal digits. -/
def hex4 (n : Nat) : List Char :=
  [hexDigit (n / 4096 % 16), hexDigit (n / 256 % 16), hexDigit (n / 16 % 16),
    hexDigit (n % 16)]

/-- The escapes that have a letter. -/
def shortEscapes : List (Char × Char) :=
  [(quote, quote), (backslash, backslash), ('\n', 'n'), ('\r', 'r'),
    ('\t', 't'), ('\x0c', 'f'), ('\x08', 'b')]

/-- How a character stands in a text. -/
def escape (c : Char) : List Char :=
  match shortEscapes.lookup c with
  | some letter => [backslash, letter]
  | none =>
    if 32 ≤ c.toNat ∧ c.toNat ≤ 126 then [c]
    else if c.toNat < 65536 then backslash :: 'u' :: hex4 c.toNat
    else
      backslash :: 'u' :: hex4 (55296 + (c.toNat - 65536) / 1024)
        ++ backslash :: 'u' :: hex4 (56320 + (c.toNat - 65536) % 1024)

/-- A text in quotation marks. -/
def quoted (s : List Char) : List Char :=
  quote :: (s.flatMap escape ++ [quote])

mutual

/-- A value as it is written. -/
def dumps : Json → List Char
  | .null => ['n', 'u', 'l', 'l']
  | .bool true => ['t', 'r', 'u', 'e']
  | .bool false => ['f', 'a', 'l', 's', 'e']
  | .num n => Nat.toDigits 10 n
  | .str s => quoted s
  | .arr [] => ['[', ']']
  | .arr (v :: items) => '[' :: (dumps v ++ (dumpsItems items ++ [']']))
  | .obj [] => ['\x7b', '\x7d']
  | .obj ((k, v) :: fields) =>
    '\x7b' :: (quoted k ++ ':' :: ' ' :: (dumps v
      ++ (dumpsFields fields ++ ['\x7d'])))

/-- The items after the first. -/
def dumpsItems : List Json → List Char
  | [] => []
  | v :: items => ',' :: ' ' :: (dumps v ++ dumpsItems items)

/-- The fields after the first. -/
def dumpsFields : List (List Char × Json) → List Char
  | [] => []
  | (k, v) :: fields =>
    ',' :: ' ' :: (quoted k ++ ':' :: ' ' :: (dumps v ++ dumpsFields fields))

end

-- ========== tokens

/-- A token. -/
inductive Token
  | lbrack | rbrack | lbrace | rbrace | comma | colon
  | null
  | bool (b : Bool)
  | num (n : Nat)
  | str (s : List Char)
deriving DecidableEq

mutual

/-- The tokens of a value. -/
def tokens : Json → List Token
  | .null => [.null]
  | .bool b => [.bool b]
  | .num n => [.num n]
  | .str s => [.str s]
  | .arr [] => [.lbrack, .rbrack]
  | .arr (v :: items) =>
    .lbrack :: (tokens v ++ (tokensItems items ++ [.rbrack]))
  | .obj [] => [.lbrace, .rbrace]
  | .obj ((k, v) :: fields) =>
    .lbrace :: .str k :: .colon :: (tokens v
      ++ (tokensFields fields ++ [.rbrace]))

/-- The tokens of the items after the first. -/
def tokensItems : List Json → List Token
  | [] => []
  | v :: items => .comma :: (tokens v ++ tokensItems items)

/-- The tokens of the fields after the first. -/
def tokensFields : List (List Char × Json) → List Token
  | [] => []
  | (k, v) :: fields =>
    .comma :: .str k :: .colon :: (tokens v ++ tokensFields fields)

end

/-- Where the reader of characters is. -/
inductive Mode
  | between
  | word (read : List Char)
  | number (digits : List Char)
  | text (read : List Char)
  | escaped (read : List Char)
  /-- In the digits of a `\u`, after the high half of a pair or not. -/
  | unicode (read : List Char) (high : Option Nat) (count value : Nat)
  /-- After the high half of a pair. -/
  | paired (read : List Char) (high : Nat)
  | pairedEscape (read : List Char) (high : Nat)
deriving DecidableEq

/-- The value of a hexadecimal digit. -/
def hexValue (c : Char) : Option Nat :=
  if c.isDigit then some (c.toNat - 48)
  else if 'a' ≤ c ∧ c ≤ 'f' then some (c.toNat - 87)
  else if 'A' ≤ c ∧ c ≤ 'F' then some (c.toNat - 55)
  else none

/-- The number that digits write, without a leading zero. -/
def numberOf (digits : List Char) : Option Nat :=
  if digits.head? = some '0' ∧ digits ≠ ['0'] then none
  else some (Nat.ofDigitChars 10 digits 0)

/-- A character between two tokens. -/
def lexStart (c : Char) (found : List Token) : Option (Mode × List Token) :=
  if c = ' ' ∨ c = '\n' ∨ c = '\t' ∨ c = '\r' then some (.between, found)
  else if c = '[' then some (.between, found ++ [.lbrack])
  else if c = ']' then some (.between, found ++ [.rbrack])
  else if c = '\x7b' then some (.between, found ++ [.lbrace])
  else if c = '\x7d' then some (.between, found ++ [.rbrace])
  else if c = ',' then some (.between, found ++ [.comma])
  else if c = ':' then some (.between, found ++ [.colon])
  else if c = quote then some (.text [], found)
  else if c.isDigit then some (.number [c], found)
  else some (.word [c], found)

/-- The next letter of a word. -/
def lexWord (read : List Char) (found : List Token) :
    Option (Mode × List Token) :=
  if read = ['n', 'u', 'l', 'l'] then some (.between, found ++ [.null])
  else if read = ['t', 'r', 'u', 'e'] then
    some (.between, found ++ [.bool true])
  else if read = ['f', 'a', 'l', 's', 'e'] then
    some (.between, found ++ [.bool false])
  else if read.length < 5 then some (.word read, found)
  else none

/-- What four digits of a `\u` are. -/
def lexUnicode (read : List Char) (high : Option Nat) (value : Nat) :
    Option Mode :=
  match high with
  | none =>
    if value < 55296 ∨ 57344 ≤ value then
      some (.text (read ++ [Char.ofNat value]))
    else if value < 56320 then some (.paired read value)
    else none
  | some h =>
    if 56320 ≤ value ∧ value < 57344 then
      some (.text (read
        ++ [Char.ofNat (65536 + (h - 55296) * 1024 + (value - 56320))]))
    else none

/-- One character of a text. -/
def lexStep (state : Mode × List Token) (c : Char) :
    Option (Mode × List Token) :=
  let found := state.2
  match state.1 with
  | .between => lexStart c found
  | .word read => lexWord (read ++ [c]) found
  | .number digits =>
    if c.isDigit then some (.number (digits ++ [c]), found)
    else (numberOf digits).bind fun n => lexStart c (found ++ [.num n])
  | .text read =>
    if c = quote then some (.between, found ++ [.str read])
    else if c = backslash then some (.escaped read, found)
    else if c.toNat < 32 then none
    else some (.text (read ++ [c]), found)
  | .escaped read =>
    if c = 'u' then some (.unicode read none 0 0, found)
    else if c = '/' then some (.text (read ++ [c]), found)
    else
      (shortEscapes.find? fun e => decide (e.2 = c)).map fun e =>
        (.text (read ++ [e.1]), found)
  | .unicode read high count value =>
    (hexValue c).bind fun d =>
      if count < 3 then
        some (.unicode read high (count + 1) (value * 16 + d), found)
      else (lexUnicode read high (value * 16 + d)).map fun mode =>
        (mode, found)
  | .paired read high =>
    if c = backslash then some (.pairedEscape read high, found) else none
  | .pairedEscape read high =>
    if c = 'u' then some (.unicode read (some high) 0 0, found) else none

/-- The characters of a text, from a state on. -/
def lexFrom (state : Mode × List Token) (text : List Char) :
    Option (Mode × List Token) :=
  text.foldlM lexStep state

/-- The tokens of a text. -/
def lex (text : List Char) : Option (List Token) :=
  (lexFrom (.between, []) text).bind fun state =>
    match state.1 with
    | .between => some state.2
    | .number digits => (numberOf digits).map fun n => state.2 ++ [.num n]
    | _ => none

-- ========= reading

/-- What an unfinished value is part of. -/
inductive Frame
  | item (items : List Json)
  | field (fields : List (List Char × Json)) (key : List Char)

/-- What the reader of tokens expects. -/
inductive State
  | value (stack : List Frame)
  /-- After `[`. -/
  | items (stack : List Frame)
  | afterItem (items : List Json) (stack : List Frame)
  /-- After the opening brace. -/
  | fields (stack : List Frame)
  | key (fields : List (List Char × Json)) (stack : List Frame)
  | colon (fields : List (List Char × Json)) (key : List Char)
      (stack : List Frame)
  | afterField (fields : List (List Char × Json)) (stack : List Frame)
  | done (v : Json)

/-- A value is finished. -/
def put (v : Json) : List Frame → State
  | [] => .done v
  | .item items :: stack => .afterItem (items ++ [v]) stack
  | .field fields k :: stack => .afterField (fields ++ [(k, v)]) stack

/-- A value begins. -/
def startValue (t : Token) (stack : List Frame) : Option State :=
  match t with
  | .null => some (put .null stack)
  | .bool b => some (put (.bool b) stack)
  | .num n => some (put (.num n) stack)
  | .str s => some (put (.str s) stack)
  | .lbrack => some (.items stack)
  | .lbrace => some (.fields stack)
  | _ => none

/-- One token of a value. -/
def parseStep (state : State) (t : Token) : Option State :=
  match state with
  | .value stack => startValue t stack
  | .items stack =>
    if t = .rbrack then some (put (.arr []) stack)
    else startValue t (.item [] :: stack)
  | .afterItem items stack =>
    if t = .comma then some (.value (.item items :: stack))
    else if t = .rbrack then some (put (.arr items) stack)
    else none
  | .fields stack =>
    match t with
    | .str k => some (.colon [] k stack)
    | .rbrace => some (put (.obj []) stack)
    | _ => none
  | .key fields stack =>
    match t with
    | .str k => some (.colon fields k stack)
    | _ => none
  | .colon fields k stack =>
    if t = .colon then some (.value (.field fields k :: stack)) else none
  | .afterField fields stack =>
    if t = .comma then some (.key fields stack)
    else if t = .rbrace then some (put (.obj fields) stack)
    else none
  | .done _ => none

/-- The tokens of a value, from a state on. -/
def parseFrom (state : State) (ts : List Token) : Option State :=
  ts.foldlM parseStep state

/-- The value of a text. -/
def parse (text : List Char) : Option Json :=
  (lex text).bind fun ts => (parseFrom (.value []) ts).bind fun state =>
    match state with
    | .done v => some v
    | _ => none

-- ====== reading tokens

section
variable {v : Json} {t : Token} {stack : List Frame} {rest : List Token}

theorem parseFrom_cons {state : State} : parseFrom state (t :: rest)
    = (parseStep state t).bind fun next => parseFrom next rest := rfl

theorem parseFrom_append {state : State} {ts : List Token} :
    parseFrom state (ts ++ rest)
      = (parseFrom state ts).bind fun next => parseFrom next rest :=
  List.foldlM_append

theorem parseFrom_items : parseFrom (.items stack) (tokens v ++ rest)
    = parseFrom (.value (.item [] :: stack)) (tokens v ++ rest) := by
  cases v with
  | null => rfl
  | bool b => rfl
  | num n => rfl
  | str s => rfl
  | arr items =>
    cases items with
    | nil => rfl
    | cons w items => rfl
  | obj fields =>
    cases fields with
    | nil => rfl
    | cons field fields => rfl

mutual

theorem parse_tokens (stack : List Frame) : ∀ v : Json,
    parseFrom (.value stack) (tokens v) = some (put v stack)
  | .null => rfl
  | .bool _ => rfl
  | .num _ => rfl
  | .str _ => rfl
  | .arr [] => rfl
  | .arr (v :: items) => by
      have hfirst := parse_tokens (.item [] :: stack) v
      have hrest := parse_tokensItems [v] stack items
      rw [tokens, parseFrom_cons]
      show parseFrom (.items stack) _ = _
      rw [parseFrom_items, parseFrom_append, hfirst]
      exact hrest
  | .obj [] => rfl
  | .obj ((k, v) :: fields) => by
      have hfirst := parse_tokens (.field [] k :: stack) v
      have hrest := parse_tokensFields [(k, v)] stack fields
      rw [tokens, parseFrom_cons]
      show parseFrom (.value (.field [] k :: stack)) _ = _
      rw [parseFrom_append, hfirst]
      exact hrest

theorem parse_tokensItems (before : List Json) (stack : List Frame) :
    ∀ items : List Json,
    parseFrom (.afterItem before stack) (tokensItems items ++ [.rbrack])
      = some (put (.arr (before ++ items)) stack)
  | [] => by rw [List.append_nil]; rfl
  | v :: items => by
      have hfirst := parse_tokens (.item before :: stack) v
      have hrest := parse_tokensItems (before ++ [v]) stack items
      rw [tokensItems, List.cons_append, parseFrom_cons, List.append_assoc]
      show parseFrom (.value (.item before :: stack)) _ = _
      rw [parseFrom_append, hfirst]
      rw [List.append_assoc] at hrest
      exact hrest

theorem parse_tokensFields (before : List (List Char × Json))
    (stack : List Frame) : ∀ fields : List (List Char × Json),
    parseFrom (.afterField before stack) (tokensFields fields ++ [.rbrace])
      = some (put (.obj (before ++ fields)) stack)
  | [] => by rw [List.append_nil]; rfl
  | (k, v) :: fields => by
      have hfirst := parse_tokens (.field before k :: stack) v
      have hrest := parse_tokensFields (before ++ [(k, v)]) stack fields
      rw [tokensFields, List.cons_append, parseFrom_cons]
      show parseFrom (.value (.field before k :: stack))
        (tokens v ++ tokensFields fields ++ [.rbrace]) = _
      rw [List.append_assoc, parseFrom_append, hfirst]
      rw [List.append_assoc] at hrest
      exact hrest

end

end

-- ====== reading characters

section
variable {c : Char} {found : List Token} {text rest read : List Char}
  {state : Mode × List Token}

theorem lexFrom_cons : lexFrom state (c :: rest)
    = (lexStep state c).bind fun next => lexFrom next rest := rfl

theorem hexValue_hexDigit : ∀ d < 16, hexValue (hexDigit d) = some d := by
  decide

theorem lexFrom_hex4 {high : Option Nat} {n : Nat} (hn : n < 65536) :
    lexFrom (.unicode read high 0 0, found) (hex4 n ++ rest)
      = (lexUnicode read high n).bind fun mode =>
        lexFrom (mode, found) rest := by
  have hdigit : ∀ m, hexValue (hexDigit (m % 16)) = some (m % 16) :=
    fun m => hexValue_hexDigit _ (Nat.mod_lt m (by decide))
  have hvalue : (((0 * 16 + n / 4096 % 16) * 16 + n / 256 % 16) * 16
      + n / 16 % 16) * 16 + n % 16 = n := by omega
  have hstep : ∀ count value m,
      lexStep (.unicode read high count value, found) (hexDigit (m % 16))
        = if count < 3 then
            some (.unicode read high (count + 1) (value * 16 + m % 16), found)
          else (lexUnicode read high (value * 16 + m % 16)).map fun mode =>
            (mode, found) := by
    intro count value m
    show (hexValue (hexDigit (m % 16))).bind _ = _
    rw [hdigit]
    rfl
  unfold hex4
  rw [List.cons_append, List.cons_append, List.cons_append, List.cons_append,
    List.nil_append, lexFrom_cons, hstep, if_pos (by decide), Option.bind_some,
    lexFrom_cons, hstep, if_pos (by decide), Option.bind_some, lexFrom_cons,
    hstep, if_pos (by decide), Option.bind_some, lexFrom_cons, hstep,
    if_neg (by decide), hvalue, Option.bind_map]
  rfl

theorem shortEscapes_spec : ∀ e ∈ shortEscapes,
    e.2 ≠ 'u' ∧ e.2 ≠ '/'
      ∧ shortEscapes.find? (fun f => decide (f.2 = e.2)) = some e := by
  decide

theorem lookup_mem {c letter : Char} (h : shortEscapes.lookup c = some letter) :
    (c, letter) ∈ shortEscapes := by
  rw [List.lookup_eq_some_iff] at h
  obtain ⟨before, after, hsplit, -⟩ := h
  rw [hsplit]
  exact List.mem_append_right before List.mem_cons_self

theorem lexFrom_backslash : lexFrom (.text read, found) (backslash :: rest)
    = lexFrom (.escaped read, found) rest := rfl

theorem lexFrom_u : lexFrom (.text read, found) (backslash :: 'u' :: rest)
    = lexFrom (.unicode read none 0 0, found) rest := rfl

theorem lexFrom_paired {high : Nat} :
    lexFrom (.paired read high, found) (backslash :: 'u' :: rest)
      = lexFrom (.unicode read (some high) 0 0, found) rest := rfl

theorem lexFrom_short {letter : Char}
    (hletter : shortEscapes.lookup c = some letter) :
    lexFrom (.text read, found) (backslash :: letter :: rest)
      = lexFrom (.text (read ++ [c]), found) rest := by
  obtain ⟨hnotu, hnotslash, hfind⟩ := shortEscapes_spec _ (lookup_mem hletter)
  have hstep : lexStep (.escaped read, found) letter
      = some (.text (read ++ [c]), found) := by
    show (if letter = 'u' then _ else if letter = '/' then _ else _) = _
    rw [if_neg hnotu, if_neg hnotslash]
    show (shortEscapes.find? (fun e => decide (e.2 = letter))).map _ = _
    rw [hfind]
    rfl
  rw [lexFrom_backslash, lexFrom_cons, hstep]
  rfl

theorem lexFrom_printable (hnone : shortEscapes.lookup c = none)
    (hprintable : 32 ≤ c.toNat) : lexFrom (.text read, found) (c :: rest)
      = lexFrom (.text (read ++ [c]), found) rest := by
  have hquote : c ≠ quote := by
    intro hc
    rw [hc] at hnone
    exact absurd hnone (by decide)
  have hback : c ≠ backslash := by
    intro hc
    rw [hc] at hnone
    exact absurd hnone (by decide)
  have hstep : lexStep (.text read, found) c
      = some (.text (read ++ [c]), found) := by
    show (if c = quote then _ else if c = backslash then _
      else if c.toNat < 32 then _ else _) = _
    rw [if_neg hquote, if_neg hback, if_neg (by omega)]
  rw [lexFrom_cons, hstep]
  rfl

theorem toNat_valid (c : Char) :
    c.toNat < 55296 ∨ (57343 < c.toNat ∧ c.toNat < 1114112) :=
  c.valid

theorem lexUnicode_small (c : Char) : lexUnicode read none c.toNat
    = some (.text (read ++ [c])) := by
  have hvalid := toNat_valid c
  unfold lexUnicode
  dsimp only
  rw [if_pos (by omega), Char.ofNat_toNat]

theorem lexUnicode_high {n : Nat} (hn : n < 1024) :
    lexUnicode read none (55296 + n) = some (.paired read (55296 + n)) := by
  unfold lexUnicode
  dsimp only
  rw [if_neg (by omega), if_pos (by omega)]

theorem lexUnicode_low (hlarge : 65536 ≤ c.toNat) :
    lexUnicode read (some (55296 + (c.toNat - 65536) / 1024))
        (56320 + (c.toNat - 65536) % 1024)
      = some (.text (read ++ [c])) := by
  have hsum : 65536 + (55296 + (c.toNat - 65536) / 1024 - 55296) * 1024
      + (56320 + (c.toNat - 65536) % 1024 - 56320) = c.toNat := by omega
  have hrange : 56320 ≤ 56320 + (c.toNat - 65536) % 1024
      ∧ 56320 + (c.toNat - 65536) % 1024 < 57344 := by omega
  unfold lexUnicode
  dsimp only
  rw [if_pos hrange, hsum, Char.ofNat_toNat]

theorem lexFrom_escape : lexFrom (.text read, found) (escape c ++ rest)
    = lexFrom (.text (read ++ [c]), found) rest := by
  unfold escape
  split
  case h_1 letter hletter => exact lexFrom_short hletter
  case h_2 hnone =>
    split
    case isTrue hprintable => exact lexFrom_printable hnone hprintable.1
    case isFalse =>
      have hvalid := toNat_valid c
      split
      case isTrue hsmall =>
        rw [List.cons_append, List.cons_append, lexFrom_u, lexFrom_hex4 hsmall,
          lexUnicode_small, Option.bind_some]
      case isFalse hlarge =>
        rw [List.append_assoc, List.cons_append, List.cons_append, lexFrom_u,
          lexFrom_hex4 (by omega), lexUnicode_high (by omega),
          Option.bind_some, List.cons_append, List.cons_append, lexFrom_paired,
          lexFrom_hex4 (by omega), lexUnicode_low (by omega), Option.bind_some]

theorem lexFrom_quoted : lexFrom (.between, found) (quoted text ++ rest)
    = lexFrom (.between, found ++ [.str text]) rest := by
  have hbody : ∀ (body read : List Char),
      lexFrom (.text read, found) (body.flatMap escape ++ (quote :: rest))
        = lexFrom (.between, found ++ [.str (read ++ body)]) rest := by
    intro body
    induction body with
    | nil =>
      intro read
      rw [List.append_nil]
      rfl
    | cons c body ih =>
      intro read
      rw [List.flatMap_cons, List.append_assoc, lexFrom_escape, ih,
        List.append_assoc, List.singleton_append]
  have hquoted : quoted text ++ rest
      = quote :: (text.flatMap escape ++ (quote :: rest)) := by
    unfold quoted
    rw [List.cons_append, List.append_assoc, List.singleton_append]
  rw [hquoted]
  exact hbody text []

end

-- ====== reading values

section
variable {c : Char} {found : List Token} {text rest : List Char} {n : Nat}

/-- What follows is not part of a number. -/
def Stops (rest : List Char) : Prop :=
  ∃ c after, rest = c :: after ∧ c.isDigit = false

theorem stops_cons {after : List Char} (hc : c.isDigit = false) :
    Stops (c :: after) :=
  ⟨c, after, rfl, hc⟩

theorem lexStart_digit (hc : c.isDigit = true) :
    lexStart c found = some (.number [c], found) := by
  have hne : ∀ d : Char, d.isDigit = false → c ≠ d := by
    intro d hd heq
    rw [heq, hd] at hc
    exact Bool.false_ne_true hc
  have hspace : ¬ (c = ' ' ∨ c = '\n' ∨ c = '\t' ∨ c = '\r') := by
    simp only [not_or]
    exact ⟨hne _ rfl, hne _ rfl, hne _ rfl, hne _ rfl⟩
  unfold lexStart
  rw [if_neg hspace, if_neg (hne _ rfl), if_neg (hne _ rfl), if_neg (hne _ rfl),
    if_neg (hne _ rfl), if_neg (hne _ rfl), if_neg (hne _ rfl),
    if_neg (hne _ rfl), if_pos hc]

theorem lexFrom_digits : ∀ {digits read : List Char},
    (∀ d ∈ digits, d.isDigit = true) →
    lexFrom (.number read, found) (digits ++ rest)
      = lexFrom (.number (read ++ digits), found) rest
  | [], read, _ => by rw [List.append_nil]; rfl
  | d :: digits, read, hdigits => by
      have hstep : lexStep (.number read, found) d
          = some (.number (read ++ [d]), found) := by
        show (if d.isDigit = true then _ else _) = _
        rw [if_pos (hdigits d List.mem_cons_self)]
      rw [List.cons_append, lexFrom_cons, hstep, Option.bind_some,
        lexFrom_digits fun e he => hdigits e (List.mem_cons_of_mem d he),
        List.append_assoc, List.singleton_append]

theorem head_toDigits (hn : 1 ≤ n) : (Nat.toDigits 10 n).head? ≠ some '0' := by
  have hdigit : ∀ d < 10, 1 ≤ d → Nat.digitChar d ≠ '0' := by decide
  induction n using Nat.strongRecOn with
  | _ n ih =>
    by_cases hsmall : n < 10
    · rw [Nat.toDigits_of_lt_base hsmall, List.head?_cons]
      intro heq
      exact hdigit n hsmall hn (Option.some.inj heq)
    · rw [Nat.toDigits_of_base_le (by decide) (by omega),
        List.head?_append_of_ne_nil _ Nat.toDigits_ne_nil]
      exact ih (n / 10) (by omega) (by omega)

theorem numberOf_toDigits : numberOf (Nat.toDigits 10 n) = some n := by
  have hno : ¬ ((Nat.toDigits 10 n).head? = some '0'
      ∧ Nat.toDigits 10 n ≠ ['0']) := by
    intro h
    obtain ⟨hhead, hne⟩ := h
    cases n with
    | zero => exact hne (Nat.toDigits_zero 10)
    | succ n => exact head_toDigits (by omega) hhead
  unfold numberOf
  rw [if_neg hno, Nat.ofDigitChars_ten_toDigits]

theorem lexFrom_number (hrest : Stops rest) :
    lexFrom (.between, found) (Nat.toDigits 10 n ++ rest)
      = lexFrom (.between, found ++ [.num n]) rest := by
  have hdigits : ∀ d ∈ Nat.toDigits 10 n, d.isDigit = true := fun d hd =>
    Nat.isDigit_of_mem_toDigits (by decide) (Nat.le_refl 10) hd
  obtain ⟨d, digits, hsplit⟩ := List.exists_cons_of_ne_nil
    (Nat.toDigits_ne_nil (n := n) (b := 10))
  obtain ⟨c, after, rfl, hc⟩ := hrest
  have hnumber := @numberOf_toDigits n
  rw [hsplit] at hdigits hnumber ⊢
  have hfirst : lexStep (.between, found) d = some (.number [d], found) :=
    lexStart_digit (hdigits d List.mem_cons_self)
  have hlast : lexStep (.number (d :: digits), found) c
      = lexStep (.between, found ++ [.num n]) c := by
    show (if c.isDigit = true then _ else
      (numberOf (d :: digits)).bind fun m => lexStart c (found ++ [.num m])) = _
    rw [if_neg (by rw [hc]; exact Bool.false_ne_true), hnumber]
    rfl
  rw [List.cons_append, lexFrom_cons, hfirst, Option.bind_some,
    lexFrom_digits fun e he => hdigits e (List.mem_cons_of_mem d he),
    List.singleton_append, lexFrom_cons, hlast]
  rfl

theorem lexFrom_lbrack : lexFrom (.between, found) ('[' :: rest)
    = lexFrom (.between, found ++ [.lbrack]) rest := rfl

theorem lexFrom_rbrack : lexFrom (.between, found) (']' :: rest)
    = lexFrom (.between, found ++ [.rbrack]) rest := rfl

theorem lexFrom_lbrace : lexFrom (.between, found) ('\x7b' :: rest)
    = lexFrom (.between, found ++ [.lbrace]) rest := rfl

theorem lexFrom_rbrace : lexFrom (.between, found) ('\x7d' :: rest)
    = lexFrom (.between, found ++ [.rbrace]) rest := rfl

theorem lexFrom_comma : lexFrom (.between, found) (',' :: ' ' :: rest)
    = lexFrom (.between, found ++ [.comma]) rest := rfl

theorem lexFrom_colon : lexFrom (.between, found) (':' :: ' ' :: rest)
    = lexFrom (.between, found ++ [.colon]) rest := rfl

theorem stops_items {items : List Json} (hrest : Stops rest) :
    Stops (dumpsItems items ++ rest) := by
  cases items with
  | nil => exact hrest
  | cons v items => exact stops_cons rfl

theorem stops_fields {fields : List (List Char × Json)} (hrest : Stops rest) :
    Stops (dumpsFields fields ++ rest) := by
  cases fields with
  | nil => exact hrest
  | cons field fields => exact stops_cons rfl

mutual

theorem lex_dumps (found : List Token) (rest : List Char) (hrest : Stops rest) :
    ∀ v : Json, lexFrom (.between, found) (dumps v ++ rest)
      = lexFrom (.between, found ++ tokens v) rest
  | .null => rfl
  | .bool true => rfl
  | .bool false => rfl
  | .num n => lexFrom_number hrest
  | .str s => lexFrom_quoted
  | .arr [] => by
      show lexFrom (.between, found) ('[' :: ']' :: rest) = _
      rw [lexFrom_lbrack, lexFrom_rbrack, List.append_assoc]
      rfl
  | .arr (v :: items) => by
      have htext : dumps (.arr (v :: items)) ++ rest
          = '[' :: (dumps v ++ (dumpsItems items ++ (']' :: rest))) := by
        simp [dumps]
      have htokens : found ++ tokens (.arr (v :: items))
          = found ++ [.lbrack] ++ tokens v ++ tokensItems items
            ++ [.rbrack] := by
        simp [tokens]
      have hfirst := lex_dumps (found ++ [.lbrack])
        (dumpsItems items ++ (']' :: rest)) (stops_items (stops_cons rfl)) v
      have hitems := lex_dumpsItems (found ++ [.lbrack] ++ tokens v)
        (']' :: rest) (stops_cons rfl) items
      rw [htext, htokens, lexFrom_lbrack, hfirst, hitems, lexFrom_rbrack]
  | .obj [] => by
      show lexFrom (.between, found) ('\x7b' :: '\x7d' :: rest) = _
      rw [lexFrom_lbrace, lexFrom_rbrace, List.append_assoc]
      rfl
  | .obj ((k, v) :: fields) => by
      have htext : dumps (.obj ((k, v) :: fields)) ++ rest
          = '\x7b' :: (quoted k ++ (':' :: ' ' :: (dumps v
            ++ (dumpsFields fields ++ ('\x7d' :: rest))))) := by
        simp [dumps]
      have htokens : found ++ tokens (.obj ((k, v) :: fields))
          = found ++ [.lbrace] ++ [.str k] ++ [.colon] ++ tokens v
            ++ tokensFields fields ++ [.rbrace] := by
        simp [tokens]
      have hfirst := lex_dumps (found ++ [.lbrace] ++ [.str k] ++ [.colon])
        (dumpsFields fields ++ ('\x7d' :: rest)) (stops_fields (stops_cons rfl))
        v
      have hfields := lex_dumpsFields
        (found ++ [.lbrace] ++ [.str k] ++ [.colon] ++ tokens v)
        ('\x7d' :: rest) (stops_cons rfl) fields
      rw [htext, htokens, lexFrom_lbrace, lexFrom_quoted, lexFrom_colon, hfirst,
        hfields, lexFrom_rbrace]

theorem lex_dumpsItems (found : List Token) (rest : List Char)
    (hrest : Stops rest) : ∀ items : List Json,
    lexFrom (.between, found) (dumpsItems items ++ rest)
      = lexFrom (.between, found ++ tokensItems items) rest
  | [] => by rw [tokensItems, List.append_nil]; rfl
  | v :: items => by
      have htext : dumpsItems (v :: items) ++ rest
          = ',' :: ' ' :: (dumps v ++ (dumpsItems items ++ rest)) := by
        simp [dumpsItems]
      have htokens : found ++ tokensItems (v :: items)
          = found ++ [.comma] ++ tokens v ++ tokensItems items := by
        simp [tokensItems]
      have hfirst := lex_dumps (found ++ [.comma]) (dumpsItems items ++ rest)
        (stops_items hrest) v
      have hitems := lex_dumpsItems (found ++ [.comma] ++ tokens v) rest hrest
        items
      rw [htext, htokens, lexFrom_comma, hfirst, hitems]

theorem lex_dumpsFields (found : List Token) (rest : List Char)
    (hrest : Stops rest) : ∀ fields : List (List Char × Json),
    lexFrom (.between, found) (dumpsFields fields ++ rest)
      = lexFrom (.between, found ++ tokensFields fields) rest
  | [] => by rw [tokensFields, List.append_nil]; rfl
  | (k, v) :: fields => by
      have htext : dumpsFields ((k, v) :: fields) ++ rest
          = ',' :: ' ' :: (quoted k ++ (':' :: ' ' :: (dumps v
            ++ (dumpsFields fields ++ rest)))) := by
        simp [dumpsFields]
      have htokens : found ++ tokensFields ((k, v) :: fields)
          = found ++ [.comma] ++ [.str k] ++ [.colon] ++ tokens v
            ++ tokensFields fields := by
        simp [tokensFields]
      have hfirst := lex_dumps (found ++ [.comma] ++ [.str k] ++ [.colon])
        (dumpsFields fields ++ rest) (stops_fields hrest) v
      have hfields := lex_dumpsFields
        (found ++ [.comma] ++ [.str k] ++ [.colon] ++ tokens v) rest hrest
        fields
      rw [htext, htokens, lexFrom_comma, lexFrom_quoted, lexFrom_colon, hfirst,
        hfields]

end

end

theorem parse_of_lex {v : Json} {text : List Char}
    (h : lexFrom (.between, []) text = some (.between, tokens v)) :
    parse text = some v := by
  unfold parse lex
  rw [h, Option.bind_some]
  show (parseFrom (.value []) (tokens v)).bind _ = _
  rw [parse_tokens]
  rfl

theorem parse_dumps (v : Json) : parse (dumps v ++ ['\n']) = some v := by
  apply parse_of_lex
  rw [lex_dumps [] ['\n'] (stops_cons rfl)]
  rfl

end Json

end MemoryOS.Lib
