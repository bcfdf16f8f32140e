import Mathlib.Data.List.Basic

namespace Coio.JsonRpc
set_option autoImplicit true

abbrev Bytes := List UInt8

def char (c : Char) : UInt8 := c.toUInt8

def text (cs : List Char) : Bytes := cs.map char

def quote : UInt8 := 0x22

def backslash : UInt8 := 0x5c

def lbrace : UInt8 := 0x7b

def rbrace : UInt8 := 0x7d

inductive Number (F : Type u)
  | integer (n : Int64)
  | floating (x : F)
  deriving DecidableEq, Repr

/-- The members of an object stand in the order in which its map is iterated over. -/
inductive Value (F : Type u)
  | null
  | boolean (b : Bool)
  | number (x : Number F)
  | string (s : Bytes)
  | array (vs : List (Value F))
  | object (ms : List (Bytes × Value F))

/-- What the program gets from its platform: whether `char` is signed, `std::to_string` of a
floating-point number and `std::from_chars` of a text that it reads up to its end. -/
structure Platform (F : Type u) where
  char_signed : Bool
  to_string : F → Bytes
  from_chars : Bytes → Option F

inductive Exception
  | bad_json (what : String)
  /-- The parser of the model has run out of fuel. -/
  | fuel
  deriving DecidableEq, Repr

/-- The conversion of a `char` to `int`. -/
def Platform.int (P : Platform F) (ch : UInt8) : Int :=
  if P.char_signed = true ∧ 128 ≤ ch.toNat then (ch.toNat : Int) - 256 else ch.toNat

/-- `:04x` of `std::format`, which counts the sign. -/
def format_04x (n : Int) : Bytes :=
  let sign := if n < 0 then [char '-'] else []
  let digits := text (Nat.toDigits 16 n.natAbs)
  sign ++ List.replicate (4 - (sign.length + digits.length)) (char '0') ++ digits

def Platform.escape (P : Platform F) (ch : UInt8) : Bytes :=
  if ch = quote then [backslash, quote]
  else if ch = backslash then [backslash, backslash]
  else if ch = 0x08 then [backslash, char 'b']
  else if ch = 0x0c then [backslash, char 'f']
  else if ch = 0x0a then [backslash, char 'n']
  else if ch = 0x0d then [backslash, char 'r']
  else if ch = 0x09 then [backslash, char 't']
  else if P.int ch < 0x20 then backslash :: char 'u' :: format_04x (P.int ch)
  else [ch]

def Platform.escape_string (P : Platform F) (str : Bytes) : Bytes :=
  quote :: str.flatMap P.escape ++ [quote]

/-- `std::to_string` of an integer. -/
def Int64.to_string (n : Int64) : Bytes :=
  (if n.toInt < 0 then [char '-'] else []) ++ text (Nat.toDigits 10 n.toInt.natAbs)

def Platform.dump_number (P : Platform F) : Number F → Bytes
  | .integer n => Int64.to_string n
  | .floating x => P.to_string x

def comma (first : Bool) : Bytes :=
  if first then [] else [char ',']

mutual

def Platform.dump (P : Platform F) : Value F → Bytes
  | .null => text ['n', 'u', 'l', 'l']
  | .boolean b => if b then text ['t', 'r', 'u', 'e'] else text ['f', 'a', 'l', 's', 'e']
  | .number x => P.dump_number x
  | .string s => P.escape_string s
  | .array arr => char '[' :: P.dump_array true arr ++ [char ']']
  | .object obj => lbrace :: P.dump_object true obj ++ [rbrace]

/-- The loop of `dump_array`. -/
def Platform.dump_array (P : Platform F) (first : Bool) : List (Value F) → Bytes
  | [] => []
  | elem :: arr => comma first ++ P.dump elem ++ P.dump_array false arr

/-- The loop of `dump_object`. -/
def Platform.dump_object (P : Platform F) (first : Bool) : List (Bytes × Value F) → Bytes
  | [] => []
  | (k, val) :: obj =>
    comma first ++ P.escape_string k ++ char ':' :: P.dump val ++ P.dump_object false obj

end

/-- `insert_or_assign`, where a new member comes last. -/
def insert_or_assign (ms : List (Bytes × Value F)) (k : Bytes) (v : Value F) :
    List (Bytes × Value F) :=
  match ms with
  | [] => [(k, v)]
  | m :: ms => if m.1 = k then (k, v) :: ms else m :: insert_or_assign ms k v

def is_space (ch : UInt8) : Bool :=
  ch = 0x20 || (0x09 ≤ ch && ch ≤ 0x0d)

def is_digit (ch : UInt8) : Bool :=
  char '0' ≤ ch && ch ≤ char '9'

def throw (what : String) : Except Exception α := .error (.bad_json what)

def skip_white_spaces_ (source : Bytes) : Bytes := source.dropWhile is_space

/-- Whether the source goes on with the characters. -/
def next_n_characters_are_ : Bytes → Bytes → Bool × Bytes
  | [], source => (true, source)
  | _ :: _, [] => (false, [])
  | chr :: str, ch :: source =>
    if ch ≠ chr then (false, source) else next_n_characters_are_ str source

/-- What `parse_null_`, `parse_true_` and `parse_false_` share. -/
def parse_literal (str : Bytes) (v : Value F) (what : String) (source : Bytes) :
    Except Exception (Value F × Bytes) :=
  match next_n_characters_are_ str source with
  | (true, source) => .ok (v, source)
  | (false, _) => throw what

def parse_null_ : Bytes → Except Exception (Value F × Bytes) :=
  parse_literal (text ['n', 'u', 'l', 'l']) .null "expected `null` isn't complete"

def parse_true_ : Bytes → Except Exception (Value F × Bytes) :=
  parse_literal (text ['t', 'r', 'u', 'e']) (.boolean true) "expected `true` isn't complete"

def parse_false_ : Bytes → Except Exception (Value F × Bytes) :=
  parse_literal (text ['f', 'a', 'l', 's', 'e']) (.boolean false) "expected `false` isn't complete"

/-- The characters of `number_string` up to the fraction. -/
def parse_integer_part (source : Bytes) : Except Exception (Bytes × Bytes) :=
  match source with
  | [] => throw "invalid number"
  | ch :: source =>
    if ch = char '0' then
      match source with
      | next :: _ =>
        if is_digit next then throw "leading zeros are not allowed" else .ok ([ch], source)
      | [] => .ok ([ch], [])
    else if char '1' ≤ ch ∧ ch ≤ char '9' then
      .ok (ch :: source.takeWhile is_digit, source.dropWhile is_digit)
    else throw "invalid number"

/-- One digit or more. -/
def parse_digits (source : Bytes) (what : String) : Except Exception (Bytes × Bytes) :=
  match source with
  | [] => throw what
  | ch :: _ =>
    if is_digit ch then .ok (source.takeWhile is_digit, source.dropWhile is_digit) else throw what

/-- The fraction, or nothing. -/
def parse_fraction (source : Bytes) : Except Exception (Bytes × Bytes) :=
  match source with
  | [] => .ok ([], [])
  | ch :: rest =>
    if ch = char '.' then do
      let (digits, rest) ← parse_digits rest "fractional part requires at least one digit"
      .ok (ch :: digits, rest)
    else .ok ([], source)

def parse_exponent_sign (source : Bytes) : Bytes × Bytes :=
  match source with
  | [] => ([], [])
  | ch :: rest => if ch = char '+' ∨ ch = char '-' then ([ch], rest) else ([], source)

/-- The exponent, or nothing. -/
def parse_exponent (source : Bytes) : Except Exception (Bytes × Bytes) :=
  match source with
  | [] => .ok ([], [])
  | ch :: rest =>
    if ch = char 'e' ∨ ch = char 'E' then do
      let (sign, rest) := parse_exponent_sign rest
      let (digits, rest) ← parse_digits rest "exponent requires at least one digit"
      .ok (ch :: sign ++ digits, rest)
    else .ok ([], source)

def digits_value (digits : Bytes) : Nat :=
  digits.foldl (fun n d => 10 * n + (d.toNat - (char '0').toNat)) 0

/-- `std::from_chars` for an integer, of a text with an optional sign and digits. -/
def from_chars_integer (first : Bytes) : Option Int64 :=
  let n : Int := match first with
    | ch :: digits => if ch = char '-' then -(digits_value digits : Int) else digits_value first
    | [] => 0
  if Int64.minValue.toInt ≤ n ∧ n ≤ Int64.maxValue.toInt then some (Int64.ofInt n) else none

def parse_sign (source : Bytes) : Bytes × Bytes :=
  match source with
  | [] => ([], [])
  | ch :: rest => if ch = char '-' then ([ch], rest) else ([], source)

def Platform.parse_number_ (P : Platform F) (source : Bytes) :
    Except Exception (Value F × Bytes) := do
  let (sign, source) := parse_sign source
  let (integer, source) ← parse_integer_part source
  let (fraction, source) ← parse_fraction source
  let (exponent, source) ← parse_exponent source
  let number_string := sign ++ integer ++ fraction ++ exponent
  if fraction ≠ [] ∨ exponent ≠ [] then
    match P.from_chars number_string with
    | some x => .ok (.number (.floating x), source)
    | none => throw "invalid floating point"
  else
    match from_chars_integer number_string with
    | some n => .ok (.number (.integer n), source)
    | none => throw "invalid integer"

/-- What an escape sequence stands for. -/
def unescape (escaped_char : UInt8) : Except Exception UInt8 :=
  if escaped_char = quote then .ok quote
  else if escaped_char = backslash then .ok backslash
  else if escaped_char = char '/' then .ok (char '/')
  else if escaped_char = char 'b' then .ok 0x08
  else if escaped_char = char 'f' then .ok 0x0c
  else if escaped_char = char 'n' then .ok 0x0a
  else if escaped_char = char 'r' then .ok 0x0d
  else if escaped_char = char 't' then .ok 0x09
  else if escaped_char = char 'u' then .error (.bad_json "unsupported unicode escape sequence")
  else .error (.bad_json "invalid escape sequence")

/-- The loop of `parse_string_`. -/
def parse_characters (result : Bytes) : Bytes → Except Exception (Bytes × Bytes)
  | [] => throw "unexpected end of string"
  | ch :: source =>
    if ch = quote then .ok (result, source)
    else if ch < 0x20 then throw "control characters must be escaped"
    else if ch = backslash then
      match source with
      | [] => throw "unexpected end of string"
      | escaped_char :: source => do
        let ch ← unescape escaped_char
        parse_characters (result ++ [ch]) source
    else parse_characters (result ++ [ch]) source

def parse_string_ (source : Bytes) : Except Exception (Bytes × Bytes) :=
  match source with
  | [] => throw "unexpected end of input"
  | ch :: source => if ch ≠ quote then throw "expected string" else parse_characters [] source

/-- The loop of `parse_array_`. -/
def parse_elements (parse_value_ : Bytes → Except Exception (Value F × Bytes)) :
    Nat → List (Value F) → Bytes → Except Exception (List (Value F) × Bytes)
  | 0, _, _ => .error .fuel
  | fuel + 1, result, source => do
    let (v, source) ← parse_value_ source
    let result := result ++ [v]
    match skip_white_spaces_ source with
    | [] => throw "unexpected end of array"
    | delimiter :: source =>
      if delimiter = char ']' then .ok (result, source)
      else if delimiter ≠ char ',' then throw "expected comma in array"
      else
        match skip_white_spaces_ source with
        | [] => throw "unexpected end of array"
        | ch :: source =>
          if ch = char ']' then throw "trailing comma in array"
          else parse_elements parse_value_ fuel result (ch :: source)

/-- After the bracket. -/
def parse_array_ (parse_value_ : Bytes → Except Exception (Value F × Bytes)) (source : Bytes) :
    Except Exception (Value F × Bytes) :=
  match skip_white_spaces_ source with
  | [] => throw "unexpected end of array"
  | ch :: source =>
    if ch = char ']' then .ok (.array [], skip_white_spaces_ source)
    else do
      let (result, source) ← parse_elements parse_value_ (source.length + 1) [] (ch :: source)
      .ok (.array result, skip_white_spaces_ source)

/-- The loop of `parse_object_`. -/
def parse_members (parse_value_ : Bytes → Except Exception (Value F × Bytes)) :
    Nat → List (Bytes × Value F) → Bytes → Except Exception (List (Bytes × Value F) × Bytes)
  | 0, _, _ => .error .fuel
  | fuel + 1, result, source => do
    match source with
    | [] => throw "unexpected end of input"
    | ch :: _ => if ch ≠ quote then throw "expected string key" else
      let (key, source) ← parse_string_ source
      match skip_white_spaces_ source with
      | [] => throw "unexpected end of input"
      | colon :: source => if colon ≠ char ':' then throw "expected colon in object" else
        let (v, source) ← parse_value_ (skip_white_spaces_ source)
        let result := insert_or_assign result key v
        match skip_white_spaces_ source with
        | [] => throw "unexpected end of object"
        | delimiter :: source =>
          if delimiter = rbrace then .ok (result, source)
          else if delimiter ≠ char ',' then throw "expected comma in object"
          else
            match skip_white_spaces_ source with
            | [] => throw "unexpected end of object"
            | ch :: source =>
              if ch = rbrace then throw "trailing comma in object"
              else parse_members parse_value_ fuel result (ch :: source)

/-- After the brace. -/
def parse_object_ (parse_value_ : Bytes → Except Exception (Value F × Bytes)) (source : Bytes) :
    Except Exception (Value F × Bytes) :=
  match skip_white_spaces_ source with
  | [] => throw "unexpected end of object"
  | ch :: source =>
    if ch = rbrace then .ok (.object [], skip_white_spaces_ source)
    else do
      let (result, source) ← parse_members parse_value_ (source.length + 1) [] (ch :: source)
      .ok (.object result, skip_white_spaces_ source)

/-- `fuel` bounds the depth of the value. -/
def Platform.parse_value_ (P : Platform F) : Nat → Bytes → Except Exception (Value F × Bytes)
  | 0, _ => .error .fuel
  | fuel + 1, source =>
    match skip_white_spaces_ source with
    | [] => throw "unexpected end of input"
    | peek :: source =>
      if peek = char 'n' then parse_null_ (peek :: source)
      else if peek = char 't' then parse_true_ (peek :: source)
      else if peek = char 'f' then parse_false_ (peek :: source)
      else if peek = quote then do
        let (s, source) ← parse_string_ (peek :: source)
        .ok (.string s, source)
      else if peek = char '[' then parse_array_ (P.parse_value_ fuel) source
      else if peek = lbrace then parse_object_ (P.parse_value_ fuel) source
      else if (char '0' ≤ peek ∧ peek ≤ char '9') ∨ peek = char '-' then
        P.parse_number_ (peek :: source)
      else throw "invalid json"

def Platform.parse (P : Platform F) (source : Bytes) : Except Exception (Value F) := do
  let (value_, source) ← P.parse_value_ (source.length + 1) source
  if skip_white_spaces_ source ≠ [] then .error (.bad_json "can't parse a complete value")
  else .ok value_

end Coio.JsonRpc
