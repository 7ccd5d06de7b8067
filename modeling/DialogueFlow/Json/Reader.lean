import DialogueFlow.Json
import DialogueFlow.Table

namespace DialogueFlow.Json

inductive Problem where
  | expectingValue
  | expectingName
  | expectingColon
  | expectingComma
  | extraData
  | unterminatedString
  | controlCharacter
  | invalidEscape
  | invalidUnicodeEscape
  | byteOrderMark
deriving DecidableEq

inductive Container where
  | array
  | object
deriving DecidableEq

/-- Reading fails at an offset, at an integer with too many digits, or at the start of a container
inside too many others. -/
inductive Failure where
  | problem (what : Problem) (offset : Nat)
  | longInteger (digits : Nat)
  | tooDeep (container : Container)
deriving DecidableEq

def maxDigits : Nat := 4300

/-- How many containers may stand inside each other, and which character stands for a surrogate
without a partner. -/
structure Dialect where
  depth : Nat
  lone : Nat → Char

def Dialect.standard : Dialect := ⟨990, fun _ => '\ufffd'⟩

structure Cursor where
  offset : Nat
  rest : List Char

def fail {α : Type} (what : Problem) (offset : Nat) : Except Failure α :=
  .error (.problem what offset)

def isSpace (c : Char) : Bool := c == ' ' || c == '\t' || c == '\n' || c == '\r'

def skipSpaceFrom (offset : Nat) : List Char → Cursor
  | [] => ⟨offset, []⟩
  | c :: rest => if isSpace c then skipSpaceFrom (offset + 1) rest else ⟨offset, c :: rest⟩

def Cursor.skipSpace (cur : Cursor) : Cursor := skipSpaceFrom cur.offset cur.rest

def after? : List Char → List Char → Option (List Char)
  | [], rest => some rest
  | _ :: _, [] => none
  | c :: word, d :: rest => if c = d then after? word rest else none

def hexDigit? (c : Char) : Option Nat :=
  if '0' ≤ c ∧ c ≤ '9' then some (c.toNat - '0'.toNat)
  else if 'a' ≤ c ∧ c ≤ 'f' then some (c.toNat - 'a'.toNat + 10)
  else if 'A' ≤ c ∧ c ≤ 'F' then some (c.toNat - 'A'.toNat + 10)
  else none

def simpleEscape? (c : Char) : Option Nat :=
  match c with
  | '"' => some 0x22
  | '\\' => some 0x5c
  | '/' => some 0x2f
  | 'b' => some 0x8
  | 'f' => some 0xc
  | 'n' => some 0xa
  | 'r' => some 0xd
  | 't' => some 0x9
  | _ => none

/-- Where a string is being read: between characters, after a backslash, or before the last
`missing` digits of a four-digit escape whose `u` stands at `mark`. Between characters, `mark` tells
whether such an escape has just ended. -/
inductive StringState where
  | between (mark : Option Nat)
  | escape
  | digits (mark missing value : Nat)

/-- Code units to characters: a high and a low surrogate in a row are one character. -/
def joinSurrogates (lone : Nat → Char) : List Nat → List Char
  | [] => []
  | [n] => [if 0xd800 ≤ n ∧ n < 0xe000 then lone n else Char.ofNat n]
  | n :: m :: rest =>
    if 0xd800 ≤ n ∧ n < 0xdc00 ∧ 0xdc00 ≤ m ∧ m < 0xe000 then
      Char.ofNat (0x10000 + (n - 0xd800) * 0x400 + (m - 0xdc00)) :: joinSurrogates lone rest
    else
      (if 0xd800 ≤ n ∧ n < 0xe000 then lone n else Char.ofNat n) :: joinSurrogates lone (m :: rest)

/-- The code units of a string that was opened at `start`, after the units `done`, which are in
reverse order. -/
def readUnits (start : Nat) (done : List Nat) (offset : Nat) :
    StringState → List Char → Except Failure (List Nat × Cursor)
  | .between none, [] => fail .unterminatedString start
  | .between (some mark), [] => fail .invalidUnicodeEscape mark
  | .escape, [] => fail .unterminatedString start
  | .digits mark _ _, [] => fail .invalidUnicodeEscape mark
  | .between _, c :: rest =>
    if c = '"' then .ok (done.reverse, ⟨offset + 1, rest⟩)
    else if c = '\\' then readUnits start done (offset + 1) .escape rest
    else if c.toNat < 0x20 then fail .controlCharacter offset
    else readUnits start (c.toNat :: done) (offset + 1) (.between none) rest
  | .escape, c :: rest =>
    if c = 'u' then readUnits start done (offset + 1) (.digits offset 4 0) rest
    else match simpleEscape? c with
      | some n => readUnits start (n :: done) (offset + 1) (.between none) rest
      | none => fail .invalidEscape (offset - 1)
  | .digits mark missing value, c :: rest =>
    match hexDigit? c with
    | none => fail .invalidUnicodeEscape mark
    | some d =>
      let value' := value * 16 + d
      if missing ≤ 1 then readUnits start (value' :: done) (offset + 1) (.between (some mark)) rest
      else readUnits start done (offset + 1) (.digits mark (missing - 1) value') rest

def readString (lone : Nat → Char) (start : Nat) (text : List Char) :
    Except Failure (String × Cursor) :=
  (readUnits start [] (start + 1) (.between none) text).map
    (fun (units, next) => (String.ofList (joinSurrogates lone units), next))

def naturalOf (digits : List Char) : Nat :=
  digits.foldl (fun n c => 10 * n + (c.toNat - '0'.toNat)) 0

def wholeDigits : List Char → List Char
  | [] => []
  | c :: rest =>
    if c = '0' then [c] else if c.isDigit then c :: rest.takeWhile Char.isDigit else []

def fractionDigits : List Char → List Char
  | '.' :: rest => rest.takeWhile Char.isDigit
  | _ => []

def exponentPart : List Char → Option (Nat × Int)
  | e :: rest =>
    if e = 'e' ∨ e = 'E' then
      let (signs, negative) := match rest with
        | '-' :: _ => (1, true)
        | '+' :: _ => (1, false)
        | _ => (0, false)
      let digits := (rest.drop signs).takeWhile Char.isDigit
      if digits.isEmpty then none
      else
        let size : Int := naturalOf digits
        some (1 + signs + digits.length, if negative then -size else size)
    else none
  | [] => none

def readNumber (cur : Cursor) : Except Failure (Json × Cursor) :=
  let (signs, negative) := match cur.rest with
    | '-' :: _ => (1, true)
    | _ => (0, false)
  let unsigned := cur.rest.drop signs
  let whole := wholeDigits unsigned
  if whole.isEmpty then fail .expectingValue cur.offset
  else
    let tail := unsigned.drop whole.length
    let fraction := fractionDigits tail
    let point := if fraction.isEmpty then 0 else 1
    let tail := tail.drop (point + fraction.length)
    let exponent := exponentPart tail
    let (size, scale) := exponent.getD (0, 0)
    let next : Cursor :=
      ⟨cur.offset + signs + whole.length + point + fraction.length + size, tail.drop size⟩
    if fraction.isEmpty ∧ exponent.isNone then
      if maxDigits < whole.length then .error (.longInteger whole.length)
      else
        let n : Int := naturalOf whole
        .ok (.int (if negative then -n else n), next)
    else
      let decimal : Decimal := ⟨naturalOf (whole ++ fraction), scale - fraction.length⟩
      .ok (.float (decimal.toDouble negative), next)

def words : List (List Char × Json) := [
  ("null".toList, .null), ("true".toList, .bool true), ("false".toList, .bool false),
  ("NaN".toList, .float .nan), ("Infinity".toList, .float (.infinite false)),
  ("-Infinity".toList, .float (.infinite true))]

def readScalar (cur : Cursor) : Except Failure (Json × Cursor) :=
  match words.findSome? (fun w => (after? w.1 cur.rest).map (fun rest => (w, rest))) with
  | some ((word, value), rest) => .ok (value, ⟨cur.offset + word.length, rest⟩)
  | none => readNumber cur

mutual

def readValue (lone : Nat → Char) (fuel depth : Nat) (cur : Cursor) :
    Except Failure (Json × Cursor) :=
  match fuel, cur.rest with
  | 0, _ => fail .expectingValue cur.offset
  | _, [] => fail .expectingValue cur.offset
  | fuel + 1, c :: rest =>
    if c = '"' then
      (readString lone cur.offset rest).map (fun (s, next) => (.string s, next))
    else if c = '[' then
      let next := skipSpaceFrom (cur.offset + 1) rest
      match depth, next.rest with
      | 0, _ => .error (.tooDeep .array)
      | _, ']' :: rest => .ok (.array [], ⟨next.offset + 1, rest⟩)
      | depth + 1, _ => readItems lone fuel depth [] next
    else if c = '\x7b' then
      let next := skipSpaceFrom (cur.offset + 1) rest
      match depth, next.rest with
      | 0, _ => .error (.tooDeep .object)
      | _, '\x7d' :: rest => .ok (.object [], ⟨next.offset + 1, rest⟩)
      | depth + 1, _ => readFields lone fuel depth [] next
    else readScalar cur

/-- The items of a list from the first that is missing; `done` holds those before, in reverse. -/
def readItems (lone : Nat → Char) (fuel depth : Nat) (done : List Json) (cur : Cursor) :
    Except Failure (Json × Cursor) :=
  match fuel with
  | 0 => fail .expectingValue cur.offset
  | fuel + 1 =>
    match readValue lone fuel depth cur with
    | .error e => .error e
    | .ok (value, next) =>
      let next := next.skipSpace
      match next.rest with
      | ']' :: rest => .ok (.array (value :: done).reverse, ⟨next.offset + 1, rest⟩)
      | ',' :: rest =>
        readItems lone fuel depth (value :: done) (skipSpaceFrom (next.offset + 1) rest)
      | _ => fail .expectingComma next.offset

def readFields (lone : Nat → Char) (fuel depth : Nat) (done : List (String × Json)) (cur : Cursor) :
    Except Failure (Json × Cursor) :=
  match fuel, cur.rest with
  | fuel + 1, '"' :: rest =>
    match readString lone cur.offset rest with
    | .error e => .error e
    | .ok (key, next) =>
      let next := next.skipSpace
      match next.rest with
      | ':' :: rest =>
        match readValue lone fuel depth (skipSpaceFrom (next.offset + 1) rest) with
        | .error e => .error e
        | .ok (value, next) =>
          let done := setEntry key value done
          let next := next.skipSpace
          match next.rest with
          | '\x7d' :: rest => .ok (.object done, ⟨next.offset + 1, rest⟩)
          | ',' :: rest => readFields lone fuel depth done (skipSpaceFrom (next.offset + 1) rest)
          | _ => fail .expectingComma next.offset
      | _ => fail .expectingColon next.offset
  | _, _ => fail .expectingName cur.offset

end

def read (d : Dialect) (text : List Char) : Except Failure Json :=
  match text with
  | '\ufeff' :: _ => fail .byteOrderMark 0
  | _ =>
    match readValue d.lone (2 * text.length + 2) d.depth (skipSpaceFrom 0 text) with
    | .error e => .error e
    | .ok (value, next) =>
      let next := next.skipSpace
      if next.rest.isEmpty then .ok value else fail .extraData next.offset

def Container.name : Container → String
  | .array => "array"
  | .object => "object"

def Problem.text : Problem → String
  | .expectingValue => "Expecting value"
  | .expectingName => "Expecting property name enclosed in double quotes"
  | .expectingColon => "Expecting ':' delimiter"
  | .expectingComma => "Expecting ',' delimiter"
  | .extraData => "Extra data"
  | .unterminatedString => "Unterminated string starting at"
  | .controlCharacter => "Invalid control character at"
  | .invalidEscape => "Invalid \\escape"
  | .invalidUnicodeEscape => "Invalid \\uXXXX escape"
  | .byteOrderMark => "Unexpected UTF-8 BOM (decode using utf-8-sig)"

structure Report where
  problem : Problem
  line : Nat
  column : Nat
  offset : Nat
deriving DecidableEq

def Report.locate (text : List Char) (what : Problem) (offset : Nat) : Report where
  problem := what
  line := (text.take offset).count '\n' + 1
  column := ((text.take offset).reverse.takeWhile (· ≠ '\n')).length + 1
  offset := offset

def Report.text (r : Report) : String :=
  s!"{r.problem.text}: line {r.line} column {r.column} (char {r.offset})"

end DialogueFlow.Json
