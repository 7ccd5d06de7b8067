import DialogueFlow.Text.Printable

namespace DialogueFlow.Text

def hex (width n : Nat) : List Char :=
  match width with
  | 0 => []
  | width + 1 => hex width (n / 16) ++ [Nat.digitChar (n % 16)]

/-- Double quotes are chosen only for text with a single and without a double quote. -/
def quoteFor (s : List Char) : Char :=
  if s.contains '\'' && !s.contains '"' then '"' else '\''

def escapeUnprintable (n : Nat) : List Char :=
  if n < 0x100 then '\\' :: 'x' :: hex 2 n
  else if n < 0x10000 then '\\' :: 'u' :: hex 4 n
  else '\\' :: 'U' :: hex 8 n

def escapeQuoted (quote c : Char) : List Char :=
  if c = quote || c = '\\' then ['\\', c]
  else if c = '\n' then ['\\', 'n']
  else if c = '\r' then ['\\', 'r']
  else if c = '\t' then ['\\', 't']
  else if isPrintable c then [c]
  else escapeUnprintable c.toNat

def quoteChars (s : List Char) : List Char :=
  let quote := quoteFor s
  quote :: s.flatMap (escapeQuoted quote) ++ [quote]

def quote (s : String) : String := String.ofList (quoteChars s.toList)

/-- A code point beyond the sixteen-bit range is written as two surrogate units. -/
def escapeUnits (n : Nat) : List Char :=
  if n < 0x10000 then '\\' :: 'u' :: hex 4 n
  else
    ('\\' :: 'u' :: hex 4 (0xd800 + (n - 0x10000) / 0x400)) ++
      ('\\' :: 'u' :: hex 4 (0xdc00 + (n - 0x10000) % 0x400))

def escapeAscii (n : Nat) : List Char :=
  if n = 0x22 then ['\\', '"']
  else if n = 0x5c then ['\\', '\\']
  else if n = 0xa then ['\\', 'n']
  else if n = 0xd then ['\\', 'r']
  else if n = 0x9 then ['\\', 't']
  else if n = 0x8 then ['\\', 'b']
  else if n = 0xc then ['\\', 'f']
  else if 0x20 ≤ n && n ≤ 0x7e then [Char.ofNat n]
  else escapeUnits n

def asciiChars (codes : List Nat) : List Char := '"' :: codes.flatMap escapeAscii ++ ['"']

def ascii (codes : List Nat) : String := String.ofList (asciiChars codes)

def codes (s : String) : List Nat := s.toList.map Char.toNat

/-- Text in which surrogates may stand on their own. -/
abbrev Raw := List (Fin 0x110000)

def Raw.codes (s : Raw) : List Nat := s.map Fin.val

end DialogueFlow.Text
