import PerpetuaCore.Json.Dumps
import PerpetuaCore.Python.Dict

namespace Json

open Python (CodePoint Str Value Float64 Dict)

def isSpace (c : CodePoint) : Bool :=
  ([.ofChar ' ', .ofChar '\t', .ofChar '\n', .ofChar '\r'] : Str).contains c

def skipSpace (s : Str) : Str := s.dropWhile isSpace

-- The rest after this delimiter, the whitespace before it skipped.
def expect (delimiter : CodePoint) (s : Str) : Option Str :=
  match skipSpace s with
  | c :: rest => if c = delimiter then some rest else none
  | [] => none

section Strings

def hexValue (c : CodePoint) : Option Nat :=
  if 0x30 ≤ c.val ∧ c.val ≤ 0x39 then some (c.val - 0x30)
  else if 0x61 ≤ c.val ∧ c.val ≤ 0x66 then some (c.val - 0x57)
  else if 0x41 ≤ c.val ∧ c.val ≤ 0x46 then some (c.val - 0x37)
  else none

def readHex4 (a b c d : CodePoint) : Option Unit16 :=
  match hexValue a, hexValue b, hexValue c, hexValue d with
  | some w, some x, some y, some z =>
      some ⟨(4096 * w + 256 * x + 16 * y + z) % 0x10000, Nat.mod_lt _ (by decide)⟩
  | _, _, _, _ => none

-- The letters after a backslash, with the character each stands for.
def letters : List (CodePoint × CodePoint) :=
  [(quote, quote), (backslash, backslash), (.ofChar '/', .ofChar '/'), (.ofChar 'b', .ofChar '\x08'),
    (.ofChar 'f', .ofChar '\x0c'), (.ofChar 'n', .ofChar '\n'), (.ofChar 'r', .ofChar '\r'),
    (.ofChar 't', .ofChar '\t')]

-- A character of a string, or the unit of a `\u` escape.
abbrev Unescaped := CodePoint ⊕ Unit16

-- The text up to the closing quote. A control character must be escaped.
def scanUnescaped : Str → Option (List Unescaped × Str)
  | [] => none
  | c :: rest =>
      if c = quote then some ([], rest)
      else if c = backslash then
        match rest with
        | [] => none
        | letter :: rest =>
            if letter = .ofChar 'u' then
              match rest with
              | w :: x :: y :: z :: rest =>
                  match readHex4 w x y z, scanUnescaped rest with
                  | some unit, some (parts, rest) => some (.inr unit :: parts, rest)
                  | _, _ => none
              | _ => none
            else
              match letters.lookup letter, scanUnescaped rest with
              | some char, some (parts, rest) => some (.inl char :: parts, rest)
              | _, _ => none
      else if c.val < 0x20 then none
      else (scanUnescaped rest).map fun p => (.inl c :: p.1, p.2)

def Unit16.isHigh (u : Unit16) : Bool := 0xd800 ≤ u.val ∧ u.val ≤ 0xdbff

def Unit16.isLow (u : Unit16) : Bool := 0xdc00 ≤ u.val ∧ u.val ≤ 0xdfff

def combine (high low : Unit16) : CodePoint :=
  ⟨(0x10000 + 0x400 * (high.val - 0xd800) + (low.val - 0xdc00)) % 0x110000, Nat.mod_lt _ (by decide)⟩

-- Two escaped units that make a surrogate pair are one character.
def joinUnits : List Unescaped → Str
  | [] => []
  | .inl c :: rest => c :: joinUnits rest
  | .inr high :: .inr low :: rest =>
      if high.isHigh && low.isLow then combine high low :: joinUnits rest
      else high.toCodePoint :: joinUnits (.inr low :: rest)
  | .inr u :: rest => u.toCodePoint :: joinUnits rest

-- `scanstring`, after the opening quote.
def scanString (s : Str) : Option (Str × Str) :=
  (scanUnescaped s).map fun p => (joinUnits p.1, p.2)

end Strings

section Numbers

def isDigit (c : CodePoint) : Bool := 0x30 ≤ c.val ∧ c.val ≤ 0x39

def lexSign (signs : Str) : Str → Str × Str
  | [] => ([], [])
  | c :: rest => if signs.contains c then ([c], rest) else ([], c :: rest)

-- `0|[1-9]\d*`.
def lexWhole : Str → Option (Str × Str)
  | [] => none
  | c :: rest =>
      if c = .ofChar '0' then some ([c], rest)
      else if isDigit c then some (c :: rest.takeWhile isDigit, rest.dropWhile isDigit)
      else none

-- `(\.\d+)?`.
def lexFraction : Str → Str × Str
  | [] => ([], [])
  | c :: rest =>
      if c = .ofChar '.' ∧ rest.takeWhile isDigit ≠ [] then
        (c :: rest.takeWhile isDigit, rest.dropWhile isDigit)
      else ([], c :: rest)

-- `([eE][-+]?\d+)?`.
def lexExponent : Str → Str × Str
  | [] => ([], [])
  | c :: rest =>
      let sign := lexSign [.ofChar '-', .ofChar '+'] rest
      if (c = .ofChar 'e' ∨ c = .ofChar 'E') ∧ sign.2.takeWhile isDigit ≠ [] then
        (c :: (sign.1 ++ sign.2.takeWhile isDigit), sign.2.dropWhile isDigit)
      else ([], c :: rest)

structure Token where
  text : Str
  isFloat : Bool
  rest : Str
  deriving DecidableEq

-- `NUMBER_RE`.
def lexNumber (s : Str) : Option Token :=
  let sign := lexSign [.ofChar '-'] s
  (lexWhole sign.2).map fun whole =>
    let fraction := lexFraction whole.2
    let exponent := lexExponent fraction.2
    ⟨sign.1 ++ whole.1 ++ fraction.1 ++ exponent.1, !(fraction.1 ++ exponent.1).isEmpty, exponent.2⟩

def toChars (s : Str) : List Char := s.map fun c => Char.ofNat c.val

-- `int(text)` of such a token.
def readInt (s : Str) : Int :=
  let sign := lexSign [.ofChar '-'] s
  let magnitude : Int := Nat.ofDigitChars 10 (toChars sign.2) 0
  if sign.1.isEmpty then magnitude else -magnitude

end Numbers

-- The words with their values.
def literals : List (Str × Value) :=
  [("null", .none), ("true", .bool true), ("false", .bool false), ("NaN", .float .nan),
    ("Infinity", .float (.infinite false)), ("-Infinity", .float (.infinite true))]

-- `dict(pairs)`.
def dictOf (pairs : List (Str × Value)) : Value :=
  .dict ((Dict.ofList pairs).items.map fun p => (.str p.1, p.2))

-- `float(text)` of a token with a fraction or an exponent.
variable (readFloat : Str → Float64)

def scanScalar (s : Str) : Option (Value × Str) :=
  match literals.find? fun literal => literal.1.isPrefixOf s with
  | some (text, value) => some (value, s.drop text.length)
  | none => (lexNumber s).map fun token =>
      (if token.isFloat then .float (readFloat token.text) else .int (readInt token.text), token.rest)

mutual

-- `scan_once`. The fuel bounds the characters read.
def scan : Nat → Str → Option (Value × Str)
  | fuel + 1, c :: rest =>
      if c = quote then (scanString rest).map fun p => (.str p.1, p.2)
      else if c = openBracket then
        match expect closeBracket rest with
        | some rest => some (.list [], rest)
        | none => (scanItems fuel rest).map fun p => (.list p.1, p.2)
      else if c = openBrace then
        match expect closeBrace rest with
        | some rest => some (.dict [], rest)
        | none => (scanMembers fuel rest).map fun p => (dictOf p.1, p.2)
      else scanScalar readFloat (c :: rest)
  | _, _ => none

-- The items up to the closing bracket, at least one.
def scanItems : Nat → Str → Option (List Value × Str)
  | fuel + 1, s =>
      (scan fuel (skipSpace s)).bind fun x =>
        match expect comma x.2 with
        | some rest => (scanItems fuel rest).map fun p => (x.1 :: p.1, p.2)
        | none => (expect closeBracket x.2).map fun rest => ([x.1], rest)
  | 0, _ => none

-- The members up to the closing brace, at least one.
def scanMembers : Nat → Str → Option (List (Str × Value) × Str)
  | fuel + 1, s =>
      ((expect quote s).bind scanString).bind fun key =>
        ((expect colon key.2).bind fun rest => scan fuel (skipSpace rest)).bind fun x =>
          match expect comma x.2 with
          | some rest => (scanMembers fuel rest).map fun p => ((key.1, x.1) :: p.1, p.2)
          | none => (expect closeBrace x.2).map fun rest => ([(key.1, x.1)], rest)
  | 0, _ => none

end

-- `json.loads`; `none` where it raises JSONDecodeError.
def loads (s : Str) : Option Value :=
  match scan readFloat s.length (skipSpace s) with
  | some (value, rest) => if (skipSpace rest).isEmpty then some value else none
  | none => none

end Json
