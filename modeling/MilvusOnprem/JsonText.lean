import Mathlib.Data.List.Basic
import Mathlib.Data.Int.Basic
import Mathlib.Algebra.Group.Nat.Defs
import Mathlib.Algebra.Group.Int.Defs

/-!
# JSON texts

The trees, the decoder and the encoder of a JSON library with the conventions of
Python's `json` module: `loads` takes blanks around every token, rejects control
characters inside strings, accepts `NaN` and the infinities, and fails on
anything left over after the value. `dumps` escapes everything outside printable
ASCII.

An object keeps its fields in the order of the text, and looking a key up
returns its last field, which is the dictionary a repeated key leaves. A number
with a fraction or an exponent is kept as its exact decimal value; rounding it
to a binary float is left out. An escaped lone surrogate has no character and
is read as the replacement character. The decoder counts its nesting with fuel;
`loads` supplies twice the length of the text, and `JsonRoundTrip` proves that
this is enough for every text that the encoder writes.
-/
namespace MilvusOnprem

/-- `mantissa / 10 ^ (places + 1)`: a decimal with at least one fraction digit. -/
structure Decimal where
  mantissa : ℤ
  places : ℕ
deriving DecidableEq, Repr

inductive NonFinite where
  | nan | infinity | negInfinity
deriving DecidableEq, Repr

inductive Json where
  | null
  | bool (b : Bool)
  | int (n : ℤ)
  | float (x : Decimal)
  | nonFinite (x : NonFinite)
  | str (s : String)
  | arr (elems : List Json)
  | obj (fields : List (String × Json))
deriving Repr

namespace Json

/-- The dictionary lookup: the last field of a repeated key. -/
def field (k : String) (fields : List (String × Json)) : Option Json :=
  (fields.reverse.find? fun f => f.1 = k).map Prod.snd

/-- The truth value of the decoded object. -/
def truthy : Json → Bool
  | .null => false
  | .bool b => b
  | .int n => n ≠ 0
  | .float x => x.mantissa ≠ 0
  | .nonFinite _ => true
  | .str s => s ≠ ""
  | .arr elems => !elems.isEmpty
  | .obj fields => !fields.isEmpty

end Json

namespace JsonText

def isBlank (c : Char) : Bool := c = ' ' || c = '\t' || c = '\n' || c = '\r'

def skipBlanks (cs : List Char) : List Char := cs.dropWhile isBlank

/-! ## Numbers -/

def isDigit (c : Char) : Bool := 48 ≤ c.toNat && c.toNat ≤ 57

def digitValue (c : Char) : ℕ := c.toNat - 48

def digitsValue (ds : List Char) : ℕ := ds.foldl (fun n c => 10 * n + digitValue c) 0

def digitChar (d : ℕ) : Char := Char.ofNat (48 + d)

/-- Either a single zero or a run of digits that does not start with one. -/
def integerPart : List Char → Option (List Char × List Char)
  | [] => none
  | c :: cs =>
      if c = '0' then some ([c], cs)
      else if isDigit c then some (c :: cs.takeWhile isDigit, cs.dropWhile isDigit)
      else none

/-- The digits after a point, if there is at least one; otherwise the point is
not part of the number. -/
def fractionPart : List Char → List Char × List Char
  | [] => ([], [])
  | c :: cs =>
      if c = '.' ∧ cs.takeWhile isDigit ≠ [] then
        (cs.takeWhile isDigit, cs.dropWhile isDigit)
      else ([], c :: cs)

def signed : List Char → Bool × List Char
  | [] => (false, [])
  | c :: cs => if c = '-' then (true, cs) else if c = '+' then (false, cs) else (false, c :: cs)

/-- The exponent, if its marker is followed by at least one digit. -/
def exponentPart : List Char → Option ℤ × List Char
  | [] => (none, [])
  | c :: cs =>
      let s := signed cs
      let ds := s.2.takeWhile isDigit
      if (c = 'e' ∨ c = 'E') ∧ ds ≠ [] then
        (some (if s.1 then -(digitsValue ds : ℤ) else digitsValue ds), s.2.dropWhile isDigit)
      else (none, c :: cs)

/-- `digits · 10 ^ (exponent - places)` with at least one fraction digit. -/
def decimal (digits : ℤ) (places : ℕ) (exponent : ℤ) : Decimal :=
  let p := (places : ℤ) - exponent
  if 1 ≤ p then ⟨digits, (p - 1).toNat⟩ else ⟨digits * 10 ^ (1 - p).toNat, 0⟩

def number (negative : Bool) (cs : List Char) : Option (Json × List Char) := do
  let (ds, rest) ← integerPart cs
  let (fs, rest) := fractionPart rest
  let (e, rest) := exponentPart rest
  let n : ℤ := digitsValue (ds ++ fs)
  let n := if negative then -n else n
  if fs = [] ∧ e = none then some (.int n, rest)
  else some (.float (decimal n fs.length (e.getD 0)), rest)

/-! ## Strings -/

def hexValue (c : Char) : Option ℕ :=
  if isDigit c then some (c.toNat - 48)
  else if 97 ≤ c.toNat ∧ c.toNat ≤ 102 then some (c.toNat - 87)
  else if 65 ≤ c.toNat ∧ c.toNat ≤ 70 then some (c.toNat - 55)
  else none

def hex4 : List Char → Option (ℕ × List Char)
  | a :: b :: c :: d :: cs => do
      let a ← hexValue a
      let b ← hexValue b
      let c ← hexValue c
      let d ← hexValue d
      some (((a * 16 + b) * 16 + c) * 16 + d, cs)
  | _ => none

def replacement : Char := Char.ofNat 0xFFFD

/-- The second half of a surrogate pair, when it follows. -/
def lowHalf : List Char → Option (ℕ × List Char)
  | c :: d :: cs => do
      if c = '\\' ∧ d = 'u' then
        let (n, cs) ← hex4 cs
        if 0xDC00 ≤ n ∧ n < 0xE000 then some (n, cs) else none
      else none
  | _ => none

def unicodeEscape (cs : List Char) : Option (Char × List Char) := do
  let (n, cs) ← hex4 cs
  if 0xD800 ≤ n ∧ n < 0xDC00 then
    match lowHalf cs with
    | some (m, cs) => some (Char.ofNat (0x10000 + (n - 0xD800) * 1024 + (m - 0xDC00)), cs)
    | none => some (replacement, cs)
  else if 0xDC00 ≤ n ∧ n < 0xE000 then some (replacement, cs)
  else some (Char.ofNat n, cs)

/-- What follows a backslash. -/
def escape : List Char → Option (Char × List Char)
  | [] => none
  | c :: cs =>
      if c = '"' ∨ c = '\\' ∨ c = '/' then some (c, cs)
      else if c = 'b' then some ('\x08', cs)
      else if c = 'f' then some ('\x0c', cs)
      else if c = 'n' then some ('\n', cs)
      else if c = 'r' then some ('\r', cs)
      else if c = 't' then some ('\t', cs)
      else if c = 'u' then unicodeEscape cs
      else none

/-- The characters up to the closing quote. -/
def stringBody : ℕ → List Char → Option (List Char × List Char)
  | 0, _ => none
  | _ + 1, [] => none
  | fuel + 1, c :: cs =>
      if c = '"' then some ([], cs)
      else if c = '\\' then do
        let (x, rest) ← escape cs
        let (xs, rest) ← stringBody fuel rest
        some (x :: xs, rest)
      else if c.toNat < 32 then none
      else do
        let (xs, rest) ← stringBody fuel cs
        some (c :: xs, rest)

def stringToken (cs : List Char) : Option (String × List Char) :=
  (stringBody (cs.length + 1) cs).map fun r => (String.ofList r.1, r.2)

/-! ## Values -/

/-- The text after a literal word, if the input starts with it. -/
def word (w : String) (cs : List Char) : Option (List Char) :=
  if w.toList.isPrefixOf cs then some (cs.drop w.toList.length) else none

/-- The values named by a word. -/
def constant (cs : List Char) : Option (Json × List Char) :=
  ([("null", .null), ("true", .bool true), ("false", .bool false),
    ("NaN", .nonFinite .nan), ("Infinity", .nonFinite .infinity),
    ("-Infinity", .nonFinite .negInfinity)] : List (String × Json)).findSome?
      fun e => (word e.1 cs).map (e.2, ·)

def scalar (cs : List Char) : Option (Json × List Char) :=
  match constant cs with
  | some r => some r
  | none =>
      match cs with
      | [] => none
      | c :: rest => if c = '-' then number true rest else number false (c :: rest)

mutual

def value : ℕ → List Char → Option (Json × List Char)
  | 0, _ => none
  | _ + 1, [] => none
  | fuel + 1, c :: cs =>
      if c = '"' then (stringToken cs).map fun r => (.str r.1, r.2)
      else if c = '[' then
        match skipBlanks cs with
        | [] => none
        | d :: ds =>
            if d = ']' then some (.arr [], ds)
            else (elements fuel (d :: ds)).map fun r => (.arr r.1, r.2)
      else if c = '\x7b' then
        match skipBlanks cs with
        | [] => none
        | d :: ds =>
            if d = '\x7d' then some (.obj [], ds)
            else (members fuel (d :: ds)).map fun r => (.obj r.1, r.2)
      else scalar (c :: cs)

/-- One or more values separated by commas, up to the closing bracket. -/
def elements : ℕ → List Char → Option (List Json × List Char)
  | 0, _ => none
  | fuel + 1, cs => do
      let (v, rest) ← value fuel cs
      match skipBlanks rest with
      | [] => none
      | d :: ds =>
          if d = ']' then some ([v], ds)
          else if d = ',' then do
            let (vs, rest) ← elements fuel (skipBlanks ds)
            some (v :: vs, rest)
          else none

/-- One or more fields separated by commas, up to the closing brace. -/
def members : ℕ → List Char → Option (List (String × Json) × List Char)
  | 0, _ => none
  | _ + 1, [] => none
  | fuel + 1, c :: cs =>
      if c = '"' then do
        let (k, rest) ← stringToken cs
        match skipBlanks rest with
        | [] => none
        | d :: ds =>
            if d = ':' then do
              let (v, rest) ← value fuel (skipBlanks ds)
              match skipBlanks rest with
              | [] => none
              | e :: es =>
                  if e = '\x7d' then some ([(k, v)], es)
                  else if e = ',' then do
                    let (kvs, rest) ← members fuel (skipBlanks es)
                    some ((k, v) :: kvs, rest)
                  else none
            else none
      else none

end

/-- `json.loads`; `none` stands for `JSONDecodeError`. -/
def loads (text : String) : Option Json := do
  let cs := skipBlanks text.toList
  let (v, rest) ← value (2 * cs.length) cs
  if skipBlanks rest = [] then some v else none

/-! ## Encoding -/

def hexDigit (d : ℕ) : Char := if d < 10 then Char.ofNat (48 + d) else Char.ofNat (87 + d)

def encodeHex4 (n : ℕ) : List Char :=
  ['\\', 'u', hexDigit (n / 4096 % 16), hexDigit (n / 256 % 16), hexDigit (n / 16 % 16),
    hexDigit (n % 16)]

def encodeChar (c : Char) : List Char :=
  if c = '"' ∨ c = '\\' then ['\\', c]
  else if c = '\n' then ['\\', 'n']
  else if c = '\r' then ['\\', 'r']
  else if c = '\t' then ['\\', 't']
  else if c = '\x0c' then ['\\', 'f']
  else if c = '\x08' then ['\\', 'b']
  else if 32 ≤ c.toNat ∧ c.toNat < 127 then [c]
  else if c.toNat < 0x10000 then encodeHex4 c.toNat
  else
    encodeHex4 (0xD800 + (c.toNat - 0x10000) / 1024) ++
      encodeHex4 (0xDC00 + (c.toNat - 0x10000) % 1024)

def encodeString (s : String) : List Char := '"' :: s.toList.flatMap encodeChar ++ ['"']

/-- Exactly `k` decimal digits, the low ones of `n`. -/
def paddedDigits : ℕ → ℕ → List Char
  | 0, _ => []
  | k + 1, n => paddedDigits k (n / 10) ++ [digitChar (n % 10)]

/-- The decimal digits of `n`, for a fuel above their number. -/
def digitsUpTo : ℕ → ℕ → List Char
  | 0, n => [digitChar (n % 10)]
  | fuel + 1, n => if n < 10 then [digitChar n] else digitsUpTo fuel (n / 10) ++ [digitChar (n % 10)]

def natDigits (n : ℕ) : List Char := digitsUpTo n n

def withSign (n : ℤ) (digits : List Char) : List Char := if n < 0 then '-' :: digits else digits

def encodeDecimal (x : Decimal) : List Char :=
  withSign x.mantissa
    (natDigits (x.mantissa.natAbs / 10 ^ (x.places + 1)) ++
      '.' :: paddedDigits (x.places + 1) (x.mantissa.natAbs % 10 ^ (x.places + 1)))

def encodeNonFinite : NonFinite → String
  | .nan => "NaN"
  | .infinity => "Infinity"
  | .negInfinity => "-Infinity"

/-- The blank after a separator, which the compact form leaves out. -/
def gap (compact : Bool) : List Char := if compact then [] else [' ']

mutual

def encode (compact : Bool) : Json → List Char
  | .null => "null".toList
  | .bool true => "true".toList
  | .bool false => "false".toList
  | .int n => withSign n (natDigits n.natAbs)
  | .float x => encodeDecimal x
  | .nonFinite x => (encodeNonFinite x).toList
  | .str s => encodeString s
  | .arr elems => '[' :: encodeElements compact elems
  | .obj fields => '\x7b' :: encodeFields compact fields

def encodeElements (compact : Bool) : List Json → List Char
  | [] => [']']
  | [v] => encode compact v ++ [']']
  | v :: vs => encode compact v ++ ',' :: gap compact ++ encodeElements compact vs

def encodeFields (compact : Bool) : List (String × Json) → List Char
  | [] => ['\x7d']
  | [(k, v)] => encodeString k ++ ':' :: gap compact ++ encode compact v ++ ['\x7d']
  | (k, v) :: kvs =>
      encodeString k ++ ':' :: gap compact ++ encode compact v ++
        ',' :: gap compact ++ encodeFields compact kvs

end

/-- `json.dumps` with its default separators. -/
def dumps (j : Json) : String := String.ofList (encode false j)

/-- `json.dumps` with `separators=(",", ":")`. -/
def dumpsCompact (j : Json) : String := String.ofList (encode true j)

end JsonText
end MilvusOnprem
