import HolonightConfig.Text.Lexer
import HolonightConfig.Toml.Node

/-! The lexical grammar of TOML 1.0: blanks, comments and line ends, the four kinds of
string, keys, and the decoding of numbers, booleans and dates. -/
namespace Toml
namespace Lexical
open Text

def isBlank (b : UInt8) : Bool := b == 0x20 || b == 0x09
def isDigit (b : UInt8) : Bool := 0x30 ≤ b && b ≤ 0x39
def isAlpha (b : UInt8) : Bool := (0x41 ≤ b && b ≤ 0x5A) || (0x61 ≤ b && b ≤ 0x7A)
def isBareKey (b : UInt8) : Bool := isAlpha b || isDigit b || b == 0x5F || b == 0x2D
/-- Octets a comment or a string may hold; the control characters besides the tab are out. -/
def isNonEol (b : UInt8) : Bool := b == 0x09 || (0x20 ≤ b && b != 0x7F)
def isBareScalar (b : UInt8) : Bool := isBareKey b || b == 0x2B || b == 0x2E || b == 0x3A

def hexValue (b : UInt8) : Option ℕ :=
  if isDigit b then some (b.toNat - 0x30)
  else if 0x41 ≤ b && b ≤ 0x46 then some (b.toNat - 0x41 + 10)
  else if 0x61 ≤ b && b ≤ 0x66 then some (b.toNat - 0x61 + 10)
  else none

/-- The UTF-8 octets of a Unicode scalar value. -/
def codePoint (n : ℕ) : Option Bytes :=
  if n < 0xD800 ∨ (0xDFFF < n ∧ n ≤ 0x10FFFF) then some (String.utf8EncodeChar (Char.ofNat n))
  else none

def escaped (b : UInt8) : Option UInt8 :=
  if b = 0x62 then some 0x08
  else if b = 0x74 then some 0x09
  else if b = 0x6E then some 0x0A
  else if b = 0x66 then some 0x0C
  else if b = 0x72 then some 0x0D
  else if b = 0x22 then some 0x22
  else if b = 0x5C then some 0x5C
  else none

/-! ### Strings -/

inductive StringState
  | first | firstReturn | plain | quotes (n : ℕ) | return | escape | hex (more value : ℕ)
  | trim | trimBlank | trimReturn
  deriving DecidableEq

/-- `quote` tells basic from literal strings; only a basic string has escapes. -/
def plainStep (quote : UInt8) (multiline : Bool) (c : UInt8) : Action StringState :=
  if c = quote then (if multiline then .next [] (.quotes 1) else .stop [])
  else if c = 0x5C ∧ quote = 0x22 then .next [] .escape
  else if multiline ∧ c = lineFeed then .next [c] .plain
  else if multiline ∧ c = carriageReturn then .next [] .return
  else if isNonEol c then .next [c] .plain
  else .fail

/-- A line-ending backslash swallows the line break and all blank space behind it. -/
def trimStep (c : UInt8) : Option (Action StringState) :=
  if isBlank c then some (.next [] .trimBlank)
  else if c = lineFeed then some (.next [] .trim)
  else if c = carriageReturn then some (.next [] .trimReturn)
  else none

/-- The text behind an opening delimiter. Of a run of three to five quotes that ends a
multi-line string, the last three close it and the others belong to it. -/
def stringStep (quote : UInt8) (multiline : Bool) : Transducer StringState
  | .first,some c =>
    if c = lineFeed then .next [] .plain
    else if c = carriageReturn then .next [] .firstReturn
    else plainStep quote multiline c
  | .firstReturn,some c => if c = lineFeed then .next [] .plain else .fail
  | .plain,some c => plainStep quote multiline c
  | .quotes n,some c =>
    if n ≤ 2 then
      if c = quote then .next [] (.quotes (n + 1))
      else (plainStep quote multiline c).prepend (List.replicate n quote)
    else if c = quote then
      if n = 3 then .next [quote] (.quotes 4) else .stop [quote]
    else .before []
  | .quotes n,none => if n ≤ 2 then .fail else .before []
  | .return,some c => if c = lineFeed then .next [c] .plain else .fail
  | .escape,some c =>
    match escaped c with
    | some e => .next [e] .plain
    | none =>
      if c = 0x75 then .next [] (.hex 3 0)
      else if c = 0x55 then .next [] (.hex 7 0)
      else if multiline then (trimStep c).getD .fail
      else .fail
  | .hex more value,some c =>
    match hexValue c with
    | none => .fail
    | some d =>
      match more with
      | 0 => match codePoint (16 * value + d) with
        | some e => .next e .plain
        | none => .fail
      | m + 1 => .next [] (.hex m (16 * value + d))
  | .trimBlank,some c => (trimStep c).getD .fail
  | .trimReturn,some c => if c = lineFeed then .next [] .trim else .fail
  | .trim,some c =>
    if isBlank c ∨ c = lineFeed then .next [] .trim
    else if c = carriageReturn then .next [] .trimReturn
    else plainStep quote multiline c
  | _,none => .fail

def isQuote (c : UInt8) : Bool := c == 0x22 || c == 0x27

/-- A single-line string behind its opening quote. -/
def singleLine (quote : UInt8) : Lexer Bytes := .token (stringStep quote false) .plain

/-- A string behind its opening quote; three quotes in a row open a multi-line one. -/
def string (quote : UInt8) : Lexer Bytes := do
  let second ← Lexer.look
  if second.head? = some quote then
    let _ ← Lexer.octet quote
    let third ← Lexer.look
    if third.head? = some quote then
      let _ ← Lexer.octet quote
      Lexer.token (stringStep quote true) .first
    else pure []
  else singleLine quote

/-! ### Blank space between tokens -/

inductive GapState
  | blank | comment | return
  deriving DecidableEq

/-- Blanks, comments and line breaks, as they may stand between array elements. An array
does not end with the text. -/
def gapStep : Transducer GapState
  | .blank,some c =>
    if isBlank c ∨ c = lineFeed then .next [c] .blank
    else if c = 0x23 then .next [c] .comment
    else if c = carriageReturn then .next [c] .return
    else .before []
  | .comment,some c =>
    if c = lineFeed then .next [c] .blank
    else if c = carriageReturn then .next [c] .return
    else if isNonEol c then .next [c] .comment
    else .fail
  | .return,some c => if c = lineFeed then .next [c] .blank else .fail
  | _,none => .fail

def gap : Lexer Bytes := .token gapStep .blank

/-- What may follow an expression: blanks, a comment, and the line break or the end. -/
def tailStep : Transducer GapState
  | .blank,some c =>
    if isBlank c then .next [c] .blank
    else if c = 0x23 then .next [c] .comment
    else if c = lineFeed then .stop [c]
    else if c = carriageReturn then .next [c] .return
    else .fail
  | .comment,some c =>
    if c = lineFeed then .stop [c]
    else if c = carriageReturn then .next [c] .return
    else if isNonEol c then .next [c] .comment
    else .fail
  | .return,some c => if c = lineFeed then .stop [c] else .fail
  | .return,none => .fail
  | _,none => .before []

def tail : Lexer Bytes := .token tailStep .blank

/-! ### Keys -/

/-- A bare key or a single-line string. -/
def simpleKey : Lexer Bytes := do
  let ahead ← Lexer.look
  match ahead.head? with
  | some c =>
    if isQuote c then
      let _ ← Lexer.octet c
      singleLine c
    else if isBareKey c then Lexer.run isBareKey
    else Lexer.fail
  | none => Lexer.fail

/-- A dotted key with the blanks behind it. -/
def dottedKey : ℕ → Lexer (List Bytes)
  | 0 => Lexer.fail
  | fuel + 1 => do
    let k ← simpleKey
    let _ ← Lexer.run isBlank
    let ahead ← Lexer.look
    if ahead.head? = some 0x2E then
      let _ ← Lexer.octet 0x2E
      let _ ← Lexer.run isBlank
      let ks ← dottedKey fuel
      pure (k :: ks)
    else pure [k]

/-! ### Numbers, booleans and dates -/

/-- Digits with single underscores between them. -/
def ungroup (p : UInt8 → Bool) : Bytes → Option Bytes
  | [] => none
  | [c] => if p c then some [c] else none
  | c :: d :: r =>
    if p c then
      if d = 0x5F then (ungroup p r).map (c :: ·) else (ungroup p (d :: r)).map (c :: ·)
    else none

def radixValue (radix : ℕ) (ds : Bytes) : ℕ :=
  ds.foldl (fun n d => radix * n + (hexValue d).getD 0) 0

def isOctal (b : UInt8) : Bool := 0x30 ≤ b && b ≤ 0x37
def isBinary (b : UInt8) : Bool := b == 0x30 || b == 0x31

/-- Decimal digits without a leading zero. -/
def wholeDigits (s : Bytes) : Option Bytes :=
  (ungroup isDigit s).bind (fun ds => if ds.length = 1 ∨ ds.head? ≠ some 0x30 then some ds else none)

def signed : Bytes → Bool × Bytes
  | 0x2B :: r => (false,r)
  | 0x2D :: r => (true,r)
  | r => (false,r)

def int64 (n : ℤ) : Option Scalar :=
  if -2 ^ 63 ≤ n ∧ n < 2 ^ 63 then some (.integer n) else none

def integer : Bytes → Option Scalar
  | 0x30 :: 0x78 :: r => ((ungroup (fun c => (hexValue c).isSome) r).map (radixValue 16)).bind (int64 ·)
  | 0x30 :: 0x6F :: r => ((ungroup isOctal r).map (radixValue 8)).bind (int64 ·)
  | 0x30 :: 0x62 :: r => ((ungroup isBinary r).map (radixValue 2)).bind (int64 ·)
  | s =>
    let (negative,r) := signed s
    (wholeDigits r).bind (fun ds =>
      let n : ℤ := radixValue 10 ds
      int64 (if negative then -n else n))

/-- The text before the first octet of a class, and behind it if there is one. -/
def cut (p : UInt8 → Bool) (s : Bytes) : Bytes × Option Bytes :=
  (s.takeWhile (fun c => !p c),(s.dropWhile (fun c => !p c)).tail?)

def floating (s : Bytes) : Option Scalar :=
  let (negative,u) := signed s
  if u = bytes "inf" then some (.floating (.infinity negative))
  else if u = bytes "nan" then some (.floating (.quietNaN negative))
  else do
    let (mantissa,exponent) := cut (fun c => c == 0x65 || c == 0x45) u
    let (whole,fraction) := cut (fun c => c == 0x2E) mantissa
    guard (exponent.isSome ∨ fraction.isSome)
    let ws ← wholeDigits whole
    let fs ← match fraction with
      | none => some []
      | some f => ungroup isDigit f
    let e ← match exponent with
      | none => some (0 : ℤ)
      | some x => (ungroup isDigit (signed x).2).map (fun ds =>
          if (signed x).1 then -(radixValue 10 ds : ℤ) else radixValue 10 ds)
    some (.floating (.ofDecimal negative (radixValue 10 (ws ++ fs)) (e - fs.length)))

def decimalField (low high : ℕ) (s : Bytes) : Option ℕ :=
  if s.all isDigit ∧ low ≤ radixValue 10 s ∧ radixValue 10 s ≤ high then some (radixValue 10 s) else none

def daysIn (year month : ℕ) : ℕ :=
  if month = 2 then
    if year % 4 = 0 ∧ (year % 100 ≠ 0 ∨ year % 400 = 0) then 29 else 28
  else if month = 4 ∨ month = 6 ∨ month = 9 ∨ month = 11 then 30
  else 31

def date : Bytes → Option Date
  | [a,b,c,d,0x2D,e,f,0x2D,g,h] => do
    let year ← decimalField 0 9999 [a,b,c,d]
    let month ← decimalField 1 12 [e,f]
    let day ← decimalField 1 (daysIn year month) [g,h]
    some ⟨year,month,day⟩
  | _ => none

def time : Bytes → Option Time
  | a :: b :: 0x3A :: c :: d :: 0x3A :: e :: f :: r => do
    let hour ← decimalField 0 23 [a,b]
    let minute ← decimalField 0 59 [c,d]
    let second ← decimalField 0 59 [e,f]
    match r with
    | [] => some ⟨hour,minute,second,0⟩
    | 0x2E :: fraction => do
      guard (fraction ≠ [] ∧ fraction.all isDigit)
      some ⟨hour,minute,second,radixValue 10 ((fraction ++ List.replicate 9 0x30).take 9)⟩
    | _ => none
  | _ => none

def zone : Bytes → Option ℤ
  | [c] => if c = 0x5A ∨ c = 0x7A then some 0 else none
  | [s,a,b,0x3A,c,d] => do
    guard (s = 0x2B ∨ s = 0x2D)
    let hour ← decimalField 0 23 [a,b]
    let minute ← decimalField 0 59 [c,d]
    let n : ℤ := 60 * hour + minute
    some (if s = 0x2D then -n else n)
  | _ => none

def dateTime (s : Bytes) : Option Scalar := do
  let d ← date (s.take 10)
  match s.drop 10 with
  | [] => some (.date d)
  | c :: r => do
    guard (c = 0x54 ∨ c = 0x74 ∨ c = 0x20)
    let isZone := fun c : UInt8 => c == 0x5A || c == 0x7A || c == 0x2B || c == 0x2D
    let t ← time (r.takeWhile (fun c => !isZone c))
    match r.dropWhile (fun c => !isZone c) with
    | [] => some (.dateTime d t none)
    | z => (zone z).map (fun o => .dateTime d t (some o))

def bareValue (s : Bytes) : Option Scalar :=
  if s = bytes "true" then some (.boolean true)
  else if s = bytes "false" then some (.boolean false)
  else (integer s).or ((floating s).or (((time s).map .time).or (dateTime s)))

/-- A bare token; a date takes in a time that one space separates from it. -/
def bare : Lexer Scalar := do
  let word ← Lexer.run isBareScalar
  let ahead ← Lexer.look
  if (date word).isSome ∧ ahead.head? = some 0x20 ∧ ahead.tail.all isDigit ∧ ahead.tail ≠ [] then
    let space ← Lexer.octet 0x20
    let more ← Lexer.run isBareScalar
    Lexer.ofOption (bareValue (word ++ (space ++ more)))
  else Lexer.ofOption (bareValue word)

def scalar : Lexer Scalar := do
  let ahead ← Lexer.look
  match ahead.head? with
  | some c =>
    if isQuote c then
      let _ ← Lexer.octet c
      let s ← string c
      pure (.string s)
    else bare
  | none => Lexer.fail

end Lexical
end Toml
