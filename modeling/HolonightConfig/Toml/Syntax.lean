import HolonightConfig.Toml.Lexical

/-! Concrete syntax of TOML values and expressions. Reading keeps every octet, so the
text of what was read is the text it was read from. -/
namespace Toml
open Text

/-- A dotted key with the text it was written as, blanks behind it included. -/
structure Key where
  text : Bytes
  path : List Bytes
  deriving DecidableEq

/-- An array element between the blank space before it and the one behind it, the
separating comma included. -/
structure Item (V : Type) where
  lead : Bytes
  value : V
  trail : Bytes

/-- A member of an inline table; `equals` is the sign and the blanks behind it. -/
structure Member (V : Type) where
  lead : Bytes
  key : Key
  equals : Bytes
  value : V
  trail : Bytes

inductive Value where
  | scalar (text : Bytes) (value : Scalar)
  | array (items : List (Item Value)) (close : Bytes)
  | inlineTable (members : List (Member Value)) (close : Bytes)

namespace Value

mutual
def text : Value → Bytes
  | .scalar t _ => t
  | .array items close => 0x5B :: (itemsText items ++ (close ++ [0x5D]))
  | .inlineTable members close => 0x7B :: (membersText members ++ (close ++ [0x7D]))
def itemsText : List (Item Value) → Bytes
  | [] => []
  | ⟨lead,v,trail⟩ :: items => lead ++ (v.text ++ (trail ++ itemsText items))
def membersText : List (Member Value) → Bytes
  | [] => []
  | ⟨lead,key,equals,v,trail⟩ :: members =>
    lead ++ (key.text ++ (equals ++ (v.text ++ (trail ++ membersText members))))
end

end Value

/-- Bound on the nesting of the reader's calls. Each call consumes an octet, so no text
that is shorter than this comes near it. -/
def readerFuel : ℕ := 1048576

namespace Syntax
open Lexical

def key : Lexer Key := do
  let (text,path) ← (dottedKey readerFuel).withText
  pure ⟨text,path⟩

/-- The equals sign with the blanks behind it. -/
def equals : Lexer Bytes := do
  let sign ← Lexer.octet 0x3D
  let blanks ← Lexer.run isBlank
  pure (sign ++ blanks)

mutual
def value : ℕ → Lexer Value
  | 0 => Lexer.fail
  | fuel + 1 => do
    let ahead ← Lexer.look
    if ahead.head? = some 0x5B then
      let _ ← Lexer.octet 0x5B
      let (elements,close) ← items fuel
      let _ ← Lexer.octet 0x5D
      pure (.array elements close)
    else if ahead.head? = some 0x7B then
      let _ ← Lexer.octet 0x7B
      let close ← Lexer.run isBlank
      let ahead' ← Lexer.look
      if ahead'.head? = some 0x7D then
        let _ ← Lexer.octet 0x7D
        pure (.inlineTable [] close)
      else
        let ms ← members close fuel
        let _ ← Lexer.octet 0x7D
        pure (.inlineTable ms [])
    else
      let (text,v) ← scalar.withText
      pure (.scalar text v)
/-- Elements up to the closing bracket, and the blank space before it. -/
def items : ℕ → Lexer (List (Item Value) × Bytes)
  | 0 => Lexer.fail
  | fuel + 1 => do
    let lead ← gap
    let ahead ← Lexer.look
    if ahead.head? = some 0x5D then pure ([],lead)
    else
      let v ← value fuel
      let trail ← gap
      let ahead' ← Lexer.look
      if ahead'.head? = some 0x2C then
        let comma ← Lexer.octet 0x2C
        let (rest,close) ← items fuel
        pure (⟨lead,v,trail ++ comma⟩ :: rest,close)
      else pure ([⟨lead,v,trail⟩],[])
/-- Members behind the blanks that lead the first one, up to the closing brace. -/
def members (lead : Bytes) : ℕ → Lexer (List (Member Value))
  | 0 => Lexer.fail
  | fuel + 1 => do
    let k ← key
    let eq ← equals
    let v ← value fuel
    let trail ← Lexer.run isBlank
    let ahead ← Lexer.look
    if ahead.head? = some 0x2C then
      let comma ← Lexer.octet 0x2C
      let lead' ← Lexer.run isBlank
      let rest ← members lead' fuel
      pure (⟨lead,k,eq,v,trail ++ comma⟩ :: rest)
    else pure [⟨lead,k,eq,v,trail⟩]
end

end Syntax

/-- An expression of a document with its line end. -/
inductive Line where
  | blank (text : Bytes)
  | header (isArray : Bool) (lead : Bytes) (open_ : Bytes) (key : Key) (tail : Bytes)
  | assign (lead : Bytes) (key : Key) (equals : Bytes) (value : Value) (tail : Bytes)

namespace Line

def bracket (isArray : Bool) (b : UInt8) : Bytes := if isArray then [b,b] else [b]

def text : Line → Bytes
  | .blank t => t
  | .header a lead open_ key tail =>
    lead ++ (bracket a 0x5B ++ (open_ ++ (key.text ++ (bracket a 0x5D ++ tail))))
  | .assign lead key equals value tail => lead ++ (key.text ++ (equals ++ (value.text ++ tail)))

end Line

namespace Syntax
open Lexical

/-- A header behind its opening brackets. -/
def header (isArray : Bool) (lead : Bytes) : Lexer Line := do
  let open_ ← Lexer.run isBlank
  let k ← key
  let _ ← Lexer.octet 0x5D
  if isArray then
    let _ ← Lexer.octet 0x5D
  let t ← tail
  pure (.header isArray lead open_ k t)

def assignment (lead : Bytes) : Lexer Line := do
  let k ← key
  let eq ← equals
  let v ← value readerFuel
  let t ← tail
  pure (.assign lead k eq v t)

def line : Lexer Line := do
  let lead ← Lexer.run isBlank
  let ahead ← Lexer.look
  if ahead.head? = some 0x5B then
    let _ ← Lexer.octet 0x5B
    let ahead' ← Lexer.look
    if ahead'.head? = some 0x5B then
      let _ ← Lexer.octet 0x5B
      header true lead
    else header false lead
  else if ahead.head?.any (fun c => isQuote c || isBareKey c) then assignment lead
  else
    let t ← tail
    pure (.blank (lead ++ t))

def lines : ℕ → Bytes → Option (List Line)
  | _,[] => some []
  | 0,_ => none
  | fuel + 1,s =>
    match line s with
    | none => none
    | some (l,r) => (lines fuel r).map (l :: ·)

end Syntax
end Toml
