import HolonightConfig.Diagnostic
import HolonightConfig.Number.Binary64

/-! The appearance preferences, their normal form and their validation. -/
namespace HolonightConfig
open Text

def kDocumentVersion : ℤ := 1
def kMaximumDocumentBytes : ℕ := 64 * 1024

inductive ShapeStyle
  | inherit | hybrid | rounded | chamfered
  deriving DecidableEq

structure Theme where
  scheme : Bytes := bytes "holonight-dark"
  accent : Bytes := bytes "blue"
  deriving DecidableEq

structure Typography where
  uiFamily : Bytes := bytes "Inter"
  uiSize : ℤ := 12
  monospaceFamily : Bytes := bytes "JetBrains Mono"
  monospaceSize : ℤ := 12
  titleFamily : Bytes := bytes "Audiowide"
  titleSize : ℤ := 10
  displayFamily : Bytes := bytes "Rajdhani"
  displaySize : ℤ := 24
  deriving DecidableEq

structure Icons where
  theme : Bytes := bytes "HoloNight"
  fallback : Bytes := bytes "Papirus"
  cursor : Bytes := bytes "default"
  deriving DecidableEq

structure Layout where
  scale : Binary64 := .ofInteger 1
  deriving DecidableEq

structure Shape where
  style : ShapeStyle := .inherit
  scale : Binary64 := .ofInteger 1
  baseRadius : Option Binary64 := none
  baseChamfer : Option Binary64 := none
  deriving DecidableEq

structure Appearance where
  version : ℤ := kDocumentVersion
  theme : Theme := {}
  typography : Typography := {}
  icons : Icons := {}
  layout : Layout := {}
  shape : Shape := {}
  deriving DecidableEq

def defaults : Appearance := {}

def kMinimumFontSize : ℤ := 6
def kMaximumFontSize : ℤ := 48
def kMinimumLayoutScale : Binary64 := .ofRatio false 1 2
def kMaximumLayoutScale : Binary64 := .ofInteger 3
def kMinimumShapeScale : Binary64 := .ofRatio false 1 4
def kMaximumShapeScale : Binary64 := .ofInteger 4
def kMaximumShapeExtent : Binary64 := .ofInteger 128
def zero : Binary64 := .ofInteger 0

/-- `std::isspace` of the classic locale. -/
def isSpace (b : UInt8) : Bool := b == 0x20 || (0x09 ≤ b && b ≤ 0x0D)

def trim (value : Bytes) : Bytes := ((value.dropWhile isSpace).reverse.dropWhile isSpace).reverse

/-- Length of the sequence an octet opens and the bits of the code point it holds. -/
def sequenceOf (first : UInt8) : Option (ℕ × ℕ) :=
  if first ≤ 0x7F then some (1,first.toNat)
  else if first &&& 0xE0 = 0xC0 then some (2,(first &&& 0x1F).toNat)
  else if first &&& 0xF0 = 0xE0 then some (3,(first &&& 0x0F).toNat)
  else if first &&& 0xF8 = 0xF0 then some (4,(first &&& 0x07).toNat)
  else none

/-- Shift in continuation octets; `none` if one of them is missing or is none. -/
def continued : ℕ → ℕ → Bytes → Option (ℕ × Bytes)
  | 0,codePoint,r => some (codePoint,r)
  | _ + 1,_,[] => none
  | n + 1,codePoint,c :: r =>
    if isContinuation c then continued n (codePoint * 64 + (c &&& 0x3F).toNat) r else none

def codePointFits (length codePoint : ℕ) : Bool :=
  !((length == 2 && codePoint < 0x80) || (length == 3 && codePoint < 0x800) ||
    (length == 4 && codePoint < 0x10000) || 0x10FFFF < codePoint ||
    (0xD800 ≤ codePoint && codePoint ≤ 0xDFFF))

/-- The decoding loop; each round consumes an octet, so the length bounds the rounds. -/
def validFrom : ℕ → Bytes → Bool
  | _,[] => true
  | 0,_ => false
  | fuel + 1,first :: r =>
    if first ≤ 0x7F then validFrom fuel r
    else match sequenceOf first with
      | none => false
      | some (length,bits) =>
        match continued (length - 1) bits r with
        | none => false
        | some (codePoint,r') => codePointFits length codePoint && validFrom fuel r'

def isValidUtf8 (value : Bytes) : Bool := validFrom value.length value

def addError (message : Bytes) : Diagnostic := ⟨.validationError,.error,message,none,none⟩

def validateIdentifier (field value : Bytes) (maximumBytes : ℕ) : List Diagnostic :=
  if value = [] then [addError (field ++ bytes " must not be empty")]
  else if !isValidUtf8 value then [addError (field ++ bytes " must contain valid UTF-8")]
  else if maximumBytes < value.length then
    [addError (field ++ bytes " exceeds " ++ Binary64.decimal maximumBytes ++ bytes " bytes")]
  else []

def validateFontSize (field : Bytes) (value : ℤ) : List Diagnostic :=
  if value < kMinimumFontSize ∨ kMaximumFontSize < value then
    [addError (field ++ bytes " must be in [6, 48]")]
  else []

def validateFiniteRange (field : Bytes) (value minimum maximum : Binary64) : List Diagnostic :=
  if !value.isFinite ∨ value.lt minimum ∨ maximum.lt value then
    [addError (field ++ bytes " is outside its accepted range")]
  else []

def normalized (a : Appearance) : Appearance :=
  { a with
    theme := ⟨trim a.theme.scheme,trim a.theme.accent⟩
    typography := { a.typography with
      uiFamily := trim a.typography.uiFamily
      monospaceFamily := trim a.typography.monospaceFamily
      titleFamily := trim a.typography.titleFamily
      displayFamily := trim a.typography.displayFamily }
    icons := ⟨trim a.icons.theme,trim a.icons.fallback,trim a.icons.cursor⟩ }

def validateVersion (version : ℤ) : List Diagnostic :=
  if version ≠ kDocumentVersion then
    [⟨.unsupportedVersion,.error,bytes "version must be exactly 1",none,none⟩]
  else []

def validateOptional (field : Bytes) : Option Binary64 → List Diagnostic
  | some value => validateFiniteRange field value zero kMaximumShapeExtent
  | none => []

def validate (appearance : Appearance) : List Diagnostic :=
  let c := normalized appearance
  validateVersion c.version ++
  validateIdentifier (bytes "theme.scheme") c.theme.scheme 128 ++
  validateIdentifier (bytes "theme.accent") c.theme.accent 128 ++
  validateIdentifier (bytes "typography.ui_family") c.typography.uiFamily 256 ++
  validateIdentifier (bytes "typography.monospace_family") c.typography.monospaceFamily 256 ++
  validateIdentifier (bytes "typography.title_family") c.typography.titleFamily 256 ++
  validateIdentifier (bytes "typography.display_family") c.typography.displayFamily 256 ++
  validateFontSize (bytes "typography.ui_size") c.typography.uiSize ++
  validateFontSize (bytes "typography.monospace_size") c.typography.monospaceSize ++
  validateFontSize (bytes "typography.title_size") c.typography.titleSize ++
  validateFontSize (bytes "typography.display_size") c.typography.displaySize ++
  validateIdentifier (bytes "icons.theme") c.icons.theme 256 ++
  validateIdentifier (bytes "icons.fallback") c.icons.fallback 256 ++
  validateIdentifier (bytes "icons.cursor") c.icons.cursor 256 ++
  validateFiniteRange (bytes "layout.scale") c.layout.scale kMinimumLayoutScale kMaximumLayoutScale ++
  validateFiniteRange (bytes "shape.scale") c.shape.scale kMinimumShapeScale kMaximumShapeScale ++
  validateOptional (bytes "shape.base_radius") c.shape.baseRadius ++
  validateOptional (bytes "shape.base_chamfer") c.shape.baseChamfer

def shapeStyleName : ShapeStyle → Bytes
  | .inherit => bytes "inherit"
  | .hybrid => bytes "hybrid"
  | .rounded => bytes "rounded"
  | .chamfered => bytes "chamfered"

def shapeStyleFromName (name : Bytes) : Option ShapeStyle :=
  if name = bytes "inherit" then some .inherit
  else if name = bytes "hybrid" then some .hybrid
  else if name = bytes "rounded" then some .rounded
  else if name = bytes "chamfered" then some .chamfered
  else none

@[simp] theorem shapeStyleFromName_name (s : ShapeStyle) :
    shapeStyleFromName (shapeStyleName s) = some s := by cases s <;> decide +kernel

end HolonightConfig
