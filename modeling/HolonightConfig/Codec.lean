import HolonightConfig.Appearance
import HolonightConfig.Toml.Library

/-! The strict version 1 reader and writer. Every reading function returns what it read
beside the diagnostics it adds. -/
namespace HolonightConfig
open Text Toml Posix

namespace Codec

def diagnostic (code : ErrorCode) (message : Bytes) (path : Path) (position : Option SourcePosition) :
    Diagnostic :=
  ⟨code,.error,message,if path.isEmpty then none else some path,position⟩

def positionOf (p : Position) : SourcePosition := ⟨p.line,p.column⟩

def rejectUnknown (table : Entries Region) (accepted : List Bytes) (pre : Bytes) (path : Path) :
    List Diagnostic :=
  (table.filter (fun e => !accepted.contains e.1)).map (fun e =>
    diagnostic .validationError (bytes "unknown field " ++ pre ++ e.1) path
      (some (positionOf e.2.source.begin)))

def requiredTable (root : Entries Region) (name : Bytes) (path : Path) :
    Option (Entries Region) × List Diagnostic :=
  match (root.get name).bind Node.asTable with
  | some t => (some t,[])
  | none => (none,[diagnostic .validationError (bytes "missing or invalid table " ++ name) path none])

def missingField (qualified : Bytes) (path : Path) : Diagnostic :=
  diagnostic .validationError (bytes "missing field " ++ qualified) path none

def invalidType (qualified : Bytes) (node : Node Region) (path : Path) : Diagnostic :=
  diagnostic .validationError (bytes "invalid type for " ++ qualified) path
    (some (positionOf node.source.begin))

/-- A required field through a converting accessor. -/
def requiredValue {α : Type} (accessor : Node Unit → Option α) (table : Entries Region)
    (key qualified : Bytes) (path : Path) : Option α × List Diagnostic :=
  match table.get key with
  | none => (none,[missingField qualified path])
  | some node =>
    match accessor node.erase with
    | some v => (some v,[])
    | none => (none,[invalidType qualified node path])

/-- What a number is read through: as a double, else as an integer made a double. -/
def numberAccessor (L : Library) (node : Node Unit) : Option Binary64 :=
  (L.toDouble node).or ((L.toInt64 node).map Binary64.ofInteger)

def requiredNumber (L : Library) (table : Entries Region) (key qualified : Bytes) (path : Path) :
    Option Binary64 × List Diagnostic :=
  requiredValue (numberAccessor L) table key qualified path

def quoteOctet (character : UInt8) : Bytes :=
  if character = 0x5C then bytes "\\\\"
  else if character = 0x22 then bytes "\\\""
  else if character = 0x08 then bytes "\\b"
  else if character = 0x09 then bytes "\\t"
  else if character = 0x0A then bytes "\\n"
  else if character = 0x0C then bytes "\\f"
  else if character = 0x0D then bytes "\\r"
  else [character]

def quote (value : Bytes) : Bytes := 0x22 :: (value.flatMap quoteOctet ++ [0x22])

def number (value : Binary64) : Bytes :=
  let result := Binary64.general 17 value
  if result.any (fun c => c == 0x2E || c == 0x65 || c == 0x45) then result
  else result ++ bytes ".0"

def attachPath (diagnostics : List Diagnostic) (path : Path) : List Diagnostic :=
  if path.isEmpty then diagnostics
  else diagnostics.map (fun item => { item with path := some path })

section Parse
variable (L : Library) (root : Entries Region) (path : Path)

def parseTheme (theme : Theme) : Theme × List Diagnostic :=
  match requiredTable root (bytes "theme") path with
  | (none,ds) => (theme,ds)
  | (some t,_) =>
    let scheme := requiredValue L.toText t (bytes "scheme") (bytes "theme.scheme") path
    let accent := requiredValue L.toText t (bytes "accent") (bytes "theme.accent") path
    (⟨scheme.1.getD theme.scheme,accent.1.getD theme.accent⟩,
      rejectUnknown t [bytes "scheme",bytes "accent"] (bytes "theme.") path ++ scheme.2 ++ accent.2)

def typographyFields : List Bytes :=
  [bytes "ui_family",bytes "ui_size",bytes "monospace_family",bytes "monospace_size",
    bytes "title_family",bytes "title_size",bytes "display_family",bytes "display_size"]

def parseTypography (typography : Typography) : Typography × List Diagnostic :=
  match requiredTable root (bytes "typography") path with
  | (none,ds) => (typography,ds)
  | (some t,_) =>
    let uiFamily := requiredValue L.toText t (bytes "ui_family") (bytes "typography.ui_family") path
    let uiSize := requiredValue L.toInt64 t (bytes "ui_size") (bytes "typography.ui_size") path
    let monospaceFamily :=
      requiredValue L.toText t (bytes "monospace_family") (bytes "typography.monospace_family") path
    let monospaceSize :=
      requiredValue L.toInt64 t (bytes "monospace_size") (bytes "typography.monospace_size") path
    let titleFamily :=
      requiredValue L.toText t (bytes "title_family") (bytes "typography.title_family") path
    let titleSize :=
      requiredValue L.toInt64 t (bytes "title_size") (bytes "typography.title_size") path
    let displayFamily :=
      requiredValue L.toText t (bytes "display_family") (bytes "typography.display_family") path
    let displaySize :=
      requiredValue L.toInt64 t (bytes "display_size") (bytes "typography.display_size") path
    (⟨uiFamily.1.getD typography.uiFamily,uiSize.1.getD typography.uiSize,
        monospaceFamily.1.getD typography.monospaceFamily,
        monospaceSize.1.getD typography.monospaceSize,
        titleFamily.1.getD typography.titleFamily,titleSize.1.getD typography.titleSize,
        displayFamily.1.getD typography.displayFamily,displaySize.1.getD typography.displaySize⟩,
      rejectUnknown t typographyFields (bytes "typography.") path ++ uiFamily.2 ++ uiSize.2 ++
        monospaceFamily.2 ++ monospaceSize.2 ++ titleFamily.2 ++ titleSize.2 ++
        displayFamily.2 ++ displaySize.2)

def parseIcons (icons : Icons) : Icons × List Diagnostic :=
  match requiredTable root (bytes "icons") path with
  | (none,ds) => (icons,ds)
  | (some t,_) =>
    let theme := requiredValue L.toText t (bytes "theme") (bytes "icons.theme") path
    let fallback := requiredValue L.toText t (bytes "fallback") (bytes "icons.fallback") path
    let cursor := requiredValue L.toText t (bytes "cursor") (bytes "icons.cursor") path
    (⟨theme.1.getD icons.theme,fallback.1.getD icons.fallback,cursor.1.getD icons.cursor⟩,
      rejectUnknown t [bytes "theme",bytes "fallback",bytes "cursor"] (bytes "icons.") path ++
        theme.2 ++ fallback.2 ++ cursor.2)

def parseLayout (layout : Layout) : Layout × List Diagnostic :=
  match requiredTable root (bytes "layout") path with
  | (none,ds) => (layout,ds)
  | (some t,_) =>
    let scale := requiredNumber L t (bytes "scale") (bytes "layout.scale") path
    (⟨scale.1.getD layout.scale⟩,rejectUnknown t [bytes "scale"] (bytes "layout.") path ++ scale.2)

def parseStyle (t : Entries Region) : Option ShapeStyle × List Diagnostic :=
  match requiredValue L.toText t (bytes "style") (bytes "shape.style") path with
  | (none,ds) => (none,ds)
  | (some name,_) =>
    match shapeStyleFromName name with
    | some style => (some style,[])
    | none => (none,[diagnostic .validationError (bytes "invalid value for shape.style") path none])

/-- A number that may be absent. -/
def optionalNumber (t : Entries Region) (key qualified : Bytes) : Option Binary64 × List Diagnostic :=
  if t.contains key then requiredNumber L t key qualified path else (none,[])

def parseShape (shape : Shape) : Shape × List Diagnostic :=
  match requiredTable root (bytes "shape") path with
  | (none,ds) => (shape,ds)
  | (some t,_) =>
    let style := parseStyle L path t
    let scale := requiredNumber L t (bytes "scale") (bytes "shape.scale") path
    let baseRadius := optionalNumber L path t (bytes "base_radius") (bytes "shape.base_radius")
    let baseChamfer := optionalNumber L path t (bytes "base_chamfer") (bytes "shape.base_chamfer")
    (⟨style.1.getD shape.style,scale.1.getD shape.scale,baseRadius.1.or shape.baseRadius,
        baseChamfer.1.or shape.baseChamfer⟩,
      rejectUnknown t [bytes "style",bytes "scale",bytes "base_radius",bytes "base_chamfer"]
        (bytes "shape.") path ++ style.2 ++ scale.2 ++ baseRadius.2 ++ baseChamfer.2)

def rootFields : List Bytes :=
  [bytes "version",bytes "theme",bytes "typography",bytes "icons",bytes "layout",bytes "shape"]

/-- The fields of a version 1 document over the built-in ones. -/
def parseRoot : Appearance × List Diagnostic :=
  let a : Appearance := {}
  let version := requiredValue L.toInt64 root (bytes "version") (bytes "version") path
  let theme := parseTheme L root path a.theme
  let typography := parseTypography L root path a.typography
  let icons := parseIcons L root path a.icons
  let layout := parseLayout L root path a.layout
  let shape := parseShape L root path a.shape
  (⟨version.1.getD a.version,theme.1,typography.1,icons.1,layout.1,shape.1⟩,
    rejectUnknown root rootFields [] path ++ version.2 ++ theme.2 ++ typography.2 ++ icons.2 ++
      layout.2 ++ shape.2)

end Parse

def tooLarge (path : Path) : Diagnostic :=
  diagnostic .tooLarge (bytes "appearance document exceeds 65536 bytes") path none

def parse (L : Library) (document : Bytes) (path : Path) : Result Appearance :=
  if kMaximumDocumentBytes < document.length then .failure [tooLarge path]
  else match L.parse document with
    | .error e => .failure [diagnostic .syntaxError e.description path (some (positionOf e.begin))]
    | .ok root =>
      let read := parseRoot L root path
      let appearance := normalized read.1
      let diagnostics := read.2 ++ attachPath (validate appearance) path
      if diagnostics.isEmpty then .success appearance [] else .failure diagnostics

def newline : Bytes := [lineFeed]

def stringLine (key value : Bytes) : Bytes := key ++ bytes " = " ++ quote value ++ newline
def integerLine (key : Bytes) (value : ℤ) : Bytes :=
  key ++ bytes " = " ++ Binary64.decimalInteger value ++ newline
def numberLine (key : Bytes) (value : Binary64) : Bytes :=
  key ++ bytes " = " ++ number value ++ newline

def optionalLine (key : Bytes) : Option Binary64 → Bytes
  | some value => numberLine key value
  | none => []

/-- The document of a normalized appearance. -/
def document (c : Appearance) : Bytes :=
  bytes "version = 1\n\n[theme]\n" ++
  (stringLine (bytes "scheme") c.theme.scheme ++ (stringLine (bytes "accent") c.theme.accent ++
  (bytes "\n[typography]\n" ++
  (stringLine (bytes "ui_family") c.typography.uiFamily ++
  (integerLine (bytes "ui_size") c.typography.uiSize ++
  (stringLine (bytes "monospace_family") c.typography.monospaceFamily ++
  (integerLine (bytes "monospace_size") c.typography.monospaceSize ++
  (stringLine (bytes "title_family") c.typography.titleFamily ++
  (integerLine (bytes "title_size") c.typography.titleSize ++
  (stringLine (bytes "display_family") c.typography.displayFamily ++
  (integerLine (bytes "display_size") c.typography.displaySize ++
  (bytes "\n[icons]\n" ++
  (stringLine (bytes "theme") c.icons.theme ++ (stringLine (bytes "fallback") c.icons.fallback ++
  (stringLine (bytes "cursor") c.icons.cursor ++
  (bytes "\n[layout]\n" ++ (numberLine (bytes "scale") c.layout.scale ++
  (bytes "\n[shape]\n" ++
  (stringLine (bytes "style") (shapeStyleName c.shape.style) ++
  (numberLine (bytes "scale") c.shape.scale ++
  (optionalLine (bytes "base_radius") c.shape.baseRadius ++
  optionalLine (bytes "base_chamfer") c.shape.baseChamfer)))))))))))))))))))))

def serialize (appearance : Appearance) : Result Bytes :=
  let canonical := normalized appearance
  let diagnostics := validate canonical
  if diagnostics.isEmpty then .success (document canonical) [] else .failure diagnostics

end Codec
end HolonightConfig
