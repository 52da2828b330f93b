import HolonightConfig.Diagnostic
import HolonightConfig.Appearance
import HolonightConfig.Document.Scan
import HolonightConfig.Toml.Library
import Mathlib.Data.List.Sort

/-! Documents with the source spans of their values, and patches that change no other
byte: parsing, validation, planning of edits and the candidate text. -/
namespace HolonightConfig
open Text Toml Posix

abbrev KeyPath := List Bytes

instance : LawfulBEq KeyPath := inferInstanceAs (LawfulBEq (List Bytes))

inductive Value
  | boolean (value : Bool)
  | integer (value : ℤ)
  | floating (value : Binary64)
  | string (value : Bytes)
  | aggregate (toml : Bytes)
  deriving DecidableEq

namespace Value

/-- `operator==`, which compares doubles as numbers. -/
def eq : Value → Value → Bool
  | .floating a,.floating b => a.eq b
  | a,b => decide (a = b)

/-- The alternative of the variant. -/
def index : Value → ℕ
  | .boolean _ => 0
  | .integer _ => 1
  | .floating _ => 2
  | .string _ => 3
  | .aggregate _ => 4

/-- Equality of optional values. -/
def same : Option Value → Option Value → Bool
  | some a,some b => a.eq b
  | none,none => true
  | _,_ => false

end Value

structure DocumentEntry where
  value : Value
  source : SourceSpan
  assignment : Option SourceSpan
  deriving DecidableEq

structure DocumentRevision where
  exists_ : Bool
  bytes : Bytes
  deriving DecidableEq

/-- A parsed document. The overrides stand in the order of their keys. -/
structure DocumentSnapshot where
  path : Path
  revision : DocumentRevision
  overrides : List (KeyPath × DocumentEntry)
  deriving DecidableEq

namespace DocumentSnapshot

def missing (path : Path) : DocumentSnapshot := ⟨path,⟨false,[]⟩,[]⟩

def entry (snapshot : DocumentSnapshot) (key : KeyPath) : Option DocumentEntry :=
  snapshot.overrides.lookup key

def value (snapshot : DocumentSnapshot) (key : KeyPath) : Option Value :=
  (snapshot.entry key).map DocumentEntry.value

end DocumentSnapshot

structure SchemaField where
  key : KeyPath
  defaultValue : Option Value
  validate : Option (Value → List Diagnostic)

structure DocumentSchema where
  fields : List SchemaField
  validateDomain : Option (DocumentSnapshot → List Diagnostic)

structure Edit where
  key : KeyPath
  baseline : Option Value
  pending : Option Value
  deriving DecidableEq

abbrev EditBatch := List Edit

structure Conflict where
  key : KeyPath
  baseline : Option Value
  disk : Option Value
  pending : Option Value
  deriving DecidableEq

inductive SaveStatus
  | success | conflict | invalid | unsupportedPatch | storageFailure | durabilityFailure
  | revisionChanged
  deriving DecidableEq

structure SaveResult where
  status : SaveStatus := .storageFailure
  snapshot : Option DocumentSnapshot := none
  conflicts : List Conflict := []
  diagnostics : List Diagnostic := []

namespace Document

def error (message : Bytes) (path : Path) : Diagnostic :=
  ⟨.validationError,.error,message,if path.isEmpty then none else some path,none⟩

section
variable (L : Library)

/-- The literal of a value. -/
def encode : Value → Bytes
  | .boolean b => L.format (.scalar () (.boolean b))
  | .integer n => L.format (.scalar () (.integer n))
  | .floating d => L.format (.scalar () (.floating d))
  | .string s => L.format (.scalar () (.string s))
  | .aggregate toml => toml

def valueOf : Node Region → Value
  | .scalar _ (.boolean b) => .boolean b
  | .scalar _ (.integer n) => .integer n
  | .scalar _ (.floating d) => .floating d
  | .scalar _ (.string s) => .string s
  | node => .aggregate (L.format node.erase)

def entryOf (s : Bytes) (node : Node Region) : DocumentEntry :=
  let span : SourceSpan := ⟨offset s node.source.begin,offset s node.source.stop⟩
  ⟨valueOf L node,span,assignment s span⟩

mutual
/-- The override of a node and those below it; a table of headers or dotted keys is none
itself. -/
def collectNode (s : Bytes) (path : KeyPath) : Node Region → List (KeyPath × DocumentEntry)
  | .table source isInline es =>
    (if isInline then [(path,entryOf L s (.table source isInline es))] else []) ++ collect s path es
  | .array source items => [(path,entryOf L s (.array source items))]
  | .scalar source v => [(path,entryOf L s (.scalar source v))]
def collect (s : Bytes) (pre : KeyPath) : Entries Region → List (KeyPath × DocumentEntry)
  | [] => []
  | (key,node) :: es => collectNode s (pre ++ [key]) node ++ collect s pre es
end

def keyText (path : KeyPath) : Bytes :=
  path.foldl (fun result key =>
    (if result = [] then result else result ++ [0x2E]) ++ encode L (.string key)) []

def parseDocument (s : Bytes) (path : Path) : Result DocumentSnapshot :=
  if kMaximumDocumentBytes < s.length then
    .failure [{ error (bytes "document exceeds 65536 bytes") path with code := .tooLarge }]
  else match L.parse s with
    | .ok table => .success ⟨path,⟨true,s⟩,collect L s [] table⟩ []
    | .error failure =>
      .failure [{ error failure.description path with
        code := .syntaxError, position := some ⟨failure.begin.line,failure.begin.column⟩ }]

/-! ### Validation -/

def fieldDiagnostics (snapshot : DocumentSnapshot) (field : SchemaField) : List Diagnostic :=
  match (snapshot.value field.key).or field.defaultValue with
  | none => []
  | some value =>
    if field.defaultValue.any (fun d => value.index != d.index && !(d.index == 2 && value.index == 1)) then
      [error (bytes "invalid type for " ++ keyText L field.key) snapshot.path]
    else (field.validate.map (· value)).getD []

def validateDocument (snapshot : DocumentSnapshot) (schema : DocumentSchema) : List Diagnostic :=
  schema.fields.flatMap (fieldDiagnostics L snapshot) ++
    (schema.validateDomain.map (· snapshot)).getD []

/-! ### Planning -/

def valueKey : KeyPath := [bytes "value"]

/-- A pending value as it reads after printing it. -/
def normalizeValue (pending : Value) : Option Value :=
  match (parseDocument L (bytes "value = " ++ encode L pending) .none).value with
  | none => none
  | some literal => if literal.overrides.length = 1 then literal.value valueKey else none

def normalizeEdit (edit : Edit) : Option Edit :=
  match edit.pending with
  | none => some edit
  | some pending => (normalizeValue L pending).map (fun v => { edit with pending := some v })

def normalizeEdits (edits : EditBatch) (path : Path) : Result EditBatch :=
  match edits.mapM (normalizeEdit L) with
  | some batch => .success batch []
  | none => .failure [error (bytes "invalid value literal") path]

structure Replacement where
  span : SourceSpan
  text : Bytes
  deriving DecidableEq

/-- What planning has gathered. -/
structure Plan where
  replacements : List Replacement := []
  insertions : List (KeyPath × Bytes) := []
  conflicts : List Conflict := []
  diagnostics : List Diagnostic := []

def pathLt : KeyPath → KeyPath → Bool
  | _,[] => false
  | [],_ :: _ => true
  | a :: as,b :: bs => lexLt a b || (a == b && pathLt as bs)

/-- `insertions[parent] += text` on a map in the order of its keys. -/
def addInsertion (parent : KeyPath) (text : Bytes) : List (KeyPath × Bytes) → List (KeyPath × Bytes)
  | [] => [(parent,text)]
  | (p,t) :: m =>
    if p = parent then (p,t ++ text) :: m
    else if pathLt parent p then (parent,text) :: (p,t) :: m
    else (p,t) :: addInsertion parent text m

/-- Whether the text has a CRLF anywhere. -/
def hasReturnFeed : Bytes → Bool
  | [] => false
  | c :: r => (c == carriageReturn && r.head? == some lineFeed) || hasReturnFeed r

def newlineOf (s : Bytes) : Bytes := if hasReturnFeed s then [carriageReturn,lineFeed] else [lineFeed]

/-- What one edit adds to the plan, and whether planning goes on. -/
def planEdit (current : DocumentSnapshot) (edit : Edit) (plan : Plan) : Bool × Plan :=
  let disk := current.value edit.key
  if Value.same disk edit.pending then (true,plan)
  else if !Value.same disk edit.baseline then
    (true,{ plan with conflicts := plan.conflicts ++ [⟨edit.key,edit.baseline,disk,edit.pending⟩] })
  else match current.entry edit.key with
    | none =>
      match edit.pending with
      | none => (true,plan)
      | some pending =>
        let text := keyText L [edit.key.getLast?.getD []] ++ bytes " = " ++ encode L pending ++
          newlineOf current.revision.bytes
        (true,{ plan with insertions := addInsertion edit.key.dropLast text plan.insertions })
    | some selected =>
      match selected.assignment with
      | none => (false,{ plan with diagnostics := plan.diagnostics ++
          [error (bytes "value has no safely editable assignment: " ++ keyText L edit.key) current.path] })
      | some whole =>
        let original := slice current.revision.bytes selected.source.begin selected.source.stop
        let replacement : Replacement := match edit.pending with
          | some pending => ⟨selected.source,encode L pending⟩
          | none => ⟨whole,retainedComments original⟩
        (true,{ plan with replacements := plan.replacements ++ [replacement] })

/-- The edits in order; `keys` are those already seen. -/
def planEdits (current : DocumentSnapshot) : List KeyPath → EditBatch → Plan → Bool × Plan
  | _,[],plan => (true,plan)
  | keys,edit :: batch,plan =>
    if edit.key = [] ∨ edit.key ∈ keys then
      (false,{ plan with diagnostics := plan.diagnostics ++
        [error (bytes "empty or duplicate edit key") current.path] })
    else
      match planEdit L current edit plan with
      | (false,plan') => (false,plan')
      | (true,plan') => planEdits current (keys ++ [edit.key]) batch plan'

/-! ### Insertions -/

def probeText : Bytes := bytes "\n\"__hn_probe\" = 0\n"

def isHeaderSpace (c : UInt8) : Bool := c == 0x20 || c == 0x09 || c == carriageReturn || c == lineFeed

def headerMatches (statement : Bytes) (parent : KeyPath) : Bool :=
  let text := statement.dropWhile isHeaderSpace
  if text.head? = some 0x5B ∧ text.take 2 ≠ [0x5B,0x5B] then
    match (parseDocument L (statement ++ probeText) .none).value with
    | none => false
    | some probe =>
      match probe.overrides with
      | [(path,_)] => path.dropLast == parent
      | _ => false
  else false

def inValue (current : DocumentSnapshot) (line : ℕ) : Bool :=
  current.overrides.any (fun item => item.2.source.begin < line && line < item.2.source.stop)

/-- The end of the first line at or behind `line` that opens the parent's table. -/
def headerEnd (current : DocumentSnapshot) (parent : KeyPath) : ℕ → List Bytes → Option ℕ
  | _,[] => none
  | line,l :: ls =>
    let next := line + l.length
    if !inValue current line && headerMatches L l parent then some next
    else headerEnd current parent next ls

def insertionPoint (current : DocumentSnapshot) (parent : KeyPath) : Option ℕ :=
  if parent = [] then some 0
  else headerEnd L current parent 0 (splitLines current.revision.bytes)

/-- Whether an offset is behind something other than a line feed. -/
def behindText (s : Bytes) (point : ℕ) : Bool := point != 0 && s[point - 1]? != some lineFeed

def planInsertion (current : DocumentSnapshot) (parent : KeyPath) (text : Bytes) : Replacement :=
  let original := current.revision.bytes
  let newline := newlineOf original
  match insertionPoint L current parent with
  | some point => ⟨⟨point,point⟩,if behindText original point then newline ++ text else text⟩
  | none =>
    let separator := if behindText original original.length then newline else []
    ⟨⟨original.length,original.length⟩,
      separator ++ [0x5B] ++ keyText L parent ++ [0x5D] ++ newline ++ text⟩

def planInsertions (current : DocumentSnapshot) (insertions : List (KeyPath × Bytes)) : List Replacement :=
  insertions.map (fun i => planInsertion L current i.1 i.2)

/-! ### The candidate -/

/-- Append to a replacement the later ones of the same empty span. -/
def coalesce : ℕ → List Replacement → List Replacement
  | 0,rs => rs
  | _,[] => []
  | fuel + 1,r :: rs =>
    if r.span.begin ≠ r.span.stop then r :: coalesce fuel rs
    else
      ⟨r.span,r.text ++ (rs.filter (fun x => x.span = r.span)).flatMap Replacement.text⟩ ::
        coalesce fuel (rs.filter (fun x => x.span ≠ r.span))

def coalesceInsertions (rs : List Replacement) : List Replacement := coalesce rs.length rs

/-- Later spans first. -/
def laterSpan (a b : Replacement) : Prop :=
  if a.span.begin ≠ b.span.begin then b.span.begin < a.span.begin else b.span.stop ≤ a.span.stop

instance : DecidableRel laterSpan := fun a b => by unfold laterSpan; infer_instance

/-- Replace spans from the back; `none` where they overlap. -/
def substitute : ℕ → Bytes → List Replacement → Option Bytes
  | _,candidate,[] => some candidate
  | boundary,candidate,r :: rs =>
    if boundary < r.span.stop ∨ r.span.stop < r.span.begin then none
    else substitute r.span.begin
      (candidate.take r.span.begin ++ r.text ++ candidate.drop r.span.stop) rs

def applyReplacements (current : DocumentSnapshot) (replacements : List Replacement) (batch : EditBatch) :
    Result DocumentSnapshot :=
  let ordered := (coalesceInsertions replacements).insertionSort laterSpan
  match substitute current.revision.bytes.length current.revision.bytes ordered with
  | none => .failure [error (bytes "overlapping patches") current.path]
  | some candidate =>
    let parsed := parseDocument L candidate current.path
    match parsed.value with
    | none => parsed
    | some snapshot =>
      if batch.all (fun edit => Value.same (snapshot.value edit.key) edit.pending) then parsed
      else .failure [error (bytes "candidate does not match requested value") current.path]

def patchDocument (current : DocumentSnapshot) (edits : EditBatch) (schema : DocumentSchema) : SaveResult :=
  let diagnostics := validateDocument L current schema
  if hasErrors diagnostics then { status := .invalid, diagnostics := diagnostics }
  else
    let normalized := normalizeEdits L edits current.path
    match normalized.value with
    | none => { status := .unsupportedPatch, diagnostics := normalized.diagnostics }
    | some batch =>
      let planned := planEdits L current [] batch { diagnostics := diagnostics }
      let plan := planned.2
      if !planned.1 then
        { status := .unsupportedPatch, conflicts := plan.conflicts, diagnostics := plan.diagnostics }
      else if plan.conflicts ≠ [] then
        { status := .conflict, conflicts := plan.conflicts, diagnostics := plan.diagnostics }
      else
        let parsed := applyReplacements L current
          (plan.replacements ++ planInsertions L current plan.insertions) batch
        match parsed.value with
        | none => { status := .unsupportedPatch, diagnostics := parsed.diagnostics }
        | some snapshot =>
          let diagnostics' := validateDocument L snapshot schema
          if hasErrors diagnostics' then { status := .invalid, diagnostics := diagnostics' }
          else { status := .success, snapshot := some snapshot, diagnostics := diagnostics' }

end
end Document
end HolonightConfig
