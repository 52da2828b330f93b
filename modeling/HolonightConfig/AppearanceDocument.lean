import HolonightConfig.Codec
import HolonightConfig.Document

/-! Sparse version 2 documents: what they hold is laid over the built-in preferences and
read by the strict version 1 rules. -/
namespace HolonightConfig
open Text Toml Posix

def kEditingDocumentVersion : ℤ := 2

structure AppearanceDocument where
  snapshot : DocumentSnapshot
  documentVersion : ℤ
  appearance : Appearance

namespace AppearanceDocument

def diagnostic (message : Bytes) (snapshot : DocumentSnapshot) (severity : Severity)
    (code : ErrorCode) : Diagnostic :=
  ⟨code,severity,message,some snapshot.path,none⟩

def versionKey : KeyPath := [bytes "version"]

def invalidType (known : Option (Node Region)) (node : Node Region) (optionalShape : Bool) : Bool :=
  if optionalShape || known.any (fun k => k.type == .floating) then !node.isNumber
  else known.any (fun k => node.type != k.type)

/-- These optional shape values are absent from the default template. -/
def isOptionalShape (pre key : Bytes) : Bool :=
  pre == bytes "shape." && (key == bytes "base_radius" || key == bytes "base_chamfer")

section Overlay
variable (snapshot : DocumentSnapshot)

/-- A field that is not a table known as one. -/
def overlayField (effective : Entries Region) (pre key : Bytes) (node : Node Region) :
    Entries Region × List Diagnostic :=
  let known := effective.get key
  let optionalShape := isOptionalShape pre key
  let name := pre ++ key
  if known.isNone && !optionalShape then
    (effective,[diagnostic (bytes "unknown field " ++ name) snapshot .warning .validationError])
  else if known.any Node.isTable then
    (effective,[diagnostic (bytes "invalid table " ++ name) snapshot .error .validationError])
  else if invalidType known node optionalShape then
    (effective,[diagnostic (bytes "invalid type for " ++ name) snapshot .error .validationError])
  else (Entries.insertOrAssign key node effective,[])

mutual
def overlayNode (effective : Entries Region) (pre key : Bytes) :
    Node Region → Entries Region × List Diagnostic
  | .table source isInline incoming =>
    match effective.get key with
    | some (.table s i known) =>
      let inner := overlay known (pre ++ key ++ bytes ".") incoming
      (Entries.replace key (.table s i inner.1) effective,inner.2)
    | _ => overlayField snapshot effective pre key (.table source isInline incoming)
  | .array source items => overlayField snapshot effective pre key (.array source items)
  | .scalar source v => overlayField snapshot effective pre key (.scalar source v)
/-- Lay the incoming fields over a table. -/
def overlay (effective : Entries Region) (pre : Bytes) :
    Entries Region → Entries Region × List Diagnostic
  | [] => (effective,[])
  | (key,node) :: incoming =>
    if pre = [] ∧ key = bytes "version" then overlay effective pre incoming
    else
      let first := overlayNode effective pre key node
      let others := overlay first.1 pre incoming
      (others.1,first.2 ++ others.2)
end

end Overlay

section
variable (L : Library)

/-- The tree of a text that has been parsed before, or is the program's own. -/
def parsed (s : Bytes) : Entries Region := (L.parse s).toOption.getD []

def encodedDefaults : Bytes := (Codec.serialize defaults).value.getD []

def projectDocument (snapshot : DocumentSnapshot) : Entries Region × List Diagnostic :=
  overlay snapshot (parsed L encodedDefaults) [] (parsed L snapshot.revision.bytes)

def decodeAppearanceDocument (snapshot : DocumentSnapshot) : Result AppearanceDocument :=
  if !snapshot.revision.exists_ then .success ⟨snapshot,kEditingDocumentVersion,defaults⟩ []
  else match snapshot.value versionKey with
    | some (.integer documentVersion) =>
      if documentVersion = kDocumentVersion then
        let read := Codec.parse L snapshot.revision.bytes snapshot.path
        match read.value with
        | none => .failure read.diagnostics
        | some appearance => .success ⟨snapshot,documentVersion,appearance⟩ read.diagnostics
      else if documentVersion ≠ kEditingDocumentVersion then
        .failure [diagnostic (bytes "unsupported appearance document version") snapshot .error
          .unsupportedVersion]
      else
        let projected := projectDocument L snapshot
        if hasErrors projected.2 then .failure projected.2
        else
          let text := L.format (.table () false (Node.eraseEntries projected.1))
          let decoded := Codec.parse L text snapshot.path
          match decoded.value with
          | none => .failure decoded.diagnostics
          | some appearance => .success ⟨snapshot,documentVersion,appearance⟩ projected.2
    | _ => .failure [diagnostic (bytes "missing or invalid version") snapshot .error .validationError]

/-- The default document's fields and the optional shape values; known types, ranges and
names are the decoder's business. -/
def appearanceDocumentSchema : DocumentSchema :=
  let snapshot := (Document.parseDocument L encodedDefaults .none).value
  let entries := (snapshot.map DocumentSnapshot.overrides).getD []
  { fields :=
      (entries.filter (fun e => e.1 != versionKey)).map (fun e => ⟨e.1,some e.2.value,none⟩) ++
        [⟨[bytes "shape",bytes "base_radius"],none,none⟩,
          ⟨[bytes "shape",bytes "base_chamfer"],none,none⟩]
    validateDomain := some (fun document => (decodeAppearanceDocument L document).diagnostics) }

end
end AppearanceDocument
end HolonightConfig
