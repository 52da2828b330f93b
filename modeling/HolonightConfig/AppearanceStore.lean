import HolonightConfig.AppearanceDocument
import HolonightConfig.DocumentStore

/-! Reading and editing the appearance document of a path. Every edit also sets the version. -/
namespace HolonightConfig
open Text Toml Posix Program

namespace AppearanceStore
open Storage DocumentStore AppearanceDocument
variable (L : Library)

/-- What is decoded of a read of the path. -/
def decodeRead (path : Path) (found : FileContent) : Result AppearanceDocument :=
  let snapshot := readDocument L path found
  match snapshot.value with
  | none => .failure snapshot.diagnostics
  | some s => decodeAppearanceDocument L s

def readAppearanceDocument (phase : Phase) (path : Path) : Command (Result AppearanceDocument) := do
  let found ← Storage.read phase path
  pure (decodeRead L path found)

/-- Version is a reserved metadata edit. -/
def versionEdit (current : DocumentSnapshot) : Edit :=
  ⟨versionKey,current.value versionKey,some (.integer kEditingDocumentVersion)⟩

def stageAppearanceDocument (budget : ℕ) (me : Process) (path : Path) (edits : EditBatch) :
    Command StagedSaveResult := do
  let target ← resolveDocumentTarget path
  match target.value with
  | none => pure ⟨{ status := .storageFailure, diagnostics := target.diagnostics },none⟩
  | some location =>
    let current ← readAppearanceDocument L .before (.ofLocation location)
    match current.value with
    | none => pure ⟨unreadable current.diagnostics,none⟩
    | some document =>
      if edits.any (fun edit => edit.key = versionKey) then
        pure ⟨{ status := .invalid, diagnostics := [diagnostic
          (bytes "version is reserved document metadata") document.snapshot .error .validationError] },none⟩
      else
        stageDocument L budget me path (edits ++ [versionEdit document.snapshot]) (appearanceDocumentSchema L)

def saveAppearanceDocument (budget : ℕ) (me : Process) (path : Path) (edits : EditBatch) :
    Command SaveResult :=
  StagedSaveResult.result <$> stageAppearanceDocument L budget me path edits

end AppearanceStore
end HolonightConfig
