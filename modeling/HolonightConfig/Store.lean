import HolonightConfig.Codec
import HolonightConfig.DocumentStore

/-! Writing the strict document to a path: through a temporary file, without a lock. -/
namespace HolonightConfig
open Text Posix Program

namespace Store
open Storage

def fileDiagnostic (code : ErrorCode) (message : Bytes) (path : Path) : Diagnostic :=
  ⟨code,.error,message,some path,none⟩

def writeError (operation : Bytes) (errno : Errno) (path : Path) : Result Path :=
  .failure [fileDiagnostic .atomicWriteError (operation ++ bytes ": " ++ errno.message) path]

/-- Only `written < 0` fails; what is interrupted, or writes nothing, is tried again. -/
def writeAll (file : Descriptor) : ℕ → Bytes → Command (Except Errno Unit)
  | _,[] => pure (.ok ())
  | 0,_ :: _ => .exhausted
  | budget + 1,c :: octets => do
    match ← Storage.write file (c :: octets) with
    | .error .interrupted => writeAll file budget (c :: octets)
    | .error e => pure (.error e)
    | .ok n => writeAll file budget ((c :: octets).drop n)

def flushAndClose (file : Descriptor) : Command (Except Errno Unit) := do
  match ← Storage.fsync file with
  | .error e => pure (.error e)
  | .ok () => Storage.close file

/-- The temporary file is filled; a result is a failure. -/
def prepareTemporary (budget : ℕ) (path : Path) (file : Descriptor) (octets : Bytes) :
    Command (Option (Result Path)) := do
  match ← writeAll file budget octets with
  | .error e => pure (some (writeError (bytes "failed to write temporary file") e path))
  | .ok () =>
    match ← flushAndClose file with
    | .error e => pure (some (writeError (bytes "failed to flush temporary file") e path))
    | .ok () => pure none

/-- The directory a path is in. -/
def directoryOf (path : Path) : Path :=
  if path.parentPath.isEmpty then ⟨false,[dot]⟩ else path.parentPath

def temporaryBase (path : Path) : Name := bytes "." ++ path.filename ++ bytes ".tmp-"

def replaceFile (budget : ℕ) (path : Path) (octets : Bytes) : Command (Result Path) := do
  match ← Storage.mkstemp (directoryOf path) (temporaryBase path) with
  | .error e => pure (writeError (bytes "failed to create temporary file") e path)
  | .ok temporary =>
    match ← prepareTemporary budget path temporary.file octets with
    | some result =>
      Storage.remove temporary.path
      pure result
    | none =>
      match ← Storage.rename temporary.path path with
      | .error e =>
        Storage.remove temporary.path
        pure (writeError (bytes "failed to replace appearance file") e path)
      | .ok () => pure (.success path [])

def writeAtomically (budget : ℕ) (appearance : Appearance) (path : Path) : Command (Result Path) := do
  if path.isEmpty ∨ path.filename = [] then
    pure (.failure [fileDiagnostic .atomicWriteError (bytes "appearance destination path is empty") path])
  else
    let encoded := Codec.serialize appearance
    match encoded.value with
    | none => pure (.failure (encoded.diagnostics.map (fun item => { item with path := some path })))
    | some octets =>
      match ← Storage.createDirectories (directoryOf path) with
      | .error e =>
        pure (.failure [fileDiagnostic .atomicWriteError
          (bytes "failed to create appearance directory: " ++ e.message) path])
      | .ok () => replaceFile budget path octets

end Store
end HolonightConfig
