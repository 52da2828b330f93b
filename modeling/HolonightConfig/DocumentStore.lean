import HolonightConfig.Document
import HolonightConfig.Storage

/-! Saving, staging and restoring a document: the target is resolved, locked, read,
changed and replaced through a temporary file. -/
namespace HolonightConfig
open Text Toml Posix Program

structure StagedSaveResult where
  result : SaveResult
  previous : Option DocumentSnapshot

namespace DocumentStore
open Storage Document

/-! ### Reading -/

def chunkSize : ℕ := 8192

/-- Chunks are appended until the text ends or is too long. -/
def gather : ℕ → Bytes → Bytes → Bytes
  | 0,gathered,_ => gathered
  | fuel + 1,gathered,rest =>
    if kMaximumDocumentBytes < gathered.length then gathered
    else
      let gathered' := gathered ++ rest.take chunkSize
      if rest.length < chunkSize then gathered' else gather fuel gathered' (rest.drop chunkSize)

def readChunks (content : Bytes) : Bytes := gather (content.length / chunkSize + 1) [] content

section
variable (L : Library)

/-- The document that a read has found. -/
def readDocument (path : Path) : FileContent → Result DocumentSnapshot
  | .missing => .success (.missing path) []
  | .failed message => .failure [{ error message path with code := .ioError }]
  | .content octets => parseDocument L (readChunks octets) path

/-! ### Failures -/

def failure (status : SaveStatus) (message : Bytes) (path : Path) : SaveResult :=
  { status := status, diagnostics := [⟨.atomicWriteError,.error,message,some path,none⟩] }

def storageError (operation : Bytes) (errno : Errno) (path : Path) : SaveResult :=
  failure .storageFailure (operation ++ bytes ": " ++ errno.message) path

/-- A document that cannot be read or parsed. -/
def unreadable (diagnostics : List Diagnostic) : SaveResult :=
  { status := if diagnostics.any (fun item => item.code == .ioError) then .storageFailure else .invalid
    diagnostics := diagnostics }

/-! ### Replacing -/

/-- `written <= 0` fails, and an interrupted write is tried again. -/
def writeTemporary (file : Descriptor) : ℕ → Bytes → Command (Except Errno Unit)
  | _,[] => pure (.ok ())
  | 0,_ :: _ => .exhausted
  | budget + 1,c :: octets => do
    match ← Storage.write file (c :: octets) with
    | .error .interrupted => writeTemporary file budget (c :: octets)
    | .error e => pure (.error e)
    | .ok 0 => pure (.error (.other []))
    | .ok (n + 1) => writeTemporary file budget ((c :: octets).drop (n + 1))

/-- The temporary file gets its octets, the mode, and is synced. -/
def fillTemporary (budget : ℕ) (path : Path) (file : Descriptor) (octets : Bytes) (mode : ℕ) :
    Command (Option SaveResult) := do
  match ← writeTemporary file budget octets with
  | .error e => pure (some (storageError (bytes "write configuration temporary file") e path))
  | .ok () =>
    match ← Storage.fchmod file mode with
    | .error e => pure (some (storageError (bytes "preserve configuration permissions") e path))
    | .ok () =>
      match ← Storage.fsync file with
      | .error e => pure (some (storageError (bytes "sync configuration temporary file") e path))
      | .ok () => pure none

/-- Whether octets, existence and the symlink target are what they were. -/
def unchanged (path : Path) (target : List Name) (current : DocumentSnapshot) : Command Bool := do
  let found ← Storage.read .recheck (.ofLocation target)
  match (readDocument L (.ofLocation target) found).value with
  | none => pure false
  | some latest =>
    if latest.revision ≠ current.revision then pure false
    else
      match ← Storage.resolve .recheck path with
      | .error _ => pure false
      | .ok resolved => pure (resolved = target)

def sameMetadata (target : List Name) : Option Metadata → Command Bool
  | none => pure true
  | some metadata => do
    match ← Storage.stat (.ofLocation target) with
    | .error _ => pure false
    | .ok latest => pure (latest = metadata)

/-- The permissions of an existing target. -/
def inspectTarget (target : List Name) (current : DocumentSnapshot) : Command (Except Errno (Option Metadata)) :=
  if current.revision.exists_ then do
    match ← Storage.stat (.ofLocation target) with
    | .error e => pure (.error e)
    | .ok metadata => pure (.ok (some metadata))
  else pure (.ok none)

/-- Everything up to the rename; a result is a failure. -/
def prepareTemporary (budget : ℕ) (path : Path) (target : List Name) (current : DocumentSnapshot)
    (metadata : Option Metadata) (file : Descriptor) (octets : Bytes) : Command (Option SaveResult) := do
  match ← fillTemporary budget path file octets ((metadata.map Metadata.permissions).getD 0o600) with
  | some result => pure (some result)
  | none =>
    match ← Storage.openDirectory (Path.ofLocation target).parentPath with
    | .error e => pure (some (storageError (bytes "open configuration directory") e path))
    | .ok () =>
      if ← unchanged L path target current then
        if ← sameMetadata target metadata then pure none
        else
          pure (some (failure .revisionChanged (bytes "configuration metadata changed before replacement") path))
      else pure (some (failure .revisionChanged (bytes "configuration changed before replacement") path))

/-- What a change of the target that cannot be synced comes to. -/
def syncTarget (message : Bytes) (path : Path) (target : List Name) (patched : SaveResult) :
    Command SaveResult := do
  let snapshot := patched.snapshot.map (fun s => { s with path := path })
  match ← Storage.fsyncDirectory (Path.ofLocation target).parentPath with
  | .error e =>
    pure { storageError message e path with status := .durabilityFailure, snapshot := snapshot }
  | .ok () => pure { patched with snapshot := snapshot }

def temporaryBase (target : List Name) : Name :=
  bytes "." ++ (Path.ofLocation target).filename ++ bytes ".tmp-"

def replaceDocument (budget : ℕ) (path : Path) (target : List Name) (current : DocumentSnapshot)
    (patched : SaveResult) : Command SaveResult := do
  match ← inspectTarget target current with
  | .error e => pure (storageError (bytes "inspect configuration permissions") e path)
  | .ok metadata =>
    match ← Storage.mkstemp (Path.ofLocation target).parentPath (temporaryBase target) with
    | .error e => pure (storageError (bytes "create configuration temporary file") e path)
    | .ok temporary =>
      let octets := (patched.snapshot.map (fun s => s.revision.bytes)).getD []
      match ← prepareTemporary L budget path target current metadata temporary.file octets with
      | some result =>
        Storage.remove temporary.path
        pure result
      | none =>
        match ← Storage.rename temporary.path (.ofLocation target) with
        | .error e =>
          Storage.remove temporary.path
          pure (storageError (bytes "replace configuration") e path)
        | .ok () =>
          syncTarget (bytes "sync configuration directory after replacement") path target patched

/-! ### Restoring -/

def prepareRestore (previous : DocumentSnapshot) (schema : DocumentSchema) : SaveResult :=
  let parsed := if previous.revision.exists_ then parseDocument L previous.revision.bytes previous.path
    else .success (.missing .none) []
  match parsed.value with
  | none => { status := .invalid, diagnostics := parsed.diagnostics }
  | some snapshot =>
    let diagnostics := validateDocument L snapshot schema
    if hasErrors diagnostics then { status := .invalid, diagnostics := diagnostics }
    else { status := .success, snapshot := some snapshot, diagnostics := diagnostics }

def removeDocument (path : Path) (target : List Name) (current : DocumentSnapshot) (result : SaveResult) :
    Command SaveResult := do
  if !current.revision.exists_ then pure result
  else
    match ← Storage.openDirectory (Path.ofLocation target).parentPath with
    | .error e => pure (storageError (bytes "open rollback directory") e path)
    | .ok () =>
      if ← unchanged L path target current then
        match ← Storage.unlink (.ofLocation target) with
        | .error e => pure (storageError (bytes "remove staged configuration") e path)
        | .ok () => syncTarget (bytes "sync directory after rollback removal") path target result
      else
        pure (failure .revisionChanged (bytes "configuration changed before rollback removal") path)

/-- The captured physical target is still the one; without a rollback there is none. -/
def rollbackTargetMatches (current target : List Name) : Option DocumentSnapshot → Bool
  | none => true
  | some previous => !previous.path.isEmpty &&
    (Path.ofLocation (previous.path.absolute current)).lexicallyNormal = .ofLocation target

/-! ### Updating -/

/-- What a caller asks for: edits, or with a staged revision and what was before it, a rollback. -/
structure Request where
  edits : EditBatch
  schema : DocumentSchema
  staged : Option DocumentRevision := none
  previous : Option DocumentSnapshot := none

def lockPath (target : List Name) : Path := (Path.ofLocation target).append (bytes ".lock")

/-- `flock`, again and again while it is interrupted. -/
def acquire (lock : Path) : ℕ → Command (Except Errno Unit)
  | 0 => .exhausted
  | budget + 1 => do
    match ← Storage.flock lock with
    | .error .interrupted => acquire lock budget
    | r => pure r

/-- What the request makes of the document that is there. -/
def patchFor (request : Request) (current : DocumentSnapshot) : SaveResult :=
  match request.previous with
  | none => patchDocument L current request.edits request.schema
  | some previous => prepareRestore L previous request.schema

/-- Everything under the lock, with what the document was before. -/
def updateLocked (budget : ℕ) (path : Path) (target : List Name) (request : Request) :
    Command (SaveResult × Option DocumentSnapshot) := do
  match ← Storage.resolve .locked path with
  | .error _ => pure (failure .revisionChanged (bytes "configuration target changed") path,none)
  | .ok resolved =>
    if resolved ≠ target then
      pure (failure .revisionChanged (bytes "configuration target changed") path,none)
    else
      let found ← Storage.read .locked (.ofLocation target)
      let read := readDocument L (.ofLocation target) found
      match read.value with
      | none => pure (unreadable read.diagnostics,none)
      | some current =>
        if request.staged.any (fun staged => current.revision ≠ staged) then
          pure (failure .revisionChanged (bytes "staged document changed; rollback refused") path,none)
        else
          let patched := patchFor L request current
          if request.previous.any (fun p => !p.revision.exists_) ∧ patched.status = .success then
            let removed ← removeDocument L path target current patched
            pure (removed,none)
          else if patched.status ≠ .success then pure (patched,none)
          else if patched.snapshot.map (fun s => s.revision.bytes) = some current.revision.bytes then
            pure ({ patched with snapshot := some current },some current)
          else
            let replaced ← replaceDocument L budget path target current patched
            pure (replaced,some current)

def updateTarget (budget : ℕ) (path : Path) (target : List Name) (request : Request) :
    Command (SaveResult × Option DocumentSnapshot) := do
  match ← Storage.createDirectories (Path.ofLocation target).parentPath with
  | .error e => pure (failure .storageFailure e.message path,none)
  | .ok () =>
    match ← Storage.openLock (lockPath target) with
    | .error e => pure (storageError (bytes "open configuration lock") e path,none)
    | .ok () =>
      match ← acquire (lockPath target) budget with
      | .error e => pure (storageError (bytes "lock configuration") e path,none)
      | .ok () =>
        let result ← updateLocked L budget path target request
        Storage.unlock (lockPath target)
        pure result

def updateDocument (budget : ℕ) (me : Process) (path : Path) (request : Request) :
    Command (SaveResult × Option DocumentSnapshot) := do
  if path.isEmpty ∨ path.filename = [] then
    pure (failure .storageFailure (bytes "empty configuration destination") path,none)
  else
    match ← Storage.resolve .before path with
    | .error e => pure (failure .storageFailure e.message path,none)
    | .ok target =>
      if !rollbackTargetMatches me.current target request.previous then
        pure (failure .revisionChanged
          (bytes "staged configuration target changed; rollback refused") path,none)
      else
        let found ← Storage.read .before (.ofLocation target)
        let initial := readDocument L (.ofLocation target) found
        match initial.value with
        | none => pure (unreadable initial.diagnostics,none)
        | some _ => updateTarget L budget path target request

def resolveDocumentTarget (path : Path) : Command (Result (List Name)) := do
  if path.isEmpty then
    pure (.failure [⟨.pathUnavailable,.error,bytes "empty configuration path",some path,none⟩])
  else
    match ← Storage.resolve .before path with
    | .error e => pure (.failure [⟨.ioError,.error,e.message,some path,none⟩])
    | .ok target => pure (.success target [])

def saveDocument (budget : ℕ) (me : Process) (path : Path) (edits : EditBatch) (schema : DocumentSchema) :
    Command SaveResult :=
  Prod.fst <$> updateDocument L budget me path ⟨edits,schema,none,none⟩

/-- What was before is kept where the document is in place. -/
def stagedResult (r : SaveResult × Option DocumentSnapshot) : StagedSaveResult :=
  ⟨r.1,if r.1.status = .success ∨ r.1.status = .durabilityFailure then r.2 else none⟩

def stageDocument (budget : ℕ) (me : Process) (path : Path) (edits : EditBatch) (schema : DocumentSchema) :
    Command StagedSaveResult :=
  stagedResult <$> updateDocument L budget me path ⟨edits,schema,none,none⟩

def restoreDocument (budget : ℕ) (me : Process) (path : Path) (staged : DocumentRevision)
    (previous : DocumentSnapshot) (schema : DocumentSchema) : Command SaveResult :=
  Prod.fst <$> updateDocument L budget me path ⟨[],schema,some staged,some previous⟩

end
end DocumentStore
end HolonightConfig
