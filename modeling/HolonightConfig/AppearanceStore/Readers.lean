import HolonightConfig.AppearanceStore
import HolonightConfig.DocumentStore.Replacing
import HolonightConfig.Store
import HolonightConfig.Toml.Reference

/-! The two readers of an appearance path, over what the system says of the path: loading
for use, and reading for an edit. -/
namespace HolonightConfig
open Text Toml Posix

namespace Readers

/-- The reads of an opened file: chunks until its end, or until one fails. -/
structure Input (octets : Bytes) where
  chunks : List Bytes
  bad : Bool
  part : chunks.flatten <+: octets
  whole : bad = false → chunks.flatten = octets

/-- What a path leads to; a regular file may not be opened. -/
inductive Found
  | regular (octets : Bytes) (input : Option (Input octets))
  | directory
  | special

/-- `stat` of a path, and whether `lstat` finds a symbolic link. -/
structure PathState where
  stat : Except Errno Found
  isSymlink : Bool

/-- `std::filesystem::file_type`, as far as it is told apart. -/
inductive FileType
  | none | notFound | regular | other
  deriving DecidableEq

inductive LoadOrigin
  | file | default
  deriving DecidableEq

structure LoadedAppearance where
  appearance : Appearance
  origin : LoadOrigin

def Found.type : Found → FileType
  | .regular _ _ => .regular
  | _ => .other

namespace PathState

/-- `std::filesystem::status` with its error code. -/
def status (s : PathState) : FileType × Option Errno :=
  match s.stat with
  | .ok found => (found.type,none)
  | .error e => (if e = .noEntry ∨ e = .notDirectory then .notFound else .none,some e)

/-- `std::filesystem::exists` with its error code. -/
def exists_ (s : PathState) : Bool × Option Errno :=
  if s.status.1 = .none then (false,s.status.2) else (s.status.1 ≠ .notFound,none)

def fileSize (s : PathState) : Except Errno ℕ :=
  match s.stat with
  | .ok (.regular octets _) => .ok octets.length
  | .ok .directory => .error .isDirectory
  | .ok .special => .error (.other (bytes "Operation not supported"))
  | .error e => .error e

/-- `std::ifstream`, where it opens. -/
def open_ (s : PathState) : Option (List Bytes × Bool) :=
  match s.stat with
  | .ok (.regular _ (some input)) => some (input.chunks,input.bad)
  | _ => none

end PathState

section
variable (L : Library)

/-! ### `readDocument` -/

/-- Chunks are taken while the text is short enough; the stream may be bad at its end. -/
def takeChunks (bad : Bool) : Bytes → List Bytes → Bytes × Bool
  | gathered,[] => (gathered,bad)
  | gathered,chunk :: chunks =>
    if gathered.length ≤ kMaximumDocumentBytes then takeChunks bad (gathered ++ chunk) chunks
    else (gathered,false)

def ioError (message : Bytes) (path : Path) : Diagnostic :=
  { Document.error message path with code := .ioError }

def readDocument (s : PathState) (path : Path) : Result DocumentSnapshot :=
  if (s.status.1 = .notFound ∧ (s.status.2 = none ∨ s.status.2 = some .noEntry)) ∧ !s.isSymlink then
    .success (.missing path) []
  else if s.status.2.isSome ∨ s.status.1 ≠ .regular then
    .failure [ioError (bytes "configuration is not a readable regular file") path]
  else
    match s.open_ with
    | none => .failure [ioError (bytes "cannot open configuration file") path]
    | some (chunks,bad) =>
      let read := takeChunks bad [] chunks
      if read.2 then .failure [ioError (bytes "cannot read configuration file") path]
      else Document.parseDocument L read.1 path

/-- What is decoded of a read. -/
def decodeSnapshot (snapshot : Result DocumentSnapshot) : Result AppearanceDocument :=
  match snapshot.value with
  | none => .failure snapshot.diagnostics
  | some snapshot => AppearanceDocument.decodeAppearanceDocument L snapshot

def readAppearanceDocument (s : PathState) (path : Path) : Result AppearanceDocument :=
  decodeSnapshot L (readDocument L s path)

/-! ### `load` -/

/-- Chunks are appended; a text that gets too long is given up. -/
def appendChunks (bad : Bool) : Bytes → List Bytes → Option (Bytes × Bool)
  | document,[] => some (document,bad)
  | document,chunk :: chunks =>
    if kMaximumDocumentBytes < (document ++ chunk).length then none
    else appendChunks bad (document ++ chunk) chunks

def inspectError (errno : Option Errno) (path : Path) : Diagnostic :=
  Store.fileDiagnostic .ioError
    (bytes "failed to inspect appearance file: " ++ (errno.map Errno.message).getD []) path

def tooLarge (path : Path) : Diagnostic :=
  Store.fileDiagnostic .tooLarge (bytes "appearance document exceeds 65536 bytes") path

/-- The document that is read is decoded. -/
def loadDocument (document : Bytes) (path : Path) : Result LoadedAppearance :=
  let snapshot := Document.parseDocument L document path
  match snapshot.value with
  | none => .failure snapshot.diagnostics
  | some snapshot =>
    let parsed := AppearanceDocument.decodeAppearanceDocument L snapshot
    match parsed.value with
    | none => .failure parsed.diagnostics
    | some parsed' => .success ⟨parsed'.appearance,.file⟩ parsed.diagnostics

/-- The opened file is read. -/
def loadChunks (chunks : List Bytes) (bad : Bool) (path : Path) : Result LoadedAppearance :=
  match appendChunks bad [] chunks with
  | none => .failure [tooLarge path]
  | some (document,bad) =>
    if bad then .failure [Store.fileDiagnostic .ioError (bytes "failed to read appearance file") path]
    else loadDocument L document path

def load (s : PathState) (path : Path) : Result LoadedAppearance :=
  if s.exists_.1 = false then
    match s.exists_.2 with
    | some e => .failure [inspectError (some e) path]
    | none => .success ⟨defaults,.default⟩
      [⟨.missing,.info,bytes "appearance file is missing; shared defaults are active",some path,none⟩]
  else
    match s.fileSize with
    | .error e => .failure [inspectError (some e) path]
    | .ok size =>
      if kMaximumDocumentBytes < size then .failure [tooLarge path]
      else
        match s.open_ with
        | none => .failure [Store.fileDiagnostic .ioError (bytes "failed to open appearance file") path]
        | some (chunks,bad) => loadChunks L chunks bad path

/-! ### What both make of a path -/

/-- The state of a path in a tree whose files can all be read. -/
def PathState.ofTree (t : Tree) (p : List Name) : PathState where
  stat := (t.look true p).map (fun file => match file with
    | .regular _ octets => .regular octets (some ⟨[octets],false,by simp,by simp⟩)
    | .directory _ => .directory
    | _ => .special)
  isSymlink := match t.look false p with
    | .ok (.symlink _) => true
    | _ => false

/-- What reading finds in a tree. -/
theorem readAppearanceDocument_ofTree (t : Tree) (p : List Name) (path : Path) :
    readAppearanceDocument L (.ofTree t p) path = AppearanceStore.decodeRead L path (Storage.reading t p) := by
  unfold PathState.ofTree Storage.reading
  cases hf : t.look true p with
  | ok file =>
    cases file with
    | regular m octets =>
      simp only [AppearanceStore.decodeRead,DocumentStore.readDocument,DocumentStore.parseDocument_readChunks]
      rfl
    | _ => rfl
  | error e =>
    cases e with
    | noEntry =>
      cases hl : t.look false p with
      | error e => rfl
      | ok file => cases file <;> rfl
    | _ => rfl

/-- Both fail, or both succeed with one appearance, the defaults where nothing is there. -/
structure Agree (loaded : Result LoadedAppearance) (read : Result AppearanceDocument) : Prop where
  success : loaded.value.isSome = read.value.isSome
  appearance : ∀ l d, loaded.value = some l → read.value = some d → l.appearance = d.appearance
  origin : (∃ l, loaded.value = some l ∧ l.origin = .default) ↔
    ∃ d, read.value = some d ∧ d.snapshot.revision.exists_ = false

variable {L}

theorem agree_failure {loaded : Result LoadedAppearance} {read : Result AppearanceDocument}
    (hl : loaded.value = none) (hr : read.value = none) : Agree loaded read where
  success := by rw [hl,hr]; rfl
  appearance l d h := by rw [hl] at h; cases h
  origin := by rw [hl,hr]; simp

theorem decode_snapshot {snapshot : DocumentSnapshot} {d : AppearanceDocument}
    (h : (AppearanceDocument.decodeAppearanceDocument L snapshot).value = some d) : d.snapshot = snapshot := by
  unfold AppearanceDocument.decodeAppearanceDocument at h
  dsimp only at h
  repeat' split at h
  all_goals first | cases h; rfl | cases h

theorem takeChunks_eq (bad : Bool) (gathered : Bytes) (chunks : List Bytes) :
    takeChunks bad gathered chunks = (gathered ++ chunks.flatten,bad) ∨
      (kMaximumDocumentBytes < (takeChunks bad gathered chunks).1.length ∧
        kMaximumDocumentBytes < (gathered ++ chunks.flatten).length) := by
  induction chunks generalizing gathered with
  | nil => exact Or.inl (by rw [takeChunks,List.flatten_nil,List.append_nil])
  | cons chunk chunks ih =>
    rw [takeChunks]
    split
    · rw [List.flatten_cons,← List.append_assoc]
      exact ih _
    · next h =>
      refine Or.inr ⟨Nat.not_le.mp h,?_⟩
      rw [List.length_append]
      omega

theorem appendChunks_eq (bad : Bool) {document : Bytes} (chunks : List Bytes)
    (h : document.length ≤ kMaximumDocumentBytes) :
    appendChunks bad document chunks =
      if (document ++ chunks.flatten).length ≤ kMaximumDocumentBytes then
        some (document ++ chunks.flatten,bad) else none := by
  induction chunks generalizing document with
  | nil => rw [appendChunks,List.flatten_nil,List.append_nil,if_pos h]
  | cons chunk chunks ih =>
    rw [appendChunks,List.flatten_cons,← List.append_assoc]
    split
    · next hlt =>
      rw [if_neg]
      rw [List.length_append]
      omega
    · next hle => exact ih (Nat.not_lt.mp hle)

theorem parseDocument_tooLarge {octets : Bytes} (h : kMaximumDocumentBytes < octets.length) (path : Path) :
    (Document.parseDocument L octets path).value = none := by
  rw [Document.parseDocument,if_pos h]
  rfl

/-- The appearance of a text, as both readers have it. -/
theorem agree_document (octets : Bytes) (path : Path) :
    Agree (loadDocument L octets path)
      (decodeSnapshot L (Document.parseDocument L octets path)) := by
  unfold loadDocument decodeSnapshot
  cases hp : (Document.parseDocument L octets path).value with
  | none => exact agree_failure (by simp only [hp]; rfl) rfl
  | some snapshot =>
    simp only [hp]
    cases hd : (AppearanceDocument.decodeAppearanceDocument L snapshot).value with
    | none => exact agree_failure rfl hd
    | some d =>
      refine ⟨by rw [hd]; rfl,?_,?_⟩
      · intro l d' hl hd'
        rw [hd] at hd'
        cases hl
        cases hd'
        rfl
      · constructor
        · rintro ⟨l,hl,ho⟩
          cases hl
          cases ho
        · rintro ⟨d',hd',he⟩
          rw [decode_snapshot hd',(Document.parseDocument_some L hp).2] at he
          cases he

theorem loadChunks_eq (chunks : List Bytes) (bad : Bool) (path : Path) :
    loadChunks L chunks bad path =
      if kMaximumDocumentBytes < chunks.flatten.length then .failure [tooLarge path]
      else if bad then
        .failure [Store.fileDiagnostic .ioError (bytes "failed to read appearance file") path]
      else loadDocument L chunks.flatten path := by
  have h := @appendChunks_eq bad [] chunks (by decide)
  rw [List.nil_append] at h
  rw [loadChunks,h]
  rcases Nat.lt_or_ge kMaximumDocumentBytes chunks.flatten.length with hlt | hle
  · rw [if_neg (Nat.not_le.mpr hlt),if_pos hlt]
  · rw [if_pos hle,if_neg (Nat.not_lt.mpr hle)]

theorem load_input {octets : Bytes} (input : Input octets) (isSymlink : Bool) (path : Path) :
    load L ⟨.ok (.regular octets (some input)),isSymlink⟩ path =
      if kMaximumDocumentBytes < octets.length then .failure [tooLarge path]
      else loadChunks L input.chunks input.bad path := rfl

theorem read_input {octets : Bytes} (input : Input octets) (isSymlink : Bool) (path : Path) :
    readAppearanceDocument L ⟨.ok (.regular octets (some input)),isSymlink⟩ path =
      decodeSnapshot L (if (takeChunks input.bad [] input.chunks).2 then
        .failure [ioError (bytes "cannot read configuration file") path]
      else Document.parseDocument L (takeChunks input.bad [] input.chunks).1 path) := rfl

/-- A regular file that opens. -/
theorem agree_input {octets : Bytes} (input : Input octets) (isSymlink : Bool) (path : Path) :
    Agree (load L ⟨.ok (.regular octets (some input)),isSymlink⟩ path)
      (readAppearanceDocument L ⟨.ok (.regular octets (some input)),isSymlink⟩ path) := by
  rw [load_input,read_input]
  have hpart := input.part.length_le
  rcases takeChunks_eq input.bad [] input.chunks with h | ⟨hlong,hflat⟩
  · rw [List.nil_append] at h
    rw [h,loadChunks_eq]
    cases hb : input.bad with
    | true =>
      refine agree_failure ?_ rfl
      rw [if_pos rfl]
      repeat' split
      all_goals rfl
    | false =>
      rw [input.whole hb]
      rcases Nat.lt_or_ge kMaximumDocumentBytes octets.length with hlt | hle
      · rw [if_pos hlt]
        refine agree_failure rfl ?_
        rw [decodeSnapshot,if_neg Bool.false_ne_true,parseDocument_tooLarge hlt]
        rfl
      · rw [if_neg (Nat.not_lt.mpr hle),if_neg (Nat.not_lt.mpr hle)]
        exact agree_document octets path
  · rw [List.nil_append] at hflat
    refine agree_failure ?_ ?_
    · rw [if_pos (hflat.trans_le hpart)]
      rfl
    · rw [decodeSnapshot]
      split
      · rfl
      · next hs =>
        split at hs
        · cases hs
        · rw [parseDocument_tooLarge hlong] at hs
          cases hs

/-- What is not a regular file that opens is not read. -/
theorem agree_found (found : Found) (isSymlink : Bool) (path : Path) :
    Agree (load L ⟨.ok found,isSymlink⟩ path) (readAppearanceDocument L ⟨.ok found,isSymlink⟩ path) := by
  cases found with
  | regular octets input =>
    cases input with
    | some input => exact agree_input input isSymlink path
    | none =>
      refine agree_failure ?_ rfl
      unfold load
      rw [if_neg (by rintro ⟨⟩)]
      dsimp only [PathState.fileSize]
      split
      all_goals rfl
  | directory => exact agree_failure rfl rfl
  | special => exact agree_failure rfl rfl

theorem agree_missing (path : Path) :
    Agree (load L ⟨.error .noEntry,false⟩ path) (readAppearanceDocument L ⟨.error .noEntry,false⟩ path) where
  success := rfl
  appearance l d hl hd := by
    cases hl
    cases hd
    rfl
  origin := iff_of_true ⟨_,rfl,rfl⟩ ⟨_,rfl,rfl⟩

/-- Where the link dangles, or a directory on the way is none. -/
def PathState.Misread (s : PathState) : Prop :=
  s.stat = .error .notDirectory ∨ (s.stat = .error .noEntry ∧ s.isSymlink = true)

theorem misread_disagree {s : PathState} (h : s.Misread) (path : Path) :
    ¬ Agree (load L s path) (readAppearanceDocument L s path) := by
  obtain ⟨stat,isSymlink⟩ := s
  intro ha
  rcases h with h | ⟨h,hl⟩
  · cases h
    have := ha.success
    cases this
  · cases h
    cases hl
    have := ha.success
    cases this

/-- Loading takes a dangling link, or a path behind what is no directory, for a missing file;
reading fails there. -/
theorem load_agrees (L : Library) (s : PathState) (path : Path) :
    Agree (load L s path) (readAppearanceDocument L s path) ↔ ¬ s.Misread := by
  refine ⟨fun ha h => misread_disagree h path ha,fun h => ?_⟩
  obtain ⟨stat,isSymlink⟩ := s
  cases stat with
  | ok found => exact agree_found found isSymlink path
  | error e =>
    cases e with
    | noEntry =>
      cases isSymlink with
      | true => exact absurd (Or.inr ⟨rfl,rfl⟩) h
      | false => exact agree_missing path
    | notDirectory => exact absurd (Or.inl rfl) h
    | isDirectory => exact agree_failure rfl rfl
    | loop => exact agree_failure rfl rfl
    | exists_ => exact agree_failure rfl rfl
    | interrupted => exact agree_failure rfl rfl
    | other text => exact agree_failure rfl rfl

theorem load_disagrees : ¬ ∀ (L : Library) (s : PathState) (path : Path),
    Agree (load L s path) (readAppearanceDocument L s path) := by
  intro h
  have hs := (h Toml.Reference.library ⟨.error .noEntry,true⟩ ⟨true,[bytes "appearance.toml"]⟩).success
  cases hs

end

end Readers
end HolonightConfig
