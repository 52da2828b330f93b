import HolonightConfig.Document.Planning
import HolonightConfig.DocumentStore

/-! One process under every schedule of faults: reading, and replacing or removing the
target, which leaves the tree as it was or changes the target alone. -/
namespace HolonightConfig
open Text Toml Posix Program

/-- Neither in place nor with a snapshot. -/
structure SaveResult.Failed (r : SaveResult) : Prop where
  snapshot : r.snapshot = none
  status : r.status ≠ .success ∧ r.status ≠ .durabilityFailure

namespace DocumentStore
open Storage Document
variable (L : Library)

/-! ### Reading -/

/-- A location's file is this revision of a document. -/
def Holds (f : Option File) (revision : DocumentRevision) : Prop :=
  match f with
  | none => revision = ⟨false,[]⟩
  | some (.regular _ octets) => revision = ⟨true,octets⟩
  | some _ => False

/-- The document a revision of the target is. -/
def snapshotAt (target : List Name) (revision : DocumentRevision) : Option DocumentSnapshot :=
  if revision.exists_ then (parseDocument L revision.bytes (.ofLocation target)).value
  else some (.missing (.ofLocation target))

theorem Holds.unique {f : Option File} {r r' : DocumentRevision} (h : Holds f r) (h' : Holds f r') : r = r' := by
  unfold Holds at h h'
  split at h
  · exact h.trans h'.symm
  · exact h.trans h'.symm
  · exact h.elim

theorem Holds.cases {f : Option File} {r : DocumentRevision} (h : Holds f r) :
    (f = none ∧ r = ⟨false,[]⟩) ∨ ∃ m, f = some (.regular m r.bytes) ∧ r.exists_ = true := by
  cases f with
  | none => exact .inl ⟨rfl,h⟩
  | some f =>
    cases f with
    | regular m octets =>
      have h : r = ⟨true,octets⟩ := h
      rw [h]
      exact .inr ⟨m,rfl,rfl⟩
    | _ => exact h.elim

theorem Holds.not_isDirectory {t : Tree} {p : List Name} {r : DocumentRevision} (h : Holds (t.file p) r) :
    t.isDirectory p = false := by
  rcases h.cases with ⟨hf,-⟩ | ⟨m,hf,-⟩ <;> rw [Tree.isDirectory,hf] <;> rfl

theorem Holds.ne_nil {t : Tree} {p : List Name} {r : DocumentRevision} (h : Holds (t.file p) r) : p ≠ [] := by
  rintro rfl
  have := h.not_isDirectory
  rw [t.isDirectory_root] at this
  cases this

theorem gather_eq {fuel : ℕ} {gathered rest : Bytes} (hf : rest.length < fuel * chunkSize) :
    gather fuel gathered rest = gathered ++ rest ∨
      (kMaximumDocumentBytes < (gather fuel gathered rest).length ∧
        kMaximumDocumentBytes < (gathered ++ rest).length) := by
  induction fuel generalizing gathered rest with
  | zero => simp at hf
  | succ fuel ih =>
    rw [Nat.succ_mul] at hf
    rw [gather]
    split
    · next h => exact .inr ⟨h,by rw [List.length_append]; omega⟩
    · dsimp only
      split
      · next h =>
        left
        rw [List.take_of_length_le (by omega)]
      · next h =>
        have hd : (rest.drop chunkSize).length < fuel * chunkSize := by
          rw [List.length_drop]
          generalize fuel * chunkSize = n at hf ⊢
          omega
        have := @ih (gathered ++ rest.take chunkSize) (rest.drop chunkSize) hd
        rwa [List.append_assoc,List.take_append_drop] at this

/-- Reading in chunks up to the limit makes no difference to parsing. -/
theorem parseDocument_readChunks (content : Bytes) (path : Path) :
    parseDocument L (readChunks content) path = parseDocument L content path := by
  have hlen : content.length < (content.length / chunkSize + 1) * chunkSize :=
    Nat.lt_mul_of_div_lt (Nat.lt_succ_self _) (by decide)
  rcases @gather_eq (content.length / chunkSize + 1) [] content hlen with h | ⟨h₁,h₂⟩
  · rw [readChunks,h,List.nil_append]
  · rw [List.nil_append] at h₂
    unfold parseDocument readChunks
    rw [if_pos h₁,if_pos h₂]

section FileContent
variable {t : Tree} {target : List Name}

theorem file_of_content (h : Physical t target) {octets : Bytes} (hr : reading t target = .content octets) :
    ∃ m, t.file target = some (.regular m octets) := by
  unfold reading at hr
  split at hr
  · split at hr <;> cases hr
  · cases hr
  · next m b hl =>
    cases hr
    exact ⟨m,Tree.look_plain h.names h.plain hl⟩
  · cases hr

theorem file_of_missing (h : Physical t target) (hr : reading t target = .missing) : t.file target = none := by
  cases hf : t.file target with
  | none => rfl
  | some f =>
    have hl := @Tree.look_names t true target h.names (Tree.opened_of_exists (by rw [hf]; rfl))
      (fun _ => h.plain target (List.prefix_refl _))
    rw [hf] at hl
    unfold reading at hr
    rw [hl] at hr
    cases f <;> cases hr

/-- A document that has been read is the target's revision, parsed. -/
theorem holds_of_read (h : Physical t target) {current : DocumentSnapshot}
    (hr : (readDocument L (.ofLocation target) (reading t target)).value = some current) :
    Holds (t.file target) current.revision ∧ snapshotAt L target current.revision = some current := by
  cases hf : reading t target with
  | missing =>
    rw [hf] at hr
    cases hr
    rw [file_of_missing h hf]
    exact ⟨rfl,rfl⟩
  | failed message =>
    rw [hf] at hr
    cases hr
  | content octets =>
    rw [hf] at hr
    obtain ⟨m,hm⟩ := file_of_content h hf
    have hp : (parseDocument L octets (.ofLocation target)).value = some current := by
      rw [← parseDocument_readChunks]
      exact hr
    obtain ⟨-,hrev⟩ := parseDocument_some L hp
    rw [hm,hrev]
    exact ⟨rfl,hp⟩

end FileContent
/-! ### The temporary file -/

/-- Every step leaves the target in one of the states allowed. -/
def keeps (target : List Name) (I : Option File → Prop) : Semantics Call Call.Answer World :=
  fun _ _ _ w' => I (w'.tree.file target)

/-- One more file than before, with these octets. -/
structure Drafted (w₀ : World) (file : Descriptor) (m : Metadata) (b : Bytes) (w : World) : Prop where
  written : w.tree.file file.location = some (.regular m b)
  others : ∀ q, q ≠ file.location → w.tree.file q = w₀.tree.file q
  holder : w.holder = w₀.holder

/-- The temporary file is gone again, or it is left where removing it may fail. -/
def CleanedUp (removal : Prop) (temporary : List Name → Prop) (t t' : Tree) : Prop :=
  t' = t ∨ removal ∧ ∃ q m b, temporary q ∧ t.file q = none ∧ t'.file q = some (.regular m b) ∧
    ∀ q', q' ≠ q → t'.file q' = t.file q'

theorem CleanedUp.file {removal : Prop} {temporary : List Name → Prop} {t t' : Tree}
    (h : CleanedUp removal temporary t t') {q : List Name} (hq : ¬ temporary q) : t'.file q = t.file q := by
  rcases h with rfl | ⟨-,q',m,b,ht,-,-,hothers⟩
  · rfl
  · refine hothers q ?_
    rintro rfl
    exact hq ht

theorem Drafted.cleanedUp {w₀ w : World} {file : Descriptor} {m : Metadata} {b : Bytes}
    (h : Drafted w₀ file m b w) {removal : Prop} (hr : removal) {temporary : List Name → Prop}
    (ht : temporary file.location) (hfresh : w₀.tree.file file.location = none) :
    CleanedUp removal temporary w₀.tree w.tree :=
  .inr ⟨hr,_,m,b,ht,hfresh,h.written,h.others⟩

theorem Drafted.modify {w₀ w : World} {file : Descriptor} {m : Metadata} {b : Bytes}
    (h : Drafted w₀ file m b w) (g : Metadata → Bytes → Metadata × Bytes) :
    Drafted w₀ file (g m b).1 (g m b).2 (w.on (w.tree.modify file.directory file.name g)) where
  written := Tree.file_modify_self h.written g
  others := fun q hq => (Tree.file_modify_of_ne hq g).trans (h.others q hq)
  holder := h.holder

section
variable {me : Process} {removal : Prop} {target : List Name} {I : Option File → Prop}

/-- What is not the temporary file keeps what it had. -/
theorem Drafted.keeps {w₀ w : World} {file : Descriptor} {m : Metadata} {b : Bytes} (h : Drafted w₀ file m b w)
    (hne : target ≠ file.location) (hI : I (w₀.tree.file target)) : I (w.tree.file target) := by
  rw [h.others target hne]
  exact hI

theorem writeTemporary_faulty {w₀ w : World} {file : Descriptor} {m : Metadata} {b : Bytes}
    (hd : Drafted w₀ file m b w) (hne : target ≠ file.location) (hI : I (w₀.tree.file target))
    (budget : ℕ) (octets : Bytes) :
    Ensures (failing removal me) (keeps target I)
      (fun r w' => ∃ b', Drafted w₀ file m b' w' ∧ (r = .ok () → b' = b ++ octets))
      (writeTemporary file budget octets) w := by
  induction budget generalizing octets b w with
  | zero =>
    cases octets with
    | nil => exact ⟨b,hd,by simp⟩
    | cons c octets => trivial
  | succ budget ih =>
    cases octets with
    | nil => exact ⟨b,hd,by simp⟩
    | cons c octets =>
      refine ensures_perform (fun r w' hs => ?_)
      rcases hs with ⟨k,hpos,hk,rfl,rfl⟩ | ⟨he,rfl⟩
      · have hd' := hd.modify (fun m b => (m,b ++ (c :: octets).take k))
        refine ⟨hd'.keeps hne hI,?_⟩
        obtain ⟨k,rfl⟩ := Nat.exists_eq_succ_of_ne_zero (Nat.pos_iff_ne_zero.mp hpos)
        refine (ih hd' ((c :: octets).drop (k + 1))).mono (fun r w' h => ?_)
        obtain ⟨b',hd',hr⟩ := h
        refine ⟨b',hd',fun h => ?_⟩
        rw [hr h,List.append_assoc,List.take_append_drop]
      · refine ⟨hd.keeps hne hI,?_⟩
        rcases he with ⟨e,rfl⟩ | rfl
        · cases e with
          | interrupted => exact ih hd _
          | _ => exact ⟨b,hd,by simp⟩
        · exact ⟨b,hd,by simp⟩

theorem failed_failure {status : SaveStatus} (h : status ≠ .success ∧ status ≠ .durabilityFailure)
    (message : Bytes) (path : Path) : SaveResult.Failed (failure status message path) := ⟨rfl,h⟩

theorem failed_storageError (operation : Bytes) (errno : Errno) (path : Path) :
    SaveResult.Failed (storageError operation errno path) := ⟨rfl,by simp [storageError,failure]⟩

theorem permissions_chmod (m : Metadata) {mode : ℕ} (h : mode < 4096) :
    ({ m with mode := m.mode - m.permissions + mode } : Metadata).permissions = mode := by
  simp only [Metadata.permissions]
  omega

theorem fillTemporary_faulty {w₀ w : World} {file : Descriptor} {m : Metadata}
    (hd : Drafted w₀ file m [] w) (hne : target ≠ file.location) (hI : I (w₀.tree.file target))
    (budget : ℕ) (path : Path) (octets : Bytes) {mode : ℕ} (hmode : mode < 4096) :
    Ensures (failing removal me) (keeps target I)
      (fun r w' => ∃ m' b', Drafted w₀ file m' b' w' ∧ (∀ result, r = some result → result.Failed) ∧
        (r = none → b' = octets ∧ m'.permissions = mode))
      (fillTemporary budget path file octets mode) w := by
  refine ensures_bind (writeTemporary_faulty hd hne hI budget octets) (fun r w' h => ?_)
  obtain ⟨b',hd',hr⟩ := h
  cases r with
  | error e =>
    refine ⟨m,b',hd',?_,by simp⟩
    rintro result ⟨rfl⟩
    exact failed_storageError _ _ _
  | ok u =>
    have hb := hr rfl
    rw [List.nil_append] at hb
    refine ensures_perform (fun r w'' hs => ?_)
    rcases hs with ⟨rfl,rfl⟩ | ⟨⟨e,rfl⟩,rfl⟩
    · have hd'' := hd'.modify (fun m b => ({ m with mode := m.mode - m.permissions + mode },b))
      refine ⟨hd''.keeps hne hI,?_⟩
      refine ensures_perform (fun r w₃ hs => ?_)
      rcases hs with ⟨rfl,rfl⟩ | ⟨⟨e,rfl⟩,rfl⟩
      · exact ⟨hd''.keeps hne hI,_,_,hd'',by simp,fun _ => ⟨hb,permissions_chmod m hmode⟩⟩
      · refine ⟨hd''.keeps hne hI,_,_,hd'',?_,by simp⟩
        rintro result ⟨rfl⟩
        exact failed_storageError _ _ _
    · refine ⟨hd'.keeps hne hI,m,b',hd',?_,by simp⟩
      rintro result ⟨rfl⟩
      exact failed_storageError _ _ _

/-! ### The recheck -/

/-- The recheck changes nothing, and passes only where the path still leads to the target
and the target is the revision that was read. -/
theorem unchanged_faulty {w : World} (hI : I (w.tree.file target)) (path : Path)
    (current : DocumentSnapshot) :
    Ensures (failing removal me) (keeps target I)
      (fun r w' => w' = w ∧ (r = true → resolveTarget w.tree me.current path = .ok target ∧
        Holds (w.tree.file target) current.revision))
      (unchanged L path target current) w := by
  refine ensures_perform (fun found w' hs => ?_)
  have hsame : w' = w := by rcases hs with ⟨rfl,-⟩ | ⟨-,rfl⟩ <;> rfl
  subst hsame
  refine ⟨hI,?_⟩
  split
  · exact ⟨rfl,by simp⟩
  · next latest hl =>
    split
    · exact ⟨rfl,by simp⟩
    · next hrev =>
      refine ensures_perform (fun r w'' hr => ?_)
      have hsame : w'' = w' := by rcases hr with ⟨rfl,-⟩ | ⟨-,rfl⟩ <;> rfl
      subst hsame
      refine ⟨hI,?_⟩
      cases r with
      | error e => exact ⟨rfl,by simp⟩
      | ok resolved =>
        refine ⟨rfl,fun heq => ?_⟩
        rw [decide_eq_true_eq] at heq
        have hres : resolveTarget w''.tree me.current path = .ok target := by
          rcases hr with ⟨-,h⟩ | ⟨⟨e,h⟩,-⟩
          · rw [← heq]
            exact h.symm
          · cases h
        refine ⟨hres,?_⟩
        have hfound : found = reading w''.tree target := by
          rcases hs with ⟨-,h⟩ | ⟨⟨message,rfl⟩,-⟩
          · exact h
          · cases hl
        rw [hfound] at hl
        have := (holds_of_read L (resolveTarget_physical hres) hl).1
        rwa [not_not.mp hrev] at this

theorem sameMetadata_faulty {w : World} (hI : I (w.tree.file target)) (metadata : Option Metadata) :
    Ensures (failing removal me) (keeps target I) (fun _ w' => w' = w) (sameMetadata target metadata) w := by
  cases metadata with
  | none => rfl
  | some m =>
    refine ensures_perform (fun r w' hs => ?_)
    have hsame : w' = w := by rcases hs with ⟨rfl,-⟩ | ⟨-,rfl⟩ <;> rfl
    subst hsame
    refine ⟨hI,?_⟩
    cases r <;> rfl

/-- The permissions found are the target's. -/
theorem inspectTarget_faulty {w : World} (hp : Physical w.tree target) (hI : I (w.tree.file target))
    {current : DocumentSnapshot} (hc : Holds (w.tree.file target) current.revision) :
    Ensures (failing removal me) (keeps target I)
      (fun r w' => w' = w ∧ ∀ metadata, r = .ok metadata →
        metadata = (w.tree.file target).map fileMetadata)
      (inspectTarget target current) w := by
  unfold inspectTarget
  split
  · refine ensures_perform (fun r w' hs => ?_)
    rcases hs with ⟨rfl,rfl⟩ | ⟨⟨e,rfl⟩,rfl⟩
    · refine ⟨hI,?_⟩
      rw [Path.absolute_ofLocation]
      cases hl : w'.tree.look true target with
      | error e => exact ⟨rfl,fun metadata h => by cases h⟩
      | ok f =>
        refine ⟨rfl,?_⟩
        rintro metadata ⟨rfl⟩
        rw [Tree.look_plain hp.names hp.plain hl]
        rfl
    · exact ⟨hI,rfl,by simp⟩
  · next he =>
    refine ⟨rfl,?_⟩
    rintro metadata ⟨rfl⟩
    rcases hc.cases with ⟨hf,-⟩ | ⟨m,-,he'⟩
    · rw [hf]
      rfl
    · exact absurd he' he

end
/-! ### Replacing and removing -/

/-- The result as the caller gets it: the snapshot is known by the path that was asked for. -/
def placed (path : Path) (patched : SaveResult) : SaveResult :=
  { patched with snapshot := patched.snapshot.map (fun s => { s with path := path }) }

/-- What is said where the directory could not be synced: the document is in place, but may not last. -/
def unsynced (message : Bytes) (e : Errno) (path : Path) (patched : SaveResult) : SaveResult :=
  { storageError message e path with status := .durabilityFailure, snapshot := (placed path patched).snapshot }

theorem unsynced_placed (message : Bytes) (e : Errno) (path : Path) (patched : SaveResult) :
    unsynced message e path (placed path patched) = unsynced message e path patched := by
  simp [unsynced,placed,Function.comp_def]

/-- The document is in place, and known by the path that was asked for. -/
structure InPlace (path : Path) (patched r : SaveResult) : Prop where
  success : patched.status = .success
  answer : r = placed path patched ∨ ∃ message e, r = unsynced message e path patched

section
variable {path : Path} {patched r : SaveResult}

theorem InPlace.of_success (hs : patched.status = .success) (path : Path) :
    InPlace path patched { patched with snapshot := patched.snapshot.map (fun s => { s with path := path }) } :=
  ⟨hs,.inl rfl⟩

theorem InPlace.of_error (hs : patched.status = .success) (message : Bytes) (e : Errno) (path : Path) :
    InPlace path patched { storageError message e path with
      status := .durabilityFailure, snapshot := patched.snapshot.map (fun s => { s with path := path }) } :=
  ⟨hs,.inr ⟨message,e,rfl⟩⟩

theorem InPlace.status (h : InPlace path patched r) : r.status = .success ∨ r.status = .durabilityFailure := by
  rcases h.answer with rfl | ⟨message,e,rfl⟩
  · exact .inl h.success
  · exact .inr rfl

theorem InPlace.snapshot (h : InPlace path patched r) :
    r.snapshot = patched.snapshot.map (fun s => { s with path := path }) := by
  rcases h.answer with rfl | ⟨message,e,rfl⟩ <;> rfl

end

/-- Where the temporary files of a target go. -/
def temporaryAt (target : List Name) (suffix : Name) : List Name :=
  target.dropLast ++ [temporaryBase target ++ suffix]

def IsTemporary (target q : List Name) : Prop := ∃ suffix, isSuffix suffix = true ∧ q = temporaryAt target suffix

/-- A name for a temporary file is free. -/
def FreeName (target : List Name) (t : Tree) : Prop :=
  ∃ suffix, isSuffix suffix = true ∧ t.file (temporaryAt target suffix) = none

theorem temporaryBase_ne (directory : List Name) (name suffix : Name) :
    temporaryBase (directory ++ [name]) ++ suffix ≠ name := by
  intro h
  have hl := congrArg List.length h
  have h₁ : (bytes ".").length = 1 := by decide +kernel
  have hname : (Path.ofLocation (directory ++ [name])).filename = name := by
    simp [Path.ofLocation,Path.filename]
  simp only [temporaryBase,hname,List.length_append,h₁] at hl
  omega

/-- A target is no temporary file of its own. -/
theorem temporaryAt_ne (target : List Name) (suffix : Name) : temporaryAt target suffix ≠ target := by
  unfold temporaryAt
  rcases List.eq_nil_or_concat' target with rfl | ⟨directory,name,rfl⟩
  · simp
  · rw [List.dropLast_concat,ne_eq,List.append_cancel_left_eq,List.singleton_inj]
    exact temporaryBase_ne directory name suffix

theorem CleanedUp.target {target : List Name} {removal : Prop} {t t' : Tree}
    (h : CleanedUp removal (IsTemporary target) t t') : t'.file target = t.file target := by
  refine h.file ?_
  rintro ⟨suffix,-,he⟩
  exact temporaryAt_ne target suffix he.symm

section
variable {me : Process} {removal : Prop} {directory : List Name} {name : Name} {I : Option File → Prop}

theorem prepareTemporary_faulty {w₀ w : World} {file : Descriptor} {m : Metadata}
    (hd : Drafted w₀ file m [] w) (hne : directory ++ [name] ≠ file.location)
    (hI : I (w₀.tree.file (directory ++ [name]))) (budget : ℕ) (path : Path) (current : DocumentSnapshot)
    {metadata : Option Metadata} (octets : Bytes)
    (hmode : (metadata.map Metadata.permissions).getD 0o600 < 4096) :
    Ensures (failing removal me) (keeps (directory ++ [name]) I)
      (fun r w' => ∃ m' b', Drafted w₀ file m' b' w' ∧ (∀ result, r = some result → result.Failed) ∧
        (r = none → b' = octets ∧ m'.permissions = (metadata.map Metadata.permissions).getD 0o600))
      (prepareTemporary L budget path (directory ++ [name]) current metadata file octets) w := by
  refine ensures_bind (fillTemporary_faulty hd hne hI budget path octets hmode) (fun r w' h => ?_)
  obtain ⟨m',b',hd',hfail,hdone⟩ := h
  cases r with
  | some result => exact ⟨m',b',hd',hfail,by simp⟩
  | none =>
    obtain ⟨hb,hm⟩ := hdone rfl
    refine ensures_perform (fun r w'' hs => ?_)
    have hsame : w'' = w' := by rcases hs with ⟨rfl,-⟩ | ⟨-,rfl⟩ <;> rfl
    subst hsame
    refine ⟨hd'.keeps hne hI,?_⟩
    cases r with
    | error e =>
      refine ⟨m',b',hd',?_,by simp⟩
      rintro result ⟨rfl⟩
      exact failed_storageError _ _ _
    | ok u =>
      refine ensures_bind (unchanged_faulty L (hd'.keeps hne hI) path current) (fun ok w₃ h => ?_)
      obtain ⟨rfl,-⟩ := h
      cases ok with
      | false =>
        refine ⟨m',b',hd',?_,by simp⟩
        rintro result ⟨rfl⟩
        exact failed_failure (by simp) _ _
      | true =>
        refine ensures_bind (sameMetadata_faulty (hd'.keeps hne hI) metadata) (fun ok w₄ h => ?_)
        subst h
        cases ok with
        | false =>
          refine ⟨m',b',hd',?_,by simp⟩
          rintro result ⟨rfl⟩
          exact failed_failure (by simp) _ _
        | true => exact ⟨m',b',hd',by simp,fun _ => ⟨hb,hm⟩⟩

theorem syncTarget_faulty {target : List Name} {w : World} (hI : I (w.tree.file target))
    {patched : SaveResult} (hs : patched.status = .success) (message : Bytes) (path : Path) :
    Ensures (failing removal me) (keeps target I) (fun r w' => InPlace path patched r ∧ w' = w)
      (syncTarget message path target patched) w := by
  refine ensures_perform (fun r w' h => ?_)
  rcases h with ⟨rfl,rfl⟩ | ⟨⟨e,rfl⟩,rfl⟩
  · exact ⟨hI,.of_success hs path,rfl⟩
  · exact ⟨hI,.of_error hs message e path,rfl⟩

/-- Removing the temporary file leaves the world as it was before, where it does not fail. -/
theorem Drafted.remove {w₀ w w' : World} {file : Descriptor} {m : Metadata} {b : Bytes}
    (hn : ∀ c ∈ directory, IsName c) (hfile : file.directory = directory)
    (hfresh : w₀.tree.file file.location = none) (hd : Drafted w₀ file m b w) {path : Path}
    (hpath : path.absolute me.current = file.location) (h : failing removal me w (.remove path) () w')
    {temporary : List Name → Prop} (htemporary : temporary file.location) :
    CleanedUp removal temporary w₀.tree w'.tree ∧ w'.holder = w₀.holder := by
  subst hfile
  rcases h with h | ⟨hr,rfl⟩
  · obtain ⟨t,ht⟩ := Tree.unlink_regular hn hd.written
    have hfile := Tree.unlink_file hn hd.written ht
    simp only [Works,hpath] at h
    rw [Descriptor.location,ht] at h
    dsimp only at h
    have htree : t = w₀.tree := by
      refine Tree.ext (fun q => ?_)
      by_cases hq : q = file.location
      · rw [hq,hfresh]
        exact hfile.1
      · rw [hfile.2 q hq,hd.others q hq]
    rw [h]
    exact ⟨.inl htree,hd.holder⟩
  · exact ⟨hd.cleanedUp hr htemporary hfresh,hd.holder⟩

/-- A new temporary file of the target, as `mkstemp` makes it. -/
structure Drawn (me : Process) (target : List Name) (w : World) (temporary : Temporary) (m : Metadata) (w' : World) :
    Prop where
  directory : temporary.file.directory = target.dropLast
  isDirectory : w.tree.isDirectory target.dropLast = true
  path : temporary.path.absolute me.current = temporary.file.location
  named : IsTemporary target temporary.file.location
  fresh : w.tree.file temporary.file.location = none
  made : w' = w.on (w.tree.put temporary.file.directory temporary.file.name (some (.regular m [])))

theorem Drawn.drafted {target : List Name} {temporary : Temporary} {m : Metadata} {w w' : World}
    (h : Drawn me target w temporary m w') : Drafted w temporary.file m [] w' := by
  rw [h.made]
  refine ⟨Tree.file_put_self (h.directory ▸ h.isDirectory) ?_ _,fun q hq => Tree.file_put_of_ne hq _,rfl⟩
  rw [Tree.isDirectory]
  exact (congrArg (Option.any _) h.fresh).trans rfl

theorem Drawn.ne {target : List Name} {temporary : Temporary} {m : Metadata} {w w' : World}
    (h : Drawn me target w temporary m w') : target ≠ temporary.file.location := by
  obtain ⟨suffix,-,he⟩ := h.named
  rw [he]
  exact (temporaryAt_ne target suffix).symm

theorem mkstemp_drawn {target : List Name} {temporary : Temporary} {w w' : World} (hn : ∀ c ∈ target, IsName c)
    (hp : w.tree.Plain target)
    (h : failing removal me w (.mkstemp (Path.ofLocation target).parentPath (temporaryBase target)) (.ok temporary) w') :
    ∃ m, Drawn me target w temporary m w' := by
  obtain ⟨suffix,m,hsuffix,-,hpath,hentry,hfresh,hw⟩ := failing_mkstemp_ok h
  have habs : temporary.path.absolute me.current = temporaryAt target suffix := by
    rw [hpath]
    simp [Path.child,Path.absolute,Path.ofLocation,Path.parentPath,temporaryAt]
  rw [habs] at hentry
  obtain ⟨hdir,hname,hisdir⟩ := Tree.entry_snoc (fun c hc => hn c (List.dropLast_subset _ hc))
    (hp.above (List.dropLast_prefix _)) hentry
  have hloc : temporary.file.location = temporaryAt target suffix := by
    rw [Descriptor.location,hdir,hname]
    rfl
  exact ⟨m,hdir,hisdir,habs.trans hloc.symm,⟨suffix,hsuffix,hloc⟩,hfresh,hw⟩

/-- The rename puts the temporary file in place of the target, and nothing else is changed. -/
theorem Drafted.rename {w₀ w w' : World} {file : Descriptor} {m : Metadata} {b : Bytes}
    (hn : ∀ c ∈ directory, IsName c) (hfile : file.directory = directory) (hfresh : w₀.tree.file file.location = none)
    (hne : directory ++ [name] ≠ file.location) (hd : Drafted w₀ file m b w) {source : Path} {u : Unit}
    (hsource : source.absolute me.current = file.location)
    (h : failing removal me w (.rename source (.ofLocation (directory ++ [name]))) (.ok u) w') :
    w'.tree.file (directory ++ [name]) = some (.regular m b) ∧ w'.tree.file file.location = none ∧
      (∀ q, q ≠ directory ++ [name] → w'.tree.file q = w₀.tree.file q) ∧ w'.holder = w₀.holder := by
  obtain ⟨t,ht,rfl⟩ := failing_rename_ok h
  have hloc : file.location = directory ++ [file.name] := by
    rw [Descriptor.location,hfile]
  have hw := hd.written
  rw [Path.absolute_ofLocation,hsource,hloc] at ht
  rw [hloc] at hw
  have hnames : file.name ≠ name := by
    intro h
    exact hne (by rw [hloc,h])
  obtain ⟨hself,hgone,hothers⟩ := Tree.rename_file hn hnames hw ht rfl
  refine ⟨hself,hloc ▸ hgone,fun q hq => ?_,hd.holder⟩
  rw [World.tree_on]
  by_cases hq' : q = directory ++ [file.name]
  · rw [hq',hgone,← hloc,hfresh]
  · rw [hothers q hq' hq]
    exact hd.others q (by rw [hloc]; exact hq')

section
variable {w₀ w₁ w : World} {temporary : Temporary} {m₀ m : Metadata} {b : Bytes}

/-- The temporary file is given up. -/
theorem giveUp_faulty (hn : ∀ c ∈ directory, IsName c) (hdrawn : Drawn me (directory ++ [name]) w₀ temporary m₀ w₁)
    (hd : Drafted w₀ temporary.file m b w) (hI : I (w₀.tree.file (directory ++ [name]))) {r : SaveResult}
    (hr : r.Failed) :
    Ensures (failing removal me) (keeps (directory ++ [name]) I)
      (fun r w' => r.Failed ∧ CleanedUp removal (IsTemporary (directory ++ [name])) w₀.tree w'.tree ∧
        w'.holder = w₀.holder)
      (do Storage.remove temporary.path; pure r) w := by
  refine ensures_perform (fun _ w' hrm => ?_)
  have hdir : temporary.file.directory = directory := hdrawn.directory.trans List.dropLast_concat
  have hback := hd.remove hn hdir hdrawn.fresh hdrawn.path hrm hdrawn.named
  refine ⟨?_,hr,hback⟩
  change I (w'.tree.file (directory ++ [name]))
  rw [hback.1.target]
  exact hI

/-- The rename fails and the temporary file is given up, or it puts what was written in place. -/
theorem renameTemporary_faulty (hn : ∀ c ∈ directory, IsName c)
    (hdrawn : Drawn me (directory ++ [name]) w₀ temporary m₀ w₁) (hd : Drafted w₀ temporary.file m b w)
    (hI : I (w₀.tree.file (directory ++ [name]))) (hnew : I (some (.regular m b)))
    {patched : SaveResult} (hs : patched.status = .success) (path : Path) :
    Ensures (failing removal me) (keeps (directory ++ [name]) I)
      (fun r w' => (r.Failed ∧ CleanedUp removal (IsTemporary (directory ++ [name])) w₀.tree w'.tree ∧
          w'.holder = w₀.holder) ∨
        InPlace path patched r ∧ FreeName (directory ++ [name]) w'.tree ∧
        w'.tree.file (directory ++ [name]) = some (.regular m b) ∧
        (∀ q, q ≠ directory ++ [name] → w'.tree.file q = w₀.tree.file q) ∧ w'.holder = w₀.holder)
      (do
        match ← Storage.rename temporary.path (.ofLocation (directory ++ [name])) with
        | .error e =>
          Storage.remove temporary.path
          pure (storageError (bytes "replace configuration") e path)
        | .ok () =>
          syncTarget (bytes "sync configuration directory after replacement") path (directory ++ [name]) patched)
      w := by
  have hdir : temporary.file.directory = directory := hdrawn.directory.trans List.dropLast_concat
  have hne := hdrawn.ne
  refine ensures_perform (fun r w' hren => ?_)
  cases r with
  | error e =>
    obtain rfl := failing_rename_error hren
    exact ⟨hd.keeps hne hI,(giveUp_faulty hn hdrawn hd hI (failed_storageError _ _ _)).mono (fun _ _ h => .inl h)⟩
  | ok u =>
    obtain ⟨hself,hgone,hothers,hholder⟩ := hd.rename hn hdir hdrawn.fresh hne hdrawn.path hren
    have hI' : I (w'.tree.file (directory ++ [name])) := by
      rw [hself]
      exact hnew
    refine ⟨hI',(syncTarget_faulty hI' hs _ path).mono ?_⟩
    rintro r _ ⟨hr,rfl⟩
    obtain ⟨suffix,hsuffix,hloc⟩ := hdrawn.named
    exact .inr ⟨hr,⟨suffix,hsuffix,hloc ▸ hgone⟩,hself,hothers,hholder⟩

end

/-- Replacing fails with everything as it was, or changes the target alone, which keeps
its permissions. -/
theorem replaceDocument_faulty {w : World} (hp : Physical w.tree (directory ++ [name]))
    {current : DocumentSnapshot} (hc : Holds (w.tree.file (directory ++ [name])) current.revision)
    {patched : SaveResult} (hs : patched.status = .success) {octets : Bytes}
    (hoctets : (patched.snapshot.map (fun s => s.revision.bytes)).getD [] = octets)
    (hI : I (w.tree.file (directory ++ [name]))) (hnew : ∀ m, I (some (.regular m octets)))
    (budget : ℕ) (path : Path) :
    Ensures (failing removal me) (keeps (directory ++ [name]) I)
      (fun r w' => (r.Failed ∧ CleanedUp removal (IsTemporary (directory ++ [name])) w.tree w'.tree ∧
          w'.holder = w.holder) ∨
        InPlace path patched r ∧ FreeName (directory ++ [name]) w'.tree ∧ ∃ m,
        w'.tree.file (directory ++ [name]) = some (.regular m octets) ∧
        (∀ f, w.tree.file (directory ++ [name]) = some f → m.permissions = (fileMetadata f).permissions) ∧
        (∀ q, q ≠ directory ++ [name] → w'.tree.file q = w.tree.file q) ∧ w'.holder = w.holder)
      (replaceDocument L budget path (directory ++ [name]) current patched) w := by
  subst hoctets
  have hn : ∀ c ∈ directory, IsName c := fun c hm => hp.names c (by simp [hm])
  refine ensures_bind (inspectTarget_faulty hp hI hc) (fun r w₁ h => ?_)
  obtain ⟨rfl,hmeta⟩ := h
  cases r with
  | error e => exact .inl ⟨failed_storageError _ _ _,.inl rfl,rfl⟩
  | ok metadata =>
    have hmeta := hmeta metadata rfl
    refine ensures_perform (fun r w₂ hmk => ?_)
    cases r with
    | error e =>
      obtain rfl := failing_mkstemp_error hmk
      exact ⟨hI,.inl ⟨failed_storageError _ _ _,.inl rfl,rfl⟩⟩
    | ok temporary =>
      obtain ⟨m,hdrawn⟩ := mkstemp_drawn hp.names hp.plain hmk
      have hmode : (metadata.map Metadata.permissions).getD 0o600 < 4096 := by
        cases metadata with
        | none => decide
        | some m => exact Nat.mod_lt _ (by decide)
      refine ⟨hdrawn.drafted.keeps hdrawn.ne hI,ensures_bind (prepareTemporary_faulty L hdrawn.drafted hdrawn.ne hI
        budget path current _ hmode) (fun r w₃ h => ?_)⟩
      obtain ⟨m',b',hd',hfail,hdone⟩ := h
      cases r with
      | some result => exact (giveUp_faulty hn hdrawn hd' hI (hfail result rfl)).mono (fun _ _ h => .inl h)
      | none =>
        obtain ⟨rfl,hperm⟩ := hdone rfl
        refine (renameTemporary_faulty hn hdrawn hd' hI (hnew m') hs path).mono (fun r w₄ h => h.imp id ?_)
        rintro ⟨hr,hname,hself,hothers⟩
        refine ⟨hr,hname,m',hself,fun f hf => ?_,hothers⟩
        rw [hperm,hmeta,hf]
        rfl

/-- Removing fails with everything as it was, or removes the target alone. -/
theorem removeDocument_faulty {w : World} (hp : Physical w.tree (directory ++ [name]))
    {current : DocumentSnapshot} (hc : Holds (w.tree.file (directory ++ [name])) current.revision)
    {patched : SaveResult} (hs : patched.status = .success)
    (hI : I (w.tree.file (directory ++ [name]))) (hnew : I none) (path : Path) :
    Ensures (failing removal me) (keeps (directory ++ [name]) I)
      (fun r w' => (r.Failed ∧ w' = w) ∨ (r = patched ∧ w' = w ∧ current.revision.exists_ = false) ∨
        InPlace path patched r ∧ current.revision.exists_ = true ∧
          w'.tree.file (directory ++ [name]) = none ∧
          (∀ q, q ≠ directory ++ [name] → w'.tree.file q = w.tree.file q) ∧ w'.holder = w.holder)
      (removeDocument L path (directory ++ [name]) current patched) w := by
  have hn : ∀ c ∈ directory, IsName c := fun c hm => hp.names c (by simp [hm])
  unfold removeDocument
  split
  · next he => exact .inr (.inl ⟨rfl,rfl,by simpa using he⟩)
  · next he =>
    have he : current.revision.exists_ = true := by simpa using he
    refine ensures_perform (fun r w₁ hs' => ?_)
    have hsame : w₁ = w := by rcases hs' with ⟨rfl,-⟩ | ⟨-,rfl⟩ <;> rfl
    subst hsame
    refine ⟨hI,?_⟩
    cases r with
    | error e => exact .inl ⟨failed_storageError _ _ _,rfl⟩
    | ok u =>
      refine ensures_bind (unchanged_faulty L hI path current) (fun ok w₂ h => ?_)
      obtain ⟨rfl,-⟩ := h
      cases ok with
      | false => exact .inl ⟨failed_failure (by simp) _ _,rfl⟩
      | true =>
        refine ensures_perform (fun r w₃ hun => ?_)
        cases r with
        | error e =>
          obtain rfl := failing_unlink_error hun
          exact ⟨hI,.inl ⟨failed_storageError _ _ _,rfl⟩⟩
        | ok u =>
          obtain ⟨t,ht,rfl⟩ := failing_unlink_ok hun
          rw [Path.absolute_ofLocation] at ht
          obtain ⟨m,hf,-⟩ : ∃ m, w₂.tree.file (directory ++ [name]) = some (.regular m current.revision.bytes) ∧
              current.revision.exists_ = true := by
            rcases hc.cases with ⟨-,hr⟩ | h
            · rw [hr] at he
              cases he
            · exact h
          obtain ⟨hgone,hothers⟩ := Tree.unlink_file hn hf ht
          have hI' : I ((w₂.on t).tree.file (directory ++ [name])) := by
            rw [World.tree_on,hgone]
            exact hnew
          refine ⟨hI',(syncTarget_faulty hI' hs _ path).mono (fun r w₄ h => .inr (.inr ⟨h.1,he,?_⟩))⟩
          rw [h.2,World.tree_on]
          exact ⟨hgone,hothers,rfl⟩

end
end DocumentStore
end HolonightConfig
