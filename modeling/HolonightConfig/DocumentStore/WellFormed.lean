import HolonightConfig.Document.Merge
import HolonightConfig.DocumentStore

/-! Every result of the store is well formed, whatever the storage answers. -/
namespace HolonightConfig
open Text Toml Posix Program

namespace DocumentStore
open Storage Document
variable (L : Library)

/-- Any answers, but that no document found under the lock makes the batch leave conflicts behind. -/
def orderly (edits : EditBatch) (schema : DocumentSchema) : Semantics Call Call.Answer Unit
  | _,.read .locked path,found,_ => ∀ current, (readDocument L path found).value = some current →
    ¬ LeavesConflicts L current edits schema
  | _,_,_,_ => True

theorem wellFormed_failure {status : SaveStatus}
    (h : status ≠ .success ∧ status ≠ .conflict ∧ status ≠ .durabilityFailure) (message : Bytes) (path : Path) :
    SaveResult.WellFormed (failure status message path) :=
  ⟨by simp [failure,h],by simp [failure,h],by simp [failure,hasErrors,h]⟩

theorem hasErrors_readDocument {path : Path} {found : FileContent} (h : (readDocument L path found).value = none) :
    hasErrors (readDocument L path found).diagnostics = true := by
  cases found with
  | missing => cases h
  | failed message => rfl
  | content octets => exact parseDocument_failure L h

theorem wellFormed_unreadable {path : Path} {found : FileContent} (h : (readDocument L path found).value = none) :
    SaveResult.WellFormed (unreadable (readDocument L path found).diagnostics) := by
  have hd := hasErrors_readDocument L h
  unfold unreadable
  refine ⟨?_,?_,?_⟩
  · split <;> simp
  · split <;> simp
  · rw [hd]
    split <;> simp

theorem wellFormed_prepareRestore (previous : DocumentSnapshot) (schema : DocumentSchema) :
    SaveResult.WellFormed (prepareRestore L previous schema) := by
  unfold prepareRestore
  dsimp only
  split
  · next h =>
    split at h
    · next hp =>
      have := parseDocument_failure L h
      exact ⟨by simp,by simp,by simp [hp,this]⟩
    · cases h
  · next snapshot h =>
    cases hv : hasErrors (validateDocument L snapshot schema) with
    | true => exact ⟨by simp,by simp,by simp [hv]⟩
    | false => exact ⟨by simp,by simp,by simp [hv]⟩

/-- A property of results that failures have, and that a document put in place keeps. -/
structure Closed (P : SaveResult → Prop) : Prop where
  failure : ∀ {status}, status ≠ .success ∧ status ≠ .conflict ∧ status ≠ .durabilityFailure →
    ∀ message path, P (failure status message path)
  sync : ∀ {sem : Semantics Call Call.Answer Unit} {patched}, P patched → patched.status = .success →
    ∀ message path target, Ensures sem anyStep (fun r _ => P r) (syncTarget message path target patched) ()
  kept : ∀ {patched} {current : DocumentSnapshot}, P patched → patched.status = .success →
    P { patched with snapshot := some current }

theorem Closed.storageError {P : SaveResult → Prop} (hP : Closed P) (operation : Bytes) (errno : Errno) (path : Path) :
    P (storageError operation errno path) := hP.failure (by simp) _ _

section Steps
variable {sem : Semantics Call Call.Answer Unit} {P : SaveResult → Prop}

theorem ensures_unchanged (path : Path) (target : List Name) (current : DocumentSnapshot) :
    Ensures sem anyStep (fun (_ : Bool) _ => True) (unchanged L path target current) () := by
  refine ensures_perform (fun r _ _ => ⟨trivial,?_⟩)
  split
  · trivial
  · split
    · trivial
    · refine ensures_perform (fun r _ _ => ⟨trivial,?_⟩)
      cases r <;> trivial

theorem ensures_prepareTemporary (hP : Closed P) (budget : ℕ) (path : Path) (target : List Name) (current : DocumentSnapshot)
    (metadata : Option Metadata) (file : Descriptor) (octets : Bytes) :
    Ensures sem anyStep (fun r _ => ∀ result, r = some result → P result)
      (prepareTemporary L budget path target current metadata file octets) () := by
  have hw : Ensures sem anyStep (fun (_ : Except Errno Unit) _ => True)
      (writeTemporary file budget octets) () := by
    induction budget generalizing octets with
    | zero => cases octets <;> trivial
    | succ budget ih =>
      cases octets with
      | nil => trivial
      | cons c octets =>
        refine ensures_perform (fun r _ _ => ⟨trivial,?_⟩)
        rcases r with (_ | _ | _ | _ | _ | _ | _) | (_ | n) <;> first | exact ih _ | trivial
  have hf : Ensures sem anyStep (fun r _ => ∀ result, r = some result → P result)
      (fillTemporary budget path file octets ((metadata.map Metadata.permissions).getD 0o600)) () := by
    refine ensures_bind hw (fun r s' _ => ?_)
    cases r with
    | error e =>
      rintro result ⟨rfl⟩
      exact hP.storageError _ _ _
    | ok u =>
      refine ensures_perform (fun r _ _ => ⟨trivial,?_⟩)
      cases r with
      | error e =>
        rintro result ⟨rfl⟩
        exact hP.storageError _ _ _
      | ok u =>
        refine ensures_perform (fun r _ _ => ⟨trivial,?_⟩)
        cases r with
        | error e =>
          rintro result ⟨rfl⟩
          exact hP.storageError _ _ _
        | ok u => exact fun result h => nomatch h
  have hm : Ensures sem anyStep (fun (_ : Bool) _ => True) (sameMetadata target metadata) () := by
    cases metadata with
    | none => trivial
    | some m =>
      refine ensures_perform (fun r _ _ => ⟨trivial,?_⟩)
      cases r <;> trivial
  refine ensures_bind hf (fun r s' hr => ?_)
  cases r with
  | some result => exact hr
  | none =>
    refine ensures_perform (fun r _ _ => ⟨trivial,?_⟩)
    cases r with
    | error e =>
      rintro result ⟨rfl⟩
      exact hP.storageError _ _ _
    | ok u =>
      refine ensures_bind (ensures_unchanged L path target current) (fun b s' _ => ?_)
      cases b with
      | true =>
        refine ensures_bind hm (fun b s' _ => ?_)
        cases b with
        | true => exact fun result h => nomatch h
        | false =>
          rintro result ⟨rfl⟩
          exact hP.failure (by simp) _ _
      | false =>
        rintro result ⟨rfl⟩
        exact hP.failure (by simp) _ _

theorem ensures_replaceDocument (hP : Closed P) {patched : SaveResult} (hp : P patched)
    (hs : patched.status = .success) (budget : ℕ) (path : Path) (target : List Name)
    (current : DocumentSnapshot) :
    Ensures sem anyStep (fun r _ => P r)
      (replaceDocument L budget path target current patched) () := by
  have hi : Ensures sem anyStep (fun (_ : Except Errno (Option Metadata)) _ => True)
      (inspectTarget target current) () := by
    unfold inspectTarget
    split
    · refine ensures_perform (fun r _ _ => ⟨trivial,?_⟩)
      cases r <;> trivial
    · trivial
  refine ensures_bind hi (fun r s' _ => ?_)
  cases r with
  | error e => exact hP.storageError _ _ _
  | ok metadata =>
    refine ensures_perform (fun r _ _ => ⟨trivial,?_⟩)
    cases r with
    | error e => exact hP.storageError _ _ _
    | ok temporary =>
      refine ensures_bind (ensures_prepareTemporary L hP _ _ _ _ _ _ _) (fun r s' hr => ?_)
      cases r with
      | some result => exact ensures_perform (fun _ _ _ => ⟨trivial,hr result rfl⟩)
      | none =>
        refine ensures_perform (fun r _ _ => ⟨trivial,?_⟩)
        cases r with
        | error e => exact ensures_perform (fun _ _ _ => ⟨trivial,hP.storageError _ _ _⟩)
        | ok u => exact hP.sync hp hs _ _ _

theorem ensures_removeDocument (hP : Closed P) {result : SaveResult} (hp : P result)
    (hs : result.status = .success) (path : Path) (target : List Name) (current : DocumentSnapshot) :
    Ensures sem anyStep (fun r _ => P r) (removeDocument L path target current result) () := by
  unfold removeDocument
  split
  · exact hp
  · refine ensures_perform (fun r _ _ => ⟨trivial,?_⟩)
    cases r with
    | error e => exact hP.storageError _ _ _
    | ok u =>
      refine ensures_bind (ensures_unchanged L path target current) (fun b s' _ => ?_)
      cases b with
      | true =>
        refine ensures_perform (fun r _ _ => ⟨trivial,?_⟩)
        cases r with
        | error e => exact hP.storageError _ _ _
        | ok u => exact hP.sync hp hs _ _ _
      | false => exact hP.failure (by simp) _ _

/-- What every document found under the lock makes of the request holds of the result. -/
theorem ensures_updateLocked (hP : Closed P) {request : Request}
    (hunreadable : ∀ path found, (readDocument L path found).value = none →
      P (unreadable (readDocument L path found).diagnostics))
    (hpatch : ∀ path found current, sem () (.read .locked path) found () →
      (readDocument L path found).value = some current → P (patchFor L request current))
    (budget : ℕ) (path : Path) (target : List Name) :
    Ensures sem anyStep (fun r _ => P r.1)
      (updateLocked L budget path target request) () := by
  refine ensures_perform (fun r _ _ => ⟨trivial,?_⟩)
  cases r with
  | error e => exact hP.failure (by simp) _ _
  | ok resolved =>
    dsimp only
    split
    · exact hP.failure (by simp) _ _
    · refine ensures_perform (fun found _ hfound => ⟨trivial,?_⟩)
      split
      · next hv => exact hunreadable _ _ hv
      · next current hv =>
        split
        · exact hP.failure (by simp) _ _
        · have hp : P (patchFor L request current) := hpatch _ _ _ hfound hv
          split
          · next hs =>
            exact ensures_bind (ensures_removeDocument L hP hp hs.2 _ _ _) (fun r _ hr => hr)
          · split
            · exact hp
            · next hs =>
              have hs := not_not.mp hs
              split
              · exact hP.kept hp hs
              · exact ensures_bind (ensures_replaceDocument L hP hp hs _ _ _ _) (fun r _ hr => hr)

theorem ensures_updateDocument (hP : Closed P) {request : Request}
    (hunreadable : ∀ path found, (readDocument L path found).value = none →
      P (unreadable (readDocument L path found).diagnostics))
    (hpatch : ∀ path found current, sem () (.read .locked path) found () →
      (readDocument L path found).value = some current → P (patchFor L request current))
    (budget : ℕ) (me : Process) (path : Path) :
    Ensures sem anyStep (fun r _ => P r.1)
      (updateDocument L budget me path request) () := by
  have hacquire : ∀ lock, Ensures sem anyStep
      (fun (_ : Except Errno Unit) _ => True) (acquire lock budget) () := by
    intro lock
    induction budget with
    | zero => trivial
    | succ budget ih =>
      refine ensures_perform (fun r _ _ => ⟨trivial,?_⟩)
      rcases r with (_ | _ | _ | _ | _ | _ | _) | _ <;> first | exact ih | trivial
  unfold updateDocument
  split
  · exact hP.failure (by simp) _ _
  · refine ensures_perform (fun r _ _ => ⟨trivial,?_⟩)
    cases r with
    | error e => exact hP.failure (by simp) _ _
    | ok target =>
      dsimp only
      split
      · exact hP.failure (by simp) _ _
      · refine ensures_perform (fun found _ _ => ⟨trivial,?_⟩)
        split
        · next hv => exact hunreadable _ _ hv
        · refine ensures_perform (fun r _ _ => ⟨trivial,?_⟩)
          cases r with
          | error e => exact hP.failure (by simp) _ _
          | ok u =>
            refine ensures_perform (fun r _ _ => ⟨trivial,?_⟩)
            cases r with
            | error e => exact hP.storageError _ _ _
            | ok u =>
              refine ensures_bind (hacquire _) (fun r _ _ => ?_)
              cases r with
              | error e => exact hP.storageError _ _ _
              | ok u =>
                refine ensures_bind (ensures_updateLocked L hP hunreadable hpatch _ _ _) (fun r _ hr => ?_)
                exact ensures_perform (fun _ _ _ => ⟨trivial,hr⟩)

end Steps

theorem leavesConflicts_nil (current : DocumentSnapshot) (schema : DocumentSchema) :
    ¬ LeavesConflicts L current [] schema := by
  rintro ⟨-,batch,hn,hc⟩
  rw [normalizeEdits_value] at hn
  cases hn
  cases hc

theorem closed_wellFormed : Closed SaveResult.WellFormed where
  failure := wellFormed_failure
  sync := by
    intro sem patched hp hs message path target
    refine ensures_perform (fun r _ _ => ⟨trivial,?_⟩)
    have hsome := hp.snapshot.mpr (.inl hs)
    cases r with
    | error e => exact ⟨by simp [hsome],by simp [storageError,failure],by simp [storageError,failure,hasErrors]⟩
    | ok u => exact ⟨by simp [hsome,hs],hp.conflicts,hp.diagnostics⟩
  kept := fun hp hs => ⟨by simp [hs],hp.conflicts,hp.diagnostics⟩

theorem wellFormed_updateDocument (budget : ℕ) (me : Process) (path : Path) (request : Request) :
    Ensures (orderly L request.edits request.schema) anyStep (fun r _ => SaveResult.WellFormed r.1)
      (updateDocument L budget me path request) () := by
  refine ensures_updateDocument L closed_wellFormed (fun _ _ => wellFormed_unreadable L) ?_ budget me path
  intro path found current hfound hv
  unfold patchFor
  split
  · exact (patchDocument_wellFormed_iff L current _ _).mpr (hfound current hv)
  · exact wellFormed_prepareRestore L _ _

/-- A patch's result is well formed exactly where it leaves no conflicts behind, and so is
every result of the store in a run that finds such a document under the lock, under any faults. -/
theorem results_wellFormed :
    (∀ current edits schema, SaveResult.WellFormed (patchDocument L current edits schema) ↔
      ¬ LeavesConflicts L current edits schema) ∧
    (∀ budget me path edits schema, Ensures (orderly L edits schema) anyStep
      (fun r _ => SaveResult.WellFormed r) (saveDocument L budget me path edits schema) ()) ∧
    (∀ budget me path edits schema, Ensures (orderly L edits schema) anyStep
      (fun r _ => SaveResult.WellFormed r.result) (stageDocument L budget me path edits schema) ()) ∧
    ∀ budget me path staged previous schema, Ensures arbitrary anyStep
      (fun r _ => SaveResult.WellFormed r) (restoreDocument L budget me path staged previous schema) () := by
  refine ⟨fun current edits schema => patchDocument_wellFormed_iff L current edits schema,?_,?_,?_⟩
  · intro budget me path edits schema
    exact ensures_bind (wellFormed_updateDocument L budget me path ⟨edits,schema,none,none⟩) (fun r _ hr => hr)
  · intro budget me path edits schema
    exact ensures_bind (wellFormed_updateDocument L budget me path ⟨edits,schema,none,none⟩) (fun r _ hr => hr)
  · intro budget me path staged previous schema
    have hall : (arbitrary : Semantics Call Call.Answer Unit) = orderly L [] schema := by
      funext _ c r _
      cases c with
      | read phase path =>
        cases phase with
        | locked => exact propext ⟨fun _ current _ => leavesConflicts_nil L current schema,fun _ => trivial⟩
        | _ => rfl
      | _ => rfl
    rw [hall]
    exact ensures_bind (wellFormed_updateDocument L budget me path ⟨[],schema,some staged,some previous⟩)
      (fun r _ hr => hr)

/-- A conflicting edit in front of one with an empty key. -/
theorem patchDocument_leaves_conflicts :
    ¬ SaveResult.WellFormed (patchDocument Reference.library (referenceSnapshot (bytes "x = 1\n"))
      [⟨xKey,some (.integer 2),some (.integer 3)⟩,⟨[],none,some (.integer 4)⟩] anyDocument) := by
  intro h
  have := h.conflicts.mp (by decide +kernel)
  revert this
  decide +kernel

end DocumentStore
end HolonightConfig
