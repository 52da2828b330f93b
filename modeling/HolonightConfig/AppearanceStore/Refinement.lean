import HolonightConfig.AppearanceStore.Concurrent
import HolonightConfig.DocumentStore.Refinement

/-! Without faults the editing interface edits the document by itself. -/
namespace HolonightConfig
open Text Toml Posix Program

namespace AppearanceStore
open Storage Document DocumentStore AppearanceDocument

section
variable (L : Library)

/-- The update that an editor asks for. -/
def Editor.update (e : Editor) (request : Request) : Update := ⟨e.me,e.path,request,e.budget⟩

/-- What a save or a staging says, and what it leaves of the revision that is there. -/
def editWith (target : List Name) (e : Editor) (edits : EditBatch) (revision : DocumentRevision) :
    SaveResult × DocumentRevision :=
  let current := decodeRead L (.ofLocation target) (found revision)
  match current.value with
  | none => (unreadable current.diagnostics,revision)
  | some document =>
    if edits.any (fun edit => edit.key = versionKey) then
      ({ status := .invalid, diagnostics := [diagnostic (bytes "version is reserved document metadata")
        document.snapshot .error .validationError] },revision)
    else
      let updated := DocumentStore.update L target
        (e.update ⟨edits ++ [versionEdit document.snapshot],appearanceDocumentSchema L,none,none⟩) revision
      (updated.1.1,updated.2)

/-- What a call of the editing interface says, and what it leaves of the revision that is there. -/
def edit (target : List Name) (e : Editor) (revision : DocumentRevision) : SaveResult × DocumentRevision :=
  match e.action with
  | .save edits => editWith L target e edits revision
  | .stage edits => editWith L target e edits revision
  | .restore staged previous =>
    let updated := DocumentStore.update L target
      (e.update ⟨[],appearanceDocumentSchema L,some staged,some previous⟩) revision
    (updated.1.1,updated.2)

end

section
variable {L : Library} {target : List Name} {w : World} {revision : DocumentRevision} {e : Editor}

/-- What the action of an editor rolls back to. -/
def Action.previous : Action → Option DocumentSnapshot
  | .restore _ previous => some previous
  | _ => none

/-- An editor may call where each of its updates may. -/
def MayEdit (target : List Name) (w : World) (e : Editor) : Prop :=
  Called target w (e.update ⟨[],⟨[],none⟩,none,e.action.previous⟩)

theorem MayEdit.called (h : MayEdit target w e) {request : Request} (hr : request.previous = e.action.previous) :
    Called target w (e.update request) := by
  refine ⟨h.path,h.leads,?_,h.budget⟩
  rw [Editor.update,hr]
  exact h.captured

theorem MayEdit.leaves {w' : World} (h : MayEdit target w e) (hl : Leaves target w revision w') :
    MayEdit target w' e := hl.called h

end

end AppearanceStore
end HolonightConfig
