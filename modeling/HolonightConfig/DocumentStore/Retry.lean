import HolonightConfig.Document.Merge
import HolonightConfig.DocumentStore.Faultless

/-! A save that succeeded can be made again: it succeeds and leaves everything alone. -/
namespace HolonightConfig
open Text Toml Posix Program

namespace DocumentStore
open Storage Document
variable (L : Library)

/-- Since then nobody has changed what an update of the target looks at. -/
structure Undisturbed (me : Process) (path : Path) (target : List Name) (w w' : World) : Prop where
  resolved : resolveTarget w'.tree me.current path = resolveTarget w.tree me.current path
  file : w'.tree.file target = w.tree.file target
  prepared : Prepared target w.tree → Prepared target w'.tree
  free : w'.holder (lockPath target).components = w.holder (lockPath target).components
  name : FreeName target w.tree → FreeName target w'.tree

theorem Undisturbed.refl (me : Process) (path : Path) (target : List Name) (w : World) :
    Undisturbed me path target w w := ⟨rfl,rfl,id,rfl,id⟩

section
variable {L} {me : Process} {path : Path} {target : List Name} {w w' : World} {current : DocumentSnapshot}

theorem Standing.undisturbed (h : Standing L me path target w.tree current)
    (hready : Ready target w) (hu : Undisturbed me path target w w') :
    Standing L me path target w'.tree current ∧ Ready target w' := by
  have hprepared := hu.prepared hready.prepared
  refine ⟨⟨?_,hprepared.directory,?_,h.snapshot⟩,hprepared,?_⟩
  · rw [hu.resolved]
    exact h.resolved
  · rw [hu.file]
    exact h.holds
  · rw [hu.free]
    exact hready.free

/-! ### After an update -/

/-- Where an update of edits puts a document in place, that document can be updated next. -/
structure Updated (L : Library) (me : Process) (path : Path) (target : List Name) (edits : EditBatch)
    (schema : DocumentSchema) (w : World) (r : SaveResult × Option DocumentSnapshot) (w' : World)
    (current next : DocumentSnapshot) : Prop where
  before : resolveTarget w.tree me.current path = .ok target ∧ Holds (w.tree.file target) current.revision ∧
    snapshotAt L target current.revision = some current
  patched : (patchDocument L current edits schema).status = .success
  standing : Standing L me path target w'.tree next
  ready : Ready target w'
  previous : r.2 = some current
  snapshot : r.1.snapshot.map DocumentSnapshot.revision = some next.revision
  /-- The document is the one from before, which a retry leaves alone, or its patch. -/
  kept : (next = current ∧ (patchDocument L current edits schema).snapshot.map (fun s => s.revision.bytes) =
      some current.revision.bytes) ∨
    ((patchDocument L current edits schema).snapshot = some next ∧
      next.revision.bytes ≠ current.revision.bytes ∧ FreeName target w'.tree)

theorem Holds.ne_dropLast {t : Tree} {r : DocumentRevision} (h : Holds (t.file target) r) :
    target.dropLast ≠ target := by
  intro he
  have := congrArg List.length he
  have := List.length_pos_iff.mpr h.ne_nil
  rw [List.length_dropLast] at *
  omega

theorem snapshotAt_path (h : snapshotAt L target current.revision = some current) :
    current.path = .ofLocation target := by
  unfold snapshotAt at h
  split at h
  · exact (parseDocument_some L h).1
  · cases h
    rfl

theorem patchDocument_snapshotAt {edits : EditBatch} {schema : DocumentSchema} {s : DocumentSnapshot}
    (hc : snapshotAt L target current.revision = some current)
    (h : (patchDocument L current edits schema).snapshot = some s) :
    snapshotAt L target s.revision = some s := by
  obtain ⟨candidate,hparse⟩ := (patchDocument_patching L current h).parsed
  rw [snapshotAt_path hc] at hparse
  rw [(parseDocument_some L hparse).2]
  exact hparse

/-- What an outcome in place says. -/
theorem Outcome.updated {edits : EditBatch} {schema : DocumentSchema}
    {r : SaveResult × Option DocumentSnapshot} (h : Outcome L True me path ⟨edits,schema,none,none⟩ w r w')
    (hr : r.1.status = .success ∨ r.1.status = .durabilityFailure) :
    ∃ target current next, Updated L me path target edits schema w r w' current next := by
  have hfail : ∀ {r : SaveResult}, r.Failed → (r.status = .success ∨ r.status = .durabilityFailure) → False :=
    fun hf hs => hs.elim hf.status.1 hf.status.2
  rcases h with ⟨hf,-⟩ | ⟨target,hT,hholder,⟨hf,-⟩ | ⟨-,hfree,w₁,w₂,hgrown,hprep,hset,htree⟩⟩
  · exact (hfail hf hr).elim
  · exact (hfail hf hr).elim
  · have hfree' : w'.holder (lockPath target).components = none := by
      rw [hholder]
      exact hfree
    cases hset with
    | failed hf => exact (hfail hf hr).elim
    | @kept current ha hm hb =>
      refine ⟨target,current,current,⟨hT,?_,ha.snapshot⟩,ha.success,?_,⟨?_,hfree'⟩,rfl,rfl,.inl ⟨rfl,hb⟩⟩
      · rw [← hgrown.target]
        exact ha.holds
      · rw [← htree]
        exact ⟨ha.resolved,hprep.directory,ha.holds,ha.snapshot⟩
      · rw [← htree]
        exact hprep
    | absent ha hm he => cases hm
    | removed ha hm => cases hm
    | @replaced current s r' w'' m ha hm hs hb hip hname hfile hmode hothers hh =>
      have hw : Written target w₁.tree w₂.tree := by
        refine ⟨hothers,?_,m,_,hfile⟩
        rcases ha.holds.cases with ⟨hf,-⟩ | ⟨m',hf,-⟩
        · exact .inl hf
        · exact .inr ⟨m',_,hf⟩
      obtain ⟨s',hs',-,hex,-⟩ := patchFor_success L ha.success
      have hrev : s.revision = ⟨true,s.revision.bytes⟩ := by
        cases hs.symm.trans hs'
        rw [← hex hm]
      have hdir : w₂.tree.isDirectory target.dropLast = true := by
        rw [Tree.isDirectory,hothers _ ha.holds.ne_dropLast]
        exact hprep.directory
      refine ⟨target,current,s,⟨hT,?_,ha.snapshot⟩,ha.success,?_,⟨?_,hfree'⟩,rfl,?_,.inr ⟨hs,hb,?_⟩⟩
      · rw [← hgrown.target]
        exact ha.holds
      · rw [← htree]
        refine ⟨resolveTarget_written hw (.inl rfl) ha.resolved,hdir,?_,patchDocument_snapshotAt ha.snapshot hs⟩
        rw [hfile]
        exact hrev
      · rw [← htree]
        refine ⟨hdir,?_⟩
        rw [hothers _ (lockPath_ne target)]
        exact hprep.lock
      · rw [hip.snapshot,hs]
        rfl
      · rw [← htree]
        exact hname

end
/-! ### Saving again -/

section
variable {L} {me : Process} {path : Path} {target : List Name} {w : World} {current : DocumentSnapshot}

/-- A document that is already what the edits ask for is not touched. -/
theorem saveDocument_converged {edits : EditBatch} {schema : DocumentSchema}
    (hpath : ¬ (path.isEmpty ∨ path.filename = [])) (h : Standing L me path target w.tree current)
    (hready : Ready target w) (hs : (patchDocument L current edits schema).status = .success)
    (hkeep : (patchDocument L current edits schema).snapshot.map (fun s => s.revision.bytes) =
      some current.revision.bytes) {budget : ℕ} (hb : 0 < budget) :
    Returns (faultless me) (fun w _ _ w' => w'.tree = w.tree)
      (fun r w' => r.status = .success ∧ w'.tree = w.tree)
      (saveDocument L budget me path edits schema) w := by
  refine returns_bind (P := fun (r : SaveResult × Option DocumentSnapshot) (w' : World) =>
    r.1.status = .success ∧ w'.tree = w.tree) ?_ (fun r w' h => h)
  refine updateDocument_returns L (fun _ _ _ _ => id) hpath h rfl hready hb ?_
  have hheld : Standing L me path target (w.hold (lockPath target).components (some me.id)).tree current := h
  have hs' : (patchFor L ⟨edits,schema,none,none⟩ current).status = .success := hs
  refine updateLocked_returns L (fun _ _ _ _ => id) hheld (by simp) hs' ?_ ?_ ?_
  · exact fun _ _ => ⟨hs,rfl⟩
  · exact fun hm => by cases hm
  · exact fun _ hne => absurd hkeep hne

end

/-- A patch that succeeded succeeds again on its result, which it leaves as it is; a save
that succeeded does so on the file, which it does not replace. -/
theorem saveDocument_again (edits : EditBatch) (schema : DocumentSchema) :
    (∀ current snapshot, (patchDocument L current edits schema).status = .success →
      (patchDocument L current edits schema).snapshot = some snapshot →
      (patchDocument L snapshot edits schema).status = .success ∧
      (patchDocument L snapshot edits schema).snapshot.map (fun s => s.revision.bytes) =
        some snapshot.revision.bytes) ∧
    ∀ budget budget' me path w, 0 < budget' → Ensures (faulty me) anyStep
      (fun r w' => r.status = .success → ∃ target, resolveTarget w.tree me.current path = .ok target ∧
        ∀ w₂, Undisturbed me path target w' w₂ →
          Returns (faultless me) (fun w _ _ w' => w'.tree = w.tree)
            (fun r w₃ => r.status = .success ∧ w₃.tree = w₂.tree)
            (saveDocument L budget' me path edits schema) w₂)
      (saveDocument L budget me path edits schema) w := by
  have hagain : ∀ current snapshot, (patchDocument L current edits schema).snapshot = some snapshot →
      (patchDocument L snapshot edits schema).status = .success ∧
      (patchDocument L snapshot edits schema).snapshot.map (fun s => s.revision.bytes) =
        some snapshot.revision.bytes := by
    intro current snapshot h
    rw [(patchDocument_again L current h).2]
    exact ⟨rfl,rfl⟩
  refine ⟨fun current snapshot _ => hagain current snapshot,fun budget budget' me path w hb => ?_⟩
  by_cases hpath : path.isEmpty ∨ path.filename = []
  · refine ensures_bind (P := fun (r : SaveResult × Option DocumentSnapshot) _ => r.1.status ≠ .success) ?_
      (fun r w' h hs => absurd hs h)
    unfold updateDocument
    rw [if_pos hpath]
    simp [failure]
  · refine ensures_bind (updateDocument_outcome L True budget me path _ w) (fun r w' hout hs => ?_)
    obtain ⟨target,current,next,hup⟩ := hout.updated (.inl hs)
    refine ⟨target,hup.before.1,fun w₂ hu => ?_⟩
    obtain ⟨hstand,hready⟩ := hup.standing.undisturbed hup.ready hu
    rcases hup.kept with ⟨rfl,hkept⟩ | ⟨hsome,-,-⟩
    · exact saveDocument_converged hpath hstand hready hup.patched hkept hb
    · obtain ⟨hs',hkeep⟩ := hagain _ _ hsome
      exact saveDocument_converged hpath hstand hready hs' hkeep hb

end DocumentStore
end HolonightConfig
