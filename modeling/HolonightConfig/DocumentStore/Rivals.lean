import HolonightConfig.DocumentStore.Rollback
import HolonightConfig.Document.Overrides
import Mathlib.Logic.Relation

/-! What a rollback leaves of the document another writer saved. -/
namespace HolonightConfig
open Text Toml Posix Program

namespace DocumentStore
open Storage Document
variable (L : Library)

/-- The values a batch asks for are those of the document. -/
def Carries (edits : EditBatch) (snapshot : DocumentSnapshot) : Prop :=
  ∀ edit ∈ edits, ∃ edit', normalizeEdit L edit = some edit' ∧
    Value.same (snapshot.value edit.key) edit'.pending = true

/-- A file has the values a batch asks for. -/
def HasValues (target : List Name) (edits : EditBatch) (f : Option File) : Prop :=
  ∃ snapshot, Holds f snapshot.revision ∧ snapshotAt L target snapshot.revision = some snapshot ∧
    Carries L edits snapshot

/-- A rollback where the file is not what was staged, or the document before has the values
of the batch as well. -/
structure Rollback (target : List Name) (edits : EditBatch) (budget : ℕ) (me : Process) (path : Path)
    (staged : DocumentRevision) (previous : DocumentSnapshot) (schema : DocumentSchema) (w : World)
    (r : SaveResult) (w' : World) : Prop where
  resolved : resolveTarget w.tree me.current path = .ok target
  reaches : Reaches (faulty me) (restoreDocument L budget me path staged previous schema) w (.ret r) w'
  safe : Holds (w.tree.file target) staged →
    ∃ s, snapshotAt L target previous.revision = some s ∧ Carries L edits s

/-- One such rollback of some writer, or a step that leaves the target alone. -/
def RollbackStep (target : List Name) (edits : EditBatch) (w w' : World) : Prop :=
  w'.tree.file target = w.tree.file target ∨
    ∃ budget me path staged previous schema r,
      Rollback L target edits budget me path staged previous schema w r w'

/-- What was saved stays while every rollback is such a one, and a rollback that finds
another document than the one staged leaves that document alone and, without faults, says that
the revision has changed. -/
structure KeepsSaved (target : List Name) : Prop where
  kept : ∀ budget me path edits schema w r w₁ w₂, resolveTarget w.tree me.current path = .ok target →
    Reaches (faulty me) (saveDocument L budget me path edits schema) w (.ret r) w₁ → r.status = .success →
    Relation.ReflTransGen (RollbackStep L target edits) w₁ w₂ → HasValues L target edits (w₂.tree.file target)
  refused : ∀ budget me path staged previous schema w r w',
    resolveTarget w.tree me.current path = .ok target → ¬ Holds (w.tree.file target) staged →
    Reaches (faulty me) (restoreDocument L budget me path staged previous schema) w (.ret r) w' →
    r.Failed ∧ w'.tree.file target = w.tree.file target
  answered : ∀ budget me path staged previous schema w current, ¬ (path.isEmpty ∨ path.filename = []) →
    Standing L me path target w.tree current → Lockable target w → 0 < budget → ¬ Holds (w.tree.file target) staged →
    Returns (faultless me) anyStep (fun r w' => r.status = .revisionChanged ∧
      w'.tree.file target = w.tree.file target) (restoreDocument L budget me path staged previous schema) w

section
variable {L} {me : Process} {path : Path} {target : List Name} {w w' : World} {edits : EditBatch}
variable {schema : DocumentSchema}

/-- After a save the file has the values of the batch. -/
theorem Updated.hasValues (hC : L.Conforms kMaximumDocumentBytes) {r : SaveResult × Option DocumentSnapshot}
    {current next : DocumentSnapshot} (h : Updated L me path target edits schema w r w' current next) :
    HasValues L target edits (w'.tree.file target) := by
  have hsame : ∃ s, (patchDocument L current edits schema).snapshot = some s ∧
      ∀ key, s.value key = next.value key := by
    rcases h.kept with ⟨rfl,hb⟩ | ⟨hs,-,-⟩
    swap
    · exact ⟨next,hs,fun _ => rfl⟩
    · obtain ⟨s,hs,hb⟩ := Option.map_eq_some_iff.mp hb
      refine ⟨s,hs,fun key => ?_⟩
      obtain ⟨candidate,hparse⟩ := (patchDocument_patching L next hs).parsed
      obtain ⟨-,hrev⟩ := parseDocument_some L hparse
      obtain rfl : candidate = next.revision.bytes := by rw [← hb,hrev]
      have hsnap := h.before.2.2
      rw [snapshotAt_path hsnap] at hparse
      rw [snapshotAt] at hsnap
      split at hsnap
      · rw [hparse,Option.some.injEq] at hsnap
        rw [hsnap]
      · cases hsnap
        unfold DocumentSnapshot.value DocumentSnapshot.entry
        rw [overrides_empty hC hparse]
        rfl
  obtain ⟨s,hs,hvalue⟩ := hsame
  refine ⟨next,h.standing.holds,h.standing.snapshot,fun edit hm => ?_⟩
  obtain ⟨edit',he,hsame⟩ := (patchDocument_patching L current hs).edited edit hm
  refine ⟨edit',he,?_⟩
  rw [← hvalue]
  exact hsame

section
variable {staged : DocumentRevision} {previous : DocumentSnapshot} {r : SaveResult × Option DocumentSnapshot}

/-- A rollback of something else fails and leaves the target alone. -/
theorem Outcome.refused (h : Outcome L True me path ⟨[],schema,some staged,some previous⟩ w r w')
    (hT : resolveTarget w.tree me.current path = .ok target) (hno : ¬ Holds (w.tree.file target) staged) :
    r.1.Failed ∧ w'.tree.file target = w.tree.file target := by
  rcases h with ⟨hf,rfl⟩ | ⟨target',hT',-,⟨hf,hgrown⟩ | ⟨-,-,w₁,w₂,hgrown,-,hset,htree⟩⟩
  · exact ⟨hf,rfl⟩
  · cases hT.symm.trans hT'
    exact ⟨hf,hgrown.target⟩
  · cases hT.symm.trans hT'
    have habsurd : ∀ {current}, ¬ Accepted L me path target ⟨[],schema,some staged,some previous⟩ w₁.tree current := by
      intro current ha
      refine hno ?_
      rw [← hgrown.target,← ha.staged staged rfl]
      exact ha.holds
    cases hset with
    | failed hf hclean =>
      rw [← htree]
      exact ⟨hf,hclean.target.trans hgrown.target⟩
    | kept ha => exact (habsurd ha).elim
    | absent ha => exact (habsurd ha).elim
    | removed ha => exact (habsurd ha).elim
    | replaced ha => exact (habsurd ha).elim

/-- A rollback to a document with the values keeps them. -/
theorem Outcome.carries (h : Outcome L True me path ⟨[],schema,some staged,some previous⟩ w r w')
    (hT : resolveTarget w.tree me.current path = .ok target) (hv : HasValues L target edits (w.tree.file target))
    {s : DocumentSnapshot} (hs : snapshotAt L target previous.revision = some s) (hc : Carries L edits s) :
    HasValues L target edits (w'.tree.file target) := by
  rcases h with ⟨-,rfl⟩ | ⟨target',hT',-,⟨-,hgrown⟩ | ⟨-,-,w₁,w₂,hgrown,-,hset,htree⟩⟩
  · exact hv
  · cases hT.symm.trans hT'
    rw [hgrown.target]
    exact hv
  · cases hT.symm.trans hT'
    rw [← hgrown.target] at hv
    rw [← htree]
    cases hset with
    | removed ha hm he hr hfile =>
      have he' : previous.revision.exists_ = false := by simpa [restoresMissing] using hm
      rw [snapshotAt,he'] at hs
      cases hs
      rw [hfile]
      exact ⟨.missing (.ofLocation target),rfl,rfl,hc⟩
    | replaced ha hm hsome hb hr hname hfile =>
      have he : previous.revision.exists_ = true := by simpa [restoresMissing] using hm
      obtain ⟨s',hsome',-,-,hrev⟩ := patchFor_success L ha.success
      cases hsome.symm.trans hsome'
      have hrev := hrev previous rfl he
      rw [snapshotAt,if_pos he] at hs
      obtain ⟨-,hsrev⟩ := parseDocument_some L hs
      rw [hfile]
      refine ⟨s,?_,?_,hc⟩
      · change s.revision = _
        rw [hsrev,hrev]
      · rw [hsrev]
        exact hs
    | failed _ hclean =>
      rw [hclean.target]
      exact hv
    | kept => exact hv
    | absent => exact hv

/-- Under the lock, another document than the one staged is refused. -/
theorem updateLocked_refused {current : DocumentSnapshot} (h : Standing L me path target w.tree current)
    {request : Request} (hstaged : request.staged = some staged) (hno : current.revision ≠ staged) (budget : ℕ) :
    Returns (faultless me) anyStep (fun r _ => r.1.status = .revisionChanged)
      (updateLocked L budget path target request) w := by
  refine returns_perform ⟨_,w,rfl,rfl⟩ (fun r w₁ hr => ⟨trivial,?_⟩)
  obtain ⟨rfl,rfl⟩ := hr
  rw [h.resolved]
  dsimp only
  rw [if_neg (by simp)]
  refine returns_perform ⟨_,w₁,rfl,rfl⟩ (fun found w₂ hr => ⟨trivial,?_⟩)
  obtain ⟨rfl,rfl⟩ := hr
  rw [Path.absolute_ofLocation,h.read]
  dsimp only
  rw [hstaged,if_pos (by simpa using hno)]
  rfl

/-- So is one at another target. -/
theorem updateDocument_refused {current : DocumentSnapshot} (hpath : ¬ (path.isEmpty ∨ path.filename = []))
    (h : Standing L me path target w.tree current) (hlock : Lockable target w) {budget : ℕ} (hpos : 0 < budget)
    {request : Request} (hstaged : request.staged = some staged) (hno : current.revision ≠ staged) :
    Returns (faultless me) anyStep (fun r _ => r.1.status = .revisionChanged)
      (updateDocument L budget me path request) w := by
  cases hmatch : rollbackTargetMatches me.current target request.previous with
  | true =>
    refine updateDocument_opens L (fun _ _ _ _ _ => trivial) hpath h hmatch hlock hpos (fun _ _ => trivial)
      (fun w₁ ho => ?_)
    have hopened := h.opened L ho
    have hheld : Standing L me path target (w₁.hold (lockPath target).components (some me.id)).tree current := hopened
    exact updateLocked_refused hheld hstaged hno budget
  | false =>
    unfold updateDocument
    rw [if_neg hpath]
    refine returns_perform ⟨_,w,rfl,rfl⟩ (fun r w₁ hr => ⟨trivial,?_⟩)
    obtain ⟨rfl,rfl⟩ := hr
    rw [h.resolved]
    dsimp only
    rw [hmatch]
    rfl

end

/-- One step keeps the values of the batch. -/
theorem RollbackStep.hasValues (h : RollbackStep L target edits w w')
    (hv : HasValues L target edits (w.tree.file target)) : HasValues L target edits (w'.tree.file target) := by
  rcases h with h | ⟨budget,me,path,staged,previous,schema,r,h⟩
  · rw [h]
    exact hv
  · have hrestore : Ensures (faulty me) anyStep (fun _ w' => HasValues L target edits (w'.tree.file target))
        (restoreDocument L budget me path staged previous schema) w := by
      refine ensures_bind (updateDocument_outcome L True budget me path _ w) (fun r w₁ hout => ?_)
      change HasValues L target edits (w₁.tree.file target)
      by_cases hstaged : Holds (w.tree.file target) staged
      · obtain ⟨s,hs,hc⟩ := h.safe hstaged
        exact hout.carries h.resolved hv hs hc
      · rw [(hout.refused h.resolved hstaged).2]
        exact hv
    exact hrestore.returned h.reaches

end

/-- In every run of rollbacks that each find another document than the one staged, or go
back to one with the values saved, these stay. -/
theorem rollback_keeps_saved (hC : L.Conforms kMaximumDocumentBytes) (target : List Name) :
    KeepsSaved L target where
  kept := by
    intro budget me path edits schema w r w₁ w₂ hT hr hs hrun
    have hsave : Ensures (faulty me) anyStep
        (fun r w' => r.status = .success → HasValues L target edits (w'.tree.file target))
        (saveDocument L budget me path edits schema) w := by
      refine ensures_bind (updateDocument_outcome L True budget me path _ w) (fun r w' hout hs => ?_)
      obtain ⟨target',current,next,hup⟩ := hout.updated (.inl hs)
      cases hT.symm.trans hup.before.1
      exact hup.hasValues hC
    have hv := hsave.returned hr hs
    induction hrun with
    | refl => exact hv
    | tail _ hstep ih => exact hstep.hasValues ih
  refused := by
    intro budget me path staged previous schema w r w' hT hno hr
    have hrestore : Ensures (faulty me) anyStep
        (fun r w' => r.Failed ∧ w'.tree.file target = w.tree.file target)
        (restoreDocument L budget me path staged previous schema) w :=
      ensures_bind (updateDocument_outcome L True budget me path _ w) (fun r w₁ hout => hout.refused hT hno)
    exact hrestore.returned hr
  answered := by
    intro budget me path staged previous schema w current hpath h hlock hpos hno
    have hne : current.revision ≠ staged := by
      rintro rfl
      exact hno h.holds
    have hrefused := @updateDocument_refused L me path target w staged current hpath h hlock budget hpos
      ⟨[],schema,some staged,some previous⟩ rfl hne
    refine returns_bind (hrefused.and (fun _ _ _ _ => .inl) (updateDocument_outcome L True budget me path _ w))
      (fun r w' hr => ⟨hr.1,(hr.2.refused h.resolved hno).2⟩)

theorem rollback_keeps_saved_reference : KeepsSaved Reference.library [configName] :=
  rollback_keeps_saved Reference.library (Reference.conforms _) [configName]

/-! ### A save that found its values there -/

def homePath : Path := .ofLocation [configName]

def setX : EditBatch := [⟨xKey,none,some (.integer 1)⟩]

/-- The outcome of an update holds no lock. -/
theorem Outcome.holder {me : Process} {path : Path} {request : Request} {w w' : World}
    {r : SaveResult × Option DocumentSnapshot} (h : Outcome L True me path request w r w') : w'.holder = w.holder := by
  rcases h with ⟨-,rfl⟩ | ⟨_,-,h,-⟩
  · rfl
  · exact h

/-- Where the patch succeeds, so does the update, and puts it in place. -/
theorem updateDocument_patches {L : Library} {me : Process} {path : Path} {target : List Name} {w : World}
    {current : DocumentSnapshot} {edits : EditBatch} {schema : DocumentSchema} {budget : ℕ}
    (hpath : ¬ (path.isEmpty ∨ path.filename = [])) (h : Standing L me path target w.tree current)
    (hlock : Lockable target w) (hname : FreeName target w.tree)
    (hs : (patchDocument L current edits schema).status = .success)
    (hb : (((patchDocument L current edits schema).snapshot.map (fun s => s.revision.bytes)).getD []).length ≤ budget)
    (hpos : 0 < budget) :
    Returns (faultless me) anyStep (fun r w' => r.1.status = .success ∧
      Outcome L True me path ⟨edits,schema,none,none⟩ w r w') (updateDocument L budget me path ⟨edits,schema,none,none⟩) w := by
  have hpatch : (patchFor L ⟨edits,schema,none,none⟩ current).status = .success := hs
  have hreturns : Returns (faultless me) anyStep (fun r _ => r.1.status = .success)
      (updateDocument L budget me path ⟨edits,schema,none,none⟩) w := by
    refine updateDocument_opens L (fun _ _ _ _ _ => trivial) hpath h rfl hlock hpos (fun _ _ => trivial)
      (fun w₁ ho => ?_)
    have hopened := h.opened L ho
    have hheld : Standing L me path target (w₁.hold (lockPath target).components (some me.id)).tree current := hopened
    refine updateLocked_returns L (fun _ _ _ _ _ => trivial) hheld (by simp) hpatch ?_ ?_ ?_
    · exact fun _ _ => hs
    · exact fun hm => by cases hm
    · exact fun _ _ => replaceDocument_returns L hheld (ho.freeName hname) hpatch hb
  exact hreturns.and (fun _ _ _ _ => .inl) (updateDocument_outcome L True budget me path _ w)

/-- Where no file is, edits that can be made are made. -/
theorem updateDocument_home {edits : EditBatch} {schema : DocumentSchema}
    (hs : (patchDocument Reference.library (.missing homePath) edits schema).status = .success)
    (hlen : (((patchDocument Reference.library (.missing homePath) edits schema).snapshot.map
      (fun s => s.revision.bytes)).getD []).length ≤ kMaximumDocumentBytes) :
    Returns (faultless ⟨0,[]⟩) anyStep (fun r w' => r.1.status = .success ∧
      Outcome Reference.library True ⟨0,[]⟩ homePath ⟨edits,schema,none,none⟩ lockedHome r w')
      (updateDocument Reference.library kMaximumDocumentBytes ⟨0,[]⟩ homePath ⟨edits,schema,none,none⟩)
      lockedHome := by
  have hfree : FreeName [configName] lockedHome.tree := ⟨bytes "aaaaaa",by decide +kernel,by decide +kernel⟩
  exact updateDocument_patches (by decide +kernel) (lockedHome_standing Reference.library)
    lockedHome_ready.lockable hfree hs hlen (by decide)

/-- What such an update has found is no document. -/
theorem Outcome.home {edits : EditBatch} {schema : DocumentSchema} {r : SaveResult × Option DocumentSnapshot} {w' : World}
    (h : Outcome Reference.library True ⟨0,[]⟩ homePath ⟨edits,schema,none,none⟩ lockedHome r w')
    (hr : r.1.status = .success) : ∃ next, Updated Reference.library ⟨0,[]⟩ homePath [configName] edits schema lockedHome r
      w' (.missing homePath) next := by
  have hstand := lockedHome_standing Reference.library
  obtain ⟨target,current,next,hup⟩ := h.updated (.inl hr)
  obtain ⟨hT,hholds,hsnap⟩ := hup.before
  cases hT.symm.trans hstand.resolved
  obtain rfl : current = .missing homePath := by
    rw [hholds.unique hstand.holds,hstand.snapshot] at hsnap
    cases hsnap
    rfl
  exact ⟨next,hup⟩

/-- What it leaves is the document it makes, unless that is an empty one. -/
theorem Updated.made {me : Process} {w w' : World} {edits : EditBatch} {schema : DocumentSchema}
    {r : SaveResult × Option DocumentSnapshot} {next : DocumentSnapshot}
    (h : Updated Reference.library me homePath [configName] edits schema w r w' (.missing homePath) next)
    (hne : (patchDocument Reference.library (.missing homePath) edits schema).snapshot.map
      (fun s => s.revision.bytes) ≠ some []) :
    (patchDocument Reference.library (.missing homePath) edits schema).snapshot = some next ∧
      w'.tree.file [configName] ≠ none := by
  have hnext : (patchDocument Reference.library (.missing homePath) edits schema).snapshot = some next := by
    rcases h.kept with ⟨-,hb⟩ | ⟨h,-,-⟩
    · exact absurd hb hne
    · exact h
  refine ⟨hnext,fun hnone => ?_⟩
  obtain ⟨next',hnext',-,hexists,-⟩ := @patchFor_success Reference.library ⟨edits,schema,none,none⟩ _ h.patched
  cases hnext.symm.trans hnext'
  have hgone : Holds none next.revision := hnone ▸ h.standing.holds
  rw [hgone] at hexists
  cases hexists rfl

/-- Where no file is, edits that can be made are staged. -/
theorem stageDocument_home {edits : EditBatch} {schema : DocumentSchema}
    (hs : (patchDocument Reference.library (.missing homePath) edits schema).status = .success)
    (hlen : (((patchDocument Reference.library (.missing homePath) edits schema).snapshot.map
      (fun s => s.revision.bytes)).getD []).length ≤ kMaximumDocumentBytes) :
    Returns (faultless ⟨0,[]⟩) anyStep (fun staged w' => ∃ r next, staged = stagedResult r ∧ r.1.status = .success ∧
        staged.previous = some (.missing homePath) ∧
        Outcome Reference.library True ⟨0,[]⟩ homePath ⟨edits,schema,none,none⟩ lockedHome r w' ∧
        Updated Reference.library ⟨0,[]⟩ homePath [configName] edits schema lockedHome r w' (.missing homePath) next)
      (stageDocument Reference.library kMaximumDocumentBytes ⟨0,[]⟩ homePath edits schema) lockedHome := by
  refine returns_bind (updateDocument_home hs hlen) (fun r w' h => ?_)
  obtain ⟨next,hup⟩ := h.2.home h.1
  refine ⟨r,next,rfl,h.1,?_,h.2,hup⟩
  change (if r.1.status = .success ∨ r.1.status = .durabilityFailure then r.2 else none) = _
  rw [if_pos (.inl h.1)]
  exact hup.previous

/-- A rollback to no document, of the document that is there, removes it. -/
theorem restoreDocument_home {w : World} {next : DocumentSnapshot} {schema : DocumentSchema}
    (h : Standing Reference.library ⟨0,[]⟩ homePath [configName] w.tree next) (hready : Ready [configName] w)
    (hp : (prepareRestore Reference.library (.missing homePath) schema).status = .success) :
    Returns (faultless ⟨0,[]⟩) anyStep (fun r w' => r.status = .success ∧
      Holds (w'.tree.file [configName]) ⟨false,[]⟩ ∧ ∃ before, Outcome Reference.library True ⟨0,[]⟩ homePath
        ⟨[],schema,some next.revision,some (.missing homePath)⟩ w (r,before) w')
      (restoreDocument Reference.library kMaximumDocumentBytes ⟨0,[]⟩ homePath next.revision (.missing homePath)
        schema) w := by
  have hpath : ¬ (homePath.isEmpty ∨ homePath.filename = []) := by decide +kernel
  have hmatch : rollbackTargetMatches [] [configName] (some (.missing homePath)) = true := by decide +kernel
  have hreturns := updateDocument_restores hpath h hready hmatch hp (fun he => by cases he)
    (show 0 < kMaximumDocumentBytes by decide)
  refine returns_bind (hreturns.and (fun _ _ _ _ => .inl) (updateDocument_outcome _ True _ _ _ _ _)) (fun r w' hr => ?_)
  obtain ⟨target,hT,-,-,hiff⟩ := hr.2.restores hr.1
  cases hT.symm.trans h.resolved
  refine ⟨hr.1,hiff.mpr ?_,r.2,hr.2⟩
  rintro (⟨-,h⟩ | ⟨-,h⟩)
  · cases h
  · exact h rfl

/-- One writer stages a value, another one saves the same, and the rollback takes it away. -/
theorem rollback_undoes_converged : ∃ staged previous snapshot saved restored w₁ w₂ w₃,
    Reaches (faultless ⟨0,[]⟩) (stageDocument Reference.library kMaximumDocumentBytes ⟨0,[]⟩ homePath setX
      anyDocument) lockedHome (.ret staged) w₁ ∧ staged.result.status = .success ∧
    staged.previous = some previous ∧ staged.result.snapshot.map DocumentSnapshot.revision = some snapshot ∧
    Reaches (faultless ⟨1,[]⟩) (saveDocument Reference.library kMaximumDocumentBytes ⟨1,[]⟩ homePath setX
      anyDocument) w₁ (.ret saved) w₂ ∧ saved.status = .success ∧
    Reaches (faultless ⟨0,[]⟩) (restoreDocument Reference.library kMaximumDocumentBytes ⟨0,[]⟩ homePath snapshot
      previous anyDocument) w₂ (.ret restored) w₃ ∧ restored.status = .success ∧
    ¬ HasValues Reference.library [configName] setX (w₃.tree.file [configName]) := by
  have hstand : Standing Reference.library ⟨0,[]⟩ homePath [configName] lockedHome.tree (.missing homePath) :=
    lockedHome_standing Reference.library
  have hpath : ¬ (homePath.isEmpty ∨ homePath.filename = []) := by decide +kernel
  have hfacts : (patchDocument Reference.library (.missing homePath) setX anyDocument).status = .success ∧
      (((patchDocument Reference.library (.missing homePath) setX anyDocument).snapshot.map
        (fun s => s.revision.bytes)).getD []).length ≤ kMaximumDocumentBytes ∧
      (patchDocument Reference.library (.missing homePath) setX anyDocument).snapshot.map
        (fun s => s.revision.bytes) ≠ some [] ∧
      (prepareRestore Reference.library (.missing homePath) anyDocument).status = .success := by decide +kernel
  obtain ⟨hs,hlen,hne,hprep⟩ := hfacts
  -- The first writer puts its value in place.
  obtain ⟨staged,w₁,hreach₁,r,next,rfl,hr,hprevious,hout,hup⟩ := (stageDocument_home hs hlen).exists
  obtain ⟨hnext,-⟩ := hup.made hne
  -- The second one finds it there.
  obtain ⟨-,hagain⟩ := patchDocument_again _ _ hnext
  have hstand₁ : Standing Reference.library ⟨1,[]⟩ homePath [configName] w₁.tree next :=
    ⟨hup.standing.resolved,hup.standing.directory,hup.standing.holds,hup.standing.snapshot⟩
  have hconverged := @saveDocument_converged Reference.library ⟨1,[]⟩ homePath [configName] w₁ next setX anyDocument
    hpath hstand₁ hup.ready (by rw [hagain]) (by rw [hagain]; rfl) kMaximumDocumentBytes (by decide)
  have hunheld : Ensures (faulty ⟨1,[]⟩) anyStep (fun _ w' => w'.holder = w₁.holder)
      (saveDocument Reference.library kMaximumDocumentBytes ⟨1,[]⟩ homePath setX anyDocument) w₁ :=
    ensures_bind (updateDocument_outcome _ True _ _ _ _ _) (fun r w' h => h.holder)
  obtain ⟨saved,w₂,hreach₂,⟨hsaved,htree⟩,hholder⟩ := (hconverged.and (fun _ _ _ _ => .inl) hunheld).exists
  have hstand₂ : Standing Reference.library ⟨0,[]⟩ homePath [configName] w₂.tree next := by
    rw [htree]
    exact hup.standing
  have hready₂ : Ready [configName] w₂ := by
    refine ⟨?_,?_⟩
    · rw [htree]
      exact hup.ready.prepared
    · rw [hholder]
      exact hup.ready.free
  -- The rollback of the first one finds what it staged.
  obtain ⟨restored,w₃,hreach₃,hrestored,hgone,-⟩ := (restoreDocument_home hstand₂ hready₂ hprep).exists
  refine ⟨stagedResult r,.missing homePath,next.revision,saved,restored,w₁,w₂,w₃,hreach₁,hr,hprevious,hup.snapshot,
    hreach₂,hsaved,hreach₃,hrestored,?_⟩
  rintro ⟨s,hh,hsn,hc⟩
  rw [hh.unique hgone] at hsn
  cases hsn
  obtain ⟨edit',he,hsame⟩ := hc ⟨xKey,none,some (.integer 1)⟩ (by simp [setX])
  have hnorm : (normalizeEdit Reference.library ⟨xKey,none,some (.integer 1)⟩).map Edit.pending =
      some (some (.integer 1)) := by decide +kernel
  rw [he,Option.map_some,Option.some.injEq] at hnorm
  rw [hnorm] at hsame
  cases hsame

end DocumentStore
end HolonightConfig
