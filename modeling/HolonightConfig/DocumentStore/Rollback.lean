import HolonightConfig.DocumentStore.Retry

/-! What a rollback puts back, and that it undoes a staging. -/
namespace HolonightConfig
open Text Toml Posix Program

namespace DocumentStore
open Storage Document
variable (L : Library)

/-! ### What a rollback that succeeds has put back -/

/-- An empty document where there is none counts as there already, and a missing one has
no octets. -/
def Unrestorable (f : Option File) (previous : DocumentRevision) : Prop :=
  (f = none ∧ previous = ⟨true,[]⟩) ∨ (previous.exists_ = false ∧ previous.bytes ≠ [])

theorem DocumentRevision.eq_existing {r : DocumentRevision} (h : r.exists_ = true) : r = ⟨true,r.bytes⟩ := by
  rw [← h]

theorem holds_none_iff {r : DocumentRevision} (h : r.exists_ = false) : Holds none r ↔ ¬ r.bytes ≠ [] := by
  change r = ⟨false,[]⟩ ↔ _
  rw [not_not]
  constructor
  · intro hr
    rw [hr]
  · intro hb
    rw [← h,← hb]

/-- No document is there again exactly where that is restorable. -/
theorem holds_none_iff_restorable {r : DocumentRevision} (h : r.exists_ = false) (f : Option File) :
    Holds none r ↔ ¬ Unrestorable f r := by
  rw [holds_none_iff h,Unrestorable]
  constructor
  · rintro hb (⟨-,he⟩ | ⟨-,he⟩)
    · rw [he] at h
      cases h
    · exact hb he
  · exact fun hno hb => hno (.inr ⟨h,hb⟩)

/-- A document is restorable where a file is, or where it has octets. -/
theorem restorable_of_exists {r : DocumentRevision} (h : r.exists_ = true) {f : Option File}
    (hf : f ≠ none ∨ r.bytes ≠ []) : ¬ Unrestorable f r := by
  rintro (⟨hnone,hr⟩ | ⟨he,-⟩)
  · rw [hr] at hf
    exact hf.elim (fun hf => hf hnone) (fun hf => hf rfl)
  · rw [h] at he
    cases he

section
variable {L} {me : Process} {path : Path} {target : List Name} {staged : DocumentRevision}
variable {previous : DocumentSnapshot} {schema : DocumentSchema}

/-- What was settled is the document before, unless that one is unrestorable. -/
theorem Settled.restores {w w' : World} {r : SaveResult × Option DocumentSnapshot}
    (h : Settled L True me path target ⟨[],schema,some staged,some previous⟩ w r w') (hs : r.1.status = .success) :
    Holds (w.tree.file target) staged ∧
      (Holds (w'.tree.file target) previous.revision ↔ ¬ Unrestorable (w.tree.file target) previous.revision) := by
  have hstaged : ∀ {current}, Accepted L me path target ⟨[],schema,some staged,some previous⟩ w.tree current →
      Holds (w.tree.file target) staged := by
    intro current ha
    rw [← ha.staged staged rfl]
    exact ha.holds
  cases h with
  | failed hf => exact absurd hs hf.status.1
  | @kept current ha hm hb =>
    refine ⟨hstaged ha,?_⟩
    have he : previous.revision.exists_ = true := by simpa [restoresMissing] using hm
    obtain ⟨s,hsome,-,-,hrev⟩ := patchFor_success L ha.success
    rw [hsome,Option.map_some,hrev previous rfl he,Option.some.injEq] at hb
    rcases ha.holds.cases with ⟨hf,hr⟩ | ⟨m,hf,he'⟩
    · rw [hr] at hb
      rw [DocumentRevision.eq_existing he,hf]
      constructor
      · intro h
        cases h
      · exact fun h => absurd (.inl ⟨rfl,by rw [hb]⟩) h
    · have heq : current.revision = previous.revision := by
        rw [DocumentRevision.eq_existing he',DocumentRevision.eq_existing he,← hb]
      exact iff_of_true (heq ▸ ha.holds) (restorable_of_exists he (.inl (by simp [hf])))
  | @absent current ha hm he =>
    have he' : previous.revision.exists_ = false := by simpa [restoresMissing] using hm
    rcases ha.holds.cases with ⟨hf,-⟩ | ⟨m,-,h⟩
    · refine ⟨hstaged ha,?_⟩
      rw [hf]
      exact holds_none_iff_restorable he' none
    · rw [he] at h
      cases h
  | @removed current r w' ha hm he hr hfile hothers hholder =>
    have he' : previous.revision.exists_ = false := by simpa [restoresMissing] using hm
    refine ⟨hstaged ha,?_⟩
    rw [hfile]
    exact holds_none_iff_restorable he' _
  | @replaced current s r w' m ha hm hsome hb hr hname hfile hmode hothers hholder =>
    refine ⟨hstaged ha,?_⟩
    have he : previous.revision.exists_ = true := by simpa [restoresMissing] using hm
    obtain ⟨s',hsome',-,-,hrev⟩ := patchFor_success L ha.success
    cases hsome.symm.trans hsome'
    have hrev := hrev previous rfl he
    rw [hfile,hrev]
    refine iff_of_true (DocumentRevision.eq_existing he) (restorable_of_exists he ?_)
    rcases ha.holds.cases with ⟨-,hcur⟩ | ⟨m',hf,-⟩
    · rw [hcur,hrev] at hb
      exact .inr hb
    · exact .inl (by simp [hf])

theorem Outcome.restores {w w' : World} {r : SaveResult × Option DocumentSnapshot}
    (h : Outcome L True me path ⟨[],schema,some staged,some previous⟩ w r w') (hs : r.1.status = .success) :
    ∃ target, resolveTarget w.tree me.current path = .ok target ∧
      (previous.path.isEmpty = false ∧
        (Path.ofLocation (previous.path.absolute me.current)).lexicallyNormal = .ofLocation target) ∧
      Holds (w.tree.file target) staged ∧
      (Holds (w'.tree.file target) previous.revision ↔
        ¬ Unrestorable (w.tree.file target) previous.revision) := by
  rcases h with ⟨hf,-⟩ | ⟨target,hT,-,⟨hf,-⟩ | ⟨hmatch,-,w₁,w₂,hgrown,-,hset,htree⟩⟩
  · exact absurd hs hf.status.1
  · exact absurd hs hf.status.1
  · have hmatch : (!previous.path.isEmpty && decide ((Path.ofLocation (previous.path.absolute
        me.current)).lexicallyNormal = .ofLocation target)) = true := hmatch
    rw [Bool.and_eq_true,decide_eq_true_iff,Bool.not_eq_true'] at hmatch
    have h := hset.restores hs
    rw [hgrown.target,htree] at h
    exact ⟨target,hT,hmatch,h⟩

end

/-- A rollback that succeeds found the staged document at the target that was captured, and
has put the one before back exactly where that can be told from what was there. -/
theorem restoreDocument_restores_iff (budget : ℕ) (me : Process) (path : Path) (staged : DocumentRevision)
    (previous : DocumentSnapshot) (schema : DocumentSchema) (w : World) :
    Ensures (faulty me) anyStep
      (fun r w' => r.status = .success → ∃ target, resolveTarget w.tree me.current path = .ok target ∧
        (previous.path.isEmpty = false ∧
          (Path.ofLocation (previous.path.absolute me.current)).lexicallyNormal = .ofLocation target) ∧
        Holds (w.tree.file target) staged ∧
        (Holds (w'.tree.file target) previous.revision ↔
          ¬ Unrestorable (w.tree.file target) previous.revision))
      (restoreDocument L budget me path staged previous schema) w :=
  ensures_bind (updateDocument_outcome L True budget me path _ w) (fun _ _ hout hs => hout.restores hs)

/-! ### File systems with a lock file at most -/

def bareRoot : Tree where
  file := fun p => if p = [] then some (.directory ⟨0o40755,1,1⟩) else none
  root := rfl
  closed := by
    intro p n h
    rw [if_neg (by simp)] at h
    cases h

def configName : Name := [0x63]

/-- A root directory with nothing in it, and no lock held. -/
def bareHome : World := ⟨bareRoot,fun _ => none⟩

theorem bareHome_standing (L : Library) : Standing L ⟨0,[]⟩ (.ofLocation [configName])
    [configName] bareHome.tree (.missing (.ofLocation [configName])) where
  resolved := by decide +kernel
  directory := by decide +kernel
  holds := by
    have hf : bareHome.tree.file [configName] = none := by decide +kernel
    rw [hf]
    rfl
  snapshot := rfl

theorem bareHome_lockable : Lockable [configName] bareHome where
  directory := by decide +kernel
  lock := by
    intro f hf
    have hn : bareHome.tree.file (lockPath [configName]).components = none := by decide +kernel
    rw [hn] at hf
    cases hf
  free := rfl

def lockedHome : World where
  tree := bareRoot.put [] (configName ++ bytes ".lock") (some (.regular ⟨0o100600,2,1⟩ []))
  holder := fun _ => none

theorem lockedHome_lock : lockedHome.tree.file [configName ++ bytes ".lock"] =
    some (.regular ⟨0o100600,2,1⟩ []) := by
  decide +kernel

theorem lockedHome_standing (L : Library) : Standing L ⟨0,[]⟩ (.ofLocation [configName])
    [configName] lockedHome.tree (.missing (.ofLocation [configName])) where
  resolved := by decide +kernel
  directory := by decide +kernel
  holds := by
    have hf : lockedHome.tree.file [configName] = none := by decide +kernel
    rw [hf]
    rfl
  snapshot := rfl

theorem lockedHome_ready : Ready [configName] lockedHome where
  prepared := ⟨by decide +kernel,_,lockedHome_lock,rfl,rfl⟩
  free := rfl

def emptyDocument : DocumentSnapshot := ⟨.ofLocation [configName],⟨true,[]⟩,[]⟩

/-- A rollback to an empty document where there is none succeeds and makes none. -/
theorem restoreDocument_empty_missing : ∃ r w', Reaches (faultless ⟨0,[]⟩)
    (restoreDocument Reference.library 1 ⟨0,[]⟩ (.ofLocation [configName]) ⟨false,[]⟩ emptyDocument anyDocument)
    lockedHome (.ret r) w' ∧ r.status = .success ∧
    resolveTarget lockedHome.tree [] (.ofLocation [configName]) = .ok [configName] ∧
    ¬ Holds (w'.tree.file [configName]) emptyDocument.revision := by
  have hstand := lockedHome_standing Reference.library
  have hs : (patchFor Reference.library ⟨[],anyDocument,some ⟨false,[]⟩,some emptyDocument⟩
      (.missing (.ofLocation [configName]))).status = .success := by decide +kernel
  have hkept : (patchFor Reference.library ⟨[],anyDocument,some ⟨false,[]⟩,some emptyDocument⟩
      (.missing (.ofLocation [configName]))).snapshot.map (fun s => s.revision.bytes) = some [] := by decide +kernel
  have hupdate : Returns (faultless ⟨0,[]⟩) anyStep (fun r w' => r.1.status = .success ∧ w'.tree = lockedHome.tree)
      (updateDocument Reference.library 1 ⟨0,[]⟩ (.ofLocation [configName])
        ⟨[],anyDocument,some ⟨false,[]⟩,some emptyDocument⟩) lockedHome := by
    refine updateDocument_returns _ (fun _ _ _ _ _ => trivial) (by decide +kernel) hstand (by decide +kernel)
      lockedHome_ready Nat.one_pos ?_
    have hheld : Standing Reference.library ⟨0,[]⟩ (.ofLocation [configName]) [configName]
      (lockedHome.hold (lockPath [configName]).components (some 0)).tree _ := hstand
    refine updateLocked_returns _ (fun _ _ _ _ _ => trivial) hheld ?_ hs ?_ ?_ ?_
    · rintro staged ⟨rfl⟩
      rfl
    · exact fun _ _ => ⟨hs,rfl⟩
    · exact fun hm => by cases hm
    · exact fun _ hne => absurd hkept hne
  have hrestore : Returns (faultless ⟨0,[]⟩) anyStep (fun r w' => r.status = .success ∧ w'.tree = lockedHome.tree)
      (restoreDocument Reference.library 1 ⟨0,[]⟩ (.ofLocation [configName]) ⟨false,[]⟩ emptyDocument anyDocument)
      lockedHome := returns_bind hupdate (fun _ _ h => h)
  obtain ⟨r,w',hr,hs,htree⟩ := hrestore.exists
  refine ⟨r,w',hr,hs,hstand.resolved,?_⟩
  rw [htree]
  exact fun h => by cases h.unique hstand.holds

/-! ### Staging and rolling back -/

/-- The validators look at the revision and the values alone. -/
def OnValues (schema : DocumentSchema) : Prop :=
  ∀ validate, schema.validateDomain = some validate → ∀ s s' : DocumentSnapshot,
    s.revision = s'.revision → (∀ key, s.value key = s'.value key) → validate s = validate s'

theorem hasErrors_fieldDiagnostics {s s' : DocumentSnapshot} (h : ∀ key, s.value key = s'.value key)
    (field : SchemaField) : hasErrors (fieldDiagnostics L s field) = hasErrors (fieldDiagnostics L s' field) := by
  unfold fieldDiagnostics
  rw [h]
  split
  · rfl
  · split <;> rfl

theorem OnValues.hasErrors {schema : DocumentSchema} (h : OnValues schema) {s s' : DocumentSnapshot}
    (hr : s.revision = s'.revision) (hv : ∀ key, s.value key = s'.value key) :
    hasErrors (validateDocument L s schema) = hasErrors (validateDocument L s' schema) := by
  unfold validateDocument
  rw [hasErrors_append,hasErrors_append,hasErrors_flatMap,hasErrors_flatMap]
  congr 1
  · exact congrArg _ (funext (fun field => hasErrors_fieldDiagnostics L hv field))
  · cases hd : schema.validateDomain with
    | none => rfl
    | some validate =>
      rw [Option.map_some,Option.map_some,h validate hd s s' hr hv]

theorem patchDocument_valid {current : DocumentSnapshot} {edits : EditBatch} {schema : DocumentSchema}
    (h : (patchDocument L current edits schema).status = .success) :
    hasErrors (validateDocument L current schema) = false := by
  have hcases := patchDocument_cases L current edits schema
  generalize patchDocument L current edits schema = r at h hcases
  cases hcases with
  | success hv => exact hv
  | _ => cases h

section
variable {L} {target : List Name} {current : DocumentSnapshot}

theorem snapshotAt_length {f : Option File} (h : snapshotAt L target current.revision = some current)
    (hf : Holds f current.revision) : current.revision.bytes.length ≤ kMaximumDocumentBytes := by
  rcases hf.cases with ⟨-,hr⟩ | ⟨-,-,he⟩
  · rw [hr]
    exact Nat.zero_le _
  · rw [snapshotAt,if_pos he] at h
    unfold parseDocument at h
    split at h
    · cases h
    · omega

/-- The document before is one a rollback accepts. -/
theorem prepareRestore_success {schema : DocumentSchema} (hschema : OnValues schema)
    (hc : snapshotAt L target current.revision = some current)
    (hv : hasErrors (validateDocument L current schema) = false) :
    (prepareRestore L current schema).status = .success ∧
      (prepareRestore L current schema).snapshot.map DocumentSnapshot.revision = some current.revision := by
  have hpath := snapshotAt_path hc
  unfold snapshotAt at hc
  unfold prepareRestore
  cases he : current.revision.exists_ with
  | true =>
    rw [if_pos he] at hc
    rw [hpath]
    dsimp only
    simp only [if_true,hc,hv]
    exact ⟨rfl,rfl⟩
  | false =>
    rw [if_neg (by simp [he])] at hc
    have hcur := Option.some.inj hc
    have hmissing : hasErrors (validateDocument L (.missing .none) schema) = false := by
      have hrev : (DocumentSnapshot.missing .none).revision =
          (DocumentSnapshot.missing (.ofLocation target)).revision := rfl
      rw [hschema.hasErrors L hrev (fun _ => rfl),hcur]
      exact hv
    dsimp only [Result.success]
    simp only [Bool.false_eq_true,if_false,hmissing]
    rw [← hcur]
    exact ⟨trivial,rfl⟩

end

section
variable {L} {me : Process} {path : Path} {target : List Name} {schema : DocumentSchema}

/-- A rollback of the document that is there gets through where the document before passes its checks. -/
theorem updateDocument_restores {w : World} {next previous : DocumentSnapshot} {budget : ℕ}
    (hpath : ¬ (path.isEmpty ∨ path.filename = [])) (h : Standing L me path target w.tree next)
    (hready : Ready target w) (hmatch : rollbackTargetMatches me.current target (some previous) = true)
    (hp : (prepareRestore L previous schema).status = .success)
    (hplace : previous.revision.exists_ = true →
      (prepareRestore L previous schema).snapshot.map (fun s => s.revision.bytes) ≠ some next.revision.bytes →
      FreeName target w.tree ∧ (((prepareRestore L previous schema).snapshot.map
        (fun s => s.revision.bytes)).getD []).length ≤ budget) (hpos : 0 < budget) :
    Returns (faultless me) anyStep (fun r _ => r.1.status = .success)
      (updateDocument L budget me path ⟨[],schema,some next.revision,some previous⟩) w := by
  refine updateDocument_returns L (fun _ _ _ _ _ => trivial) hpath h hmatch hready hpos ?_
  have hheld : Standing L me path target (w.hold (lockPath target).components (some me.id)).tree next := h
  have hpatch : (patchFor L ⟨[],schema,some next.revision,some previous⟩ next).status = .success := hp
  refine updateLocked_returns L (fun _ _ _ _ _ => trivial) hheld ?_ hpatch ?_ ?_ ?_
  · rintro staged ⟨rfl⟩
    rfl
  · exact fun _ _ => hpatch
  · exact fun _ => removeDocument_returns L hheld hpatch
  · intro hm hne
    obtain ⟨hname,hlen⟩ := hplace (by simpa [restoresMissing] using hm) hne
    exact replaceDocument_returns L hheld hname hpatch hlen

theorem rollbackTargetMatches_snapshotAt {t : Tree} {current : DocumentSnapshot} (hp : Physical t target)
    (h : snapshotAt L target current.revision = some current) (directory : List Name) :
    rollbackTargetMatches directory target (some current) = true := by
  rw [rollbackTargetMatches,snapshotAt_path h,Path.absolute_ofLocation,Path.lexicallyNormal_ofLocation hp.names]
  simp

/-- What an update found can be put back after it. -/
theorem Updated.restorable {edits : EditBatch} {w w' : World} {r : SaveResult × Option DocumentSnapshot}
    {current next : DocumentSnapshot} (h : Updated L me path target edits schema w r w' current next) {f : Option File}
    (hf : Holds f next.revision) : ¬ Unrestorable f current.revision := by
  rintro (⟨rfl,hcur⟩ | ⟨he,hbytes⟩)
  · have hnext : next.revision = ⟨false,[]⟩ := hf
    rcases h.kept with ⟨rfl,-⟩ | ⟨hs,-,-⟩
    · cases hnext.symm.trans hcur
    · obtain ⟨s,hs',-,hex,-⟩ := @patchFor_success L ⟨edits,schema,none,none⟩ _ h.patched
      cases hs.symm.trans hs'
      rw [hnext] at hex
      cases hex rfl
  · rcases h.before.2.1.cases with ⟨-,hr⟩ | ⟨m,-,he'⟩
    · rw [hr] at hbytes
      exact hbytes rfl
    · rw [he] at he'
      cases he'

end

/-- Rolling a staging back puts the document before back, whatever is asked of the storage
while staging, and as long as nobody changes what the rollback looks at. -/
theorem stageDocument_restores {schema : DocumentSchema} (hschema : OnValues schema) (budget budget' : ℕ)
    (hb : kMaximumDocumentBytes ≤ budget') (me : Process) (path : Path) (edits : EditBatch) (w : World) :
    Ensures (faulty me) anyStep
      (fun staged w' => staged.result.status = .success ∨ staged.result.status = .durabilityFailure →
        ∃ target revision previous snapshot, resolveTarget w.tree me.current path = .ok target ∧
          Holds (w.tree.file target) revision ∧ staged.previous = some previous ∧
          staged.result.snapshot = some snapshot ∧
          ∀ w₂, Undisturbed me path target w' w₂ → Returns (faultless me) anyStep
            (fun r w₃ => r.status = .success ∧ Holds (w₃.tree.file target) revision)
            (restoreDocument L budget' me path snapshot.revision previous schema) w₂)
      (stageDocument L budget me path edits schema) w := by
  by_cases hpath : path.isEmpty ∨ path.filename = []
  · refine ensures_bind (P := fun (r : SaveResult × Option DocumentSnapshot) _ => r.1.Failed) ?_
      (fun r w' h hs => absurd hs (fun hs => hs.elim h.status.1 h.status.2))
    unfold updateDocument
    rw [if_pos hpath]
    exact failed_failure (by simp) _ _
  · refine ensures_bind (updateDocument_outcome L True budget me path _ w) (fun r w' hout hs => ?_)
    have hs : r.1.status = .success ∨ r.1.status = .durabilityFailure := hs
    obtain ⟨target,current,next,hup⟩ := hout.updated hs
    obtain ⟨hT,hholds,hsnap⟩ := hup.before
    obtain ⟨snapshot,hsome,hrev⟩ := Option.map_eq_some_iff.mp hup.snapshot
    refine ⟨target,current.revision,current,snapshot,hT,hholds,?_,hsome,fun w₂ hu => ?_⟩
    · change (if r.1.status = .success ∨ r.1.status = .durabilityFailure then r.2 else none) = some current
      rw [if_pos hs]
      exact hup.previous
    obtain ⟨hstand,hready⟩ := hup.standing.undisturbed hup.ready hu
    have hmatch := rollbackTargetMatches_snapshotAt hstand.physical hsnap me.current
    obtain ⟨hprep,hprev⟩ := prepareRestore_success hschema hsnap (patchDocument_valid L hup.patched)
    obtain ⟨restored,hres,hrrev⟩ := Option.map_eq_some_iff.mp hprev
    rw [hrev]
    have hreturns : Returns (faultless me) anyStep (fun r _ => r.1.status = .success)
        (updateDocument L budget' me path ⟨[],schema,some next.revision,some current⟩) w₂ := by
      refine updateDocument_restores hpath hstand hready hmatch hprep (fun _ hne => ?_)
        (Nat.lt_of_lt_of_le (by decide) hb)
      rw [hres,Option.map_some,hrrev] at hne ⊢
      refine ⟨?_,(snapshotAt_length hsnap hholds).trans hb⟩
      rcases hup.kept with ⟨rfl,-⟩ | ⟨-,-,hname⟩
      · exact absurd rfl hne
      · exact hu.name hname
    have hout₂ := hreturns.and (fun _ _ _ _ => .inl)
      (updateDocument_outcome L True budget' me path ⟨[],schema,some next.revision,some current⟩ w₂)
    refine returns_bind hout₂ (fun r₂ w₃ hr => ?_)
    obtain ⟨target',hT',-,-,hiff⟩ := hr.2.restores hr.1
    cases hstand.resolved.symm.trans hT'
    exact ⟨hr.1,hiff.mpr (hup.restorable hstand.holds)⟩

/-- Staging one value where no file is, and rolling that back. -/
theorem stageDocument_restores_home : Ensures (faulty ⟨0,[]⟩) anyStep
    (fun staged w' => staged.result.status = .success ∨ staged.result.status = .durabilityFailure →
      ∃ target revision previous snapshot, resolveTarget lockedHome.tree [] (.ofLocation [configName]) = .ok target ∧
        Holds (lockedHome.tree.file target) revision ∧ staged.previous = some previous ∧
        staged.result.snapshot = some snapshot ∧
        ∀ w₂, Undisturbed ⟨0,[]⟩ (.ofLocation [configName]) target w' w₂ → Returns (faultless ⟨0,[]⟩) anyStep
          (fun r w₃ => r.status = .success ∧ Holds (w₃.tree.file target) revision)
          (restoreDocument Reference.library kMaximumDocumentBytes ⟨0,[]⟩ (.ofLocation [configName])
            snapshot.revision previous anyDocument) w₂)
    (stageDocument Reference.library kMaximumDocumentBytes ⟨0,[]⟩ (.ofLocation [configName])
      [⟨xKey,none,some (.integer 1)⟩] anyDocument) lockedHome :=
  stageDocument_restores Reference.library (fun validate h => by cases h) kMaximumDocumentBytes
    kMaximumDocumentBytes (Nat.le_refl _) ⟨0,[]⟩ (.ofLocation [configName]) [⟨xKey,none,some (.integer 1)⟩]
    lockedHome

end DocumentStore
end HolonightConfig
