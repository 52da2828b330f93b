import HolonightConfig.AppearanceDocument.Effective
import HolonightConfig.AppearanceStore
import HolonightConfig.DocumentStore.Retry
import Mathlib.Logic.Relation

/-! Editing keeps a document loadable, leaves one that is not alone, and shows what was set. -/
namespace HolonightConfig
open Text Toml Posix Program

namespace AppearanceStore
open Storage Document DocumentStore AppearanceDocument
variable {L : Library}

/-! ### What reading makes of a file -/

/-- What is read where this file is. -/
def contentOf : Option File → FileContent
  | none => .missing
  | some (.regular _ octets) => .content octets
  | some _ => .failed notRegular

/-- Reading the path finds no file there, or accepts it. -/
def Loads (L : Library) (path : Path) (f : Option File) : Prop :=
  (decodeRead L path (contentOf f)).value.isSome = true

theorem reading_eq_contentOf {t : Tree} {target : List Name} (h : Physical t target) {f : File}
    (hf : t.file target = some f) : reading t target = contentOf (some f) := by
  have hl := @Tree.look_names t true target h.names (Tree.opened_of_exists (by rw [hf]; rfl))
    (fun _ => h.plain target (List.prefix_refl _))
  rw [hf] at hl
  unfold reading
  rw [hl]
  cases f <;> rfl

/-- A file that is there is accepted by the reading of its path exactly if it loads. -/
theorem readAppearanceDocument_loads (L : Library) {w : World} {target : List Name}
    (h : Physical w.tree target) {f : File} (hf : w.tree.file target = some f) (me : Process) (phase : Phase) :
    Ensures (faultless me) anyStep
      (fun r _ => r.value.isSome = true ↔ Loads L (.ofLocation target) (some f))
      (readAppearanceDocument L phase (.ofLocation target)) w := by
  refine ensures_perform (fun found w' hs => ⟨trivial,?_⟩)
  obtain ⟨-,rfl⟩ := hs
  rw [Path.absolute_ofLocation,reading_eq_contentOf h hf]
  exact Iff.rfl

theorem loads_missing (path : Path) : Loads L path none := by
  unfold Loads decodeRead decodeAppearanceDocument
  rfl

theorem decodeRead_content {octets : Bytes} {path : Path} {snapshot : DocumentSnapshot}
    (h : (parseDocument L octets path).value = some snapshot) :
    decodeRead L path (.content octets) = decodeAppearanceDocument L snapshot := by
  unfold decodeRead
  rw [readDocument,parseDocument_readChunks]
  simp only [h]

/-- A document of one path as another path names it. -/
theorem parseDocument_elsewhere {octets : Bytes} {path path' : Path} {snapshot : DocumentSnapshot}
    (h : (parseDocument L octets path).value = some snapshot) :
    (parseDocument L octets path').value = some { snapshot with path := path' } := by
  obtain ⟨root,hs,hp,rfl⟩ := parseDocument_value h
  rw [parseDocument_of_ok hs hp]
  rfl

section
variable (hL : L.Permissive) (hC : L.Conforms kMaximumDocumentBytes)
include hL hC

theorem loads_content {octets : Bytes} {path path' : Path} {snapshot : DocumentSnapshot}
    (h : (parseDocument L octets path).value = some snapshot) {m : Metadata} :
    Loads L path' (some (.regular m octets)) ↔ (decodeAppearanceDocument L snapshot).value.isSome = true := by
  obtain ⟨root,hr⟩ := reads_parseDocument h
  rw [Loads,contentOf,decodeRead_content (parseDocument_elsewhere h),decode_elsewhere hL hC hr]

/-- It does not matter under which name the file is read. -/
theorem loads_elsewhere {path : Path} (path' : Path) {f : Option File} (h : Loads L path f) : Loads L path' f := by
  cases f with
  | none => exact loads_missing path'
  | some f =>
    cases f with
    | regular m octets =>
      cases hp : (parseDocument L octets path).value with
      | none =>
        unfold Loads decodeRead at h
        rw [contentOf,readDocument,parseDocument_readChunks] at h
        simp [hp] at h
      | some snapshot => exact (loads_content hL hC hp).mpr ((loads_content hL hC hp).mp h)
    | _ => cases h

/-- A document without errors, wherever it was parsed from, loads. -/
theorem loads_of_valid {octets : Bytes} {path : Path} {snapshot : DocumentSnapshot}
    (h : (parseDocument L octets path).value = some snapshot)
    (hv : hasErrors (validateDocument L snapshot (appearanceDocumentSchema L)) = false) (path' : Path)
    {f : Option File} (hf : Holds f ⟨true,octets⟩) : Loads L path' f := by
  obtain ⟨m,rfl,-⟩ := hf.cases.resolve_left (by simp)
  rw [loads_content hL hC h,Option.isSome_iff_ne_none]
  intro hn
  have he := decode_rejected hn
  have hd : (appearanceDocumentSchema L).validateDomain =
    some (fun document => (decodeAppearanceDocument L document).diagnostics) := rfl
  rw [validateDocument,hd,hasErrors_append,Bool.or_eq_false_iff] at hv
  exact absurd (he.symm.trans hv.2) (by simp)

end

/-! ### What an update puts in place -/

/-- What is asked for was found valid. -/
theorem patchFor_valid {request : Request} {current s : DocumentSnapshot}
    (h : (patchFor L request current).snapshot = some s) :
    hasErrors (validateDocument L s request.schema) = false ∧ (s.revision = ⟨false,[]⟩ ∨
      ∃ octets path, (parseDocument L octets path).value = some s ∧ s.revision = ⟨true,octets⟩) := by
  unfold patchFor at h
  cases hp : request.previous with
  | none =>
    rw [hp] at h
    have hpatch := patchDocument_patching L current h
    obtain ⟨candidate,hparse⟩ := hpatch.parsed
    exact ⟨hpatch.after,.inr ⟨_,_,hparse,(parseDocument_some L hparse).2⟩⟩
  | some previous =>
    rw [hp] at h
    dsimp only at h
    unfold prepareRestore at h
    dsimp only at h
    split at h
    · cases h
    · next snapshot hs =>
      split at h
      · cases h
      · next hv =>
        cases h
        refine ⟨by simpa using hv,?_⟩
        split at hs
        · exact .inr ⟨_,_,hs,(parseDocument_some L hs).2⟩
        · cases hs
          exact .inl rfl

section Updates
variable (hL : L.Permissive) (hC : L.Conforms kMaximumDocumentBytes)
include hL hC

/-- What an update leaves at the target is what was there, or loads. -/
theorem patchFor_loads {request : Request} (hschema : request.schema = appearanceDocumentSchema L)
    {current s : DocumentSnapshot} (h : (patchFor L request current).snapshot = some s) {f : Option File}
    (hf : Holds f s.revision) (path : Path) : Loads L path f := by
  obtain ⟨hv,hr | ⟨octets,path',hparse,hr⟩⟩ := patchFor_valid h
  · rw [hr] at hf
    rcases hf.cases with ⟨rfl,-⟩ | ⟨m,-,he⟩
    · exact loads_missing path
    · cases he
  · rw [hr] at hf
    rw [hschema] at hv
    exact loads_of_valid hL hC hparse hv path hf

/-- A document that edits are applied to loads. -/
theorem patchDocument_loads {edits : EditBatch} {current s : DocumentSnapshot} {target : List Name}
    (h : (patchDocument L current edits (appearanceDocumentSchema L)).snapshot = some s) {f : Option File}
    (hf : Holds f current.revision) (hc : snapshotAt L target current.revision = some current) (path : Path) :
    Loads L path f := by
  rcases hf.cases with ⟨rfl,-⟩ | ⟨m,-,he⟩
  · exact loads_missing path
  · rw [snapshotAt,if_pos he] at hc
    refine loads_of_valid hL hC hc (patchDocument_patching L current h).before path ?_
    rwa [← he]

end Updates

/-! ### Calls -/

/-- The calls of the editing interface. -/
inductive Action
  | save (edits : EditBatch)
  | stage (edits : EditBatch)
  | restore (staged : DocumentRevision) (previous : DocumentSnapshot)

def Action.program (L : Library) (budget : ℕ) (me : Process) (path : Path) : Action → Command SaveResult
  | save edits => saveAppearanceDocument L budget me path edits
  | stage edits => StagedSaveResult.result <$> stageAppearanceDocument L budget me path edits
  | restore staged previous => restoreDocument L budget me path staged previous (appearanceDocumentSchema L)

/-- The edits of a save or a staging. -/
def Action.edits : Action → Option EditBatch
  | save edits => some edits
  | stage edits => some edits
  | restore _ _ => none

/-- How a save or a staging ends: with a failure and everything as it was, or as an update
of a document that loads. -/
def Ends (L : Library) (me : Process) (path : Path) (edits : EditBatch) (w : World) (r : SaveResult)
    (w' : World) : Prop :=
  (r.Failed ∧ w' = w) ∨ ∃ document, ∃ r' : SaveResult × Option DocumentSnapshot, r = r'.1 ∧
    Outcome L True me path ⟨edits ++ [versionEdit document],appearanceDocumentSchema L,none,none⟩ w r' w'

section Calls
variable {me : Process} {path : Path} {w : World}

theorem failed_unreadable (ds : List Diagnostic) : (unreadable ds).Failed := by
  refine ⟨rfl,?_⟩
  unfold unreadable
  split <;> simp

theorem stage_faulty (hL : L.Permissive) (hC : L.Conforms kMaximumDocumentBytes) (edits : EditBatch)
    (budget : ℕ) :
    Ensures (faulty me)
      (fun _ _ _ w' => ∀ target, resolveTarget w.tree me.current path = .ok target →
        w'.tree.file target = w.tree.file target ∨
          ∀ path', Loads L path' (w.tree.file target) ∧ Loads L path' (w'.tree.file target))
      (fun r w' => Ends L me path edits w r.result w') (stageAppearanceDocument L budget me path edits) w := by
  unfold stageAppearanceDocument
  refine ensures_bind (P := fun r w' => w' = w ∧ ∀ target, r.value = some target →
    resolveTarget w.tree me.current path = .ok target) ?_ (fun r w₁ hr => ?_)
  · unfold resolveDocumentTarget
    split
    · exact ⟨rfl,by simp⟩
    · refine ensures_perform (fun r w₁ hs => ?_)
      have hsame : w₁ = w := by rcases hs with ⟨rfl,-⟩ | ⟨-,rfl⟩ <;> rfl
      subst hsame
      refine ⟨fun _ _ => .inl rfl,?_⟩
      cases r with
      | error e => exact ⟨rfl,by simp⟩
      | ok target =>
        refine ⟨rfl,fun target' h => ?_⟩
        cases h
        rcases hs with ⟨-,h⟩ | ⟨⟨e,h⟩,-⟩
        · exact h.symm
        · cases h
  · obtain ⟨rfl,hT⟩ := hr
    split
    · exact .inl ⟨⟨rfl,by simp⟩,rfl⟩
    · next location hl =>
      have hT := hT location hl
      refine ensures_bind (P := fun _ w' => w' = w₁) ?_ (fun r w₂ hr => ?_)
      · refine ensures_perform (fun r w₂ hs => ?_)
        have hsame : w₂ = w₁ := by rcases hs with ⟨rfl,-⟩ | ⟨-,rfl⟩ <;> rfl
        subst hsame
        exact ⟨fun _ _ => .inl rfl,rfl⟩
      · subst hr
        split
        · exact .inl ⟨failed_unreadable _,rfl⟩
        · next document hd =>
          split
          · exact .inl ⟨⟨rfl,by simp⟩,rfl⟩
          · -- From here on the document under the lock is validated before it is changed.
            have hup := @updateDocument_faulty L me True (fun f => f = w₂.tree.file location ∨
              ∀ path', Loads L path' (w₂.tree.file location) ∧ Loads L path' f) w₂ path
              ⟨edits ++ [versionEdit document.snapshot],appearanceDocumentSchema L,none,none⟩
              (fun T hT' => by cases hT.symm.trans hT'; exact .inl rfl)
              (fun T hT' t current s ht hacc hs f hf => by
                cases hT.symm.trans hT'
                refine .inr (fun path' => ⟨?_,patchFor_loads hL hC rfl hs hf path'⟩)
                rw [← ht]
                exact patchDocument_loads hL hC hs hacc.holds hacc.snapshot path') budget
            refine ensures_bind (hup.weaken (fun s c r w' h T hT' => ?_)) (fun r w' hout => ?_)
            · cases hT.symm.trans hT'
              exact h location hT
            · exact .inr ⟨document.snapshot,r,rfl,hout⟩

theorem restore_faulty (hL : L.Permissive) (hC : L.Conforms kMaximumDocumentBytes)
    (staged : DocumentRevision) (previous : DocumentSnapshot) (budget : ℕ) :
    Ensures (faulty me)
      (fun _ _ _ w' => ∀ target, resolveTarget w.tree me.current path = .ok target →
        w'.tree.file target = w.tree.file target ∨ ∀ path', Loads L path' (w'.tree.file target))
      (fun _ _ => True)
      (restoreDocument L budget me path staged previous (appearanceDocumentSchema L)) w := by
  by_cases hT : ∃ target, resolveTarget w.tree me.current path = .ok target
  · obtain ⟨location,hT⟩ := hT
    have hup := @updateDocument_faulty L me True
      (fun f => f = w.tree.file location ∨ ∀ path', Loads L path' f) w path
      ⟨[],appearanceDocumentSchema L,some staged,some previous⟩
      (fun T hT' => by cases hT.symm.trans hT'; exact .inl rfl)
      (fun T hT' t current s ht hacc hs f hf => .inr (fun path' => patchFor_loads hL hC rfl hs hf path'))
      budget
    refine ensures_bind (hup.weaken (fun s c r w' h T hT' => ?_)) (fun r w' hout => trivial)
    cases hT.symm.trans hT'
    exact h location hT
  · refine ensures_bind ((updateDocument_outcome L True budget me path _ w).weaken ?_) (fun r w' hout => trivial)
    exact fun s c r w' _ T hT' => absurd ⟨T,hT'⟩ hT

/-- A save or a staging is one of the same edits. -/
theorem edits_faulty (hL : L.Permissive) (hC : L.Conforms kMaximumDocumentBytes) {action : Action}
    {edits : EditBatch} (ha : action.edits = some edits) (budget : ℕ) :
    Ensures (faulty me)
      (fun _ _ _ w' => ∀ target, resolveTarget w.tree me.current path = .ok target →
        w'.tree.file target = w.tree.file target ∨
          ∀ path', Loads L path' (w.tree.file target) ∧ Loads L path' (w'.tree.file target))
      (fun r w' => Ends L me path edits w r w') (action.program L budget me path) w := by
  cases action with
  | save edits' =>
    cases ha
    exact ensures_bind (stage_faulty hL hC edits budget) (fun r w' h => h)
  | stage edits' =>
    cases ha
    exact ensures_bind (stage_faulty hL hC edits budget) (fun r w' h => h)
  | restore staged previous => cases ha

end Calls

/-! ### Runs -/

/-- One call on the target, cut short anywhere, or whatever leaves the target alone. -/
inductive Step (L : Library) (target : List Name) (w w' : World) : Prop
  | call {me : Process} {path : Path} (budget : ℕ) (action : Action)
      (hT : resolveTarget w.tree me.current path = .ok target) {p : Command SaveResult}
      (hr : Reaches (faulty me) (action.program L budget me path) w p w')
  | elsewhere (h : w'.tree.file target = w.tree.file target)

def Run (L : Library) (target : List Name) : World → World → Prop :=
  Relation.ReflTransGen (Step L target)

section Runs
variable (hL : L.Permissive) (hC : L.Conforms kMaximumDocumentBytes)
include hL hC

/-- A save or a staging changes the target only from what loads to what loads. -/
theorem edits_keep {me : Process} {path : Path} {budget : ℕ} {action : Action} {edits : EditBatch}
    (ha : action.edits = some edits) {target : List Name} {w w' : World} {p : Command SaveResult}
    (hT : resolveTarget w.tree me.current path = .ok target)
    (hr : Reaches (faulty me) (action.program L budget me path) w p w') :
    w'.tree.file target = w.tree.file target ∨
      ∀ path', Loads L path' (w.tree.file target) ∧ Loads L path' (w'.tree.file target) :=
  (edits_faulty hL hC ha budget).invariant (I := fun v => v.tree.file target = w.tree.file target ∨
    ∀ path', Loads L path' (w.tree.file target) ∧ Loads L path' (v.tree.file target)) (.inl rfl)
    (fun _ _ _ _ h _ => h target hT) hr

theorem Step.loads {target : List Name} {w w' : World} (h : Step L target w w') {path : Path}
    (hl : Loads L path (w.tree.file target)) : Loads L path (w'.tree.file target) := by
  cases h with
  | elsewhere h =>
    rw [h]
    exact hl
  | @call me path' budget action hT p hr =>
    cases ha : action.edits with
    | some edits =>
      rcases edits_keep hL hC ha hT hr with h | h
      · rw [h]
        exact hl
      · exact (h path).2
    | none =>
      cases action with
      | restore staged previous =>
        have h := (restore_faulty hL hC staged previous budget).invariant
          (I := fun v => v.tree.file target = w.tree.file target ∨ ∀ path', Loads L path' (v.tree.file target))
          (.inl rfl) (fun _ _ _ _ h _ => h target hT) hr
        rcases h with h | h
        · rw [h]
          exact hl
        · exact h path
      | _ => cases ha

theorem Run.loads {target : List Name} {w w' : World} (h : Run L target w w') {path : Path}
    (hl : Loads L path (w.tree.file target)) : Loads L path (w'.tree.file target) := by
  induction h with
  | refl => exact hl
  | tail _ hs ih => exact hs.loads hL hC ih

end Runs

/-! ### What a save that succeeded shows -/

/-- The library prints the version so that it reads back. -/
def PrintsVersion (L : Library) : Prop :=
  normalizeValue L (.integer kEditingDocumentVersion) = some (.integer kEditingDocumentVersion)

/-- The file holds a version 2 document that loads, and where the library reads back what it
prints of it, every edited field shows its pending value, as that one reads, or its default. -/
def Edited (L : Library) (edits : EditBatch) (f : Option File) : Prop :=
  ∀ path, ∃ document, (decodeRead L path (contentOf f)).value = some document ∧
    document.snapshot.revision.exists_ = true ∧
    document.snapshot.value versionKey = some (.integer kEditingDocumentVersion) ∧
    document.documentVersion = kEditingDocumentVersion ∧
    ∀ root, L.parse document.snapshot.revision.bytes = .ok root → L.ReadsBack (Sparse.projection root) →
      ∀ edit ∈ edits, ∀ s k kind, edit.key = [s,k] → Sparse.kindOf s k = some kind →
        ∃ edit', normalizeEdit L edit = some edit' ∧ Shows document.appearance s k kind edit'.pending

theorem decode_version2_value {snapshot : DocumentSnapshot} {root : Entries Region}
    (hC : L.Conforms kMaximumDocumentBytes) (h : Reads L snapshot root) (hv : IsVersion2 root)
    {document : AppearanceDocument} (hd : (decodeAppearanceDocument L snapshot).value = some document) :
    document.snapshot = snapshot ∧ document.documentVersion = kEditingDocumentVersion := by
  rw [decode_version2 hC h hv] at hd
  split at hd
  · cases hd
  · dsimp only at hd
    split at hd
    · cases hd
    · cases hd
      exact ⟨rfl,rfl⟩

section Edits
variable {me : Process} {path : Path} {target : List Name} {w w' : World}
variable {r : SaveResult × Option DocumentSnapshot} {current next document : DocumentSnapshot} {edits : EditBatch}

/-- A version can be read of no empty document. -/
theorem value_version_ne (hC : L.Conforms kMaximumDocumentBytes) {snapshot : DocumentSnapshot} {path : Path}
    (h : (parseDocument L [] path).value = some snapshot) :
    snapshot.value versionKey ≠ some (.integer kEditingDocumentVersion) := by
  unfold DocumentSnapshot.value DocumentSnapshot.entry
  rw [overrides_empty hC h]
  simp

/-- The document in place is the patch. -/
theorem patched_of_updated (hC : L.Conforms kMaximumDocumentBytes) (hV : PrintsVersion L)
    {schema : DocumentSchema}
    (h : Updated L me path target (edits ++ [versionEdit document]) schema w r w' current next) :
    (patchDocument L current (edits ++ [versionEdit document]) schema).snapshot = some next := by
  rcases h.kept with ⟨rfl,hb⟩ | ⟨hs,-,-⟩
  swap
  · exact hs
  · obtain ⟨s,hs,hb⟩ := Option.map_eq_some_iff.mp hb
    have hpatch := patchDocument_patching L next hs
    obtain ⟨candidate,hparse⟩ := hpatch.parsed
    obtain ⟨-,hrev⟩ := parseDocument_some L hparse
    obtain rfl : candidate = next.revision.bytes := by rw [← hb,hrev]
    rw [snapshotAt_path h.before.2.2] at hparse
    have hsnap := h.before.2.2
    rw [snapshotAt] at hsnap
    split at hsnap
    · rw [hs,← hparse,hsnap]
    · cases hsnap
      obtain ⟨edit',he,hsame⟩ := hpatch.edited (versionEdit document) (by simp)
      have hnorm : edit'.pending = some (.integer kEditingDocumentVersion) := by
        unfold normalizeEdit versionEdit at he
        dsimp only at he
        rw [hV] at he
        cases he
        rfl
      rw [hnorm] at hsame
      exact absurd (Value.same_integer hsame) (value_version_ne hC hparse)

theorem edited_of_updated (hL : L.Permissive) (hC : L.Conforms kMaximumDocumentBytes) (hV : PrintsVersion L)
    (h : Updated L me path target (edits ++ [versionEdit document]) (appearanceDocumentSchema L) w r w'
      current next) : Edited L edits (w'.tree.file target) := by
  have hpatch := patchDocument_patching L current (patched_of_updated hC hV h)
  obtain ⟨candidate,hparse⟩ := hpatch.parsed
  obtain ⟨-,hrev⟩ := parseDocument_some L hparse
  have hholds := h.standing.holds
  rw [hrev] at hholds
  obtain ⟨m,hfile,-⟩ := hholds.cases.resolve_left (by simp)
  obtain ⟨edit',he,hsame⟩ := hpatch.edited (versionEdit document) (by simp)
  have hnorm : edit'.pending = some (.integer kEditingDocumentVersion) := by
    unfold normalizeEdit versionEdit at he
    dsimp only at he
    rw [hV] at he
    cases he
    rfl
  rw [hnorm] at hsame
  have hversion : next.value versionKey = some (.integer kEditingDocumentVersion) := Value.same_integer hsame
  intro path'
  have hloads := loads_of_valid hL hC hparse hpatch.after path' (f := w'.tree.file target) (by rwa [hfile] at hholds ⊢)
  obtain ⟨root,hr⟩ := reads_parseDocument (@parseDocument_elsewhere L _ _ path' _ hparse)
  obtain ⟨d,hd⟩ := Option.isSome_iff_exists.mp hloads
  refine ⟨d,hd,?_⟩
  rw [hfile,contentOf,decodeRead_content (parseDocument_elsewhere hparse)] at hd
  have hv := isVersion2_of_value hC hr hversion
  obtain ⟨hsnap,hver⟩ := decode_version2_value hC hr hv hd
  rw [hsnap]
  refine ⟨hr.exists_,hversion,hver,fun root' hp hback edit hm s k kind hkey hk => ?_⟩
  cases hr.parse.symm.trans hp
  obtain ⟨edit',he,hsame⟩ := hpatch.edited edit (List.mem_append_left _ hm)
  refine ⟨edit',he,?_⟩
  rw [hkey] at hsame
  exact document_shows hC hr ((decode_value_iff hL hC hr hv hback d).mp hd).2.1 hk hsame

end Edits

/-- What the editing interface guarantees of a target. -/
structure KeepsLoadable (L : Library) (target : List Name) : Prop where
  /-- In every run a target that is missing or loads stays so. -/
  run : ∀ w w', Run L target w w' → ∀ path path', Loads L path (w.tree.file target) →
    Loads L path' (w'.tree.file target)
  /-- At every step of a save or a staging a file that does not load is as it was. -/
  alone : ∀ (budget : ℕ) (me : Process) (path : Path) (action : Action) (edits : EditBatch),
    action.edits = some edits → ∀ w : World, resolveTarget w.tree me.current path = .ok target →
    ∀ p w', Reaches (faulty me) (action.program L budget me path) w p w' →
      ∀ path', ¬ Loads L path' (w.tree.file target) → w'.tree.file target = w.tree.file target
  /-- One that succeeded has set the version and shows what was edited. -/
  edited : ∀ (budget : ℕ) (me : Process) (path : Path) (action : Action) (edits : EditBatch),
    action.edits = some edits → ∀ w : World, resolveTarget w.tree me.current path = .ok target →
    ∀ r w', Reaches (faulty me) (action.program L budget me path) w (.ret r) w' → r.status = .success →
      Edited L edits (w'.tree.file target)

theorem editing_keeps_loadable {L : Library} (hL : L.Permissive) (hC : L.Conforms kMaximumDocumentBytes)
    (hV : PrintsVersion L) (target : List Name) : KeepsLoadable L target where
  run := fun w w' hrun path path' h => loads_elsewhere hL hC path' (hrun.loads hL hC h)
  alone := by
    intro budget me path action edits ha w hT p w' hr path' hno
    rcases edits_keep hL hC ha hT hr with h | h
    · exact h
    · exact absurd (h path').1 hno
  edited := by
    intro budget me path action edits ha w hT r w' hr hs
    rcases (edits_faulty hL hC ha budget).returned hr with ⟨hf,-⟩ | ⟨document,r',rfl,hout⟩
    · exact absurd hs hf.status.1
    · obtain ⟨target',current,next,hup⟩ := hout.updated (.inl hs)
      cases hT.symm.trans hup.before.1
      exact edited_of_updated hL hC hV hup

theorem editing_keeps_loadable_reference : KeepsLoadable Reference.library [bytes "home",bytes "appearance.toml"] :=
  editing_keeps_loadable Reference.permissive (Reference.conforms _)
    (by unfold PrintsVersion; decide +kernel) _

end AppearanceStore
end HolonightConfig
