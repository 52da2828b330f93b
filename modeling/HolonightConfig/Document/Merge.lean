import HolonightConfig.Document.Planning
import HolonightConfig.Toml.Reference

/-! The three-way merge: which edits conflict, that a patch can be repeated, and what the
result of one is made of. -/
namespace HolonightConfig
open Text Toml Posix

/-- Equality of TOML values, where nan is one value. -/
def Value.sameToml : Option Value → Option Value → Bool
  | some (.floating a),some (.floating b) => a.eq b || (a.isNaN && b.isNaN)
  | a,b => Value.same a b

namespace Document
variable (L : Library) (current : DocumentSnapshot)

/-- A value as the document writes it: the literal of an aggregate is read and printed. -/
def canonical : Value → Value
  | .aggregate toml =>
    (((parseDocument L (bytes "value = " ++ toml) .none).value.bind (·.value valueKey)).getD (.aggregate toml))
  | v => v

/-- What is on disk differs, as a TOML value, from the baseline and from the pending value. -/
def realConflict (edit : Edit) : Bool :=
  !Value.sameToml (current.value edit.key) edit.pending &&
    !Value.sameToml (current.value edit.key) (edit.baseline.map (canonical L))

def isNaN : Option Value → Bool
  | some (.floating d) => d.isNaN
  | _ => false

/-- The baseline is an aggregate in another spelling than the document's. -/
def respelled (edit : Edit) : Bool :=
  Value.sameToml (current.value edit.key) (edit.baseline.map (canonical L)) &&
    !Value.sameToml (current.value edit.key) edit.baseline

/-- The edit is about nan, or starts from an aggregate in another spelling, and asks for
something else than what is on disk. -/
def misjudged (edit : Edit) : Bool :=
  (isNaN (current.value edit.key) && (isNaN edit.pending || isNaN edit.baseline)) ||
    (respelled L current edit && !Value.sameToml (current.value edit.key) edit.pending)

/-- The merge finds exactly the conflicts there are, and leaves alone what is on disk. -/
structure MergesExactly (edits : EditBatch) (schema : DocumentSchema) (batch : EditBatch) : Prop where
  status : (patchDocument L current edits schema).status = .conflict ↔
    ∃ edit ∈ batch, realConflict L current edit = true
  conflicts : (patchDocument L current edits schema).conflicts =
    (batch.filter (realConflict L current)).map (conflictOf current)
  converged : ∀ edit ∈ batch, Value.sameToml (current.value edit.key) edit.pending = true → ∀ plan,
    (planEdit L current edit plan).2.replacements = plan.replacements ∧
      (planEdit L current edit plan).2.insertions = plan.insertions

theorem Value.sameToml_eq (a b : Option Value) :
    Value.sameToml a b = (Value.same a b || (isNaN a && isNaN b)) := by
  cases a with
  | none => cases b <;> rfl
  | some v =>
    cases b with
    | none => cases v <;> simp [Value.sameToml,Value.same,isNaN]
    | some w => cases v <;> cases w <;> simp [Value.sameToml,Value.same,Value.eq,isNaN]

theorem Value.same_of_nan {a : Option Value} (h : isNaN a = true) (b : Option Value) :
    Value.same a b = false := by
  cases a with
  | none => cases h
  | some v =>
    cases v with
    | floating d =>
      cases b with
      | none => rfl
      | some w => cases w <;> simp_all [Value.same,Value.eq,isNaN,Binary64.eq]
    | _ => cases h

theorem isNaN_canonical {b : Option Value} (h : isNaN b = true) : b.map (canonical L) = b := by
  cases b with
  | none => rfl
  | some v =>
    cases v with
    | floating d => rfl
    | _ => cases h

/-- The printed form of an aggregate on disk reads back. -/
def Printed : Prop := ∀ key toml, current.value key = some (.aggregate toml) →
  canonical L (.aggregate toml) = .aggregate toml

/-- A baseline that is literally on disk is so as a TOML value. -/
theorem sameToml_canonical (hP : Printed L current) {key : KeyPath} {b : Option Value}
    (h : Value.same (current.value key) b = true) :
    Value.sameToml (current.value key) (b.map (canonical L)) = true := by
  have hs : Value.sameToml (current.value key) b = true := by
    rw [Value.sameToml_eq,h]
    rfl
  cases b with
  | none => exact hs
  | some v =>
    cases v with
    | aggregate toml =>
      have hd : current.value key = some (.aggregate toml) := by
        cases hv : current.value key with
        | none => rw [hv] at h; cases h
        | some w => rw [hv] at h; cases w <;> simp_all [Value.same,Value.eq]
      rw [Option.map_some,hP key toml hd]
      exact hs
    | _ => exact hs

/-- An edit conflicts without need exactly where it is misjudged. -/
theorem conflicting_iff (hP : Printed L current) (edit : Edit) :
    conflicting current edit = (realConflict L current edit || misjudged L current edit) ∧
    (realConflict L current edit && misjudged L current edit) = false := by
  have hlit : Value.same (current.value edit.key) edit.baseline = true →
      Value.sameToml (current.value edit.key) (edit.baseline.map (canonical L)) = true :=
    sameToml_canonical L current hP
  unfold conflicting realConflict misjudged respelled
  cases hn : isNaN (current.value edit.key) with
  | true =>
    have h₁ := Value.same_of_nan hn edit.pending
    have h₂ := Value.same_of_nan hn edit.baseline
    have h₃ := Value.same_of_nan hn (edit.baseline.map (canonical L))
    have h₄ : isNaN edit.baseline = true → isNaN (edit.baseline.map (canonical L)) = true := by
      intro hb
      rwa [isNaN_canonical L hb]
    simp only [Value.sameToml_eq,hn,h₁,h₂,h₃,Bool.false_or,Bool.true_and]
    revert h₄
    cases isNaN edit.pending <;> cases isNaN edit.baseline <;>
      cases isNaN (edit.baseline.map (canonical L)) <;> simp
  | false =>
    simp only [Value.sameToml_eq,hn,Bool.false_and,Bool.or_false,Bool.false_or] at hlit ⊢
    revert hlit
    cases Value.same (current.value edit.key) edit.pending <;>
      cases Value.same (current.value edit.key) edit.baseline <;>
        cases Value.same (current.value edit.key) (edit.baseline.map (canonical L)) <;> simp

/-- Edits that can be made get to the end of the plan. -/
theorem stopsIn_assigned {batch : EditBatch} (hne : ∀ edit ∈ batch, edit.key ≠ []) (hd : (batch.map Edit.key).Nodup)
    (he : ∀ edit ∈ batch, ∀ entry, current.entry edit.key = some entry → entry.assignment.isSome = true) :
    stopsIn current [] batch = false := by
  refine stopsIn_eq_false current (fun edit hm => ⟨hne edit hm,by simp⟩) hd (fun edit hm => ?_)
  unfold unsafeEdit
  cases hentry : current.entry edit.key with
  | none => simp
  | some entry => simp [Option.isNone_eq_false_iff.mpr (he edit hm entry hentry)]

/-- The conflicts are those of the batch, and the status is theirs. -/
theorem patchDocument_conflicts {edits batch : EditBatch} {schema : DocumentSchema}
    (hv : hasErrors (validateDocument L current schema) = false)
    (hn : (normalizeEdits L edits current.path).value = some batch) (hs : stopsIn current [] batch = false) :
    ((patchDocument L current edits schema).status = .conflict ↔ batch.filter (conflicting current) ≠ []) ∧
    (patchDocument L current edits schema).conflicts = (batch.filter (conflicting current)).map (conflictOf current) := by
  have hcases := patchDocument_cases L current edits schema
  generalize patchDocument L current edits schema = r at hcases
  cases hcases with
  | invalid h => rw [hv] at h; cases h
  | literal _ h => rw [hn] at h; cases h
  | stopped _ b h hs' =>
    cases hn.symm.trans h
    rw [hs] at hs'
    cases hs'
  | conflict _ b h _ hc =>
    cases hn.symm.trans h
    exact ⟨⟨fun _ => hc,fun _ => rfl⟩,rfl⟩
  | unapplied _ b h _ hc =>
    cases hn.symm.trans h
    rw [hc]
    exact ⟨by simp,rfl⟩
  | rejected _ b h _ hc =>
    cases hn.symm.trans h
    rw [hc]
    exact ⟨by simp,rfl⟩
  | success _ b h _ hc =>
    cases hn.symm.trans h
    rw [hc]
    exact ⟨by simp,rfl⟩

/-- As many conflicts as there really are, are these. -/
theorem filter_conflicting (hP : Printed L current) {batch : EditBatch}
    (h : (batch.filter (realConflict L current)).map (conflictOf current) =
      (batch.filter (conflicting current)).map (conflictOf current)) :
    batch.filter (conflicting current) = batch.filter (realConflict L current) := by
  have hsub : batch.filter (realConflict L current) =
      (batch.filter (conflicting current)).filter (realConflict L current) := by
    rw [List.filter_filter]
    refine List.filter_congr (fun e _ => ?_)
    rw [(conflicting_iff L current hP e).1]
    cases realConflict L current e <;> simp
  have hl := congrArg List.length h
  rw [List.length_map,List.length_map] at hl
  rw [hsub]
  refine (List.filter_eq_self.mpr (fun e hmem => ?_)).symm
  exact List.length_filter_eq_length_iff.mp ((congrArg List.length hsub).symm.trans hl) e hmem

/-- What is misjudged conflicts without need. -/
theorem misjudged_of_filter (hP : Printed L current) {batch : EditBatch} {edit : Edit} (hm : edit ∈ batch)
    (h : batch.filter (conflicting current) = batch.filter (realConflict L current)) :
    misjudged L current edit = false := by
  have hjudged := conflicting_iff L current hP edit
  cases hmis : misjudged L current edit with
  | false => rfl
  | true =>
    rw [hmis,Bool.or_true,Bool.and_true] at hjudged
    have hin : edit ∈ batch.filter (realConflict L current) := by
      rw [← h]
      exact List.mem_filter.mpr ⟨hm,hjudged.1⟩
    rw [(List.mem_filter.mp hin).2] at hjudged
    cases hjudged.2

/-- A batch of distinct keys and editable entries on a valid document merges exactly if
and only if no edit of it is misjudged. -/
theorem patchDocument_mergesExactly_iff (hP : Printed L current) {edits batch : EditBatch}
    {schema : DocumentSchema} (hv : hasErrors (validateDocument L current schema) = false)
    (hn : (normalizeEdits L edits current.path).value = some batch)
    (hne : ∀ edit ∈ batch, edit.key ≠ []) (hd : (batch.map Edit.key).Nodup)
    (he : ∀ edit ∈ batch, ∀ entry, current.entry edit.key = some entry → entry.assignment.isSome = true) :
    MergesExactly L current edits schema batch ↔ ∀ edit ∈ batch, misjudged L current edit = false := by
  have hs := stopsIn_assigned current hne hd he
  obtain ⟨hstatus,hconflicts⟩ := patchDocument_conflicts L current hv hn hs
  constructor
  · intro hm edit hmem
    exact misjudged_of_filter L current hP hmem (filter_conflicting L current hP (hm.conflicts.symm.trans hconflicts))
  · intro hm
    have hfilter : batch.filter (conflicting current) = batch.filter (realConflict L current) := by
      refine List.filter_congr (fun e hmem => ?_)
      rw [(conflicting_iff L current hP e).1,hm e hmem,Bool.or_false]
    rw [hfilter] at hstatus hconflicts
    refine ⟨?_,hconflicts,?_⟩
    · rw [hstatus,Ne,List.filter_eq_nil_iff]
      simp
    · intro edit hmem hsame plan
      rw [Value.sameToml_eq,Bool.or_eq_true,Bool.and_eq_true] at hsame
      rcases hsame with h | ⟨h₁,h₂⟩
      · rw [planEdit_converged L current h]
        exact ⟨rfl,rfl⟩
      · have := hm edit hmem
        simp [misjudged,h₁,h₂] at this

/-- A text as the reference library reads it. -/
def referenceSnapshot (s : Bytes) : DocumentSnapshot :=
  ((parseDocument Reference.library s .none).value).getD (.missing .none)

def anyDocument : DocumentSchema := ⟨[],none⟩

def xKey : KeyPath := [bytes "x"]

def mergedSnapshot : DocumentSnapshot := referenceSnapshot (bytes "x = 1\ny = 2\nz = [1,2]\nv = [3]\n")

/-- One key is set, one conflicts, one is there already and one is set to another array. -/
def mergedEdits : EditBatch :=
  [⟨xKey,some (.integer 1),some (.integer 2)⟩,⟨[bytes "y"],some (.integer 5),some (.integer 3)⟩,
    ⟨[bytes "z"],none,some (.aggregate (bytes "[ 1, 2 ]"))⟩,
    ⟨[bytes "v"],mergedSnapshot.value [bytes "v"],some (.aggregate (bytes "[4]"))⟩]

def mergedBatch : EditBatch := (normalizeEdits Reference.library mergedEdits .none).value.getD []

example : (patchDocument Reference.library mergedSnapshot mergedEdits anyDocument).conflicts.map Conflict.key =
    [[bytes "y"]] := by
  decide +kernel

theorem patchDocument_mergesExactly_merged :
    MergesExactly Reference.library mergedSnapshot mergedEdits anyDocument mergedBatch ↔
      ∀ edit ∈ mergedBatch, misjudged Reference.library mergedSnapshot edit = false := by
  refine patchDocument_mergesExactly_iff _ _ ?_ (by decide +kernel) (by decide +kernel) (by decide +kernel)
    (by decide +kernel) ?_
  · intro key toml h
    obtain ⟨e,he,hv⟩ := Option.map_eq_some_iff.mp h
    have hall : ∀ o ∈ mergedSnapshot.overrides, canonical Reference.library o.2.value = o.2.value := by decide +kernel
    rw [← hv]
    exact hall (key,e) (DocumentSnapshot.entry_mem he)
  · intro edit hm entry he
    have hall : ∀ o ∈ mergedSnapshot.overrides, o.2.assignment.isSome = true := by decide +kernel
    exact hall (edit.key,entry) (DocumentSnapshot.entry_mem he)

/-- A nan that is on disk and was the baseline conflicts. -/
theorem patchDocument_conflicts_nan :
    ¬ MergesExactly Reference.library (referenceSnapshot (bytes "x = nan\n"))
      [⟨xKey,(referenceSnapshot (bytes "x = nan\n")).value xKey,some (.integer 1)⟩] anyDocument
      [⟨xKey,(referenceSnapshot (bytes "x = nan\n")).value xKey,some (.integer 1)⟩] := by
  intro h
  have hreal := h.status.mp (by decide +kernel)
  revert hreal
  decide +kernel

/-! ### Repeating a patch -/

theorem normalizeEdits_value (edits : EditBatch) (path : Path) :
    (normalizeEdits L edits path).value = edits.mapM (normalizeEdit L) := by
  unfold normalizeEdits
  cases edits.mapM (normalizeEdit L) <;> rfl

/-- Every edit is among the normalized ones, under its key. -/
theorem normalizeEdits_mem {edits batch : EditBatch} (h : edits.mapM (normalizeEdit L) = some batch) :
    ∀ edit ∈ edits, ∃ edit' ∈ batch, normalizeEdit L edit = some edit' := by
  induction edits generalizing batch with
  | nil => simp
  | cons edit edits ih =>
    rw [List.mapM_cons] at h
    obtain ⟨edit',he,h⟩ := Option.bind_eq_some_iff.mp h
    obtain ⟨batch',hb,h⟩ := Option.bind_eq_some_iff.mp h
    cases h
    rw [List.forall_mem_cons]
    refine ⟨⟨edit',by simp,he⟩,fun e hm => ?_⟩
    obtain ⟨e',hm',he'⟩ := ih hb e hm
    exact ⟨e',List.mem_cons_of_mem _ hm',he'⟩

/-- Every normalized edit is one of the batch. -/
theorem normalizeEdits_mem_of_mem {edits batch : EditBatch} (h : edits.mapM (normalizeEdit L) = some batch) :
    ∀ edit' ∈ batch, ∃ edit ∈ edits, normalizeEdit L edit = some edit' := by
  induction edits generalizing batch with
  | nil =>
    cases h
    simp
  | cons edit edits ih =>
    rw [List.mapM_cons] at h
    obtain ⟨edit',he,h⟩ := Option.bind_eq_some_iff.mp h
    obtain ⟨batch',hb,h⟩ := Option.bind_eq_some_iff.mp h
    cases h
    rw [List.forall_mem_cons]
    refine ⟨⟨edit,by simp,he⟩,fun e' hm' => ?_⟩
    obtain ⟨e,hm,he⟩ := ih hb e' hm'
    exact ⟨e,List.mem_cons_of_mem _ hm,he⟩

theorem normalizeEdit_key {edit edit' : Edit} (h : normalizeEdit L edit = some edit') :
    edit'.key = edit.key := by
  unfold normalizeEdit at h
  cases hp : edit.pending with
  | none =>
    rw [hp] at h
    cases h
    rfl
  | some pending =>
    rw [hp] at h
    obtain ⟨v,-,rfl⟩ := Option.map_eq_some_iff.mp h
    rfl

/-- What a patch comes with: valid documents before and after, the latter with every value
that was asked for. -/
structure Patching (edits : EditBatch) (schema : DocumentSchema) (snapshot : DocumentSnapshot) : Prop where
  before : hasErrors (validateDocument L current schema) = false
  after : hasErrors (validateDocument L snapshot schema) = false
  parsed : ∃ candidate, (parseDocument L candidate current.path).value = some snapshot
  edited : ∀ edit ∈ edits, ∃ edit', normalizeEdit L edit = some edit' ∧
    Value.same (snapshot.value edit.key) edit'.pending = true

theorem patchDocument_patching {edits : EditBatch} {schema : DocumentSchema} {snapshot : DocumentSnapshot}
    (h : (patchDocument L current edits schema).snapshot = some snapshot) :
    Patching L current edits schema snapshot := by
  have hcases := patchDocument_cases L current edits schema
  generalize patchDocument L current edits schema = r at h hcases
  cases hcases with
  | success hv batch hn hs hc plan hp snapshot' ha hv' =>
    cases h
    obtain ⟨candidate,-,hparse,hall⟩ := applyReplacements_some L current ha
    refine ⟨hv,hv',⟨candidate,hparse⟩,fun edit he => ?_⟩
    rw [normalizeEdits_value] at hn
    obtain ⟨edit',hm,he'⟩ := normalizeEdits_mem L hn edit he
    refine ⟨edit',he',?_⟩
    rw [← normalizeEdit_key L he']
    exact hall edit' hm
  | _ => cases h

theorem stopsIn_of_converged {snapshot : DocumentSnapshot} {keys : List KeyPath} {batch : EditBatch}
    (hs : stopsIn current keys batch = false)
    (h : ∀ edit ∈ batch, Value.same (snapshot.value edit.key) edit.pending = true) :
    stopsIn snapshot keys batch = false := by
  induction batch generalizing keys with
  | nil => rfl
  | cons edit batch ih =>
    rw [List.forall_mem_cons] at h
    rw [stopsIn,stops,Bool.or_eq_false_iff,Bool.or_eq_false_iff] at hs ⊢
    exact ⟨⟨hs.1.1,by simp [unsafeEdit,h.1]⟩,ih hs.2 h.2⟩

/-- A document that is what the edits ask for stays as it is. -/
theorem patchDocument_converged {s : Bytes} {path : Path} {snapshot : DocumentSnapshot}
    (hparse : (parseDocument L s path).value = some snapshot) {edits batch : EditBatch}
    {schema : DocumentSchema} (hv : hasErrors (validateDocument L snapshot schema) = false)
    (hn : (normalizeEdits L edits snapshot.path).value = some batch)
    (hs : stopsIn snapshot [] batch = false)
    (hall : ∀ edit ∈ batch, Value.same (snapshot.value edit.key) edit.pending = true) :
    patchDocument L snapshot edits schema =
      { status := .success, snapshot := some snapshot, diagnostics := validateDocument L snapshot schema } := by
  obtain ⟨hpath,hrev⟩ := parseDocument_some L hparse
  have happly : applyReplacements L snapshot [] batch = parseDocument L s path := by
    have hb : snapshot.revision.bytes = s := by rw [hrev]
    unfold applyReplacements coalesceInsertions
    simp only [List.length_nil,coalesce,List.insertionSort_nil,substitute,hb,hpath,hparse]
    rw [if_pos (by simpa using hall)]
  unfold patchDocument
  simp only [hv,Bool.false_eq_true,if_false,hn,planEdits_converged L snapshot hall hs,planInsertions,
    List.map_nil,List.append_nil,happly,hparse,Bool.not_true,ne_eq,not_true_eq_false]

/-- A patch that succeeded succeeds again on its own result, and changes nothing. -/
theorem patchDocument_again {edits : EditBatch} {schema : DocumentSchema} {snapshot : DocumentSnapshot}
    (h : (patchDocument L current edits schema).snapshot = some snapshot) :
    (patchDocument L current edits schema).status = .success ∧
    patchDocument L snapshot edits schema =
      { status := .success, snapshot := some snapshot, diagnostics := validateDocument L snapshot schema } := by
  have hcases := patchDocument_cases L current edits schema
  generalize patchDocument L current edits schema = r at h hcases
  cases hcases with
  | success hv batch hn hs hc plan hp snapshot' ha hv' =>
    cases h
    obtain ⟨candidate,-,hparse,hall⟩ := applyReplacements_some L current ha
    have hn' : (normalizeEdits L edits snapshot.path).value = some batch := by
      rw [normalizeEdits_value] at hn ⊢
      exact hn
    exact ⟨rfl,patchDocument_converged L hparse hv' hn' (stopsIn_of_converged current hs hall) hall⟩
  | _ => cases h

/-! ### Well-formed results -/

/-- A snapshot comes with a document that is in place, conflicts with that status alone,
and errors with every other failure. -/
structure SaveResult.WellFormed (r : SaveResult) : Prop where
  snapshot : r.snapshot.isSome = true ↔ r.status = .success ∨ r.status = .durabilityFailure
  conflicts : r.conflicts ≠ [] ↔ r.status = .conflict
  diagnostics : hasErrors r.diagnostics = true ↔ r.status ≠ .success ∧ r.status ≠ .conflict

/-- A conflict was found before the edit at which planning stopped. -/
def LeavesConflicts (edits : EditBatch) (schema : DocumentSchema) : Prop :=
  hasErrors (validateDocument L current schema) = false ∧
    ∃ batch, (normalizeEdits L edits current.path).value = some batch ∧
      conflictBeforeStop current [] batch = true

theorem stopsIn_of_conflictBeforeStop {keys : List KeyPath} {batch : EditBatch}
    (h : conflictBeforeStop current keys batch = true) : stopsIn current keys batch = true := by
  induction batch generalizing keys with
  | nil => cases h
  | cons edit batch ih =>
    rw [conflictBeforeStop,Bool.and_eq_true] at h
    rw [stopsIn,Bool.or_eq_true]
    right
    cases hc : conflicting current edit with
    | true => simpa [hc] using h.2
    | false => exact ih (by simpa [hc] using h.2)

/-- The result of a patch is well formed unless conflicts are left over from planning that
stopped. -/
theorem patchDocument_wellFormed_iff (edits : EditBatch) (schema : DocumentSchema) :
    SaveResult.WellFormed (patchDocument L current edits schema) ↔ ¬ LeavesConflicts L current edits schema := by
  unfold LeavesConflicts
  have hnone : ∀ {batch}, (normalizeEdits L edits current.path).value = some batch →
      stopsIn current [] batch = false → ¬ (hasErrors (validateDocument L current schema) = false ∧
        ∃ batch, (normalizeEdits L edits current.path).value = some batch ∧
          conflictBeforeStop current [] batch = true) := by
    rintro batch hn hs ⟨-,b,hb,hc⟩
    cases hn.symm.trans hb
    rw [stopsIn_of_conflictBeforeStop current hc] at hs
    cases hs
  have hcases := patchDocument_cases L current edits schema
  generalize patchDocument L current edits schema = r at hcases
  cases hcases with
  | invalid h =>
    refine ⟨fun _ => ?_,fun _ => ⟨by simp,by simp,by simp [h]⟩⟩
    rintro ⟨h',-⟩
    rw [h] at h'
    cases h'
  | literal _ hn =>
    have hd : hasErrors (normalizeEdits L edits current.path).diagnostics = true := by
      rw [normalizeEdits_value] at hn
      rw [normalizeEdits,hn]
      rfl
    refine ⟨fun _ => ?_,fun _ => ⟨by simp,by simp,by simp [hd]⟩⟩
    rintro ⟨-,b,hb,-⟩
    rw [hn] at hb
    cases hb
  | stopped h batch hn hs plan hp =>
    have hc := planEdits_conflicts_stopped L current hs { diagnostics := validateDocument L current schema }
    have hd := (planEdits_diagnostics L current [] batch
      { diagnostics := validateDocument L current schema }).2 hs
    rw [← hp] at hc hd
    simp only [ne_eq,not_true_eq_false,false_or] at hc
    constructor
    · rintro hw ⟨-,b,hb,hbefore⟩
      cases hn.symm.trans hb
      have := hw.conflicts.mp (hc.mpr hbefore)
      cases this
    · intro hno
      refine ⟨by simp,?_,by simp [hd]⟩
      simp only [hc,reduceCtorEq,iff_false]
      exact fun hbefore => hno ⟨h,batch,hn,hbefore⟩
  | conflict h batch hn hs hc =>
    exact ⟨fun _ => hnone hn hs,fun _ => ⟨by simp,by simpa using hc,by simp [h]⟩⟩
  | unapplied h batch hn hs hc ds hd =>
    exact ⟨fun _ => hnone hn hs,fun _ => ⟨by simp,by simp,by simp [hd]⟩⟩
  | rejected h batch hn hs hc snapshot hv =>
    exact ⟨fun _ => hnone hn hs,fun _ => ⟨by simp,by simp,by simp [hv]⟩⟩
  | success h batch hn hs hc plan hp snapshot ha hv =>
    exact ⟨fun _ => hnone hn hs,fun _ => ⟨by simp,by simp,by simp [hv]⟩⟩

end Document
end HolonightConfig
