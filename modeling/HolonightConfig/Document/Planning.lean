import HolonightConfig.Document

/-! What planning does with a batch: which edits stop it, which conflict, and what a
patch that succeeds has passed. -/
namespace HolonightConfig
open Text Toml Posix

theorem Value.same_integer {o : Option Value} {n : ℤ} (h : Value.same o (some (.integer n)) = true) :
    o = some (.integer n) := by
  cases o with
  | none => cases h
  | some v => cases v <;> simp_all [Value.same,Value.eq]

theorem Value.same_refl_or (a : Option Value) :
    Value.same a a = true ∨ ∃ d : Binary64, a = some (.floating d) ∧ d.isNaN = true := by
  cases a with
  | none => exact .inl rfl
  | some v =>
    cases v with
    | floating d =>
      cases hd : d.isNaN with
      | true => exact .inr ⟨d,rfl,hd⟩
      | false => exact .inl (by simp [same,eq,Binary64.eq,hd])
    | _ => exact .inl (by simp [same,eq])

theorem DocumentSnapshot.entry_mem {snapshot : DocumentSnapshot} {key : KeyPath} {e : DocumentEntry}
    (h : snapshot.entry key = some e) : (key,e) ∈ snapshot.overrides := by
  obtain ⟨l₁,l₂,hl,-⟩ := List.lookup_eq_some_iff.mp h
  rw [hl]
  simp

namespace Document
variable (L : Library) (current : DocumentSnapshot)

/-- Neither what the edit started from nor what it wants is on disk. -/
def conflicting (edit : Edit) : Bool :=
  !Value.same (current.value edit.key) edit.pending && !Value.same (current.value edit.key) edit.baseline

def conflictOf (edit : Edit) : Conflict := ⟨edit.key,edit.baseline,current.value edit.key,edit.pending⟩

/-- The edit would change an entry that has no assignment of its own. -/
def unsafeEdit (edit : Edit) : Bool :=
  !Value.same (current.value edit.key) edit.pending && Value.same (current.value edit.key) edit.baseline &&
    (current.entry edit.key).any (fun e => e.assignment.isNone)

/-- Planning stops at an edit of no key, of a key seen before, or of an unsafe entry. -/
def stops (keys : List KeyPath) (edit : Edit) : Bool :=
  decide (edit.key = [] ∨ edit.key ∈ keys) || unsafeEdit current edit

def stopsIn : List KeyPath → EditBatch → Bool
  | _,[] => false
  | keys,edit :: batch => stops current keys edit || stopsIn (keys ++ [edit.key]) batch

/-- Some edit conflicts, and a later one is the first at which planning stops. -/
def conflictBeforeStop : List KeyPath → EditBatch → Bool
  | _,[] => false
  | keys,edit :: batch =>
    !stops current keys edit &&
      if conflicting current edit then stopsIn current (keys ++ [edit.key]) batch
      else conflictBeforeStop (keys ++ [edit.key]) batch

/-! ### One edit -/

/-- The line that sets a key in its table. -/
def insertionText (key : KeyPath) (pending : Value) : Bytes :=
  keyText L [key.getLast?.getD []] ++ bytes " = " ++ encode L pending ++ newlineOf current.revision.bytes

def replacementOf (selected : DocumentEntry) (whole : SourceSpan) (pending : Option Value) : Replacement :=
  match pending with
  | some pending => ⟨selected.source,encode L pending⟩
  | none => ⟨whole,retainedComments (slice current.revision.bytes selected.source.begin selected.source.stop)⟩

/-- What one edit does: it is on disk already, conflicts, resets what is absent, inserts,
stops the planning, or replaces. -/
theorem planEdit_cases (edit : Edit) (plan : Plan) :
    (Value.same (current.value edit.key) edit.pending = true ∧ planEdit L current edit plan = (true,plan)) ∨
    Value.same (current.value edit.key) edit.pending = false ∧
      ((Value.same (current.value edit.key) edit.baseline = false ∧ planEdit L current edit plan =
        (true,{ plan with conflicts := plan.conflicts ++ [conflictOf current edit] })) ∨
      Value.same (current.value edit.key) edit.baseline = true ∧
        ((current.entry edit.key = none ∧ edit.pending = none ∧ planEdit L current edit plan = (true,plan)) ∨
        (∃ pending, current.entry edit.key = none ∧ edit.pending = some pending ∧
          planEdit L current edit plan = (true,{ plan with
            insertions := addInsertion edit.key.dropLast (insertionText L current edit.key pending)
              plan.insertions })) ∨
        (∃ selected, current.entry edit.key = some selected ∧ selected.assignment = none ∧
          planEdit L current edit plan = (false,{ plan with
            diagnostics := plan.diagnostics ++ [error (bytes "value has no safely editable assignment: " ++ keyText L edit.key) current.path] })) ∨
        (∃ selected whole, current.entry edit.key = some selected ∧ selected.assignment = some whole ∧
          planEdit L current edit plan = (true,{ plan with
            replacements := plan.replacements ++ [replacementOf L current selected whole edit.pending] })))) := by
  cases hp : Value.same (current.value edit.key) edit.pending with
  | true =>
    left
    refine ⟨rfl,?_⟩
    simp only [planEdit,hp,if_true]
  | false =>
    refine .inr ⟨rfl,?_⟩
    cases hb : Value.same (current.value edit.key) edit.baseline with
    | false =>
      left
      refine ⟨rfl,?_⟩
      simp only [planEdit,hp,hb,Bool.not_false,Bool.false_eq_true,if_false,if_true]
      rfl
    | true =>
      refine .inr ⟨rfl,?_⟩
      cases he : current.entry edit.key with
      | none =>
        cases hv : edit.pending with
        | none =>
          left
          rw [hv] at hp
          refine ⟨rfl,rfl,?_⟩
          simp only [planEdit,hv,hp,hb,he,Bool.not_true,Bool.false_eq_true,if_false]
        | some pending =>
          rw [hv] at hp
          refine .inr (.inl ⟨pending,rfl,rfl,?_⟩)
          simp only [planEdit,hv,hp,hb,he,Bool.not_true,Bool.false_eq_true,if_false]
          rfl
      | some selected =>
        cases ha : selected.assignment with
        | none =>
          refine .inr (.inr (.inl ⟨selected,rfl,ha,?_⟩))
          simp only [planEdit,hp,hb,he,ha,Bool.not_true,Bool.false_eq_true,if_false]
        | some whole =>
          refine .inr (.inr (.inr ⟨selected,whole,rfl,ha,?_⟩))
          simp only [planEdit,hp,hb,he,ha,Bool.not_true,Bool.false_eq_true,if_false]
          rfl

theorem planEdit_fst (edit : Edit) (plan : Plan) :
    (planEdit L current edit plan).1 = !unsafeEdit current edit := by
  unfold unsafeEdit
  rcases planEdit_cases L current edit plan with ⟨hp,he⟩ | ⟨hp,⟨hb,he⟩ | ⟨hb,⟨hn,-,he⟩ | ⟨v,hn,-,he⟩ |
    ⟨e,hn,ha,he⟩ | ⟨e,w,hn,ha,he⟩⟩⟩ <;> simp [*]

/-- An edit that is on disk already leaves the plan alone. -/
theorem planEdit_converged {edit : Edit} (h : Value.same (current.value edit.key) edit.pending = true)
    (plan : Plan) : planEdit L current edit plan = (true,plan) := by
  simp only [planEdit,h,if_true]

theorem planEdit_conflicts (edit : Edit) (plan : Plan) :
    (planEdit L current edit plan).2.conflicts =
      plan.conflicts ++ if conflicting current edit then [conflictOf current edit] else [] := by
  unfold conflicting
  rcases planEdit_cases L current edit plan with ⟨hp,he⟩ | ⟨hp,⟨hb,he⟩ | ⟨hb,⟨hn,-,he⟩ | ⟨v,hn,-,he⟩ |
    ⟨e,hn,ha,he⟩ | ⟨e,w,hn,ha,he⟩⟩⟩ <;> simp [*]

/-- Only an edit that stops planning adds a diagnostic, and it is an error. -/
theorem planEdit_diagnostics (edit : Edit) (plan : Plan) :
    (unsafeEdit current edit = false →
      (planEdit L current edit plan).2.diagnostics = plan.diagnostics) ∧
    (unsafeEdit current edit = true → hasErrors (planEdit L current edit plan).2.diagnostics = true) := by
  unfold unsafeEdit
  rcases planEdit_cases L current edit plan with ⟨hp,he⟩ | ⟨hp,⟨hb,he⟩ | ⟨hb,⟨hn,-,he⟩ | ⟨v,hn,-,he⟩ |
    ⟨e,hn,ha,he⟩ | ⟨e,w,hn,ha,he⟩⟩⟩ <;> simp [*,hasErrors,error]

/-! ### The batch -/

theorem planEdits_cons (keys : List KeyPath) (edit : Edit) (batch : EditBatch) (plan : Plan) :
    planEdits L current keys (edit :: batch) plan =
      if edit.key = [] ∨ edit.key ∈ keys then
        (false,{ plan with diagnostics := plan.diagnostics ++
          [error (bytes "empty or duplicate edit key") current.path] })
      else if unsafeEdit current edit then (false,(planEdit L current edit plan).2)
      else planEdits L current (keys ++ [edit.key]) batch (planEdit L current edit plan).2 := by
  rw [planEdits]
  split
  · rfl
  · have h := planEdit_fst L current edit plan
    cases hu : unsafeEdit current edit with
    | true =>
      rw [hu] at h
      rw [if_pos rfl]
      split
      · next plan' he => rw [he]
      · next plan' he => rw [he] at h; cases h
    | false =>
      rw [hu] at h
      rw [if_neg (by simp)]
      split
      · next plan' he => rw [he] at h; cases h
      · next plan' he => rw [he]

theorem planEdits_fst (keys : List KeyPath) (batch : EditBatch) (plan : Plan) :
    (planEdits L current keys batch plan).1 = !stopsIn current keys batch := by
  induction batch generalizing keys plan with
  | nil => rfl
  | cons edit batch ih =>
    rw [planEdits_cons,stopsIn,stops]
    by_cases hk : edit.key = [] ∨ edit.key ∈ keys
    · rw [if_pos hk]
      simp [hk]
    · rw [if_neg hk]
      cases hu : unsafeEdit current edit with
      | true => simp
      | false =>
        rw [if_neg (by simp),ih]
        simp [hk]

/-- What the conflicts are where planning goes through. -/
theorem planEdits_conflicts {keys : List KeyPath} {batch : EditBatch}
    (h : stopsIn current keys batch = false) (plan : Plan) :
    (planEdits L current keys batch plan).2.conflicts =
      plan.conflicts ++ (batch.filter (conflicting current)).map (conflictOf current) := by
  induction batch generalizing keys plan with
  | nil => simp [planEdits]
  | cons edit batch ih =>
    rw [stopsIn,Bool.or_eq_false_iff] at h
    obtain ⟨hs,hr⟩ := h
    simp only [stops,Bool.or_eq_false_iff,decide_eq_false_iff_not] at hs
    rw [planEdits_cons,if_neg hs.1,if_neg (by simp [hs.2]),ih hr,planEdit_conflicts]
    cases hc : conflicting current edit <;> simp [hc]

/-- Every conflict is one of an edit of the batch. -/
theorem planEdits_conflicts_mem {keys : List KeyPath} {batch : EditBatch} {plan : Plan} {c : Conflict}
    (h : c ∈ (planEdits L current keys batch plan).2.conflicts) :
    c ∈ plan.conflicts ∨ ∃ edit ∈ batch, conflicting current edit = true ∧ c = conflictOf current edit := by
  induction batch generalizing keys plan with
  | nil => exact .inl h
  | cons edit batch ih =>
    have hone : c ∈ (planEdit L current edit plan).2.conflicts → c ∈ plan.conflicts ∨
        ∃ e ∈ edit :: batch, conflicting current e = true ∧ c = conflictOf current e := by
      intro h
      rw [planEdit_conflicts,List.mem_append] at h
      refine h.imp id (fun h => ⟨edit,by simp,?_⟩)
      cases hc : conflicting current edit with
      | true => simpa [hc] using h
      | false => simp [hc] at h
    rw [planEdits_cons] at h
    split at h
    · exact .inl h
    · split at h
      · exact hone h
      · rcases ih h with h | ⟨e,hm,he⟩
        · exact hone h
        · exact .inr ⟨e,List.mem_cons_of_mem _ hm,he⟩

/-- Conflicts are left over exactly where one stands before the stop. -/
theorem planEdits_conflicts_stopped {keys : List KeyPath} {batch : EditBatch}
    (h : stopsIn current keys batch = true) (plan : Plan) :
    (planEdits L current keys batch plan).2.conflicts ≠ [] ↔
      plan.conflicts ≠ [] ∨ conflictBeforeStop current keys batch = true := by
  induction batch generalizing keys plan with
  | nil => cases h
  | cons edit batch ih =>
    rw [planEdits_cons,conflictBeforeStop]
    by_cases hk : edit.key = [] ∨ edit.key ∈ keys
    · have hs : stops current keys edit = true := by
        rw [stops]
        simp [hk]
      rw [if_pos hk,hs]
      simp
    · rw [if_neg hk]
      cases hu : unsafeEdit current edit with
      | true =>
        have hs : stops current keys edit = true := by
          rw [stops]
          simp [hu]
        have hc : conflicting current edit = false := by
          simp only [unsafeEdit,Bool.and_eq_true] at hu
          simp [conflicting,hu.1.2]
        rw [if_pos rfl,planEdit_conflicts,hs,hc]
        simp
      | false =>
        have hs : stops current keys edit = false := by
          rw [stops]
          simp [hk,hu]
        have hr : stopsIn current (keys ++ [edit.key]) batch = true := by
          rwa [stopsIn,hs,Bool.false_or] at h
        rw [if_neg (by simp),ih hr,planEdit_conflicts,hs]
        cases hc : conflicting current edit with
        | true => simp [hr]
        | false => simp

theorem planEdits_diagnostics (keys : List KeyPath) (batch : EditBatch) (plan : Plan) :
    (stopsIn current keys batch = false →
      (planEdits L current keys batch plan).2.diagnostics = plan.diagnostics) ∧
    (stopsIn current keys batch = true →
      hasErrors (planEdits L current keys batch plan).2.diagnostics = true) := by
  induction batch generalizing keys plan with
  | nil => exact ⟨fun _ => rfl,fun h => by cases h⟩
  | cons edit batch ih =>
    rw [planEdits_cons,stopsIn,stops]
    by_cases hk : edit.key = [] ∨ edit.key ∈ keys
    · rw [if_pos hk]
      simp [hk,hasErrors,error]
    · rw [if_neg hk]
      have hd := planEdit_diagnostics L current edit plan
      cases hu : unsafeEdit current edit with
      | true =>
        rw [if_pos rfl]
        simpa [hk] using hd.2 hu
      | false =>
        rw [if_neg (by simp)]
        have := ih (keys ++ [edit.key]) (planEdit L current edit plan).2
        rw [hd.1 hu] at this
        simpa [hk] using this

/-- A batch that is on disk already plans nothing. -/
theorem planEdits_converged {keys : List KeyPath} {batch : EditBatch}
    (h : ∀ edit ∈ batch, Value.same (current.value edit.key) edit.pending = true)
    (hs : stopsIn current keys batch = false) (plan : Plan) :
    planEdits L current keys batch plan = (true,plan) := by
  induction batch generalizing keys plan with
  | nil => rfl
  | cons edit batch ih =>
    rw [List.forall_mem_cons] at h
    rw [stopsIn,Bool.or_eq_false_iff] at hs
    obtain ⟨he,hr⟩ := hs
    simp only [stops,Bool.or_eq_false_iff,decide_eq_false_iff_not] at he
    rw [planEdits_cons,if_neg he.1,if_neg (by simp [he.2]),planEdit_converged L current h.1,
      ih h.2 hr]

/-- Distinct keys with editable entries never stop planning. -/
theorem stopsIn_eq_false {keys : List KeyPath} {batch : EditBatch}
    (hne : ∀ edit ∈ batch, edit.key ≠ [] ∧ edit.key ∉ keys) (hd : (batch.map Edit.key).Nodup)
    (hu : ∀ edit ∈ batch, unsafeEdit current edit = false) : stopsIn current keys batch = false := by
  induction batch generalizing keys with
  | nil => rfl
  | cons edit batch ih =>
    rw [List.forall_mem_cons] at hne hu
    rw [List.map_cons,List.nodup_cons] at hd
    rw [stopsIn,stops,Bool.or_eq_false_iff]
    refine ⟨by simp [hne.1.1,hne.1.2,hu.1],ih (fun e he => ?_) hd.2 hu.2⟩
    refine ⟨(hne.2 e he).1,?_⟩
    rw [List.mem_append,List.mem_singleton,not_or]
    exact ⟨(hne.2 e he).2,fun h => hd.1 (h ▸ List.mem_map_of_mem he)⟩

/-! ### The patch -/

theorem parseDocument_failure {s : Bytes} {path : Path} (h : (parseDocument L s path).value = none) :
    hasErrors (parseDocument L s path).diagnostics = true := by
  unfold parseDocument at h ⊢
  split
  · rfl
  · next hs =>
    rw [if_neg hs] at h
    cases hp : L.parse s with
    | ok table => rw [hp] at h; cases h
    | error e => rfl

/-- A parsed document has the path and the octets it was parsed from. -/
theorem parseDocument_some {s : Bytes} {path : Path} {snapshot : DocumentSnapshot}
    (h : (parseDocument L s path).value = some snapshot) :
    snapshot.path = path ∧ snapshot.revision = ⟨true,s⟩ := by
  unfold parseDocument at h
  split at h
  · cases h
  · split at h
    · cases h
      exact ⟨rfl,rfl⟩
    · cases h

theorem applyReplacements_none {rs : List Replacement} {batch : EditBatch}
    (h : (applyReplacements L current rs batch).value = none) :
    hasErrors (applyReplacements L current rs batch).diagnostics = true := by
  unfold applyReplacements at h ⊢
  dsimp only at h ⊢
  split
  · rfl
  · next candidate hc =>
    rw [hc] at h
    dsimp only at h
    split
    · next hp => exact parseDocument_failure L hp
    · next snapshot hp =>
      rw [hp] at h
      dsimp only at h
      split at h
      · rw [hp] at h
        cases h
      · next hn =>
        rw [if_neg hn]
        rfl

/-- A candidate that passes is its text parsed, and has what the batch asks for. -/
theorem applyReplacements_some {rs : List Replacement} {batch : EditBatch} {snapshot : DocumentSnapshot}
    (h : (applyReplacements L current rs batch).value = some snapshot) :
    ∃ candidate, substitute current.revision.bytes.length current.revision.bytes
        ((coalesceInsertions rs).insertionSort laterSpan) = some candidate ∧
      (parseDocument L candidate current.path).value = some snapshot ∧
      ∀ edit ∈ batch, Value.same (snapshot.value edit.key) edit.pending = true := by
  unfold applyReplacements at h
  dsimp only at h
  split at h
  · cases h
  · next candidate hc =>
    refine ⟨candidate,hc,?_⟩
    split at h
    · next hp =>
      rw [hp] at h
      cases h
    · next snapshot' hp =>
      split at h
      · next hall =>
        rw [hp] at h
        cases h
        exact ⟨hp,by simpa using hall⟩
      · cases h

/-- What a patch may come to. -/
inductive Patched (edits : EditBatch) (schema : DocumentSchema) : SaveResult → Prop
  | invalid (h : hasErrors (validateDocument L current schema) = true) :
    Patched edits schema { status := .invalid, diagnostics := validateDocument L current schema }
  | literal (h : hasErrors (validateDocument L current schema) = false)
      (hn : (normalizeEdits L edits current.path).value = none) :
    Patched edits schema
      { status := .unsupportedPatch, diagnostics := (normalizeEdits L edits current.path).diagnostics }
  | stopped (h : hasErrors (validateDocument L current schema) = false) (batch : EditBatch)
      (hn : (normalizeEdits L edits current.path).value = some batch)
      (hs : stopsIn current [] batch = true) (plan : Plan)
      (hp : plan = (planEdits L current [] batch { diagnostics := validateDocument L current schema }).2) :
    Patched edits schema
      { status := .unsupportedPatch, conflicts := plan.conflicts, diagnostics := plan.diagnostics }
  | conflict (h : hasErrors (validateDocument L current schema) = false) (batch : EditBatch)
      (hn : (normalizeEdits L edits current.path).value = some batch)
      (hs : stopsIn current [] batch = false) (hc : batch.filter (conflicting current) ≠ []) :
    Patched edits schema
      { status := .conflict, conflicts := (batch.filter (conflicting current)).map (conflictOf current),
        diagnostics := validateDocument L current schema }
  | unapplied (h : hasErrors (validateDocument L current schema) = false) (batch : EditBatch)
      (hn : (normalizeEdits L edits current.path).value = some batch)
      (hs : stopsIn current [] batch = false) (hc : batch.filter (conflicting current) = [])
      (diagnostics : List Diagnostic) (hd : hasErrors diagnostics = true) :
    Patched edits schema { status := .unsupportedPatch, diagnostics := diagnostics }
  | rejected (h : hasErrors (validateDocument L current schema) = false) (batch : EditBatch)
      (hn : (normalizeEdits L edits current.path).value = some batch)
      (hs : stopsIn current [] batch = false) (hc : batch.filter (conflicting current) = [])
      (snapshot : DocumentSnapshot) (hv : hasErrors (validateDocument L snapshot schema) = true) :
    Patched edits schema { status := .invalid, diagnostics := validateDocument L snapshot schema }
  | success (h : hasErrors (validateDocument L current schema) = false) (batch : EditBatch)
      (hn : (normalizeEdits L edits current.path).value = some batch)
      (hs : stopsIn current [] batch = false) (hc : batch.filter (conflicting current) = [])
      (plan : Plan)
      (hp : plan = (planEdits L current [] batch { diagnostics := validateDocument L current schema }).2)
      (snapshot : DocumentSnapshot)
      (ha : (applyReplacements L current (plan.replacements ++ planInsertions L current plan.insertions)
        batch).value = some snapshot)
      (hv : hasErrors (validateDocument L snapshot schema) = false) :
    Patched edits schema
      { status := .success, snapshot := some snapshot, diagnostics := validateDocument L snapshot schema }

theorem patchDocument_cases (edits : EditBatch) (schema : DocumentSchema) :
    Patched L current edits schema (patchDocument L current edits schema) := by
  unfold patchDocument
  dsimp only
  cases hv : hasErrors (validateDocument L current schema) with
  | true => exact .invalid hv
  | false =>
    rw [if_neg (by simp)]
    cases hn : (normalizeEdits L edits current.path).value with
    | none => exact .literal hv hn
    | some batch =>
      dsimp only
      rw [planEdits_fst]
      cases hs : stopsIn current [] batch with
      | true => exact .stopped hv batch hn hs _ rfl
      | false =>
        have hcs := planEdits_conflicts L current hs { diagnostics := validateDocument L current schema }
        have hds := (planEdits_diagnostics L current [] batch
          { diagnostics := validateDocument L current schema }).1 hs
        rw [List.nil_append] at hcs
        simp only [Bool.not_false,Bool.not_true,Bool.false_eq_true,if_false]
        by_cases hc : batch.filter (conflicting current) = []
        · rw [if_neg (by simp [hcs,hc])]
          split
          · next ha => exact .unapplied hv batch hn hs hc _ (applyReplacements_none L current ha)
          · next snapshot ha =>
            cases hv' : hasErrors (validateDocument L snapshot schema) with
            | true => exact .rejected hv batch hn hs hc snapshot hv'
            | false => exact .success hv batch hn hs hc _ rfl snapshot ha hv'
        · rw [if_pos (by simpa [hcs] using hc),hcs,hds]
          exact .conflict hv batch hn hs hc

theorem patchDocument_conflicts_mem {edits : EditBatch} {schema : DocumentSchema} {c : Conflict}
    (h : c ∈ (patchDocument L current edits schema).conflicts) :
    ∃ batch, (normalizeEdits L edits current.path).value = some batch ∧
      ∃ edit ∈ batch, conflicting current edit = true ∧ c = conflictOf current edit := by
  have hcases := patchDocument_cases L current edits schema
  generalize patchDocument L current edits schema = r at h hcases
  cases hcases with
  | stopped hv batch hn hs plan hp =>
    refine ⟨batch,hn,?_⟩
    rw [hp] at h
    exact (planEdits_conflicts_mem L current h).resolve_left (by simp)
  | conflict hv batch hn hs hc =>
    obtain ⟨edit,hm,rfl⟩ := List.mem_map.mp h
    obtain ⟨hm,hc⟩ := List.mem_filter.mp hm
    exact ⟨batch,hn,edit,hm,hc,rfl⟩
  | _ => cases h

end Document
end HolonightConfig
