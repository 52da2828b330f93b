import HolonightConfig.Document.Merge
import HolonightConfig.Document.Substitution

/-! What a patch leaves of the text: whatever is not the value of an edited key, or its
assignment, stays where it is among what is new. -/

/-- A revision of a text from a position on: elements are kept, or some are replaced as is
allowed there. -/
inductive Woven {α : Type} (P : ℕ → List α → List α → Prop) : ℕ → List α → List α → Prop
  | nil (i : ℕ) : Woven P i [] []
  | keep {i : ℕ} {a : α} {s s' : List α} (h : Woven P (i + 1) s s') : Woven P i (a :: s) (a :: s')
  | replace {i : ℕ} {old new s s' : List α} (hp : P i old new) (h : Woven P (i + old.length) s s') :
    Woven P i (old ++ s) (new ++ s')

namespace Woven
variable {α : Type} {P : ℕ → List α → List α → Prop} {i : ℕ} {s s' : List α}

theorem keeps (k : List α) (h : Woven P (i + k.length) s s') : Woven P i (k ++ s) (k ++ s') := by
  induction k generalizing i with
  | nil => exact h
  | cons a k ih =>
    refine .keep (ih ?_)
    rw [List.length_cons,Nat.add_comm k.length,← Nat.add_assoc] at h
    exact h

end Woven

namespace HolonightConfig
open Text Toml Posix

namespace Document

/-! ### Substituting -/

theorem slice_append_drop (s : Bytes) {begin stop : ℕ} (h : begin ≤ stop) :
    slice s begin stop ++ s.drop stop = s.drop begin := by
  have hstop : s.drop stop = (s.drop begin).drop (stop - begin) := by
    rw [List.drop_drop]
    congr 1
    omega
  rw [slice,hstop,List.take_append_drop]

theorem length_slice (s : Bytes) {begin stop : ℕ} (h : stop ≤ s.length) :
    (slice s begin stop).length = stop - begin := by
  rw [slice,List.length_take,List.length_drop]
  omega

/-- Substituting from the end keeps what is before the spans still to come. -/
theorem substitute_woven {P : ℕ → Bytes → Bytes → Prop} {s out : Bytes} {rs : List Replacement} {boundary : ℕ}
    {candidate : Bytes} (hb : boundary ≤ s.length) (htake : candidate.take boundary = s.take boundary)
    (hP : ∀ r ∈ rs, r.span.begin ≤ r.span.stop → P r.span.begin (slice s r.span.begin r.span.stop) r.text)
    (hw : Woven P boundary (s.drop boundary) (candidate.drop boundary))
    (h : substitute boundary candidate rs = some out) : Woven P 0 s out := by
  induction rs generalizing boundary candidate with
  | nil =>
    cases h
    have hlen : 0 + (s.take boundary).length = boundary := by
      rw [List.length_take]
      omega
    have hkept : Woven P 0 (s.take boundary ++ s.drop boundary) (s.take boundary ++ out.drop boundary) :=
      Woven.keeps _ (by rw [hlen]; exact hw)
    rwa [List.take_append_drop,← htake,List.take_append_drop] at hkept
  | cons r rs ih =>
    rw [substitute] at h
    split at h
    · cases h
    · next hspan =>
      rw [not_or,Nat.not_lt,Nat.not_lt] at hspan
      obtain ⟨hstop,hbegin⟩ := hspan
      rw [List.forall_mem_cons] at hP
      have hlen : boundary ≤ candidate.length := by
        have hl := congrArg List.length htake
        rw [List.length_take,List.length_take] at hl
        omega
      have hbelow : candidate.take r.span.begin = s.take r.span.begin := by
        have ht := congrArg (List.take r.span.begin) htake
        rwa [List.take_take,List.take_take,Nat.min_eq_left (by omega)] at ht
      have hbeginlen : (candidate.take r.span.begin).length = r.span.begin := by
        rw [List.length_take]
        omega
      -- Between the span and what has been substituted nothing has changed.
      have hmiddle : Woven P r.span.stop (s.drop r.span.stop) (candidate.drop r.span.stop) := by
        have hs := slice_append_drop s hstop
        have hc := slice_append_drop candidate hstop
        have he : slice candidate r.span.stop boundary = slice s r.span.stop boundary := by
          rw [slice,slice,← List.drop_take,← List.drop_take,htake]
        rw [← hs,← hc,he]
        refine Woven.keeps _ ?_
        rw [length_slice s hb,Nat.add_sub_cancel' hstop]
        exact hw
      refine ih (by omega) ?_ hP.2 ?_ h
      · rw [List.append_assoc,List.take_append_of_le_length (by omega),List.take_of_length_le (by omega)]
        exact hbelow
      · rw [List.append_assoc,List.drop_left' hbeginlen,← slice_append_drop s hbegin]
        refine .replace (hP.1 hbegin) ?_
        rw [length_slice s (by omega),Nat.add_sub_cancel' hbegin]
        exact hmiddle

/-- Gathering insertions makes no other replacement of what is there. -/
theorem mem_coalesce {fuel : ℕ} {rs : List Replacement} {r : Replacement} (hr : r ∈ coalesce fuel rs)
    (hne : r.span.begin ≠ r.span.stop) : r ∈ rs := by
  induction fuel generalizing rs with
  | zero => exact hr
  | succ fuel ih =>
    cases rs with
    | nil => exact hr
    | cons r' rs =>
      rw [coalesce] at hr
      split at hr
      · rcases List.mem_cons.mp hr with rfl | hr
        · exact List.mem_cons_self
        · exact List.mem_cons_of_mem _ (ih hr)
      · next he =>
        rcases List.mem_cons.mp hr with rfl | hr
        · exact absurd (not_not.mp he) hne
        · exact List.mem_cons_of_mem _ (List.mem_filter.mp (ih hr)).1

/-! ### Patches -/

section
variable (L : Library) (current : DocumentSnapshot)

/-- What a patch puts in place of a part of the text: text where nothing was, the new value of
an edited key for its value, or the comments of a value for the assignment of a key that is
reset. -/
inductive Rewritten (batch : EditBatch) : ℕ → Bytes → Bytes → Prop
  | inserted (i : ℕ) (new : Bytes) : Rewritten batch i [] new
  | value {edit : Edit} {selected : DocumentEntry} {v : Value} (he : edit ∈ batch)
    (hs : current.entry edit.key = some selected) (hv : edit.pending = some v)
    (hd : Value.same (current.value edit.key) edit.pending = false) :
    Rewritten batch selected.source.begin
      (slice current.revision.bytes selected.source.begin selected.source.stop) (encode L v)
  | reset {edit : Edit} {selected : DocumentEntry} {whole : SourceSpan} (he : edit ∈ batch)
    (hs : current.entry edit.key = some selected) (ha : selected.assignment = some whole)
    (hv : edit.pending = none) :
    Rewritten batch whole.begin (slice current.revision.bytes whole.begin whole.stop)
      (retainedComments (slice current.revision.bytes selected.source.begin selected.source.stop))

variable {L current}

/-- A planned replacement of an edit. -/
theorem rewritten_replacementOf {batch : EditBatch} {edit : Edit} {selected : DocumentEntry} {whole : SourceSpan}
    (he : edit ∈ batch) (hs : current.entry edit.key = some selected) (ha : selected.assignment = some whole)
    (hd : Value.same (current.value edit.key) edit.pending = false) :
    let r := replacementOf L current selected whole edit.pending
    Rewritten L current batch r.span.begin (slice current.revision.bytes r.span.begin r.span.stop) r.text := by
  unfold replacementOf
  cases hv : edit.pending with
  | some v => exact .value he hs hv hd
  | none => exact .reset he hs ha hv

/-- Every planned replacement is one of an edit of the batch. -/
theorem planEdits_rewritten {keys : List KeyPath} {batch batch' : EditBatch} (hb : batch ⊆ batch') {plan : Plan}
    (hplan : ∀ r ∈ plan.replacements, Rewritten L current batch' r.span.begin
      (slice current.revision.bytes r.span.begin r.span.stop) r.text) :
    ∀ r ∈ (planEdits L current keys batch plan).2.replacements, Rewritten L current batch' r.span.begin
      (slice current.revision.bytes r.span.begin r.span.stop) r.text := by
  induction batch generalizing keys plan with
  | nil => exact hplan
  | cons edit batch ih =>
    rw [List.cons_subset] at hb
    have hedit : ∀ r ∈ (planEdit L current edit plan).2.replacements, Rewritten L current batch' r.span.begin
        (slice current.revision.bytes r.span.begin r.span.stop) r.text := by
      rcases planEdit_cases L current edit plan with ⟨-,he⟩ | ⟨hd,⟨-,he⟩ | ⟨-,⟨-,-,he⟩ | ⟨v,-,-,he⟩ |
        ⟨e,-,-,he⟩ | ⟨selected,whole,hs,ha,he⟩⟩⟩
      case inr.inr.inr.inr.inr =>
        rw [he]
        intro r hr
        rcases List.mem_append.mp hr with hr | hr
        · exact hplan r hr
        · rw [List.mem_singleton] at hr
          rw [hr]
          exact rewritten_replacementOf hb.1 hs ha hd
      all_goals
        rw [he]
        exact hplan
    rw [planEdits_cons]
    split
    · exact hplan
    · split
      · exact hedit
      · exact ih hb.2 hedit

theorem planEdit_grows (edit : Edit) (plan : Plan) : plan.replacements ⊆ (planEdit L current edit plan).2.replacements := by
  rcases planEdit_cases L current edit plan with ⟨-,he⟩ | ⟨-,⟨-,he⟩ | ⟨-,⟨-,-,he⟩ | ⟨v,-,-,he⟩ |
    ⟨e,-,-,he⟩ | ⟨selected,whole,-,-,he⟩⟩⟩
  case inr.inr.inr.inr.inr =>
    rw [he]
    exact List.subset_append_left _ _
  all_goals
    rw [he]
    exact List.Subset.refl _

theorem planEdits_grows {keys : List KeyPath} {batch : EditBatch} {plan : Plan} :
    plan.replacements ⊆ (planEdits L current keys batch plan).2.replacements := by
  induction batch generalizing keys plan with
  | nil => exact List.Subset.refl _
  | cons edit batch ih =>
    rw [planEdits_cons]
    split
    · exact List.Subset.refl _
    · split
      · exact planEdit_grows edit plan
      · exact List.Subset.trans (planEdit_grows edit plan) ih

/-- An edit of a value on disk that it changes is planned as a replacement. -/
theorem planEdit_replaces {edit : Edit} {plan : Plan} {selected : DocumentEntry}
    (hu : unsafeEdit current edit = false) (hc : conflicting current edit = false)
    (hs : current.entry edit.key = some selected) (hd : Value.same (current.value edit.key) edit.pending = false) :
    ∃ whole, selected.assignment = some whole ∧
      replacementOf L current selected whole edit.pending ∈ (planEdit L current edit plan).2.replacements := by
  rcases planEdit_cases L current edit plan with ⟨h,-⟩ | ⟨-,⟨hb,-⟩ | ⟨hb,⟨hn,-⟩ | ⟨v,hn,-⟩ |
    ⟨e,he,hn,-⟩ | ⟨selected',whole,hs',ha,he⟩⟩⟩
  · rw [hd] at h
    cases h
  · simp [conflicting,hd,hb] at hc
  · rw [hs] at hn
    cases hn
  · rw [hs] at hn
    cases hn
  · cases hs.symm.trans he
    simp [unsafeEdit,hd,hb,hs,hn] at hu
  · cases hs.symm.trans hs'
    refine ⟨whole,ha,?_⟩
    rw [he]
    exact List.mem_append_right _ (List.mem_singleton_self _)

theorem planEdits_replaces {keys : List KeyPath} {batch : EditBatch} (hstops : stopsIn current keys batch = false)
    (hc : batch.filter (conflicting current) = []) {plan : Plan} {edit : Edit} (hm : edit ∈ batch)
    {selected : DocumentEntry} (hs : current.entry edit.key = some selected)
    (hd : Value.same (current.value edit.key) edit.pending = false) :
    ∃ whole, selected.assignment = some whole ∧
      replacementOf L current selected whole edit.pending ∈ (planEdits L current keys batch plan).2.replacements := by
  induction batch generalizing keys plan with
  | nil => cases hm
  | cons edit' batch ih =>
    rw [stopsIn,Bool.or_eq_false_iff] at hstops
    obtain ⟨hfirst,hrest⟩ := hstops
    simp only [stops,Bool.or_eq_false_iff,decide_eq_false_iff_not] at hfirst
    have hall := List.filter_eq_nil_iff.mp hc
    rw [planEdits_cons,if_neg hfirst.1,if_neg (by simp [hfirst.2])]
    rcases List.mem_cons.mp hm with rfl | hm
    · obtain ⟨whole,ha,hr⟩ := @planEdit_replaces L current edit plan selected hfirst.2
        (by simpa using hall edit List.mem_cons_self) hs hd
      exact ⟨whole,ha,planEdits_grows hr⟩
    · exact ih hrest (List.filter_eq_nil_iff.mpr (fun e he => hall e (List.mem_cons_of_mem _ he))) hm

/-- Replacements that make a text at once, each of them one that the batch allows, and one for every edit that
changes a value on disk. -/
structure Rewrites (L : Library) (current : DocumentSnapshot) (batch : EditBatch) (rs : List Replacement)
    (out : Bytes) : Prop where
  compatible : Compatible current.revision.bytes rs
  text : out = simultaneous current.revision.bytes rs
  allowed : ∀ r ∈ rs, Rewritten L current batch r.span.begin
    (slice current.revision.bytes r.span.begin r.span.stop) r.text
  made : ∀ edit ∈ batch, ∀ selected, current.entry edit.key = some selected →
    Value.same (current.value edit.key) edit.pending = false →
    ∃ whole, selected.assignment = some whole ∧ replacementOf L current selected whole edit.pending ∈ rs

theorem rewritten_planned {batch : EditBatch} {diagnostics : List Diagnostic} {plan : Plan}
    (hp : plan = (planEdits L current [] batch { diagnostics := diagnostics }).2) :
    ∀ r ∈ plan.replacements ++ planInsertions L current plan.insertions, Rewritten L current batch r.span.begin
      (slice current.revision.bytes r.span.begin r.span.stop) r.text := by
  intro r hr
  rcases List.mem_append.mp hr with hr | hr
  · rw [hp] at hr
    exact planEdits_rewritten (List.Subset.refl _) (by simp) r hr
  · obtain ⟨insertion,-,rfl⟩ := List.mem_map.mp hr
    have hempty : (planInsertion L current insertion.1 insertion.2).span.begin =
        (planInsertion L current insertion.1 insertion.2).span.stop := by
      unfold planInsertion
      dsimp only
      split <;> rfl
    rw [slice,hempty,Nat.sub_self,List.take_zero]
    exact .inserted _ _

/-- A patch that succeeds keeps every octet of the text, in its order, but for the values of
edited keys that change and the assignments of keys that are reset, which are all replaced. -/
theorem patchDocument_weaves {edits : EditBatch} {schema : DocumentSchema} {next : DocumentSnapshot}
    (h : (patchDocument L current edits schema).snapshot = some next) :
    ∃ batch, edits.mapM (normalizeEdit L) = some batch ∧
      Woven (Rewritten L current batch) 0 current.revision.bytes next.revision.bytes ∧
      ∃ rs, Rewrites L current batch rs next.revision.bytes := by
  have hcases := patchDocument_cases L current edits schema
  generalize patchDocument L current edits schema = r at h hcases
  cases hcases with
  | success hv batch hn hs hc plan hp snapshot ha hv' =>
    cases h
    rw [normalizeEdits_value] at hn
    obtain ⟨candidate,hsub,hparse,-⟩ := applyReplacements_some L current ha
    rw [(parseDocument_some L hparse).2]
    have hplanned := rewritten_planned hp
    refine ⟨batch,hn,?_,plan.replacements ++ planInsertions L current plan.insertions,?_⟩
    · refine substitute_woven (Nat.le_refl _) rfl (fun r hr hspan => ?_) ?_ hsub
      · rw [List.mem_insertionSort] at hr
        by_cases hne : r.span.begin = r.span.stop
        · rw [slice,hne,Nat.sub_self,List.take_zero]
          exact .inserted _ _
        · exact hplanned r (mem_coalesce hr hne)
      · rw [List.drop_length]
        exact .nil _
    · obtain ⟨hperm,hsorted⟩ := laterSpan_insertionSort
        (coalesceInsertions (plan.replacements ++ planInsertions L current plan.insertions))
      obtain ⟨hcompatible,htext⟩ := (substitute_some_iff hperm hsorted).mp hsub
      refine ⟨hcompatible,htext,hplanned,fun edit hm selected hsel hd => ?_⟩
      obtain ⟨whole,hwhole,hr⟩ := @planEdits_replaces L current [] batch hs hc
        { diagnostics := validateDocument L current schema } edit hm selected hsel hd
      exact ⟨whole,hwhole,List.mem_append_left _ (hp ▸ hr)⟩
  | _ => cases h

def commentedSnapshot : DocumentSnapshot := referenceSnapshot (bytes "x = 1 # one\ny = [2, # two\n]\n")

/-- One key is set and the other one reset. -/
def commentedEdits : EditBatch :=
  [⟨xKey,some (.integer 1),some (.integer 2)⟩,⟨[bytes "y"],commentedSnapshot.value [bytes "y"],none⟩]

theorem patchDocument_weaves_commented : ∃ next,
    (patchDocument Reference.library commentedSnapshot commentedEdits anyDocument).snapshot = some next ∧
    next.revision.bytes = bytes "x = 2 # one\n# two\n\n" ∧
    ∃ batch, commentedEdits.mapM (normalizeEdit Reference.library) = some batch ∧
      Woven (Rewritten Reference.library commentedSnapshot batch) 0 commentedSnapshot.revision.bytes
        next.revision.bytes ∧
      ∃ rs, Rewrites Reference.library commentedSnapshot batch rs next.revision.bytes := by
  have hbytes : (patchDocument Reference.library commentedSnapshot commentedEdits anyDocument).snapshot.map
      (fun s => s.revision.bytes) = some (bytes "x = 2 # one\n# two\n\n") := by decide +kernel
  obtain ⟨next,hnext,hbytes⟩ := Option.map_eq_some_iff.mp hbytes
  exact ⟨next,hnext,hbytes,patchDocument_weaves hnext⟩

end
end Document
end HolonightConfig
