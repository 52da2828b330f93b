import HolonightConfig.AppearanceDocument.Decoding

/-! What the effective appearance shows in each field, and that decoding does not depend on
where a document was read from. -/
namespace HolonightConfig
open Text Toml Posix

namespace AppearanceDocument
open Sparse Document Schema

/-! ### Decoding elsewhere -/

section Elsewhere
variable {L : Library} {snapshot : DocumentSnapshot} {root : Entries Region}

theorem parse_elsewhere (hL : L.Permissive) (s : Bytes) (path path' : Path) :
    (Codec.parse L s path).value = (Codec.parse L s path').value := by
  by_cases hs : s.length ≤ kMaximumDocumentBytes
  · cases hp : L.parse s with
    | error e => simp only [Codec.parse,if_neg (not_lt.mpr hs),hp,Result.value_failure]
    | ok t =>
      apply Option.ext
      intro a
      rw [Codec.parse_value_iff hL path hs hp,Codec.parse_value_iff hL path' hs hp]
  · simp only [Codec.parse,if_pos (not_le.mp hs),Result.value_failure]

/-- The version of the document is that of the tree. -/
theorem version_of_value (hC : L.Conforms kMaximumDocumentBytes) (h : Reads L snapshot root) {n : ℤ}
    (hv : snapshot.value versionKey = some (.integer n)) :
    ∃ src, root.get (bytes "version") = some (.scalar src (.integer n)) := by
  rw [h.value hC (by simp [versionKey])] at hv
  simp only [versionKey,Entries.find] at hv
  cases hn : root.get (bytes "version") with
  | none => simp [hn] at hv
  | some m =>
    rw [hn,Option.bind_some,overrideOf] at hv
    split at hv
    · cases hv
    · cases m with
      | scalar src v =>
        cases v with
        | integer i =>
          cases hv
          exact ⟨src,rfl⟩
        | _ => cases hv
      | _ => cases hv

theorem isVersion2_of_value (hC : L.Conforms kMaximumDocumentBytes) (h : Reads L snapshot root)
    (hv : snapshot.value versionKey = some (.integer kEditingDocumentVersion)) : IsVersion2 root :=
  version_of_value hC h hv

/-- Whether a document is accepted does not depend on its path. -/
theorem decode_elsewhere (hL : L.Permissive) (hC : L.Conforms kMaximumDocumentBytes)
    (h : Reads L snapshot root) (path : Path) :
    (decodeAppearanceDocument L { snapshot with path := path }).value.isSome =
      (decodeAppearanceDocument L snapshot).value.isSome := by
  have h' : Reads L { snapshot with path := path } root := ⟨h.size,h.parse,h.exists_,h.overrides⟩
  by_cases hv : snapshot.value versionKey = some (.integer kEditingDocumentVersion)
  · have hv2 := isVersion2_of_value hC h hv
    have hT := parsed_defaults hC
    have hd := h.distinct hC
    have hnotes : ∀ s : DocumentSnapshot, hasErrors (laidOver L s root).2 = false ↔ TypesOk root :=
      fun s => (root_notes s hT hd).1
    rw [decode_version2 hC h hv2,decode_version2 hC h' hv2]
    by_cases ht : TypesOk root
    · have hproj : ∀ s : DocumentSnapshot, Node.eraseEntries (laidOver L s root).1 = projection root :=
        fun s => overlay_projection s hT hd ht
      rw [(hnotes _).mpr ht,(hnotes _).mpr ht,hproj,hproj]
      simp only [Bool.false_eq_true,if_false]
      rw [parse_elsewhere hL _ path snapshot.path]
      cases (Codec.parse L (L.format (.table () false (projection root))) snapshot.path).value <;> rfl
    · have herr : ∀ s : DocumentSnapshot, hasErrors (laidOver L s root).2 = true :=
        fun s => by simpa using mt (hnotes s).mp ht
      rw [if_pos (herr _),if_pos (herr _)]
      rfl
  · have hvalue : DocumentSnapshot.value { snapshot with path := path } versionKey =
        snapshot.value versionKey := rfl
    unfold decodeAppearanceDocument
    rw [hvalue]
    simp only [h.exists_,Bool.not_true,Bool.false_eq_true,if_false]
    generalize snapshot.value versionKey = version at hv
    cases version with
    | none => rfl
    | some v =>
      cases v with
      | integer n =>
        by_cases h1 : n = kDocumentVersion
        · simp only [if_pos h1]
          rw [parse_elsewhere hL _ path snapshot.path]
          cases (Codec.parse L snapshot.revision.bytes snapshot.path).value <;> rfl
        · have h2 : n ≠ kEditingDocumentVersion := fun h => hv (by rw [h])
          simp only [if_neg h1,if_pos h2,Result.value_failure]
      | _ => rfl

end Elsewhere

/-! ### Rejection -/

theorem hasErrors_of_allErrors {ds : List Diagnostic} (hne : ds ≠ []) (h : Codec.AllErrors ds) :
    hasErrors ds = true := by
  obtain ⟨d,ds,rfl⟩ := List.exists_cons_of_ne_nil hne
  simp [hasErrors,h d (by simp)]

/-- A document is not rejected without an error. -/
theorem decode_rejected {L : Library} {snapshot : DocumentSnapshot}
    (h : (decodeAppearanceDocument L snapshot).value = none) :
    hasErrors (decodeAppearanceDocument L snapshot).diagnostics = true := by
  have hparse : ∀ s, (Codec.parse L s snapshot.path).value = none →
      hasErrors (Codec.parse L s snapshot.path).diagnostics = true := by
    intro s hs
    obtain ⟨hne,he⟩ := Codec.parse_failure hs
    exact hasErrors_of_allErrors hne he
  unfold decodeAppearanceDocument at h ⊢
  split
  · next he => simp [he] at h
  · next he =>
    simp only [he,Bool.false_eq_true,if_false] at h
    split
    · next version hv =>
      simp only [hv] at h
      split
      · next h1 =>
        simp only [if_pos h1] at h
        cases hp : (Codec.parse L snapshot.revision.bytes snapshot.path).value with
        | none =>
          simp only [hp]
          exact hparse _ hp
        | some a => simp [hp] at h
      · next h1 =>
        simp only [if_neg h1] at h
        split
        · rfl
        · next h2 =>
          simp only [if_neg h2] at h
          dsimp only at h ⊢
          split
          · next hn => exact hn
          · next hn =>
            rw [if_neg hn] at h
            generalize L.format (.table () false (Node.eraseEntries (projectDocument L snapshot).1)) = text at h ⊢
            cases hp : (Codec.parse L text snapshot.path).value with
            | none =>
              simp only
              exact hparse _ hp
            | some a => simp [hp] at h
    · rfl

/-! ### Fields -/

/-- Each field with what an appearance shows in it. -/
def shownFields : List (Field × (Appearance → Option Value)) :=
  [(⟨bytes "theme",bytes "scheme",.text⟩,fun a => some (.string a.theme.scheme)),
    (⟨bytes "theme",bytes "accent",.text⟩,fun a => some (.string a.theme.accent)),
    (⟨bytes "typography",bytes "ui_family",.text⟩,fun a => some (.string a.typography.uiFamily)),
    (⟨bytes "typography",bytes "ui_size",.integer⟩,fun a => some (.integer a.typography.uiSize)),
    (⟨bytes "typography",bytes "monospace_family",.text⟩,
      fun a => some (.string a.typography.monospaceFamily)),
    (⟨bytes "typography",bytes "monospace_size",.integer⟩,
      fun a => some (.integer a.typography.monospaceSize)),
    (⟨bytes "typography",bytes "title_family",.text⟩,fun a => some (.string a.typography.titleFamily)),
    (⟨bytes "typography",bytes "title_size",.integer⟩,fun a => some (.integer a.typography.titleSize)),
    (⟨bytes "typography",bytes "display_family",.text⟩,
      fun a => some (.string a.typography.displayFamily)),
    (⟨bytes "typography",bytes "display_size",.integer⟩,
      fun a => some (.integer a.typography.displaySize)),
    (⟨bytes "icons",bytes "theme",.text⟩,fun a => some (.string a.icons.theme)),
    (⟨bytes "icons",bytes "fallback",.text⟩,fun a => some (.string a.icons.fallback)),
    (⟨bytes "icons",bytes "cursor",.text⟩,fun a => some (.string a.icons.cursor)),
    (⟨bytes "layout",bytes "scale",.number⟩,fun a => some (.floating a.layout.scale)),
    (⟨bytes "shape",bytes "style",.text⟩,fun a => some (.string (shapeStyleName a.shape.style))),
    (⟨bytes "shape",bytes "scale",.number⟩,fun a => some (.floating a.shape.scale)),
    (⟨bytes "shape",bytes "base_radius",.number⟩,fun a => a.shape.baseRadius.map .floating),
    (⟨bytes "shape",bytes "base_chamfer",.number⟩,fun a => a.shape.baseChamfer.map .floating)]

theorem shownFields_fields : shownFields.map Prod.fst = fields := by
  simp only [shownFields,fields,List.map_cons,List.map_nil]

/-- What an appearance shows in a field. -/
def effective (a : Appearance) (s k : Bytes) : Option Value :=
  (shownFields.find? (fun f => f.1.section_ == s && f.1.key == k)).bind (fun f => f.2 a)

/-- A value as a field of this kind shows it: texts are trimmed and integers widened. -/
def shownAs : Kind → Value → Value
  | .text,.string s => .string (trim s)
  | .number,.integer n => .floating (.ofInteger n)
  | _,v => v

/-- The field shows a value equal to the pending one, or for a reset the default. -/
def Shows (a : Appearance) (s k : Bytes) (kind : Kind) : Option Value → Prop
  | none => effective a s k = effective defaults s k
  | some pending => ∃ v, v.eq pending = true ∧ effective a s k = some (shownAs kind v)

theorem shapeStyleName_fromName {name : Bytes} {s : ShapeStyle} (h : shapeStyleFromName name = some s) :
    shapeStyleName s = name := by
  unfold shapeStyleFromName at h
  split_ifs at h with h₁ h₂ h₃ h₄
  all_goals
    cases h
    symm
    assumption

section Readers

/-- What is read of a node is shown as its value. -/
def ReadsShown {α : Type} (kind : Kind) (reader : Node Unit → Option α) (out : α → Option Value) : Prop :=
  ∀ n v, reader n = some v → ∃ c, n = .scalar () c ∧
    ∀ (L : Library) (src : Region), out v = some (shownAs kind (valueOf L (.scalar src c)))

theorem readsShown_text : ReadsShown .text trimmedText (fun v => some (.string v)) := by
  intro n v h
  cases n with
  | scalar u c =>
    cases c with
    | string s =>
      cases h
      exact ⟨_,rfl,fun L src => rfl⟩
    | _ => cases h
  | _ => cases h

theorem readsShown_integer : ReadsShown .integer nativeInt (fun v => some (.integer v)) := by
  intro n v h
  cases n with
  | scalar u c =>
    cases c with
    | integer i =>
      cases h
      exact ⟨_,rfl,fun L src => rfl⟩
    | _ => cases h
  | _ => cases h

theorem readsShown_number : ReadsShown .number nativeNum (fun v => some (.floating v)) := by
  intro n v h
  cases n with
  | scalar u c =>
    cases c with
    | integer i =>
      cases h
      exact ⟨_,rfl,fun L src => rfl⟩
    | floating d =>
      cases h
      exact ⟨_,rfl,fun L src => rfl⟩
    | _ => cases h
  | _ => cases h

theorem readsShown_style : ReadsShown .text styleOf (fun v => some (.string (shapeStyleName v))) := by
  intro n v h
  obtain ⟨name,hn,hs⟩ := Option.bind_eq_some_iff.mp h
  obtain ⟨c,hc,hout⟩ := readsShown_text n name hn
  refine ⟨c,hc,fun L src => ?_⟩
  rw [← hout L src]
  simp only [shapeStyleName_fromName hs]

theorem readsShown_extent : ReadsShown .number extentOf (fun v => v.map .floating) := by
  intro n v h
  obtain ⟨d,hd,rfl⟩ := Option.map_eq_some_iff.mp h
  exact readsShown_number n d hd

end Readers

section Shown
variable {L : Library} {snapshot : DocumentSnapshot} {root : Entries Region} {s k : Bytes}

/-- A field that is read shows what the document has there. -/
theorem overrides_shown {α : Type} {kind : Kind} {reader : Node Unit → Option α} {out : α → Option Value}
    (hr : ReadsShown kind reader out) (hC : L.Conforms kMaximumDocumentBytes) (h : Reads L snapshot root)
    {b v : α} (hO : Overrides reader root s k b v) {pending : Option Value}
    (hsame : Value.same (snapshot.value [s,k]) pending = true) :
    pending.elim (out v = out b) (fun p => ∃ w, w.eq p = true ∧ out v = some (shownAs kind w)) := by
  rw [h.value hC (by simp)] at hsame
  unfold Overrides at hO
  cases hn : root.find [s,k] with
  | none =>
    rw [hn] at hO hsame
    cases pending with
    | none => exact congrArg out (Option.some.inj hO).symm
    | some p => cases hsame
  | some n =>
    rw [hn] at hO hsame
    obtain ⟨c,hc,hout⟩ := hr _ _ hO
    cases n with
    | scalar src c' =>
      cases hc
      cases pending with
      | none => cases hsame
      | some p => exact ⟨valueOf L (.scalar src c),hsame,hout L src⟩
    | array src items => cases hc
    | table src i es => cases hc

theorem document_shows (hC : L.Conforms kMaximumDocumentBytes) (h : Reads L snapshot root)
    {a : Appearance} (hd : Sparse.Document root a) {kind : Kind} (hk : kindOf s k = some kind)
    {pending : Option Value} (hsame : Value.same (snapshot.value [s,k]) pending = true) :
    Shows a s k kind pending := by
  have hall : ∀ f ∈ shownFields, ∀ pending,
      Value.same (snapshot.value [f.1.section_,f.1.key]) pending = true →
      pending.elim (f.2 a = f.2 defaults)
        (fun p => ∃ w, w.eq p = true ∧ f.2 a = some (shownAs f.1.kind w)) := by
    simp only [shownFields,List.forall_mem_cons]
    exact ⟨fun _ => overrides_shown readsShown_text hC h hd.scheme,
      fun _ => overrides_shown readsShown_text hC h hd.accent,
      fun _ => overrides_shown readsShown_text hC h hd.uiFamily,
      fun _ => overrides_shown readsShown_integer hC h hd.uiSize,
      fun _ => overrides_shown readsShown_text hC h hd.monospaceFamily,
      fun _ => overrides_shown readsShown_integer hC h hd.monospaceSize,
      fun _ => overrides_shown readsShown_text hC h hd.titleFamily,
      fun _ => overrides_shown readsShown_integer hC h hd.titleSize,
      fun _ => overrides_shown readsShown_text hC h hd.displayFamily,
      fun _ => overrides_shown readsShown_integer hC h hd.displaySize,
      fun _ => overrides_shown readsShown_text hC h hd.theme,
      fun _ => overrides_shown readsShown_text hC h hd.fallback,
      fun _ => overrides_shown readsShown_text hC h hd.cursor,
      fun _ => overrides_shown readsShown_number hC h hd.layoutScale,
      fun _ => overrides_shown readsShown_style hC h hd.style,
      fun _ => overrides_shown readsShown_number hC h hd.scale,
      fun _ => overrides_shown readsShown_extent hC h hd.baseRadius,
      fun _ => overrides_shown readsShown_extent hC h hd.baseChamfer,by simp⟩
  rw [kindOf,← shownFields_fields,List.find?_map,Option.map_map] at hk
  obtain ⟨f,hf,rfl⟩ := Option.map_eq_some_iff.mp hk
  have hsk := List.find?_some hf
  simp only [Function.comp_apply,Bool.and_eq_true,beq_iff_eq] at hsk
  obtain ⟨rfl,rfl⟩ := hsk
  have heff : ∀ a, effective a f.1.section_ f.1.key = f.2 a := by
    intro a
    unfold effective
    change (shownFields.find? ((fun g : Field => g.section_ == f.1.section_ && g.key == f.1.key) ∘ Prod.fst)).bind _ = _
    rw [hf]
    rfl
  have hshow := hall f (List.mem_of_find?_eq_some hf) pending hsame
  unfold Shows
  cases pending with
  | none => rw [heff,heff]; exact hshow
  | some p => rw [heff]; exact hshow

end Shown
end AppearanceDocument
end HolonightConfig
