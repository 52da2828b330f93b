import HolonightConfig.AppearanceDocument.Sparse

/-! The strict schema on the projection of a document is the sparse one on the document. -/
namespace HolonightConfig
open Text Toml Posix

namespace Sparse
open Schema
variable {σ : Type} {root : Entries σ}

/-! ### Fields of the projection -/

theorem projection_find {s k : Bytes} (hs : s ∈ sections) (hk : (kindOf s k).isSome = true) :
    (projection root).find [s,k] = ((root.find [s,k]).map Node.erase).or (defaultTable.find [s,k]) := by
  obtain ⟨t,ht⟩ := default_section hs
  simp only [Entries.find,projection_get,ht,Option.map_some,projectNode,Option.bind_some,Node.asTable]
  rw [projectSection_get,if_pos hk]
  rfl

theorem tableField_projection {s : Bytes} (hs : s ∈ sections) :
    ∃ t, TableField (projection root) s t := by
  obtain ⟨t,ht⟩ := default_section hs
  exact ⟨_,by simp only [TableField,projection_get,ht,Option.map_some,projectNode]; rfl⟩

/-- Each field with what the default document has there. -/
def builtIns : List ((Bytes × Bytes) × Option (Node Unit)) :=
  [((bytes "theme",bytes "scheme"),some (string defaults.theme.scheme)),
    ((bytes "theme",bytes "accent"),some (string defaults.theme.accent)),
    ((bytes "typography",bytes "ui_family"),some (string defaults.typography.uiFamily)),
    ((bytes "typography",bytes "ui_size"),some (integer defaults.typography.uiSize)),
    ((bytes "typography",bytes "monospace_family"),some (string defaults.typography.monospaceFamily)),
    ((bytes "typography",bytes "monospace_size"),some (integer defaults.typography.monospaceSize)),
    ((bytes "typography",bytes "title_family"),some (string defaults.typography.titleFamily)),
    ((bytes "typography",bytes "title_size"),some (integer defaults.typography.titleSize)),
    ((bytes "typography",bytes "display_family"),some (string defaults.typography.displayFamily)),
    ((bytes "typography",bytes "display_size"),some (integer defaults.typography.displaySize)),
    ((bytes "icons",bytes "theme"),some (string defaults.icons.theme)),
    ((bytes "icons",bytes "fallback"),some (string defaults.icons.fallback)),
    ((bytes "icons",bytes "cursor"),some (string defaults.icons.cursor)),
    ((bytes "layout",bytes "scale"),some (floating defaults.layout.scale)),
    ((bytes "shape",bytes "style"),some (string (shapeStyleName defaults.shape.style))),
    ((bytes "shape",bytes "scale"),some (floating defaults.shape.scale)),
    ((bytes "shape",bytes "base_radius"),none),((bytes "shape",bytes "base_chamfer"),none)]

/-- A known field and the node the default document has there. -/
structure BuiltIn (s k : Bytes) (d : Option (Node Unit)) : Prop where
  section_ : s ∈ sections
  known : (kindOf s k).isSome = true
  value : defaultTable.find [s,k] = d

theorem builtIn_of_mem {s k : Bytes} {d : Option (Node Unit)} (h : ((s,k),d) ∈ builtIns) :
    BuiltIn s k d := by
  have hall : builtIns.all (fun p => decide (p.1.1 ∈ sections ∧ (kindOf p.1.1 p.1.2).isSome = true ∧
      defaultTable.find [p.1.1,p.1.2] = p.2)) = true := by decide +kernel
  obtain ⟨h₁,h₂,h₃⟩ := of_decide_eq_true (List.all_eq_true.mp hall _ h)
  exact ⟨h₁,h₂,h₃⟩

/-- Nothing is trimmed from the built-in strings, and the built-in style has a name. -/
theorem defaults_trimmed : normalized defaults = defaults ∧
    shapeStyleFromName (shapeStyleName defaults.shape.style) = some defaults.shape.style := by
  decide +kernel

section Field
variable {s k : Bytes} {t : Entries Unit} (ht : TableField (projection root) s t)
include ht

theorem get_projection {d : Option (Node Unit)} (h : BuiltIn s k d) :
    t.get k = ((root.find [s,k]).map Node.erase).or d := by
  rw [← find_of_tableField ht,projection_find h.section_ h.known,h.value]

/-- A reader sees the document's value, or the built-in one. -/
theorem field_projection {α : Type} (reader : Node Unit → Option α) {d : Node Unit} {b v : α}
    (h : BuiltIn s k (some d)) (hv : reader d.erase = some b) :
    field reader t k = some v ↔ Overrides reader root s k b v := by
  unfold field Overrides
  rw [get_projection ht h]
  cases root.find [s,k] <;> simp [hv]

theorem stringField_projection {b v : Bytes} (h : BuiltIn s k (some (string b)))
    (hv : trim b = b) : StringField t k v ↔ Overrides trimmedText root s k b v := by
  rw [← field_projection ht trimmedText h (by simp [trimmedText,string,Node.erase,text,hv])]
  unfold StringField field trimmedText
  cases t.get k with
  | none => simp
  | some n => cases h : text n.erase <;> simp [h]

theorem optionalField_projection {v : Option Binary64} (h : BuiltIn s k none) :
    OptionalField native t k v ↔ Overrides extentOf root s k none v := by
  unfold OptionalField Overrides Entries.contains field
  rw [get_projection ht h,Option.or_none]
  cases root.find [s,k] with
  | none => simp [eq_comm]
  | some n =>
    simp only [Option.map_some,Option.isSome_some,if_true,Option.bind_some,Node.erase_erase,
      Option.elim_some,extentOf,native]
    cases nativeNum n.erase <;> simp [eq_comm]

end Field

theorem styleField_iff (t : Entries Unit) (v : ShapeStyle) :
    StyleField t v ↔ field (fun n => (text n).bind shapeStyleFromName) t (bytes "style") = some v := by
  unfold StyleField field
  cases t.get (bytes "style") with
  | none => simp
  | some n => cases h : text n.erase <;> simp [h]

/-- No white space around the style. -/
def StyleTrimmed (root : Entries σ) : Prop :=
  ∀ n, root.find [bytes "shape",bytes "style"] = some n → ∀ name, text n.erase = some name →
    trim name = name

theorem trim_styleName {name : Bytes} {v : ShapeStyle} (h : shapeStyleFromName name = some v) :
    trim name = name := by
  have ht : ∀ s : ShapeStyle, trim (shapeStyleName s) = shapeStyleName s := by
    intro s; cases s <;> decide +kernel
  unfold shapeStyleFromName at h
  split_ifs at h with h₁ h₂ h₃ h₄
  · rw [h₁]; exact ht .inherit
  · rw [h₂]; exact ht .hybrid
  · rw [h₃]; exact ht .rounded
  · rw [h₄]; exact ht .chamfered

/-- The style as it is written is the trimmed one only where nothing is trimmed. -/
theorem style_iff {builtIn v : ShapeStyle} :
    Overrides (fun n => (text n).bind shapeStyleFromName) root (bytes "shape") (bytes "style") builtIn v ↔
      Overrides styleOf root (bytes "shape") (bytes "style") builtIn v ∧ StyleTrimmed root := by
  unfold Overrides StyleTrimmed
  cases root.find [bytes "shape",bytes "style"] with
  | none => simp
  | some n =>
    simp only [Option.elim_some,styleOf,trimmedText,Option.some.injEq,forall_eq']
    cases text n.erase with
    | none => simp
    | some name =>
      simp only [Option.bind_some,Option.map_some,Option.some.injEq,forall_eq']
      constructor
      · intro h
        rw [trim_styleName h]
        exact ⟨h,rfl⟩
      · rintro ⟨h,ht⟩
        rwa [ht] at h

/-- The fields of each section, as the strict schema lists them. -/
def sectionKeys : List (Bytes × List Bytes) :=
  [(bytes "theme",[bytes "scheme",bytes "accent"]),(bytes "typography",Codec.typographyFields),
    (bytes "icons",[bytes "theme",bytes "fallback",bytes "cursor"]),(bytes "layout",[bytes "scale"]),
    (bytes "shape",[bytes "style",bytes "scale",bytes "base_radius",bytes "base_chamfer"])]

theorem sectionKeys_spec {s : Bytes} {keys : List Bytes} (h : (s,keys) ∈ sectionKeys) :
    s ∈ sections ∧
      ((fields.filter (fun f => f.section_ == s)).map Field.key).all keys.contains = true := by
  have hall : sectionKeys.all (fun p => decide (p.1 ∈ sections ∧
      ((fields.filter (fun f => f.section_ == p.1)).map Field.key).all p.2.contains = true)) = true := by
    decide +kernel
  exact of_decide_eq_true (List.all_eq_true.mp hall _ h)

theorem onlyKeys_projection {s : Bytes} {keys : List Bytes} (h : (s,keys) ∈ sectionKeys)
    {t : Entries Unit} (ht : TableField (projection root) s t) : OnlyKeys t keys := by
  obtain ⟨hs,hkeys⟩ := sectionKeys_spec h
  obtain ⟨dt,hdt⟩ := default_section hs
  have htp : t = projectSection root s dt := by
    simp only [TableField,projection_get,hdt,Option.map_some,projectNode,Option.bind_some,Node.asTable,
      Option.some.injEq] at ht
    exact ht.symm
  subst htp
  intro e he
  cases hk : kindOf s e.1 with
  | some kind =>
    have := (kindOf_isSome s e.1).mp (by rw [hk]; rfl)
    simpa using List.all_eq_true.mp hkeys _ this
  | none =>
    have hn : (projectSection root s dt).get e.1 = none := by
      rw [projectSection_get,hk]
      exact (default_unknown hs hk hdt).1
    rw [Entries.get,List.lookup_eq_none_iff] at hn
    simpa using hn e he

theorem onlyKeys_root : OnlyKeys (projection root) Codec.rootFields := by
  have hd : defaultTable.all (fun e => Codec.rootFields.contains e.1) = true := by decide +kernel
  intro e he
  obtain ⟨d,hm,rfl⟩ := List.mem_map.mp he
  simpa using List.all_eq_true.mp hd d hm

/-! ### The schema of the projection -/

theorem overrides_type {α : Type} {reader : Node Unit → Option α} {s k : Bytes} {builtIn v : α} {kind : Kind}
    (h : Overrides reader root s k builtIn v)
    (ht : ∀ n : Node Unit, (reader n).isSome = true → kind.admits n.type = true) {n : Node σ}
    (hn : root.find [s,k] = some n) : kind.admits n.type = true := by
  rw [Overrides,hn,Option.elim_some] at h
  simpa using ht n.erase (by rw [h]; rfl)

theorem text_type (n : Node Unit) (h : (text n).isSome = true) : Kind.text.admits n.type = true := by
  cases n with
  | scalar u v => cases v <;> simp [text] at h; rfl
  | _ => simp [text] at h

theorem trimmedText_type (n : Node Unit) (h : (trimmedText n).isSome = true) :
    Kind.text.admits n.type = true := text_type n (by simpa [trimmedText] using h)

theorem styleOf_type (n : Node Unit) (h : (styleOf n).isSome = true) :
    Kind.text.admits n.type = true := by
  refine trimmedText_type n ?_
  cases ht : trimmedText n with
  | none => simp [styleOf,ht] at h
  | some name => rfl

theorem nativeInt_type (n : Node Unit) (h : (nativeInt n).isSome = true) :
    Kind.integer.admits n.type = true := by
  cases n with
  | scalar u v => cases v <;> simp [nativeInt] at h; rfl
  | _ => simp [nativeInt] at h

theorem nativeNum_type (n : Node Unit) (h : (nativeNum n).isSome = true) :
    Kind.number.admits n.type = true := by
  cases n with
  | scalar u v => cases v <;> simp [nativeNum] at h <;> rfl
  | _ => simp [nativeNum] at h

theorem extentOf_type (n : Node Unit) (h : (extentOf n).isSome = true) :
    Kind.number.admits n.type = true := nativeNum_type n (by simpa [extentOf] using h)

theorem Document.typesOk {a : Appearance} (h : Document root a) : TypesOk root := by
  refine ⟨h.tables,fun s hs k kind hk n hn => ?_⟩
  have hall : ∀ f ∈ fields, ∀ n, root.find [f.section_,f.key] = some n → f.kind.admits n.type = true := by
    simp only [fields,List.forall_mem_cons]
    exact ⟨fun _ => overrides_type h.scheme trimmedText_type,fun _ => overrides_type h.accent trimmedText_type,
      fun _ => overrides_type h.uiFamily trimmedText_type,fun _ => overrides_type h.uiSize nativeInt_type,
      fun _ => overrides_type h.monospaceFamily trimmedText_type,
      fun _ => overrides_type h.monospaceSize nativeInt_type,
      fun _ => overrides_type h.titleFamily trimmedText_type,fun _ => overrides_type h.titleSize nativeInt_type,
      fun _ => overrides_type h.displayFamily trimmedText_type,
      fun _ => overrides_type h.displaySize nativeInt_type,
      fun _ => overrides_type h.theme trimmedText_type,fun _ => overrides_type h.fallback trimmedText_type,
      fun _ => overrides_type h.cursor trimmedText_type,fun _ => overrides_type h.layoutScale nativeNum_type,
      fun _ => overrides_type h.style styleOf_type,fun _ => overrides_type h.scale nativeNum_type,
      fun _ => overrides_type h.baseRadius extentOf_type,fun _ => overrides_type h.baseChamfer extentOf_type,
      by simp⟩
  obtain ⟨f,hf,rfl⟩ := Option.map_eq_some_iff.mp hk
  have hsk := List.find?_some hf
  simp only [Bool.and_eq_true,beq_iff_eq] at hsk
  obtain ⟨rfl,rfl⟩ := hsk
  exact hall f (List.mem_of_find?_eq_some hf) n hn

/-- A path of a known field of this kind. -/
def hasKind (kind : Kind) : KeyPath → Bool
  | [s,k] => sections.contains s && kindOf s k == some kind
  | _ => false

theorem hasKind_eq {kind : Kind} {p : KeyPath} (h : hasKind kind p = true) :
    ∃ s k, p = [s,k] ∧ s ∈ sections ∧ kindOf s k = some kind := by
  unfold hasKind at h
  split at h
  · next s k =>
    simp only [Bool.and_eq_true,List.contains_iff_mem,beq_iff_eq] at h
    exact ⟨s,k,rfl,h⟩
  · cases h

theorem numericFields_spec :
    integerFields.all (fun p => p == [bytes "version"] || hasKind .integer p) = true ∧
      numberFields.all (hasKind .number) = true := by decide +kernel

/-- Where the known fields have their types and the version is an integer, no number needs
conversion. -/
theorem nativeNumbers_of_kinds (hv : ∀ n, root.get (bytes "version") = some n → n.type = .integer)
    (h : ∀ s ∈ sections, ∀ k kind, kindOf s k = some kind → ∀ n, root.find [s,k] = some n →
      kind.admits n.type = true) : NativeNumbers root := by
  obtain ⟨hint,hnum⟩ := numericFields_spec
  constructor
  · intro p hp n hn
    rcases Bool.or_eq_true_iff.mp (List.all_eq_true.mp hint p hp) with hversion | hsk
    · obtain rfl : p = [bytes "version"] := by simpa using hversion
      exact hv n hn
    · obtain ⟨s,k,rfl,hs,hk⟩ := hasKind_eq hsk
      simpa [Kind.admits] using h s hs k _ hk n hn
  · intro p hp n hn
    obtain ⟨s,k,rfl,hs,hk⟩ := hasKind_eq (List.all_eq_true.mp hnum p hp)
    simpa [Kind.admits,Node.isNumber] using h s hs k _ hk n hn

/-- With types in order, the projection's numbers need no conversion. -/
theorem native_projection (h : TypesOk root) : NativeNumbers (projection root) := by
  have key : ∀ s ∈ sections, ∀ k kind, kindOf s k = some kind → ∀ n,
      (projection root).find [s,k] = some n → kind.admits n.type = true := by
    intro s hs k kind hk n hn
    rw [projection_find hs (by rw [hk]; rfl)] at hn
    cases hr : root.find [s,k] with
    | some m =>
      simp only [hr,Option.map_some,Option.some_or,Option.some.injEq] at hn
      rw [← hn,Node.type_erase]
      exact h.2 s hs k kind hk m hr
    | none =>
      obtain ⟨t,ht⟩ := default_section hs
      have hf : defaultTable.find [s,k] = Entries.get t k := by simp [Entries.find,ht,Node.asTable]
      simp only [hr,Option.map_none,Option.none_or,hf] at hn
      rcases default_field hk ht with ⟨hg,-,-⟩ | ⟨v,hg,hv,-⟩
      · rw [hg] at hn; cases hn
      · rw [hg] at hn
        cases hn
        rw [Node.type_scalar,hv]
        cases kind <;> rfl
  refine nativeNumbers_of_kinds (fun n hn => ?_) key
  rw [projection_get,default_version,Option.map_some,Option.some.injEq] at hn
  rw [← hn]
  rfl

theorem theme_projection (v : Theme) :
    (∃ t, TableField (projection root) (bytes "theme") t ∧ ThemeSchema t v) ↔
      Overrides trimmedText root (bytes "theme") (bytes "scheme") defaults.theme.scheme v.scheme ∧
      Overrides trimmedText root (bytes "theme") (bytes "accent") defaults.theme.accent v.accent := by
  have hkeys : (bytes "theme",[bytes "scheme",bytes "accent"]) ∈ sectionKeys := by
    simp only [sectionKeys,List.mem_cons,true_or]
  obtain ⟨t,ht⟩ := @tableField_projection _ root _ (sectionKeys_spec hkeys).1
  have h₁ := stringField_projection ht (v := v.scheme) (k := bytes "scheme") (b := defaults.theme.scheme)
    (builtIn_of_mem (by simp only [builtIns,List.mem_cons,true_or]))
    (congrArg (fun a => a.theme.scheme) defaults_trimmed.1)
  have h₂ := stringField_projection ht (v := v.accent) (k := bytes "accent") (b := defaults.theme.accent)
    (builtIn_of_mem (by simp only [builtIns,List.mem_cons,true_or,or_true]))
    (congrArg (fun a => a.theme.accent) defaults_trimmed.1)
  rw [← h₁,← h₂]
  constructor
  · rintro ⟨t',ht',-,k₁,k₂⟩
    cases ht.symm.trans ht'
    exact ⟨k₁,k₂⟩
  · rintro ⟨k₁,k₂⟩
    exact ⟨t,ht,onlyKeys_projection hkeys ht,k₁,k₂⟩

theorem typography_projection (v : Typography) :
    (∃ t, TableField (projection root) (bytes "typography") t ∧ TypographySchema native t v) ↔
      Overrides trimmedText root (bytes "typography") (bytes "ui_family")
        defaults.typography.uiFamily v.uiFamily ∧
      Overrides nativeInt root (bytes "typography") (bytes "ui_size")
        defaults.typography.uiSize v.uiSize ∧
      Overrides trimmedText root (bytes "typography") (bytes "monospace_family")
        defaults.typography.monospaceFamily v.monospaceFamily ∧
      Overrides nativeInt root (bytes "typography") (bytes "monospace_size")
        defaults.typography.monospaceSize v.monospaceSize ∧
      Overrides trimmedText root (bytes "typography") (bytes "title_family")
        defaults.typography.titleFamily v.titleFamily ∧
      Overrides nativeInt root (bytes "typography") (bytes "title_size")
        defaults.typography.titleSize v.titleSize ∧
      Overrides trimmedText root (bytes "typography") (bytes "display_family")
        defaults.typography.displayFamily v.displayFamily ∧
      Overrides nativeInt root (bytes "typography") (bytes "display_size")
        defaults.typography.displaySize v.displaySize := by
  have hkeys : (bytes "typography",Codec.typographyFields) ∈ sectionKeys := by
    simp only [sectionKeys,List.mem_cons,true_or,or_true]
  obtain ⟨t,ht⟩ := @tableField_projection _ root _ (sectionKeys_spec hkeys).1
  have h₁ := stringField_projection ht (v := v.uiFamily) (k := bytes "ui_family") (b := defaults.typography.uiFamily)
    (builtIn_of_mem (by simp only [builtIns,List.mem_cons,true_or,or_true]))
    (congrArg (fun a => a.typography.uiFamily) defaults_trimmed.1)
  have h₂ := field_projection ht nativeInt (v := v.uiSize) (k := bytes "ui_size")
    (d := integer defaults.typography.uiSize)
    (builtIn_of_mem (by simp only [builtIns,List.mem_cons,true_or,or_true])) rfl
  have h₃ := stringField_projection ht (v := v.monospaceFamily) (k := bytes "monospace_family") (b := defaults.typography.monospaceFamily)
    (builtIn_of_mem (by simp only [builtIns,List.mem_cons,true_or,or_true]))
    (congrArg (fun a => a.typography.monospaceFamily) defaults_trimmed.1)
  have h₄ := field_projection ht nativeInt (v := v.monospaceSize) (k := bytes "monospace_size")
    (d := integer defaults.typography.monospaceSize)
    (builtIn_of_mem (by simp only [builtIns,List.mem_cons,true_or,or_true])) rfl
  have h₅ := stringField_projection ht (v := v.titleFamily) (k := bytes "title_family") (b := defaults.typography.titleFamily)
    (builtIn_of_mem (by simp only [builtIns,List.mem_cons,true_or,or_true]))
    (congrArg (fun a => a.typography.titleFamily) defaults_trimmed.1)
  have h₆ := field_projection ht nativeInt (v := v.titleSize) (k := bytes "title_size")
    (d := integer defaults.typography.titleSize)
    (builtIn_of_mem (by simp only [builtIns,List.mem_cons,true_or,or_true])) rfl
  have h₇ := stringField_projection ht (v := v.displayFamily) (k := bytes "display_family") (b := defaults.typography.displayFamily)
    (builtIn_of_mem (by simp only [builtIns,List.mem_cons,true_or,or_true]))
    (congrArg (fun a => a.typography.displayFamily) defaults_trimmed.1)
  have h₈ := field_projection ht nativeInt (v := v.displaySize) (k := bytes "display_size")
    (d := integer defaults.typography.displaySize)
    (builtIn_of_mem (by simp only [builtIns,List.mem_cons,true_or,or_true])) rfl
  rw [← h₁,← h₂,← h₃,← h₄,← h₅,← h₆,← h₇,← h₈]
  constructor
  · rintro ⟨t',ht',-,k₁,k₂,k₃,k₄,k₅,k₆,k₇,k₈⟩
    cases ht.symm.trans ht'
    exact ⟨k₁,k₂,k₃,k₄,k₅,k₆,k₇,k₈⟩
  · rintro ⟨k₁,k₂,k₃,k₄,k₅,k₆,k₇,k₈⟩
    exact ⟨t,ht,onlyKeys_projection hkeys ht,k₁,k₂,k₃,k₄,k₅,k₆,k₇,k₈⟩

theorem icons_projection (v : Icons) :
    (∃ t, TableField (projection root) (bytes "icons") t ∧ IconsSchema t v) ↔
      Overrides trimmedText root (bytes "icons") (bytes "theme") defaults.icons.theme v.theme ∧
      Overrides trimmedText root (bytes "icons") (bytes "fallback") defaults.icons.fallback v.fallback ∧
      Overrides trimmedText root (bytes "icons") (bytes "cursor") defaults.icons.cursor v.cursor := by
  have hkeys : (bytes "icons",[bytes "theme",bytes "fallback",bytes "cursor"]) ∈ sectionKeys := by
    simp only [sectionKeys,List.mem_cons,true_or,or_true]
  obtain ⟨t,ht⟩ := @tableField_projection _ root _ (sectionKeys_spec hkeys).1
  have h₁ := stringField_projection ht (v := v.theme) (k := bytes "theme") (b := defaults.icons.theme)
    (builtIn_of_mem (by simp only [builtIns,List.mem_cons,true_or,or_true]))
    (congrArg (fun a => a.icons.theme) defaults_trimmed.1)
  have h₂ := stringField_projection ht (v := v.fallback) (k := bytes "fallback") (b := defaults.icons.fallback)
    (builtIn_of_mem (by simp only [builtIns,List.mem_cons,true_or,or_true]))
    (congrArg (fun a => a.icons.fallback) defaults_trimmed.1)
  have h₃ := stringField_projection ht (v := v.cursor) (k := bytes "cursor") (b := defaults.icons.cursor)
    (builtIn_of_mem (by simp only [builtIns,List.mem_cons,true_or,or_true]))
    (congrArg (fun a => a.icons.cursor) defaults_trimmed.1)
  rw [← h₁,← h₂,← h₃]
  constructor
  · rintro ⟨t',ht',-,k₁,k₂,k₃⟩
    cases ht.symm.trans ht'
    exact ⟨k₁,k₂,k₃⟩
  · rintro ⟨k₁,k₂,k₃⟩
    exact ⟨t,ht,onlyKeys_projection hkeys ht,k₁,k₂,k₃⟩

theorem layout_projection (v : Layout) :
    (∃ t, TableField (projection root) (bytes "layout") t ∧ LayoutSchema native t v) ↔
      Overrides nativeNum root (bytes "layout") (bytes "scale") defaults.layout.scale v.scale := by
  have hkeys : (bytes "layout",[bytes "scale"]) ∈ sectionKeys := by
    simp only [sectionKeys,List.mem_cons,true_or,or_true]
  obtain ⟨t,ht⟩ := @tableField_projection _ root _ (sectionKeys_spec hkeys).1
  have h₁ := field_projection ht nativeNum (v := v.scale) (k := bytes "scale")
    (d := floating defaults.layout.scale)
    (builtIn_of_mem (by simp only [builtIns,List.mem_cons,true_or,or_true])) rfl
  rw [← h₁]
  constructor
  · rintro ⟨t',ht',-,k₁⟩
    cases ht.symm.trans ht'
    exact k₁
  · intro k₁
    exact ⟨t,ht,onlyKeys_projection hkeys ht,k₁⟩

theorem shape_projection (v : Shape) :
    (∃ t, TableField (projection root) (bytes "shape") t ∧ ShapeSchema native t v) ↔
      (Overrides styleOf root (bytes "shape") (bytes "style") defaults.shape.style v.style ∧
        StyleTrimmed root) ∧
      Overrides nativeNum root (bytes "shape") (bytes "scale") defaults.shape.scale v.scale ∧
      Overrides extentOf root (bytes "shape") (bytes "base_radius")
        defaults.shape.baseRadius v.baseRadius ∧
      Overrides extentOf root (bytes "shape") (bytes "base_chamfer")
        defaults.shape.baseChamfer v.baseChamfer := by
  have hkeys : (bytes "shape",[bytes "style",bytes "scale",bytes "base_radius",bytes "base_chamfer"]) ∈ sectionKeys := by
    simp only [sectionKeys,List.mem_cons,true_or,or_true]
  obtain ⟨t,ht⟩ := @tableField_projection _ root _ (sectionKeys_spec hkeys).1
  have h₁ := field_projection ht (fun n => (text n).bind shapeStyleFromName) (v := v.style)
    (k := bytes "style") (d := string (shapeStyleName defaults.shape.style))
    (builtIn_of_mem (by simp only [builtIns,List.mem_cons,true_or,or_true]))
    defaults_trimmed.2
  have h₂ := field_projection ht nativeNum (v := v.scale) (k := bytes "scale")
    (d := floating defaults.shape.scale)
    (builtIn_of_mem (by simp only [builtIns,List.mem_cons,true_or,or_true])) rfl
  have h₃ := optionalField_projection ht (v := v.baseRadius) (k := bytes "base_radius")
    (builtIn_of_mem (by simp only [builtIns,List.mem_cons,true_or,or_true]))
  have h₄ := optionalField_projection ht (v := v.baseChamfer) (k := bytes "base_chamfer")
    (builtIn_of_mem (by simp only [builtIns,List.mem_cons,true_or,or_true]))
  rw [← style_iff,← h₁,← styleField_iff,← h₂]
  change _ ↔ _ ∧ _ ∧ Overrides extentOf root _ _ none _ ∧ Overrides extentOf root _ _ none _
  rw [← h₃,← h₄]
  constructor
  · rintro ⟨t',ht',-,k₁,k₂,k₃,k₄⟩
    cases ht.symm.trans ht'
    exact ⟨k₁,k₂,k₃,k₄⟩
  · rintro ⟨k₁,k₂,k₃,k₄⟩
    exact ⟨t,ht,onlyKeys_projection hkeys ht,k₁,k₂,k₃,k₄⟩

/-- The strict schema on the projection is the sparse one on the document. -/
theorem document_projection (a : Appearance) :
    TypesOk root ∧ Schema.Document converted (projection root) a ↔ Document root a ∧ StyleTrimmed root := by
  have hversion : field nativeInt (projection root) (bytes "version") = some kDocumentVersion := by
    unfold field
    rw [projection_get,default_version]
    rfl
  constructor
  · rintro ⟨ht,hd⟩
    obtain ⟨-,hv,hθ,hτ,hι,hl,hs,valid⟩ :=
      (native_document_iff _ _).mpr ⟨hd,native_projection ht⟩
    obtain ⟨h₁,h₂⟩ := (theme_projection _).mp hθ
    obtain ⟨h₃,h₄,h₅,h₆,h₇,h₈,h₉,h₁₀⟩ := (typography_projection _).mp hτ
    obtain ⟨h₁₁,h₁₂,h₁₃⟩ := (icons_projection _).mp hι
    obtain ⟨⟨h₁₅,hst⟩,h₁₆,h₁₇,h₁₈⟩ := (shape_projection _).mp hs
    have hv' : a.version = kDocumentVersion := Option.some.inj (hv.symm.trans hversion)
    exact ⟨⟨ht.1,hv',h₁,h₂,h₃,h₄,h₅,h₆,h₇,h₈,h₉,h₁₀,h₁₁,h₁₂,h₁₃,(layout_projection _).mp hl,h₁₅,h₁₆,h₁₇,
      h₁₈,valid⟩,hst⟩
  · rintro ⟨hd,hst⟩
    refine ⟨hd.typesOk,((native_document_iff _ _).mp ?_).1⟩
    exact {
      keys := onlyKeys_root
      version := by rw [hd.version]; exact hversion
      theme := (theme_projection _).mpr ⟨hd.scheme,hd.accent⟩
      typography := (typography_projection _).mpr ⟨hd.uiFamily,hd.uiSize,hd.monospaceFamily,
        hd.monospaceSize,hd.titleFamily,hd.titleSize,hd.displayFamily,hd.displaySize⟩
      icons := (icons_projection _).mpr ⟨hd.theme,hd.fallback,hd.cursor⟩
      layout := (layout_projection _).mpr hd.layoutScale
      shape := (shape_projection _).mpr ⟨⟨hd.style,hst⟩,hd.scale,hd.baseRadius,hd.baseChamfer⟩
      valid := hd.valid }

end Sparse
end HolonightConfig
