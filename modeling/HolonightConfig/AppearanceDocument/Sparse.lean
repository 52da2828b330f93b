import HolonightConfig.AppearanceDocument.Overlay
import HolonightConfig.Codec.Acceptance

/-! What a sparse version 2 document stands for: the built-in preferences where it is
silent, and its own values where it speaks. -/
namespace HolonightConfig
open Text Toml Posix

namespace Sparse
variable {σ : Type}

/-! ### The schema -/

inductive Kind
  | text | integer | number
  deriving DecidableEq

def Kind.admits : Kind → NodeType → Bool
  | .text,t => t == .string
  | .integer,t => t == .integer
  | .number,t => t == .integer || t == .floating

structure Field where
  section_ : Bytes
  key : Bytes
  kind : Kind

def sections : List Bytes :=
  [bytes "theme",bytes "typography",bytes "icons",bytes "layout",bytes "shape"]

def fields : List Field :=
  [⟨bytes "theme",bytes "scheme",.text⟩,⟨bytes "theme",bytes "accent",.text⟩,
    ⟨bytes "typography",bytes "ui_family",.text⟩,⟨bytes "typography",bytes "ui_size",.integer⟩,
    ⟨bytes "typography",bytes "monospace_family",.text⟩,
    ⟨bytes "typography",bytes "monospace_size",.integer⟩,
    ⟨bytes "typography",bytes "title_family",.text⟩,⟨bytes "typography",bytes "title_size",.integer⟩,
    ⟨bytes "typography",bytes "display_family",.text⟩,
    ⟨bytes "typography",bytes "display_size",.integer⟩,
    ⟨bytes "icons",bytes "theme",.text⟩,⟨bytes "icons",bytes "fallback",.text⟩,
    ⟨bytes "icons",bytes "cursor",.text⟩,⟨bytes "layout",bytes "scale",.number⟩,
    ⟨bytes "shape",bytes "style",.text⟩,⟨bytes "shape",bytes "scale",.number⟩,
    ⟨bytes "shape",bytes "base_radius",.number⟩,⟨bytes "shape",bytes "base_chamfer",.number⟩]

def kindOf (s k : Bytes) : Option Kind :=
  (fields.find? (fun f => f.section_ == s && f.key == k)).map Field.kind

def trimmedText (n : Node Unit) : Option Bytes := (Schema.text n).map trim

def styleOf (n : Node Unit) : Option ShapeStyle := (trimmedText n).bind shapeStyleFromName

def extentOf (n : Node Unit) : Option (Option Binary64) := (Schema.nativeNum n).map some

/-- A value is the document's where the document has one, and the built-in one otherwise. -/
def Overrides {α : Type} (reader : Node Unit → Option α) (root : Entries σ) (s k : Bytes)
    (builtIn v : α) : Prop :=
  ((root.find [s,k]).elim (some builtIn) (fun n => reader n.erase)) = some v

instance {α : Type} [DecidableEq α] (reader : Node Unit → Option α) (root : Entries σ) (s k : Bytes)
    (builtIn v : α) : Decidable (Overrides reader root s k builtIn v) :=
  inferInstanceAs (Decidable (_ = _))

/-- The appearance a sparse tree stands for. -/
structure Document (root : Entries σ) (a : Appearance) : Prop where
  tables : ∀ s ∈ sections, ∀ n, root.get s = some n → n.isTable = true
  version : a.version = kDocumentVersion
  scheme : Overrides trimmedText root (bytes "theme") (bytes "scheme") defaults.theme.scheme a.theme.scheme
  accent : Overrides trimmedText root (bytes "theme") (bytes "accent") defaults.theme.accent a.theme.accent
  uiFamily : Overrides trimmedText root (bytes "typography") (bytes "ui_family")
    defaults.typography.uiFamily a.typography.uiFamily
  uiSize : Overrides Schema.nativeInt root (bytes "typography") (bytes "ui_size")
    defaults.typography.uiSize a.typography.uiSize
  monospaceFamily : Overrides trimmedText root (bytes "typography") (bytes "monospace_family")
    defaults.typography.monospaceFamily a.typography.monospaceFamily
  monospaceSize : Overrides Schema.nativeInt root (bytes "typography") (bytes "monospace_size")
    defaults.typography.monospaceSize a.typography.monospaceSize
  titleFamily : Overrides trimmedText root (bytes "typography") (bytes "title_family")
    defaults.typography.titleFamily a.typography.titleFamily
  titleSize : Overrides Schema.nativeInt root (bytes "typography") (bytes "title_size")
    defaults.typography.titleSize a.typography.titleSize
  displayFamily : Overrides trimmedText root (bytes "typography") (bytes "display_family")
    defaults.typography.displayFamily a.typography.displayFamily
  displaySize : Overrides Schema.nativeInt root (bytes "typography") (bytes "display_size")
    defaults.typography.displaySize a.typography.displaySize
  theme : Overrides trimmedText root (bytes "icons") (bytes "theme") defaults.icons.theme a.icons.theme
  fallback : Overrides trimmedText root (bytes "icons") (bytes "fallback")
    defaults.icons.fallback a.icons.fallback
  cursor : Overrides trimmedText root (bytes "icons") (bytes "cursor") defaults.icons.cursor a.icons.cursor
  layoutScale : Overrides Schema.nativeNum root (bytes "layout") (bytes "scale")
    defaults.layout.scale a.layout.scale
  style : Overrides styleOf root (bytes "shape") (bytes "style") defaults.shape.style a.shape.style
  scale : Overrides Schema.nativeNum root (bytes "shape") (bytes "scale") defaults.shape.scale a.shape.scale
  baseRadius : Overrides extentOf root (bytes "shape") (bytes "base_radius")
    defaults.shape.baseRadius a.shape.baseRadius
  baseChamfer : Overrides extentOf root (bytes "shape") (bytes "base_chamfer")
    defaults.shape.baseChamfer a.shape.baseChamfer
  valid : a.Valid

/-- Sections are tables and known fields have their types. -/
def TypesOk (root : Entries σ) : Prop :=
  (∀ s ∈ sections, ∀ n, root.get s = some n → n.isTable = true) ∧
  ∀ s ∈ sections, ∀ k kind, kindOf s k = some kind → ∀ n, root.find [s,k] = some n →
    kind.admits n.type = true

/-- The key paths that are unknown while the tables above them are known. -/
def unknownPaths (root : Entries σ) : List KeyPath :=
  root.flatMap (fun e =>
    if e.1 = bytes "version" then []
    else if e.1 ∈ sections then
      ((e.2.asTable.getD []).filter (fun m => (kindOf e.1 m.1).isNone)).map (fun m => [e.1,m.1])
    else [[e.1]])

def pathText (p : KeyPath) : Bytes := (bytes ".").intercalate p

@[simp] theorem pathText_one (k : Bytes) : pathText [k] = k := by simp [pathText]
@[simp] theorem pathText_two (s k : Bytes) : pathText [s,k] = s ++ bytes "." ++ k := by
  simp [pathText,List.intercalate]

/-! ### The projected table -/

def string (v : Bytes) : Node Unit := .scalar () (.string v)
def integer (v : ℤ) : Node Unit := .scalar () (.integer v)
def floating (v : Binary64) : Node Unit := .scalar () (.floating v)

/-- The tree of the default document. -/
def defaultTable : Entries Unit :=
  [(bytes "icons",.table () false
      [(bytes "cursor",string defaults.icons.cursor),(bytes "fallback",string defaults.icons.fallback),
        (bytes "theme",string defaults.icons.theme)]),
    (bytes "layout",.table () false [(bytes "scale",floating defaults.layout.scale)]),
    (bytes "shape",.table () false
      [(bytes "scale",floating defaults.shape.scale),
        (bytes "style",string (shapeStyleName defaults.shape.style))]),
    (bytes "theme",.table () false
      [(bytes "accent",string defaults.theme.accent),(bytes "scheme",string defaults.theme.scheme)]),
    (bytes "typography",.table () false
      [(bytes "display_family",string defaults.typography.displayFamily),
        (bytes "display_size",integer defaults.typography.displaySize),
        (bytes "monospace_family",string defaults.typography.monospaceFamily),
        (bytes "monospace_size",integer defaults.typography.monospaceSize),
        (bytes "title_family",string defaults.typography.titleFamily),
        (bytes "title_size",integer defaults.typography.titleSize),
        (bytes "ui_family",string defaults.typography.uiFamily),
        (bytes "ui_size",integer defaults.typography.uiSize)]),
    (bytes "version",integer defaults.version)]

def assign (given : Bytes → Option (Node Unit)) (t : Entries Unit) (k : Bytes) : Entries Unit :=
  match given k with
  | some n => Entries.insertOrAssign k n t
  | none => t

/-- A section of the default document with the known fields of another in place. -/
def projectSection (root : Entries σ) (s : Bytes) (t : Entries Unit) : Entries Unit :=
  ((fields.filter (fun f => f.section_ == s)).map Field.key).foldl
    (assign (fun k => (root.find [s,k]).map Node.erase)) t

def projectNode (root : Entries σ) (s : Bytes) : Node Unit → Node Unit
  | .table u i t => .table u i (projectSection root s t)
  | n => n

/-- The default document with the known fields of another in place. -/
def projection (root : Entries σ) : Entries Unit :=
  defaultTable.map (fun e => (e.1,projectNode root e.1 e.2))

theorem assign_get_self (given : Bytes → Option (Node Unit)) (t : Entries Unit) (k : Bytes) :
    (assign given t k).get k = (given k).or (t.get k) := by
  unfold assign
  cases h : given k with
  | none => simp
  | some n => simp [Entries.get]

theorem assign_get_of_ne {k k' : Bytes} (h : k' ≠ k) (given : Bytes → Option (Node Unit))
    (t : Entries Unit) : (assign given t k).get k' = t.get k' := by
  unfold assign
  cases given k with
  | none => rfl
  | some n => exact Entries.lookup_insertOrAssign_of_ne h n t

theorem foldl_assign_get (given : Bytes → Option (Node Unit)) (ks : List Bytes) (t : Entries Unit)
    (k : Bytes) :
    Entries.get (ks.foldl (assign given) t) k = if k ∈ ks then (given k).or (t.get k) else t.get k := by
  induction ks generalizing t with
  | nil => simp
  | cons k₀ ks ih =>
    rw [List.foldl_cons,ih]
    by_cases hk : k = k₀
    · subst hk
      rw [assign_get_self]
      by_cases hm : k ∈ ks
      · cases given k <;> simp [hm]
      · simp [hm]
    · rw [assign_get_of_ne hk]
      simp [hk]

theorem foldl_assign_sorted (given : Bytes → Option (Node Unit)) (ks : List Bytes) {t : Entries Unit}
    (h : SortedKeys t) : SortedKeys (ks.foldl (assign given) t) := by
  induction ks generalizing t with
  | nil => exact h
  | cons k ks ih =>
    refine ih ?_
    unfold assign
    split
    · exact h.insertOrAssign k _
    · exact h

theorem kindOf_isSome (s k : Bytes) :
    (kindOf s k).isSome = true ↔ k ∈ (fields.filter (fun f => f.section_ == s)).map Field.key := by
  simp only [kindOf,Option.isSome_map,List.find?_isSome,List.mem_map,List.mem_filter]
  constructor
  · rintro ⟨f,hf,h⟩
    simp only [Bool.and_eq_true,beq_iff_eq] at h
    exact ⟨f,⟨hf,by simpa using h.1⟩,h.2⟩
  · rintro ⟨f,⟨hf,hs⟩,rfl⟩
    exact ⟨f,hf,by simpa using hs⟩

theorem projectSection_get (root : Entries σ) (s : Bytes) (t : Entries Unit) (k : Bytes) :
    (projectSection root s t).get k =
      if (kindOf s k).isSome then ((root.find [s,k]).map Node.erase).or (t.get k) else t.get k := by
  rw [projectSection,foldl_assign_get]
  simp only [kindOf_isSome]

theorem projection_get (root : Entries σ) (k : Bytes) :
    (projection root).get k = (defaultTable.get k).map (projectNode root k) := by
  unfold projection Entries.get
  induction defaultTable with
  | nil => rfl
  | cons e es ih =>
    obtain ⟨k',n⟩ := e
    simp only [List.map_cons,List.lookup_cons]
    split
    · next h =>
      obtain rfl : k = k' := by simpa using h
      rfl
    · exact ih

/-! ### The default document -/

theorem parse_defaults :
    (Toml.parse (Codec.document defaults)).map Node.eraseEntries = some defaultTable := by
  decide +kernel

/-- The type a field of this kind has in the default document. -/
def Kind.builtIn : Kind → NodeType
  | .text => .string
  | .integer => .integer
  | .number => .floating

/-- What is relied on of the default document, section by section and field by field. -/
structure BuiltInTable (d : Entries Unit) : Prop where
  sorted : SortedKeys d
  sorted_sections : d.all (fun e => decide (SortedKeys (e.2.asTable.getD []))) = true
  version : d.get (bytes "version") = some (.scalar () (.integer 1))
  tables : sections.all (fun s => (d.get s).any (fun n => n.isTable && !n.isInline)) = true
  keys : d.all (fun e => e.1 == bytes "version" || sections.contains e.1) = true
  fields : fields.all (fun f =>
    let optional := AppearanceDocument.isOptionalShape (f.section_ ++ bytes ".") f.key
    match d.find [f.section_,f.key] with
    | none => optional && f.kind == .number
    | some (.scalar _ v) => v.type == f.kind.builtIn && !optional
    | some _ => false) = true
  known : d.all (fun e => (e.2.asTable.getD []).all (fun m => (kindOf e.1 m.1).isSome)) = true
  optional : [bytes "base_radius",bytes "base_chamfer"].all
    (fun k => (kindOf (bytes "shape") k).isSome) = true

theorem defaultTable_spec : BuiltInTable defaultTable := by
  constructor
  all_goals decide +kernel

theorem default_sorted : SortedKeys defaultTable := BuiltInTable.sorted defaultTable_spec

theorem default_section_sorted {s : Bytes} {u : Unit} {i : Bool} {t : Entries Unit}
    (h : defaultTable.get s = some (.table u i t)) : SortedKeys t := by
  have hs := List.all_eq_true.mp (BuiltInTable.sorted_sections defaultTable_spec) _ (mem_of_lookup h)
  simp only [Node.asTable,Option.getD_some] at hs
  exact of_decide_eq_true hs

theorem default_version : defaultTable.get (bytes "version") = some (.scalar () (.integer 1)) :=
  BuiltInTable.version defaultTable_spec

theorem projection_sorted (root : Entries σ) : SortedKeys (projection root) :=
  List.Pairwise.map _ (fun _ _ h => h) default_sorted

theorem default_section {s : Bytes} (h : s ∈ sections) :
    ∃ t, defaultTable.get s = some (.table () false t) := by
  have hs := List.all_eq_true.mp (BuiltInTable.tables defaultTable_spec) s h
  cases hg : defaultTable.get s with
  | none => simp [hg] at hs
  | some n =>
    cases n with
    | table u i t =>
      cases i with
      | false => exact ⟨t,rfl⟩
      | true => simp [hg,Node.isTable,Node.isInline] at hs
    | _ => simp [hg,Node.isTable] at hs

theorem default_keys {k : Bytes} (h : (defaultTable.get k).isSome = true) :
    k = bytes "version" ∨ k ∈ sections := by
  obtain ⟨n,hn⟩ := Option.isSome_iff_exists.mp h
  simpa using List.all_eq_true.mp (BuiltInTable.keys defaultTable_spec) _ (mem_of_lookup hn)

/-- The separators of paths. -/
theorem bytes_dot : bytes "." = [0x2E] ∧ bytes "shape." = bytes "shape" ++ [0x2E] ∧
    bytes "version" ∉ sections := by decide +kernel

theorem version_notMem_sections : bytes "version" ∉ sections := bytes_dot.2.2

theorem isOptionalShape_section {s k : Bytes}
    (h : AppearanceDocument.isOptionalShape (s ++ bytes ".") k = true) :
    s = bytes "shape" ∧ (k = bytes "base_radius" ∨ k = bytes "base_chamfer") := by
  simpa [AppearanceDocument.isOptionalShape,bytes_dot.1,bytes_dot.2.1] using h

/-- What the default document has at a known field: a scalar of the field's type, or
nothing if the field is optional. -/
theorem default_field {s k : Bytes} {kind : Kind} (h : kindOf s k = some kind) {t : Entries Unit}
    (ht : defaultTable.get s = some (.table () false t)) :
    (t.get k = none ∧ AppearanceDocument.isOptionalShape (s ++ bytes ".") k = true ∧ kind = .number) ∨
    (∃ v, t.get k = some (.scalar () v) ∧ v.type = kind.builtIn ∧
      AppearanceDocument.isOptionalShape (s ++ bytes ".") k = false) := by
  obtain ⟨f,hf,rfl⟩ := Option.map_eq_some_iff.mp h
  have hsk := List.find?_some hf
  simp only [Bool.and_eq_true,beq_iff_eq] at hsk
  obtain ⟨rfl,rfl⟩ := hsk
  have hc := List.all_eq_true.mp (BuiltInTable.fields defaultTable_spec) f (List.mem_of_find?_eq_some hf)
  have hfind : defaultTable.find [f.section_,f.key] = t.get f.key := by
    simp [Entries.find,ht,Node.asTable]
  simp only [hfind] at hc
  cases hg : t.get f.key with
  | none => simpa [hg] using hc
  | some n =>
    cases n with
    | scalar u v => exact .inr ⟨v,rfl,by simpa [hg] using hc⟩
    | _ => simp [hg] at hc

theorem default_unknown {s k : Bytes} (hs : s ∈ sections) (h : kindOf s k = none) {t : Entries Unit}
    (ht : defaultTable.get s = some (.table () false t)) :
    t.get k = none ∧ AppearanceDocument.isOptionalShape (s ++ bytes ".") k = false := by
  constructor
  · cases hg : t.get k with
    | none => rfl
    | some n =>
      have he := List.all_eq_true.mp (BuiltInTable.known defaultTable_spec) _ (mem_of_lookup ht)
      have := List.all_eq_true.mp he _ (mem_of_lookup hg)
      simp [h] at this
  · cases ho : AppearanceDocument.isOptionalShape (s ++ bytes ".") k with
    | false => rfl
    | true =>
      obtain ⟨rfl,hk⟩ := isOptionalShape_section ho
      have := List.all_eq_true.mp (BuiltInTable.optional defaultTable_spec) k (by simpa using hk)
      simp [h] at this

/-! ### Laying the document over the default one -/

section Overlaying
open AppearanceDocument
variable (snapshot : DocumentSnapshot)

def unknownNote (name : Bytes) : Diagnostic :=
  diagnostic (bytes "unknown field " ++ name) snapshot .warning .validationError

theorem invalidType_builtIn (src : Region) {v : Scalar} {kind : Kind} (hv : v.type = kind.builtIn)
    (n : Node Region) : invalidType (some (.scalar src v)) n false = !kind.admits n.type := by
  unfold invalidType
  cases kind <;> simp [hv,Kind.builtIn,Kind.admits,Node.isNumber,bne]

variable {template : Entries Region} (hT : Node.eraseEntries template = defaultTable)
include hT

theorem template_section {s : Bytes} (h : s ∈ sections) :
    ∃ src t, template.get s = some (.table src false t) ∧
      defaultTable.get s = some (.table () false (Node.eraseEntries t)) := by
  obtain ⟨t,ht⟩ := default_section h
  rw [← hT,Entries.get_eraseEntries] at ht
  obtain ⟨n,hn,he⟩ := Option.map_eq_some_iff.mp ht
  cases n with
  | table src i es =>
    simp only [Node.erase,Node.table.injEq] at he
    obtain ⟨-,rfl,rfl⟩ := he
    exact ⟨src,es,hn,by rw [← hT,Entries.get_eraseEntries,hn]; rfl⟩
  | _ => simp [Node.erase] at he

omit hT in
/-- Inside a section, unknown fields are passed over with a note and known ones of the
right type are taken. -/
theorem overlayNode_field {s : Bytes} (hs : s ∈ sections) {t : Entries Region}
    (ht : defaultTable.get s = some (.table () false (Node.eraseEntries t))) (k : Bytes)
    (n : Node Region) :
    overlayNode snapshot t (s ++ bytes ".") k n =
      match kindOf s k with
      | none => (t,[unknownNote snapshot (s ++ bytes "." ++ k)])
      | some kind =>
        if kind.admits n.type then (Entries.insertOrAssign k n t,[])
        else (t,[diagnostic (bytes "invalid type for " ++ (s ++ bytes "." ++ k)) snapshot .error
          .validationError]) := by
  have hget : ∀ m, t.get k = some m → (Node.eraseEntries t : Entries Unit).get k = some m.erase := by
    intro m hm
    rw [Entries.get_eraseEntries,hm]
    rfl
  have hnone : (Node.eraseEntries t : Entries Unit).get k = none → t.get k = none := by
    intro h
    rw [Entries.get_eraseEntries] at h
    simpa using h
  rcases @overlayNode_cases snapshot t (s ++ bytes ".") k n with
    ⟨src,i,known,incoming,hk,-,-⟩ | ⟨-,he⟩
  · -- No field of a section is a table.
    exfalso
    cases hkind : kindOf s k with
    | none => simp [(default_unknown hs hkind ht).1] at hget; simp [hget] at hk
    | some kind =>
      rcases default_field hkind ht with ⟨h,-,-⟩ | ⟨v,h,-,-⟩
      · simp [hnone h] at hk
      · have := hget _ hk
        rw [h] at this
        simp [Node.erase] at this
  · rw [he]
    unfold overlayField
    cases hkind : kindOf s k with
    | none =>
      obtain ⟨h,ho⟩ := default_unknown hs hkind ht
      simp [hnone h,ho,unknownNote]
    | some kind =>
      rcases default_field hkind ht with ⟨h,ho,rfl⟩ | ⟨v,h,hv,ho⟩
      · simp only [hnone h,ho,invalidType]
        by_cases ha : Kind.number.admits n.type
        · simp [ha,show n.isNumber = true from ha]
        · simp [ha,show n.isNumber = false by simpa [Node.isNumber,Kind.admits] using ha]
      · obtain ⟨m,hm,hme⟩ : ∃ m, t.get k = some m ∧ m.erase = .scalar () v := by
          rw [Entries.get_eraseEntries] at h
          exact Option.map_eq_some_iff.mp h
        obtain ⟨src,rfl⟩ : ∃ src, m = .scalar src v := by
          cases m with
          | scalar src w => cases hme; exact ⟨src,rfl⟩
          | _ => simp [Node.erase] at hme
        simp only [hm,ho,invalidType_builtIn src hv n]
        by_cases ha : kind.admits n.type <;> simp [ha,Node.isTable]

theorem unknown_get {k : Bytes} (hv : k ≠ bytes "version") (hs : k ∉ sections) :
    template.get k = none := by
  cases hg : template.get k with
  | none => rfl
  | some m =>
    have hd : (defaultTable.get k).isSome = true := by
      rw [← hT,Entries.get_eraseEntries,hg]
      rfl
    rcases default_keys hd with h | h
    · exact absurd h hv
    · exact absurd h hs

/-- At the root, sections are gone into and everything else is passed over with a note. -/
theorem overlayNode_root (k : Bytes) (n : Node Region) (hk : k ≠ bytes "version") :
    (k ∉ sections ∧ overlayNode snapshot template [] k n = (template,[unknownNote snapshot k])) ∨
    (k ∈ sections ∧ n.asTable = none ∧ ∃ d : Diagnostic, d.severity = .error ∧
      overlayNode snapshot template [] k n = (template,[d])) ∨
    (k ∈ sections ∧ ∃ src t es, template.get k = some (.table src false t) ∧
      defaultTable.get k = some (.table () false (Node.eraseEntries t)) ∧ n.asTable = some es ∧
      overlayNode snapshot template [] k n =
        (Entries.replace k (.table src false (overlay snapshot t (k ++ bytes ".") es).1) template,
          (overlay snapshot t (k ++ bytes ".") es).2)) := by
  have hopt : isOptionalShape [] k = false := by
    simp [isOptionalShape,bytes_dot.2.1]
  by_cases hs : k ∈ sections
  · obtain ⟨src,t,hg,hd⟩ := template_section hT hs
    rcases @overlayNode_cases snapshot template [] k n with
      ⟨src',i,known,es,hk',hn,he⟩ | ⟨hf,he⟩
    · rw [hg] at hk'
      cases hk'
      exact .inr (.inr ⟨hs,src,t,es,hg,hd,hn,by simpa using he⟩)
    · have hn : n.asTable = none := by simpa [hg,Node.asTable] using hf
      refine .inr (.inl ⟨hs,hn,diagnostic (bytes "invalid table " ++ ([] ++ k)) snapshot .error
        .validationError,rfl,?_⟩)
      rw [he]
      simp [overlayField,hg,Node.isTable]
  · have hg := unknown_get hT hk hs
    left
    refine ⟨hs,?_⟩
    rcases @overlayNode_cases snapshot template [] k n with
      ⟨src',i,known,es,hk',-,-⟩ | ⟨-,he⟩
    · rw [hg] at hk'
      cases hk'
    · rw [he]
      simp [overlayField,hg,hopt,unknownNote]

omit hT in
/-- The notes on one field of a section. -/
theorem section_notes {s : Bytes} (hs : s ∈ sections) {t es : Entries Region}
    (ht : defaultTable.get s = some (.table () false (Node.eraseEntries t)))
    (hd : DistinctKeys es) :
    (hasErrors (overlay snapshot t (s ++ bytes ".") es).2 = false ↔
      ∀ k kind, kindOf s k = some kind → ∀ n, es.get k = some n → kind.admits n.type = true) ∧
    (hasErrors (overlay snapshot t (s ++ bytes ".") es).2 = false →
      (overlay snapshot t (s ++ bytes ".") es).2 = (es.filter (fun m => (kindOf s m.1).isNone)).map
        (fun m => unknownNote snapshot (pathText [s,m.1]))) := by
  have hpre : ∀ k, ¬ isReserved (s ++ bytes ".") k := by
    simp [isReserved,bytes_dot.1]
  rw [overlay_notes t (s ++ bytes ".") hd]
  simp only [if_neg (hpre _)]
  have hstep : ∀ e : Bytes × Node Region,
      (hasErrors (overlayNode snapshot t (s ++ bytes ".") e.1 e.2).2 = false ↔
        ∀ kind, kindOf s e.1 = some kind → kind.admits e.2.type = true) ∧
      (hasErrors (overlayNode snapshot t (s ++ bytes ".") e.1 e.2).2 = false →
        (overlayNode snapshot t (s ++ bytes ".") e.1 e.2).2 =
          if (kindOf s e.1).isNone then [unknownNote snapshot (pathText [s,e.1])] else []) := by
    intro e
    rw [overlayNode_field snapshot hs ht]
    cases kindOf s e.1 with
    | none => simp [unknownNote,diagnostic,hasErrors]
    | some kind =>
      by_cases ha : kind.admits e.2.type
      · simp [ha]
      · simp [ha,diagnostic,hasErrors]
  constructor
  · rw [hasErrors_flatMap,List.any_eq_false]
    constructor
    · intro h k kind hk n hn
      exact (hstep (k,n)).1.mp (by simpa using h _ (mem_of_lookup hn)) kind hk
    · intro h e he
      have hg : Entries.get es e.1 = some e.2 := hd.lookup_of_mem he
      simpa using (hstep e).1.mpr (fun kind hk => h e.1 kind hk e.2 hg)
  · rw [hasErrors_flatMap,List.any_eq_false]
    intro h
    clear hd
    induction es with
    | nil => rfl
    | cons e es ih =>
      rw [List.forall_mem_cons] at h
      rw [List.flatMap_cons,ih h.2,(hstep e).2 (by simpa using h.1)]
      cases hk : kindOf s e.1 <;> simp [hk]

/-- The notes of one entry of the document: errors where it is no section of the right types, and a
warning for every unknown path in it. -/
theorem entry_notes {root : Entries Region} (hd : Node.DistinctEntries root) {e : Bytes × Node Region} (he : e ∈ root) :
    (hasErrors (if isReserved [] e.1 then [] else (overlayNode snapshot template [] e.1 e.2).2) = false ↔
      (e.1 ∈ sections → ∃ es, e.2.asTable = some es ∧ ∀ k kind, kindOf e.1 k = some kind →
        ∀ n, es.get k = some n → kind.admits n.type = true)) ∧
    (hasErrors (if isReserved [] e.1 then [] else (overlayNode snapshot template [] e.1 e.2).2) = false →
      (if isReserved [] e.1 then [] else (overlayNode snapshot template [] e.1 e.2).2) =
        (if e.1 = bytes "version" then []
          else if e.1 ∈ sections then
            ((e.2.asTable.getD []).filter (fun m => (kindOf e.1 m.1).isNone)).map (fun m => [e.1,m.1])
          else [[e.1]]).map (fun p => unknownNote snapshot (pathText p))) := by
  by_cases hv : e.1 = bytes "version"
  · have := version_notMem_sections
    rw [← hv] at this
    simp [isReserved,hv,version_notMem_sections]
  · have hr : ¬ isReserved [] e.1 := by simp [isReserved,hv]
    rw [if_neg hr,if_neg hv]
    rcases overlayNode_root snapshot hT e.1 e.2 hv with ⟨hs,h⟩ | ⟨hs,hn,d,hd',h⟩ |
      ⟨hs,src,t,es,hg,ht,hn,h⟩
    · rw [h]
      simp [hs,unknownNote,diagnostic,hasErrors]
    · rw [h]
      simp [hs,hn,hasErrors,hd']
    · rw [h]
      obtain ⟨h₁,h₂⟩ := section_notes snapshot hs ht ((hd.2 e he).asTable hn).1
      simp only [hs,hn,if_true,true_imp_iff,Option.some.injEq,exists_eq_left',Option.getD_some]
      refine ⟨h₁,fun h => ?_⟩
      rw [h₂ h,List.map_map]
      rfl

omit hT in
/-- The types are right where they are in every section. -/
theorem typesOk_iff_entries {root : Entries Region} (hd : Node.DistinctEntries root) :
    TypesOk root ↔ ∀ e ∈ root, e.1 ∈ sections → ∃ es, e.2.asTable = some es ∧
      ∀ k kind, kindOf e.1 k = some kind → ∀ n, es.get k = some n → kind.admits n.type = true := by
  constructor
  · rintro ⟨htab,htype⟩ e he hs
    have hg : root.get e.1 = some e.2 := hd.1.lookup_of_mem he
    have ht := htab e.1 hs e.2 hg
    cases hn : e.2.asTable with
    | none => cases h2 : e.2 <;> simp [h2,Node.isTable,Node.asTable] at ht hn
    | some es =>
      refine ⟨es,rfl,fun k kind hk n hkn => htype e.1 hs k kind hk n ?_⟩
      simp [Entries.find,hg,hn,hkn]
  · intro h
    constructor
    · intro s hs n hn
      obtain ⟨es,he,-⟩ := h (s,n) (mem_of_lookup hn) hs
      cases n with
      | table src i es => rfl
      | _ => cases he
    · intro s hs k kind hk n hn
      simp only [Entries.find,Option.bind_eq_some_iff] at hn
      obtain ⟨es,⟨m,hm,hes⟩,hn⟩ := hn
      obtain ⟨es',he',h'⟩ := h (s,m) (mem_of_lookup hm) hs
      rw [hes] at he'
      cases he'
      exact h' k kind hk n hn

/-- The notes of the whole document: errors where a known key has another type, and a
warning for every unknown path. -/
theorem root_notes {root : Entries Region} (hd : Node.DistinctEntries root) :
    (hasErrors (overlay snapshot template [] root).2 = false ↔ TypesOk root) ∧
    (hasErrors (overlay snapshot template [] root).2 = false →
      (overlay snapshot template [] root).2 =
        (unknownPaths root).map (fun p => unknownNote snapshot (pathText p))) := by
  rw [overlay_notes template [] hd.1,hasErrors_flatMap,List.any_eq_false]
  constructor
  · rw [typesOk_iff_entries hd]
    refine forall₂_congr (fun e he => ?_)
    rw [← (entry_notes snapshot hT hd he).1,Bool.not_eq_true]
  · intro h
    unfold unknownPaths
    rw [List.map_flatMap]
    apply List.flatMap_congr
    intro e he
    exact (entry_notes snapshot hT hd he).2 (by simpa using h e he)

omit hT in
/-- A section laid over the default one holds the known fields of both. -/
theorem section_projection {root : Entries Region} (htypes : TypesOk root) {s : Bytes} (hs : s ∈ sections)
    {t : Entries Region} (ht : defaultTable.get s = some (.table () false (Node.eraseEntries t)))
    {n : Node Region} (hn : root.get s = some n) {es : Entries Region} (hes : n.asTable = some es)
    (hd : DistinctKeys es) :
    Node.eraseEntries (overlay snapshot t (s ++ bytes ".") es).1 =
      projectSection root s (Node.eraseEntries t) := by
  have hsort := default_section_sorted ht
  have hfind : ∀ j, root.find [s,j] = es.get j := fun j => by simp [Entries.find,hn,hes]
  refine SortedKeys.ext ?_ (foldl_assign_sorted _ _ hsort) (fun j => ?_)
  · rw [Node.sortedKeys_erase] at hsort ⊢
    exact overlay_sorted hsort _ es
  · change Entries.get _ j = Entries.get _ j
    rw [projectSection_get,hfind,Entries.get_eraseEntries,Entries.get_eraseEntries,overlay_get _ _ _ hd]
    have hr : ¬ isReserved (s ++ bytes ".") j := by
      simp [isReserved,bytes_dot.1]
    cases hj : es.get j with
    | none => simp
    | some m =>
      simp only [if_neg hr,overlayNode_field snapshot hs ht]
      cases hk : kindOf s j with
      | none => simp
      | some kind =>
        have ha := htypes.2 s hs j kind hk m (by rw [hfind,hj])
        simp [ha,Entries.get]

/-- With types in order, what is printed is the projection. -/
theorem overlay_projection {root : Entries Region} (hd : Node.DistinctEntries root)
    (htypes : TypesOk root) :
    Node.eraseEntries (overlay snapshot template [] root).1 = projection root := by
  refine SortedKeys.ext ?_ (projection_sorted root) (fun k => ?_)
  · have hsort := default_sorted
    rw [← hT,Node.sortedKeys_erase] at hsort
    rw [Node.sortedKeys_erase]
    exact overlay_sorted hsort [] root
  · change Entries.get _ k = Entries.get _ k
    rw [projection_get,Entries.get_eraseEntries,overlay_get _ _ _ hd.1,← hT,Entries.get_eraseEntries]
    by_cases hv : k = bytes "version"
    · subst hv
      have hg := default_version
      rw [← hT,Entries.get_eraseEntries] at hg
      have hr : isReserved [] (bytes "version") := ⟨rfl,rfl⟩
      cases root.get (bytes "version") with
      | none => rw [hg]; rfl
      | some n => simp only [if_pos hr]; rw [hg]; rfl
    · have hr : ¬ isReserved [] k := by simp [isReserved,hv]
      cases hk : root.get k with
      | none =>
        by_cases hs : k ∈ sections
        · obtain ⟨src,t,hg,ht⟩ := template_section hT hs
          simp only [hg,Option.map_some,Node.erase,projectNode]
          congr 2
          refine SortedKeys.ext (default_section_sorted ht)
            (foldl_assign_sorted _ _ (default_section_sorted ht)) (fun j => ?_)
          change Entries.get _ j = Entries.get _ j
          simp [projectSection_get,Entries.find,hk]
        · have hg := unknown_get hT hv hs
          simp [hg]
      | some n =>
        simp only [if_neg hr]
        rcases overlayNode_root snapshot hT k n hv with ⟨hs,h⟩ | ⟨hs,hn,-⟩ | ⟨hs,src,t,es,hg,ht,hn,h⟩
        · rw [h,unknown_get hT hv hs]
          rfl
        · have := htypes.1 k hs n hk
          cases n <;> simp [Node.isTable,Node.asTable] at this hn
        · rw [h,Entries.get,Entries.lookup_replace_self k _ hg,hg]
          simp only [Option.map_some,Node.erase,projectNode]
          rw [section_projection snapshot htypes hs ht hk hn ((hd.get hk).asTable hn).1]

end Overlaying

end Sparse
end HolonightConfig
