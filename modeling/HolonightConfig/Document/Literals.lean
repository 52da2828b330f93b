import HolonightConfig.Document.Merge
import HolonightConfig.Document.Overrides
import HolonightConfig.Toml.Assignments

/-! Which values can be written: a pending value is printed, read back as a probe document,
and refused where that document does not have exactly one override. -/
namespace HolonightConfig
open Text Toml Posix

namespace Document

/-! ### The nodes behind the overrides -/

mutual
/-- The nodes that are recorded as overrides. -/
def nodeRecords (path : KeyPath) : Node Region → List (KeyPath × Node Region)
  | .table source isInline es =>
    (if isInline then [(path,.table source isInline es)] else []) ++ records path es
  | .array source items => [(path,.array source items)]
  | .scalar source v => [(path,.scalar source v)]
def records (pre : KeyPath) : Entries Region → List (KeyPath × Node Region)
  | [] => []
  | (key,node) :: es => nodeRecords (pre ++ [key]) node ++ records pre es
end

mutual
/-- The overrides outside inline tables. -/
def nodeStatements (path : KeyPath) : Node Region → List (KeyPath × Node Region)
  | .table source isInline es => if isInline then [(path,.table source isInline es)] else statements path es
  | .array source items => [(path,.array source items)]
  | .scalar source v => [(path,.scalar source v)]
def statements (pre : KeyPath) : Entries Region → List (KeyPath × Node Region)
  | [] => []
  | (key,node) :: es => nodeStatements (pre ++ [key]) node ++ statements pre es
end

/-- The overrides inside an inline table. -/
def below : KeyPath × Node Region → List (KeyPath × Node Region)
  | (path,.table _ true es) => records path es
  | _ => []

mutual
/-- A table that is an override is an inline one. -/
theorem inline_nodeRecords (path : KeyPath) : ∀ n : Node Region, ∀ r ∈ nodeRecords path n,
    r.2.isTable = true → r.2.isInline = true
  | .scalar source v,r,hr => by
    obtain rfl := List.mem_singleton.mp hr
    rintro ⟨⟩
  | .array source ns,r,hr => by
    obtain rfl := List.mem_singleton.mp hr
    rintro ⟨⟩
  | .table source isInline es,r,hr => by
    rcases List.mem_append.mp hr with hr | hr
    · cases isInline with
      | false => cases hr
      | true =>
        obtain rfl := List.mem_singleton.mp hr
        exact fun _ => rfl
    · exact inline_records path es r hr
theorem inline_records (pre : KeyPath) : ∀ es : Entries Region, ∀ r ∈ records pre es,
    r.2.isTable = true → r.2.isInline = true
  | [],r,hr => by cases hr
  | (k,n) :: es,r,hr => by
    rcases List.mem_append.mp hr with hr | hr
    · exact inline_nodeRecords (pre ++ [k]) n r hr
    · exact inline_records pre es r hr
end

mutual
/-- Every override is one outside inline tables, or inside one of those. -/
theorem mem_nodeRecords (path : KeyPath) (r : KeyPath × Node Region) : ∀ n : Node Region,
    r ∈ nodeRecords path n ↔ ∃ o ∈ nodeStatements path n, r = o ∨ r ∈ below o
  | .table source isInline es => by
    cases isInline with
    | true => simp [nodeRecords,nodeStatements,below]
    | false => simpa [nodeRecords,nodeStatements] using mem_records path r es
  | .array source items => by simp [nodeRecords,nodeStatements,below]
  | .scalar source v => by simp [nodeRecords,nodeStatements,below]
theorem mem_records (pre : KeyPath) (r : KeyPath × Node Region) : ∀ es : Entries Region,
    r ∈ records pre es ↔ ∃ o ∈ statements pre es, r = o ∨ r ∈ below o
  | [] => by simp [records,statements]
  | (key,node) :: es => by
    rw [records,statements,List.mem_append,mem_nodeRecords (pre ++ [key]) r node,mem_records pre r es]
    simp only [List.mem_append,or_and_right,exists_or]
end

section
variable (L : Library) (s : Bytes)

mutual
theorem collectNode_eq_map (path : KeyPath) : ∀ n : Node Region,
    collectNode L s path n = (nodeRecords path n).map (fun r => (r.1,entryOf L s r.2))
  | .table source isInline es => by
    rw [collectNode,nodeRecords,List.map_append,collect_eq_map path es]
    cases isInline <;> rfl
  | .array source items => rfl
  | .scalar source v => rfl
theorem collect_eq_map (pre : KeyPath) : ∀ es : Entries Region,
    collect L s pre es = (records pre es).map (fun r => (r.1,entryOf L s r.2))
  | [] => rfl
  | (key,node) :: es => by
    rw [collect,records,List.map_append,collectNode_eq_map (pre ++ [key]) node,collect_eq_map pre es]
end

theorem lookup_map_entryOf (rs : List (KeyPath × Node Region)) (key : KeyPath) :
    (rs.map (fun r => (r.1,entryOf L s r.2))).lookup key = (rs.lookup key).map (entryOf L s) := by
  induction rs with
  | nil => rfl
  | cons r rs ih =>
    rw [List.map_cons,List.lookup_cons,List.lookup_cons,ih]
    cases key == r.1 <;> rfl

theorem records_append (pre : KeyPath) (es fs : Entries Region) :
    records pre (es ++ fs) = records pre es ++ records pre fs := by
  induction es with
  | nil => rfl
  | cons e es ih => rw [List.cons_append,records,ih,records,List.append_assoc]

/-- The literal of a node's value is the node printed. -/
theorem encode_valueOf (n : Node Region) : encode L (valueOf L n) = L.format n.erase := by
  cases n with
  | scalar source v => cases v <;> rfl
  | _ => rfl

end

mutual
theorem nodeRecords_pos (path : KeyPath) : ∀ n : Node Region, n.populated = true →
    0 < (nodeRecords path n).length
  | .table source isInline es,h => by
    rw [nodeRecords,List.length_append]
    simp only [Node.populated,Bool.and_eq_true,Bool.or_eq_true] at h
    cases isInline with
    | true =>
      rw [if_pos rfl,List.length_singleton]
      omega
    | false =>
      have hne : es ≠ [] := by simpa using h.1
      have := records_pos path es h.2 hne
      omega
  | .array source items,h => by simp [nodeRecords]
  | .scalar source v,h => by simp [nodeRecords]
theorem records_pos (pre : KeyPath) : ∀ es : Entries Region, Node.populatedEntries es = true → es ≠ [] →
    0 < (records pre es).length
  | [],_,h => absurd rfl h
  | (key,node) :: es,h,_ => by
    rw [Node.populatedEntries,Bool.and_eq_true] at h
    rw [records,List.length_append]
    have := nodeRecords_pos (pre ++ [key]) node h.1
    omega
end

/-- Behind a key stand one override and those of its members. -/
theorem nodeRecords_assigned (path : KeyPath) {n : Node Region} (h : n.isAssigned = true) :
    ∃ below, nodeRecords path n = (path,n) :: below ∧ (below = [] ↔ n.hasMembers = false) := by
  cases n with
  | scalar source v => exact ⟨[],rfl,by simp [Node.hasMembers]⟩
  | array source items => exact ⟨[],rfl,by simp [Node.hasMembers]⟩
  | table source isInline es =>
    simp only [Node.isAssigned,Node.isTable,Node.isInline,Bool.and_eq_true,beq_iff_eq,Node.populated] at h
    obtain ⟨⟨hin,-⟩,-,hpop⟩ := h
    refine ⟨records path es,by rw [nodeRecords,← hin]; rfl,?_⟩
    cases es with
    | nil => simp [records,Node.hasMembers]
    | cons e es =>
      have hpos := records_pos path (e :: es) hpop (by simp)
      rw [List.length_pos_iff] at hpos
      simp [hpos,Node.hasMembers]

mutual
/-- What is recorded has an assignment of its own, but an array of tables. -/
theorem assignments_pos (path : KeyPath) : ∀ n : Node Region,
    (∀ r ∈ nodeRecords path n, r.2.isArrayOfTables = false) → 0 < (nodeRecords path n).length →
    0 < n.assignments
  | .table source isInline es,h,hpos => by
    rw [Node.assignments]
    cases isInline with
    | true => simp
    | false =>
      rw [nodeRecords,if_neg (by simp),List.nil_append] at h hpos
      exact assignmentsOfEntries_pos path es h hpos
  | .array source items,h,_ => by
    rw [Node.assignments,if_neg]
    · exact Nat.one_pos
    · have := h (path,.array source items) (by simp [nodeRecords])
      simp [this]
  | .scalar source v,_,_ => Nat.one_pos
theorem assignmentsOfEntries_pos (pre : KeyPath) : ∀ es : Entries Region,
    (∀ r ∈ records pre es, r.2.isArrayOfTables = false) → 0 < (records pre es).length →
    0 < Node.assignmentsOfEntries es
  | [],_,h => by simp [records] at h
  | (key,node) :: es,h,hpos => by
    rw [records,List.length_append] at hpos
    rw [records] at h
    rw [Node.assignmentsOfEntries]
    by_cases hn : 0 < (nodeRecords (pre ++ [key]) node).length
    · have := assignments_pos (pre ++ [key]) node (fun r hr => h r (List.mem_append_left _ hr)) hn
      omega
    · have := assignmentsOfEntries_pos pre es (fun r hr => h r (List.mem_append_right _ hr)) (by omega)
      omega
end

mutual
/-- Without overrides there are no assignments. -/
theorem assignments_eq_zero (path : KeyPath) : ∀ n : Node Region, nodeRecords path n = [] → n.assignments = 0
  | .table source isInline es,h => by
    rw [nodeRecords,List.append_eq_nil_iff] at h
    cases isInline with
    | true => simp at h
    | false => exact assignmentsOfEntries_eq_zero path es h.2
  | .array source items,h => by simp [nodeRecords] at h
  | .scalar source v,h => by simp [nodeRecords] at h
theorem assignmentsOfEntries_eq_zero (pre : KeyPath) : ∀ es : Entries Region, records pre es = [] →
    Node.assignmentsOfEntries es = 0
  | [],_ => rfl
  | (key,node) :: es,h => by
    rw [records,List.append_eq_nil_iff] at h
    rw [Node.assignmentsOfEntries,assignments_eq_zero (pre ++ [key]) node h.1,
      assignmentsOfEntries_eq_zero pre es h.2]
end

/-! ### Literals -/

variable (L : Library)

/-- The document a literal is tried in. -/
def probe (literal : Bytes) : Bytes := bytes "value = " ++ literal

/-- What a document holds prints as one literal, which reads back as the same value. -/
def PrintsBack (s : Bytes) : Prop := ∀ t, L.parse s = .ok t → ∀ r ∈ records [] t,
  ∃ node, L.parse (probe (L.format r.2.erase)) = .ok [(bytes "value",node)] ∧ node.isAssigned = true ∧
    node.plain = r.2.plain ∧ L.format node.erase = L.format r.2.erase

/-- Behind `value = ` a document has an assigned value at that key. -/
def ReadsValue (literal : Bytes) : Prop := ∀ t, L.parse (probe literal) = .ok t →
  ∃ before node after, t = before ++ (bytes "value",node) :: after ∧ node.isAssigned = true

/-- The document is one with a single assignment. -/
def SingleAssignment (s : Bytes) : Prop :=
  ∃ t, L.parse s = .ok t ∧ Node.assignmentsOfEntries t = 1

/-- The node at a key path of a document. -/
def nodeAt (s : Bytes) (key : KeyPath) : Option (Node Region) :=
  match L.parse s with
  | .ok t => (records [] t).lookup key
  | .error _ => none

/-- A single assignment that is refused: the probe is too long, its value is an inline
table with members, or an array of tables is declared with nothing in it. -/
def Overlooked (literal : Bytes) : Prop :=
  SingleAssignment L (probe literal) ∧ (kMaximumDocumentBytes < (probe literal).length ∨
    (nodeAt L (probe literal) valueKey).any Node.hasMembers = true ∨
    ∃ t, L.parse (probe literal) = .ok t ∧ ∃ r ∈ records [] t, r.2.isArrayOfTables = true)

section
variable {L}

theorem parseDocument_ok {s : Bytes} {t : Entries Region} (h : L.parse s = .ok t) (path : Path) :
    (parseDocument L s path).value = if kMaximumDocumentBytes < s.length then none
      else some ⟨path,⟨true,s⟩,collect L s [] t⟩ := by
  unfold parseDocument
  split
  · rfl
  · rw [h]
    rfl

theorem parseDocument_error {s : Bytes} {e : ParseError} (h : L.parse s = .error e) (path : Path) :
    (parseDocument L s path).value = none := by
  unfold parseDocument
  split
  · rfl
  · rw [h]
    rfl

/-- The probe is parsed, and its single override is the value. -/
theorem normalizeValue_eq (v : Value) : normalizeValue L v =
    (parseDocument L (probe (encode L v)) .none).value.bind (fun literal =>
      if literal.overrides.length = 1 then literal.value valueKey else none) := by
  change normalizeValue L v = (parseDocument L (bytes "value = " ++ encode L v) .none).value.bind _
  unfold normalizeValue
  cases (parseDocument L (bytes "value = " ++ encode L v) .none).value <;> rfl

/-- A literal is accepted where its probe has one override, that of its value. -/
theorem normalizeValue_probe {v : Value} {t : Entries Region} (h : L.parse (probe (encode L v)) = .ok t) :
    normalizeValue L v = if kMaximumDocumentBytes < (probe (encode L v)).length then none
      else if (records [] t).length = 1 then ((records [] t).lookup valueKey).map (fun n => valueOf L n)
      else none := by
  rw [normalizeValue_eq,parseDocument_ok h]
  by_cases hl : kMaximumDocumentBytes < (probe (encode L v)).length
  · rw [if_pos hl,if_pos hl]
    rfl
  · rw [if_neg hl,if_neg hl,Option.bind_some]
    dsimp only [DocumentSnapshot.value,DocumentSnapshot.entry]
    rw [collect_eq_map,List.length_map,lookup_map_entryOf,Option.map_map]
    rfl

theorem normalizeValue_unparsed {v : Value} {e : ParseError} (h : L.parse (probe (encode L v)) = .error e) :
    normalizeValue L v = none := by
  rw [normalizeValue_eq,parseDocument_error h,Option.bind_none]

/-- What the probe of a literal parses as: a value at its key, with what is before, below and behind it. -/
structure Probed (L : Library) (literal : Bytes) (t before : Entries Region) (node : Node Region)
    (below : List (KeyPath × Node Region)) (after : Entries Region) : Prop where
  parse : L.parse (probe literal) = .ok t
  assigned : node.isAssigned = true
  tree : records [] t = records [] before ++ (valueKey,node) :: (below ++ records [] after)
  members : below = [] ↔ node.hasMembers = false
  count : Node.assignmentsOfEntries t = Node.assignmentsOfEntries before + (1 + Node.assignmentsOfEntries after)

theorem probed_of_parse {literal : Bytes} (hr : ReadsValue L literal) {t : Entries Region}
    (hp : L.parse (probe literal) = .ok t) : ∃ before node below after, Probed L literal t before node below after := by
  obtain ⟨before,node,after,ht,hnode⟩ := hr t hp
  obtain ⟨below,hbelow,hmembers⟩ := nodeRecords_assigned ([] ++ [bytes "value"]) hnode
  refine ⟨before,node,below,after,hp,hnode,?_,hmembers,?_⟩
  · rw [ht,records_append,records,hbelow]
    rfl
  · rw [ht,Node.assignmentsOfEntries_append,Node.assignmentsOfEntries,Node.assignments_assigned hnode]

section
variable {literal : Bytes} {t before after : Entries Region} {node : Node Region}
  {below : List (KeyPath × Node Region)}

theorem Probed.single (h : Probed L literal t before node below after) :
    SingleAssignment L (probe literal) ↔ Node.assignmentsOfEntries t = 1 := by
  constructor
  · rintro ⟨t',ht',hone⟩
    cases h.parse.symm.trans ht'
    exact hone
  · exact fun hone => ⟨t,h.parse,hone⟩

theorem Probed.one (h : Probed L literal t before node below after) : (records [] t).length = 1 ↔
    records [] before = [] ∧ below = [] ∧ records [] after = [] := by
  rw [h.tree,List.length_append,List.length_cons,List.length_append,← List.length_eq_zero_iff,
    ← List.length_eq_zero_iff,← List.length_eq_zero_iff]
  omega

theorem Probed.lookup (h : Probed L literal t before node below after) (hb : records [] before = []) :
    (records [] t).lookup valueKey = some node := by
  rw [h.tree,hb,List.nil_append,List.lookup_cons_self]

theorem Probed.nodeAt (h : Probed L literal t before node below after) (hb : records [] before = []) :
    nodeAt L (probe literal) valueKey = some node := by
  rw [Document.nodeAt,h.parse]
  exact h.lookup hb

theorem Probed.accepted (h : Probed L literal t before node below after) :
    (normalizeValue L (.aggregate literal)).isSome = true ↔
      ¬ kMaximumDocumentBytes < (probe literal).length ∧ (records [] t).length = 1 := by
  have hnorm : normalizeValue L (.aggregate literal) = _ := normalizeValue_probe h.parse
  rw [hnorm]
  change (ite (kMaximumDocumentBytes < (probe literal).length) none _).isSome = true ↔ _
  by_cases hlong : kMaximumDocumentBytes < (probe literal).length
  · simp [hlong]
  · by_cases hl : (records [] t).length = 1
    · rw [if_neg hlong,if_pos hl,h.lookup (h.one.mp hl).1]
      exact iff_of_true rfl ⟨hlong,hl⟩
    · simp [hlong,hl]

/-- One record is not overlooked. -/
theorem Probed.not_overlooked (h : Probed L literal t before node below after)
    (hlong : ¬ kMaximumDocumentBytes < (probe literal).length) (hl : (records [] t).length = 1) :
    ¬ Overlooked L literal := by
  obtain ⟨hb,hbel,ha⟩ := h.one.mp hl
  rintro ⟨-,hover | hover | ⟨t',ht',r,hr,harray⟩⟩
  · exact hlong hover
  · rw [h.nodeAt hb,Option.any_some,h.members.mp hbel] at hover
    cases hover
  · cases h.parse.symm.trans ht'
    rw [h.tree,hb,hbel,ha] at hr
    have hr : r = (valueKey,node) := by simpa using hr
    have hnode := h.assigned
    simp only [Node.isAssigned,Bool.and_eq_true,Bool.not_eq_true'] at hnode
    rw [hr,hnode.1.2] at harray
    cases harray

/-- A single assignment that is not overlooked is one record. -/
theorem Probed.recorded (h : Probed L literal t before node below after) (hA : SingleAssignment L (probe literal))
    (hnot : ¬ Overlooked L literal) :
    ¬ kMaximumDocumentBytes < (probe literal).length ∧ (records [] t).length = 1 := by
  have hsingle := h.single.mp hA
  rw [h.count] at hsingle
  have harrays : ∀ r ∈ records [] t, r.2.isArrayOfTables = false := by
    intro r hr
    by_contra harray
    exact hnot ⟨hA,.inr (.inr ⟨t,h.parse,r,hr,by simpa using harray⟩)⟩
  have hempty : ∀ es : Entries Region, records [] es ⊆ records [] t →
      Node.assignmentsOfEntries es = 0 → records [] es = [] := by
    intro es hsub hzero
    by_contra hne
    have := assignmentsOfEntries_pos [] es (fun r hr => harrays r (hsub hr)) (List.length_pos_iff.mpr hne)
    omega
  have hb := hempty before (fun r hr => by rw [h.tree]; simp [hr]) (by omega)
  have ha := hempty after (fun r hr => by rw [h.tree]; simp [hr]) (by omega)
  have hbel : below = [] := by
    refine h.members.mpr ?_
    by_contra hm
    refine hnot ⟨hA,.inr (.inl ?_)⟩
    rw [h.nodeAt hb]
    simpa using hm
  exact ⟨fun hlong => hnot ⟨hA,.inl hlong⟩,h.one.mpr ⟨hb,hbel,ha⟩⟩

end

/-- A literal is accepted exactly for a single assignment that is not overlooked. -/
theorem normalizeValue_aggregate {literal : Bytes} (hr : ReadsValue L literal) :
    ((normalizeValue L (.aggregate literal)).isSome = true ↔ SingleAssignment L (probe literal)) ↔
      ¬ Overlooked L literal := by
  cases hp : L.parse (probe literal) with
  | error e =>
    have hs : ¬ SingleAssignment L (probe literal) := by
      rintro ⟨t,ht,-⟩
      rw [hp] at ht
      cases ht
    have hn : normalizeValue L (.aggregate literal) = none := normalizeValue_unparsed hp
    rw [hn]
    exact iff_of_true (by simp [hs]) (fun h => hs h.1)
  | ok t =>
    obtain ⟨before,node,below,after,h⟩ := probed_of_parse hr hp
    rw [h.accepted]
    constructor
    · intro hiff hover
      obtain ⟨hlong,hl⟩ := hiff.mpr hover.1
      exact h.not_overlooked hlong hl hover
    · intro hnot
      refine ⟨fun ⟨_,hl⟩ => ?_,fun hA => h.recorded hA hnot⟩
      obtain ⟨hb,-,ha⟩ := h.one.mp hl
      rw [h.single,h.count,assignmentsOfEntries_eq_zero [] before hb,assignmentsOfEntries_eq_zero [] after ha]

/-- Values that are the same print the same, and are so as values of a document. -/
theorem valueOf_plain {n m : Node Region} (hp : n.plain = m.plain)
    (hf : L.format n.erase = L.format m.erase) (hm : isNaN (some (valueOf L m)) = false) :
    valueOf L n = valueOf L m := by
  cases m with
  | scalar source v =>
    cases n with
    | scalar source' v' =>
      have hv : v'.plain = v.plain := by
        simpa [Node.plain] using hp
      cases v with
      | floating d =>
        have hd : d.isNaN = false := hm
        cases v' with
        | floating d' =>
          simp only [Scalar.plain,hd,Bool.false_eq_true,if_false,Scalar.floating.injEq] at hv
          split at hv
          · rw [← hv] at hd
            exact absurd hd (by decide)
          · rw [hv]
            rfl
        | _ => cases hv
      | boolean b => cases v' <;> cases hv; rfl
      | integer i => cases v' <;> cases hv; rfl
      | string t => cases v' <;> cases hv; rfl
      | _ => cases v' <;> cases hv; exact congrArg Value.aggregate hf
    | _ => simp [Node.plain] at hp
  | array source ns =>
    cases n with
    | array source' ns' => exact congrArg Value.aggregate hf
    | _ => simp [Node.plain] at hp
  | table source isInline es =>
    cases n with
    | table source' isInline' es' => exact congrArg Value.aggregate hf
    | _ => simp [Node.plain] at hp

theorem mem_of_lookup_records {rs : List (KeyPath × Node Region)} {key : KeyPath} {n : Node Region}
    (h : rs.lookup key = some n) : (key,n) ∈ rs := by
  induction rs with
  | nil => cases h
  | cons r rs ih =>
    rw [List.lookup_cons] at h
    split at h
    · next hk =>
      cases h
      rw [beq_iff_eq.mp hk]
      exact List.mem_cons_self
    · exact List.mem_cons_of_mem _ (ih h)

/-- The value of a document is accepted as a pending value, and stays what it is, where it
has no members and its probe is not too long. -/
theorem normalizeValue_snapshot {s : Bytes} (hprint : PrintsBack L s) {path : Path}
    {snapshot : DocumentSnapshot} (hs : (parseDocument L s path).value = some snapshot) {key : KeyPath}
    {v : Value} (hv : snapshot.value key = some v) (hnan : isNaN (some v) = false) :
    normalizeValue L v = if (nodeAt L s key).any Node.hasMembers = true ∨
      kMaximumDocumentBytes < (probe (encode L v)).length then none else some v := by
  cases hp : L.parse s with
  | error e =>
    rw [parseDocument_error hp] at hs
    cases hs
  | ok t =>
    rw [parseDocument_ok hp] at hs
    split at hs
    · cases hs
    · cases hs
      change ((collect L s [] t).lookup key).map DocumentEntry.value = some v at hv
      rw [collect_eq_map,lookup_map_entryOf,Option.map_map] at hv
      obtain ⟨n,hn,hvn⟩ := Option.map_eq_some_iff.mp hv
      have hvn : valueOf L n = v := hvn
      have hat : nodeAt L s key = some n := by
        rw [nodeAt,hp]
        exact hn
      subst hvn
      obtain ⟨node,hparse,hassigned,hplain,hformat⟩ := hprint t hp _ (mem_of_lookup_records hn)
      rw [← encode_valueOf] at hparse
      rw [normalizeValue_probe hparse,hat,Option.any_some]
      obtain ⟨below,hbelow,hmembers⟩ := nodeRecords_assigned ([] ++ [bytes "value"]) hassigned
      have hrecords : records [] [(bytes "value",node)] = (valueKey,node) :: below := by
        rw [records,hbelow,records,List.append_nil]
        rfl
      have hmem : n.hasMembers = node.hasMembers := by
        rw [← Node.hasMembers_plain n,← hplain,Node.hasMembers_plain]
      rw [hrecords,hmem,List.lookup_cons_self,Option.map_some,valueOf_plain hplain hformat hnan]
      cases hb : node.hasMembers with
      | true =>
        have hne : below ≠ [] := fun h => by
          rw [hmembers.mp h] at hb
          cases hb
        simp [hne]
      | false =>
        rw [hmembers.mpr hb]
        simp

theorem value_ne_nil {s : Bytes} {path : Path} {snapshot : DocumentSnapshot}
    (hs : (parseDocument L s path).value = some snapshot) {key : KeyPath} {v : Value}
    (hv : snapshot.value key = some v) : key ≠ [] := by
  obtain ⟨e,he,-⟩ := Option.map_eq_some_iff.mp hv
  have hmem := snapshot.entry_mem he
  unfold parseDocument at hs
  split at hs
  · cases hs
  · split at hs
    · cases hs
      obtain ⟨k,-,hk⟩ := prefix_collect L s [] _ _ hmem
      rintro rfl
      simp at hk
    · cases hs

end

/-- A value of a document can be pending, and an edit that asks for it is none, exactly
where it is no inline table with members and its probe is not too long; and a literal is
accepted for a single assignment alone exactly where that one is not overlooked. -/
theorem normalizeEdits_accepts_iff (s literal : Bytes) (path : Path) (hprint : PrintsBack L s)
    (hread : ReadsValue L literal) :
    (∀ snapshot, (parseDocument L s path).value = some snapshot → ∀ key v, snapshot.value key = some v →
      isNaN (some v) = false → ∀ baseline schema, hasErrors (validateDocument L snapshot schema) = false →
      (((normalizeEdits L [⟨key,baseline,some v⟩] path).value = some [⟨key,baseline,some v⟩] ∧
          (patchDocument L snapshot [⟨key,baseline,some v⟩] schema).status = .success ∧
          (patchDocument L snapshot [⟨key,baseline,some v⟩] schema).snapshot.map
            (fun s => s.revision.bytes) = some s) ↔
        (nodeAt L s key).any Node.hasMembers = false ∧
          (probe (encode L v)).length ≤ kMaximumDocumentBytes)) ∧
    ∀ key baseline,
      ((normalizeEdits L [⟨key,baseline,some (.aggregate literal)⟩] path).value.isSome = true ↔
        SingleAssignment L (probe literal)) ↔ ¬ Overlooked L literal := by
  constructor
  · intro snapshot hs key v hv hnan baseline schema hvalid
    have hnorm := normalizeValue_snapshot hprint hs hv hnan
    constructor
    · rintro ⟨hn,-⟩
      rw [normalizeEdits_value] at hn
      simp only [List.mapM_cons,List.mapM_nil,normalizeEdit,hnorm] at hn
      split at hn
      · cases hn
      · next h =>
        rw [not_or,Bool.not_eq_true,Nat.not_lt] at h
        exact h
    · rintro ⟨hmem,hlen⟩
      rw [if_neg (by simp [hmem,hlen])] at hnorm
      have hn : ∀ p, (normalizeEdits L [⟨key,baseline,some v⟩] p).value = some [⟨key,baseline,some v⟩] := by
        intro p
        rw [normalizeEdits_value]
        simp [normalizeEdit,hnorm]
      have hsame : Value.same (snapshot.value key) (some v) = true := by
        rw [hv]
        refine (Value.same_refl_or (some v)).resolve_right ?_
        rintro ⟨d,hd,hdn⟩
        rw [hd] at hnan
        exact absurd hdn (by simpa [isNaN] using hnan)
      have hstops : stopsIn snapshot [] [⟨key,baseline,some v⟩] = false := by
        simp [stopsIn,stops,unsafeEdit,hsame,value_ne_nil hs hv]
      rw [patchDocument_converged L hs hvalid (hn _) hstops (by simpa using hsame)]
      refine ⟨hn _,rfl,?_⟩
      have hrev := (parseDocument_some L hs).2
      change some snapshot.revision.bytes = some s
      rw [hrev]
  · intro key baseline
    have hsome : (normalizeEdits L [⟨key,baseline,some (.aggregate literal)⟩] path).value.isSome =
        (normalizeValue L (.aggregate literal)).isSome := by
      rw [normalizeEdits_value]
      cases hv : normalizeValue L (.aggregate literal) <;> simp [normalizeEdit,hv]
    rw [hsome]
    exact normalizeValue_aggregate hread

theorem parse_x : Toml.parse (bytes "x = 1\n") =
    some [(bytes "x",.scalar ⟨⟨1,5⟩,⟨1,6⟩⟩ (.integer 1))] := by decide +kernel

theorem parse_probe_one : Toml.parse (probe (bytes "1")) =
    some [(bytes "value",.scalar ⟨⟨1,9⟩,⟨1,10⟩⟩ (.integer 1))] := by decide +kernel

theorem parse_probe_empty : Toml.parse (probe (bytes "[]")) =
    some [(bytes "value",.array ⟨⟨1,9⟩,⟨1,11⟩⟩ [])] := by decide +kernel

theorem reference_parse {s : Bytes} {t : Entries Region} (h : Toml.parse s = some t) :
    Reference.library.parse s = .ok t := by
  rw [Reference.parse_ok (by rw [h]; rfl),h]
  rfl

/-- The value of `x = 1` and the literal `[]`. -/
theorem normalizeEdits_accepts_one :
    (∀ snapshot, (parseDocument Reference.library (bytes "x = 1\n") .none).value = some snapshot →
      ∀ key v, snapshot.value key = some v → isNaN (some v) = false → ∀ baseline schema,
      hasErrors (validateDocument Reference.library snapshot schema) = false →
      (((normalizeEdits Reference.library [⟨key,baseline,some v⟩] .none).value = some [⟨key,baseline,some v⟩] ∧
          (patchDocument Reference.library snapshot [⟨key,baseline,some v⟩] schema).status = .success ∧
          (patchDocument Reference.library snapshot [⟨key,baseline,some v⟩] schema).snapshot.map
            (fun s => s.revision.bytes) = some (bytes "x = 1\n")) ↔
        (nodeAt Reference.library (bytes "x = 1\n") key).any Node.hasMembers = false ∧
          (probe (encode Reference.library v)).length ≤ kMaximumDocumentBytes)) ∧
    ∀ key baseline,
      ((normalizeEdits Reference.library [⟨key,baseline,some (.aggregate (bytes "[]"))⟩] .none).value.isSome =
        true ↔ SingleAssignment Reference.library (probe (bytes "[]"))) ↔
      ¬ Overlooked Reference.library (bytes "[]") := by
  refine normalizeEdits_accepts_iff Reference.library (bytes "x = 1\n") (bytes "[]") .none ?_ ?_
  · intro t ht r hr
    cases (reference_parse parse_x).symm.trans ht
    have hr : r = ([bytes "x"],.scalar ⟨⟨1,5⟩,⟨1,6⟩⟩ (.integer 1)) := by
      simpa [records,nodeRecords] using hr
    subst hr
    have hone : Reference.library.format (Node.erase (.scalar (⟨⟨1,5⟩,⟨1,6⟩⟩ : Region) (.integer 1))) =
        bytes "1" := by decide +kernel
    refine ⟨.scalar ⟨⟨1,9⟩,⟨1,10⟩⟩ (.integer 1),?_,rfl,rfl,rfl⟩
    rw [hone]
    exact reference_parse parse_probe_one
  · intro t ht
    cases (reference_parse parse_probe_empty).symm.trans ht
    exact ⟨[],_,[],rfl,rfl⟩

/-- An inline table with a member cannot be asked for where it is. -/
theorem normalizeEdits_rejects_member :
    (referenceSnapshot (bytes "x = \x7b a = 1 \x7d\n")).value xKey =
      some (.aggregate (bytes "\x7b a = 1 \x7d")) ∧
    (normalizeEdits Reference.library [⟨xKey,none,some (.aggregate (bytes "\x7b a = 1 \x7d"))⟩]
      .none).value = none := by
  constructor <;> decide +kernel

end Document
end HolonightConfig
