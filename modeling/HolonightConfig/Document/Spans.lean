import HolonightConfig.Document.Literals
import HolonightConfig.Toml.Placed
import Mathlib.Data.List.Induction

/-! Source spans: offsets found again from lines and columns, and what stands between the
two offsets of an override. -/
namespace HolonightConfig
open Text Toml Posix

namespace Document

/-! ### Offsets -/

/-- The position the library reports for an octet. A byte order mark is not counted. -/
def reported (s : Bytes) (i : ℕ) : Position :=
  let before := content (s.take i)
  ⟨1 + before.count lineFeed,
    1 + (before.reverse.takeWhile (· ≠ lineFeed)).countP (fun b => !isContinuation b)⟩

theorem advance_eq (t : Bytes) : Position.start.advance t = ⟨1 + t.count lineFeed,
    1 + (t.reverse.takeWhile (· ≠ lineFeed)).countP (fun b => !isContinuation b)⟩ := by
  induction t using List.reverseRecOn with
  | nil => rfl
  | append_singleton t c ih =>
    rw [Position.advance_append,ih]
    change Position.step _ c = _
    unfold Position.step
    split
    · next hc => simp [hc,Nat.add_assoc]
    · next hc =>
      have hcount : (t ++ [c]).count lineFeed = t.count lineFeed := by
        rw [List.count_append,List.count_singleton,if_neg (by simpa using hc),Nat.add_zero]
      have htake : ((t ++ [c]).reverse.takeWhile (· ≠ lineFeed)) =
          c :: t.reverse.takeWhile (· ≠ lineFeed) := by
        simp [hc]
      rw [hcount,htake]
      split
      · next hk => simp [hk]
      · next hk => simp [hk,Nat.add_assoc]

/-- The two loops of `offset` on their way: the lines are skipped, and the code points of
the last one. -/
structure Reached (text : Bytes) (p : Position) (line : Bytes) : Prop where
  skipped : ∀ rest, skipLine^[p.line - 1] (text ++ rest) = line ++ rest
  noLineFeed : lineFeed ∉ line
  line_pos : 1 ≤ p.line
  columns : (line = [] ∧ p.column = 1) ∨
    (1 < p.column ∧ ∀ rest, skipCodePoint^[p.column - 1] (line ++ rest) = rest.dropWhile isContinuation)

theorem skipLine_lineFeed {line : Bytes} (h : lineFeed ∉ line) (rest : Bytes) :
    skipLine (line ++ lineFeed :: rest) = rest := by
  induction line with
  | nil => simp [skipLine]
  | cons c line ih =>
    simp only [List.mem_cons,not_or] at h
    rw [List.cons_append,skipLine,if_neg (Ne.symm h.1),ih h.2]

theorem reached_step {text line : Bytes} {p : Position} {c : UInt8} (h : Reached text p line)
    (hc : isContinuation c = true → 1 < p.column) :
    ∃ line', Reached (text ++ [c]) (p.step c) line' := by
  obtain ⟨hskip,hno,hpos,hcol⟩ := h
  unfold Position.step
  split
  · next hl =>
    refine ⟨[],fun rest => ?_,by simp,by simp,.inl ⟨rfl,rfl⟩⟩
    have hn : p.line + 1 - 1 = (p.line - 1) + 1 := by omega
    simp only [hn,Function.iterate_succ_apply',List.append_assoc,hskip,hl,List.singleton_append,
      List.nil_append]
    exact skipLine_lineFeed hno rest
  · next hl =>
    have hskip' : ∀ rest, skipLine^[p.line - 1] (text ++ [c] ++ rest) = line ++ [c] ++ rest := by
      intro rest
      rw [List.append_assoc,hskip,List.append_assoc]
    have hno' : lineFeed ∉ line ++ [c] := by
      simp only [List.mem_append,List.mem_singleton,not_or]
      exact ⟨hno,Ne.symm hl⟩
    split
    · next hk =>
      refine ⟨line ++ [c],hskip',hno',hpos,.inr ?_⟩
      obtain ⟨-,hone⟩ | ⟨hlt,hcol⟩ := hcol
      · have := hc hk
        omega
      · refine ⟨hlt,fun rest => ?_⟩
        rw [List.append_assoc,hcol]
        simp [hk]
    · next hk =>
      refine ⟨line ++ [c],hskip',hno',hpos,.inr ⟨?_,fun rest => ?_⟩⟩
      · obtain ⟨-,hone⟩ | ⟨hlt,-⟩ := hcol <;> simp only <;> omega
      · obtain ⟨rfl,hone⟩ | ⟨hlt,hcol⟩ := hcol
        · simp [hone,skipCodePoint]
        · have hn : p.column + 1 - 1 = (p.column - 1) + 1 := by omega
          simp only [hn,Function.iterate_succ_apply',List.append_assoc,hcol]
          simp [hk,skipCodePoint]

/-- Inside a character a column has been counted. -/
theorem reached_advance {text : Bytes} {q : Utf8.State} (hq : Utf8.run .start text = some q) :
    (∃ line, Reached text (Position.start.advance text) line) ∧
      (q ≠ .start → 1 < (Position.start.advance text).column) := by
  induction text using List.reverseRecOn generalizing q with
  | nil =>
    cases hq
    exact ⟨⟨[],fun _ => rfl,by simp,le_rfl,.inl ⟨rfl,rfl⟩⟩,fun h => absurd rfl h⟩
  | append_singleton text c ih =>
    rw [Utf8.run_append] at hq
    obtain ⟨q₁,h₁,hq⟩ := Option.bind_eq_some_iff.mp hq
    have hstep : Utf8.step q₁ c = some q := by
      rw [Utf8.run] at hq
      obtain ⟨q₂,h₂,hq⟩ := Option.bind_eq_some_iff.mp hq
      cases hq
      exact h₂
    obtain ⟨⟨line,hr⟩,hcol⟩ := ih h₁
    have hc : isContinuation c = true → 1 < (Position.start.advance text).column := by
      intro hk
      apply hcol
      rintro rfl
      rw [Utf8.step,Utf8.lead_continuation c hk] at hstep
      cases hstep
    rw [Position.advance_append]
    refine ⟨reached_step hr hc,fun hne => ?_⟩
    change 1 < (Position.step _ c).column
    unfold Position.step
    split
    · next hl =>
      rw [hl] at hstep
      exact absurd (Utf8.lead_lineFeed q₁ hstep (@Utf8.run_sound .start _ trivial _ h₁)) hne
    · split
      · next hk => exact hc hk
      · have : 1 ≤ (Position.start.advance text).column := by
          rw [advance_eq]
          exact Nat.le_add_right _ _
        simp only
        omega

/-- The offset of the position behind a text is the length of the text. -/
theorem offset_advance {s t : Bytes} (hs : Utf8.valid s = true) (h : Utf8.valid (s ++ t) = true) :
    offset (s ++ t) (Position.start.advance s) = s.length := by
  obtain ⟨⟨line,hr⟩,-⟩ := reached_advance ((Utf8.valid_iff s).mp hs)
  rw [Utf8.valid_append hs] at h
  have hrest : t.dropWhile isContinuation = t := by
    cases t with
    | nil => rfl
    | cons b t => simp [Utf8.head_of_valid h]
  have : restAt (s ++ t) (Position.start.advance s) = t := by
    rw [restAt,hr.skipped]
    obtain ⟨rfl,hone⟩ | ⟨-,hcol⟩ := hr.columns
    · simp [hone]
    · rw [hcol,hrest]
  rw [offset,this,List.length_append]
  omega

/-! ### Overrides -/

section
variable {L : Library} {s : Bytes}

/-- A literal reads back, as a probe has it, as the value. -/
def ParsesTo (L : Library) (literal : Bytes) (value : Value) : Prop :=
  ∃ node, L.parse (probe literal) = .ok [(bytes "value",node)] ∧ valueOf L node = value

/-- Offsets of reported positions are the octets they were reported for, and an override's
span holds its value. -/
def ExactSpans (L : Library) (s : Bytes) : Prop :=
  (∀ i, i ≤ s.length → Utf8.valid (s.take i) = true → offset s (reported s i) = i) ∧
  ∀ path snapshot root, (parseDocument L s path).value = some snapshot → L.parse s = .ok root →
    ∀ e ∈ snapshot.overrides, ∃ node, (e.1,node) ∈ records [] root ∧ e.2 = entryOf L s node ∧
      (node.isArrayOfTables = false →
        ParsesTo L (slice s e.2.source.begin e.2.source.stop) e.2.value)

theorem valueOf_erase {n m : Node Region} (h : n.erase = m.erase) : valueOf L n = valueOf L m := by
  cases n with
  | scalar source v =>
    cases m with
    | scalar source' v' =>
      obtain rfl : v = v' := by simpa [Node.erase] using h
      cases v <;> rfl
    | _ => cases h
  | array source ns =>
    cases m with
    | array source' ns' => exact congrArg (fun n => Value.aggregate (L.format n)) h
    | _ => cases h
  | table source isInline es =>
    cases m with
    | table source' isInline' es' => exact congrArg (fun n => Value.aggregate (L.format n)) h
    | _ => cases h

mutual
theorem nodeRecords_without (path : KeyPath) : ∀ n : Node Region, nodeRecords path n.withoutTableRegions =
    (nodeRecords path n).map (fun r => (r.1,r.2.withoutTableRegions))
  | .scalar _ _ => rfl
  | .array _ _ => rfl
  | .table source isInline es => by
    rw [Node.withoutTableRegions,nodeRecords,nodeRecords,List.map_append,records_without path es]
    cases isInline <;> rfl
theorem records_without (pre : KeyPath) : ∀ es : Entries Region, records pre (Node.withoutEntries es) =
    (records pre es).map (fun r => (r.1,r.2.withoutTableRegions))
  | [] => rfl
  | (k,n) :: es => by
    rw [Node.withoutEntries,records,records,List.map_append,nodeRecords_without (pre ++ [k]) n,
      records_without pre es]
end

mutual
/-- The overrides of a value stand in the text. -/
theorem stands_nodeRecords {base c : Bytes} (path : KeyPath) : ∀ n : Node Region, n.Placed base c →
    ∀ r ∈ nodeRecords path n, Stands base c r.2
  | .scalar source v,h,r,hr => by
    obtain rfl := List.mem_singleton.mp hr
    exact h
  | .array source ns,h,r,hr => by
    obtain rfl := List.mem_singleton.mp hr
    exact h
  | .table source isInline es,h,r,hr => by
    rcases List.mem_append.mp hr with hr | hr
    · cases isInline with
      | false => cases hr
      | true =>
        obtain rfl := List.mem_singleton.mp hr
        exact h.1 rfl
    · exact stands_records path es h.2 r hr
theorem stands_records {base c : Bytes} (pre : KeyPath) : ∀ es : Entries Region, Node.PlacedEntries base c es →
    ∀ r ∈ records pre es, Stands base c r.2
  | [],_,r,hr => by cases hr
  | (k,n) :: es,h,r,hr => by
    rcases List.mem_append.mp hr with hr | hr
    · exact stands_nodeRecords (pre ++ [k]) n h.1 r hr
    · exact stands_records pre es h.2 r hr
end

mutual
/-- Outside inline tables there are assigned values and arrays of tables. -/
theorem assigned_nodeStatements {ls : List Line} (path : KeyPath) : ∀ b : Build,
    b.Bears (Assigned ls) (Headed ls) → ∀ o ∈ nodeStatements path b.node,
      Assigned ls o.2 ∨ o.2.isArrayOfTables = true ∧ Headed ls o.2.source.begin
  | .value n,h,o,ho => by
    cases h with
    | value h =>
      have hn : nodeStatements path n = [(path,n)] := by
        obtain ⟨as,lead,key,equals,v,tail,bs,-,hv⟩ := h
        have hinline := Toml.Value.inline_node hv
        cases n with
        | table source isInline es =>
          obtain rfl : isInline = true := hinline rfl
          rfl
        | _ => rfl
      rw [Build.node,hn] at ho
      obtain rfl := List.mem_singleton.mp ho
      exact .inl h
  | .table _ s es,h,o,ho => assigned_statements path es (Build.BearsEntries.entries h) o ho
  | .tables s els,h,o,ho => by
    cases h with
    | tables begins nonempty elements =>
      obtain rfl := List.mem_singleton.mp ho
      exact .inr ⟨Build.isArrayOfTables_node nonempty elements,begins⟩
theorem assigned_statements {ls : List Line} (pre : KeyPath) : ∀ es : List (Bytes × Build),
    Build.BearsEntries (Assigned ls) (Headed ls) es → ∀ o ∈ statements pre (Build.nodeEntries es),
      Assigned ls o.2 ∨ o.2.isArrayOfTables = true ∧ Headed ls o.2.source.begin
  | [],_,o,ho => by cases ho
  | (k,b) :: es,h,o,ho => by
    obtain ⟨hb,hes⟩ := List.forall_mem_cons.mp h
    rcases List.mem_append.mp ho with ho | ho
    · exact assigned_nodeStatements (pre ++ [k]) b hb o ho
    · exact assigned_statements pre es hes o ho
end

/-- An assigned value stands in the text of the lines. -/
theorem placed_assigned {ls : List Line} {n : Node Region} (h : Assigned ls n)
    (hs : ∀ l ∈ ls, l.Sound) : n.Placed [] (ls.flatMap Line.text) := by
  obtain ⟨as,lead,key,equals,v,tail,bs,rfl,hn⟩ := h
  have hv : v.Sound := hs (.assign lead key equals v tail) (by simp)
  refine v.placed_node (as.flatMap Line.text ++ (lead ++ (key.text ++ equals)))
    (tail ++ bs.flatMap Line.text) n hv ?_ hn
  simp [Line.text]

/-- Overrides that no header declares stand in the text. -/
theorem stands_parse {s : Bytes} {t : Entries Region} (h : Toml.parse s = some t) :
    ∀ r ∈ records [] t, r.2.isArrayOfTables = true ∨ Stands [] (content s) r.2 := by
  obtain ⟨ls,es,hls,rfl,he⟩ := assigned_parse h
  obtain ⟨htext,hsound⟩ := Syntax.text_lines hls
  intro r hr
  obtain ⟨o,ho,hor⟩ := (mem_records [] r _).mp hr
  rcases assigned_statements [] es he o ho with ha | ⟨hA,-⟩
  · have hplaced := placed_assigned ha hsound
    rw [← htext] at hplaced
    have hmem : r ∈ nodeRecords o.1 o.2 := by
      obtain ⟨path,n⟩ := o
      rw [mem_nodeRecords]
      cases n with
      | table source isInline es =>
        cases isInline with
        | true => exact ⟨_,List.mem_singleton_self _,hor⟩
        | false =>
          obtain ⟨as,lead,key,equals,v,tail,bs,-,hv⟩ := ha
          cases Toml.Value.inline_node hv rfl
      | _ => exact ⟨_,List.mem_singleton_self _,hor⟩
    exact .inr (stands_nodeRecords o.1 o.2 hplaced r hmem)
  · obtain ⟨path,n⟩ := o
    cases n with
    | array source ns =>
      rcases hor with rfl | hr
      · exact .inl hA
      · cases hr
    | _ => cases hA

theorem isArrayOfTables_erase (n : Node Region) : n.erase.isArrayOfTables = n.isArrayOfTables := by
  cases n with
  | array source ns =>
    cases ns with
    | nil => rfl
    | cons m ns =>
      simp only [Node.erase,Node.eraseItems,Node.isArrayOfTables,List.all_cons,Node.isTable_erase,
        Node.isInline_erase,Node.eraseItems_eq_map,List.all_map,Function.comp_def]
  | _ => rfl

/-- Nodes alike but for the regions of sections have one region if they are not sections. -/
theorem source_without {n m : Node Region} (h : n.withoutTableRegions = m.withoutTableRegions)
    (hm : m.isTable = true → m.isInline = true) : n.source = m.source := by
  cases n with
  | scalar source v =>
    cases m with
    | scalar source' v' => cases h; rfl
    | _ => cases h
  | array source ns =>
    cases m with
    | array source' ns' =>
      simp only [Node.withoutTableRegions,Node.array.injEq] at h
      exact h.1
    | _ => cases h
  | table source isInline es =>
    cases m with
    | table source' isInline' es' =>
      obtain rfl : isInline' = true := hm rfl
      simp only [Node.withoutTableRegions,Node.table.injEq] at h
      obtain ⟨hs,rfl,-⟩ := h
      simp only [if_true] at hs
      exact hs
    | _ => cases h

theorem offset_value {pre post : Bytes} {v : Toml.Value} (hs : Utf8.valid (pre ++ (v.text ++ post)) = true)
    (hedged : Syntax.Edged v.text) :
    Utf8.valid v.text = true ∧
      offset (pre ++ (v.text ++ post)) (Position.start.advance pre) = pre.length ∧
      offset (pre ++ (v.text ++ post)) ((Position.start.advance pre).advance v.text) =
        pre.length + v.text.length := by
  obtain ⟨hpre,hv⟩ := Syntax.valid_around hs hedged
  have hend : Utf8.valid (pre ++ v.text) = true := by rwa [Utf8.valid_append hpre]
  refine ⟨hv,offset_advance hpre hs,?_⟩
  have hstop := offset_advance (t := post) hend (by simpa using hs)
  rwa [List.append_assoc,Position.advance_append,List.length_append] at hstop

/-- The octets between the offsets of a value's region are its text. -/
theorem slice_value {pre post : Bytes} {v : Toml.Value} (hs : Utf8.valid (pre ++ (v.text ++ post)) = true)
    (hedged : Syntax.Edged v.text) :
    Utf8.valid v.text = true ∧ slice (pre ++ (v.text ++ post))
      (offset (pre ++ (v.text ++ post)) (Position.start.advance pre))
      (offset (pre ++ (v.text ++ post)) ((Position.start.advance pre).advance v.text)) = v.text := by
  obtain ⟨hvalid,hbegin,hstop⟩ := offset_value hs hedged
  refine ⟨hvalid,?_⟩
  rw [hbegin,hstop,slice]
  simp

theorem source_node {v : Toml.Value} {p : Position} {n : Node Region} (h : v.node p = some n) :
    n.source = ⟨p,p.advance v.text⟩ := by
  cases v with
  | scalar t v => cases h; rfl
  | array items close =>
    obtain ⟨ns,-,rfl⟩ := Option.map_eq_some_iff.mp h
    rfl
  | inlineTable members close =>
    obtain ⟨es,-,rfl⟩ := Option.map_eq_some_iff.mp h
    rfl

theorem bytes_probe : bytes "value = " = bytes "value" ++ [0x20,0x3D,0x20] := by decide +kernel

theorem length_probe (lit : Bytes) : (probe lit).length = lit.length + 8 := by
  have h : (bytes "value = ").length = 8 := by decide +kernel
  rw [probe,List.length_append,h,Nat.add_comm]

theorem bareKey_value : bytes "value" ≠ [] ∧ ∀ c ∈ bytes "value", Lexical.isBareKey c = true := by
  decide +kernel

theorem isEdge_notBlank {c : UInt8} (h : Syntax.isEdge c = true) : Lexical.isBlank c = false := by
  cases hb : Lexical.isBlank c with
  | false => rfl
  | true =>
    simp only [Lexical.isBlank,Bool.or_eq_true,beq_iff_eq] at hb
    rcases hb with rfl | rfl <;> cases h

/-- A value is read behind `value = ` as it was where it stood. -/
theorem parse_probe {v : Toml.Value} (hv : v.Sound) (hu : Utf8.valid v.text = true) {p : Position}
    {n : Node Region} (hn : v.node p = some n) :
    ∃ n', Toml.parse (probe v.text) = some [(bytes "value",n')] ∧ n'.erase = n.erase := by
  obtain ⟨hne,hkey⟩ := bareKey_value
  obtain ⟨c,k,hk⟩ := List.exists_cons_of_ne_nil hne
  have hprobe : probe v.text = bytes "value" ++ 0x20 :: 0x3D :: 0x20 :: v.text := by
    rw [probe,bytes_probe]
    simp
  have hvalid : Utf8.valid (probe v.text) = true := by
    rw [probe,Utf8.valid_append,hu]
    rw [bytes_probe]
    refine Utf8.valid_ascii (fun b hb => ?_)
    rcases List.mem_append.mp hb with hb | hb
    · exact Syntax.isEdge_ascii b (by simp [Syntax.isEdge,Lexical.isBareScalar,hkey b hb])
    · have hb : b = 0x20 ∨ b = 0x3D ∨ b = 0x20 := by simpa using hb
      rcases hb with rfl | rfl | rfl <;> rfl
  have hcontent : content (probe v.text) = probe v.text := by
    have hc : c ≠ 0xEF := by
      rintro rfl
      have := hkey 0xEF (by rw [hk]; simp)
      revert this
      decide
    rw [content,if_neg]
    rw [hprobe,hk]
    simp [byteOrderMark,List.isPrefixOf,Ne.symm hc]
  cases hv with
  | intro halone hedged below =>
    obtain ⟨⟨b,u,hb,hbe⟩,-⟩ := hedged
    have hline := Syntax.line_bareKey hne hkey (s := v.text) (by
      intro d hd
      rw [hb] at hd
      cases hd
      exact isEdge_notBlank hbe)
    have htail : Lexical.tail [] = some ([],[]) := rfl
    rw [halone,Option.bind_some,htail,Option.map_some,← hprobe] at hline
    obtain ⟨n',hn',he⟩ := Value.node_elsewhere hn (Position.start.advance ([] ++
      ((bytes "value" ++ [0x20]) ++ [0x3D,0x20])))
    have hlines : Syntax.lines readerFuel (probe v.text) =
        some [.assign [] ⟨bytes "value" ++ [0x20],[bytes "value"]⟩ [0x3D,0x20] v []] := by
      obtain ⟨fuel,hfuel⟩ := Syntax.readerFuel_succ
      rw [hfuel,Syntax.lines,hline]
      · cases fuel <;> rfl
      · intro h
        rw [hprobe,hk] at h
        cases h
    have hread : Reading.start.lines [.assign [] ⟨bytes "value" ++ [0x20],[bytes "value"]⟩
        [0x3D,0x20] v []] = some ⟨Position.start.advance (Line.assign [] ⟨bytes "value" ++ [0x20],
          [bytes "value"]⟩ [0x3D,0x20] v []).text,[],[(bytes "value",.value n')]⟩ := by
      simp only [Reading.lines,Reading.line,Reading.start]
      rw [hn']
      rfl
    refine ⟨n',?_,he⟩
    rw [Toml.parse,if_pos hvalid,hcontent,hlines,Option.bind_some,hread]
    rfl

end

/-- The octets of a byte order mark are counted, which the library skips. -/
theorem not_exactSpans_marked (L : Library) (t : Bytes) : ¬ ExactSpans L (byteOrderMark ++ t) := by
  rintro ⟨hoffset,-⟩
  have hthree : (3 : ℕ) ≤ (byteOrderMark ++ t).length := by simp [byteOrderMark]
  have hreported : reported (byteOrderMark ++ t) 3 = ⟨1,1⟩ := rfl
  have h := hoffset 3 hthree rfl
  rw [hreported] at h
  simp [offset,restAt] at h

/-- A text without a mark is counted as the library counts it. -/
theorem offset_reported {s : Bytes} (hs : Utf8.valid s = true) (hbom : byteOrderMark.isPrefixOf s = false) {i : ℕ}
    (hi : i ≤ s.length) (hv : Utf8.valid (s.take i) = true) : offset s (reported s i) = i := by
  have htake : content (s.take i) = s.take i := by
    rw [content,if_neg]
    intro h
    have hp := (List.isPrefixOf_iff_prefix.mp h).trans (List.take_prefix i s)
    rw [List.isPrefixOf_iff_prefix.mpr hp] at hbom
    cases hbom
  have h := offset_advance hv (t := s.drop i) (by rwa [List.take_append_drop])
  rw [List.take_append_drop,List.length_take,Nat.min_eq_left hi] at h
  rw [reported,htake,← advance_eq]
  exact h

/-- A tree of one entry is one up to the regions of its tables. -/
theorem single_without {fs : Entries Region} {k : Bytes} {n : Node Region}
    (h : Node.withoutEntries fs = Node.withoutEntries [(k,n)]) :
    ∃ m, fs = [(k,m)] ∧ m.withoutTableRegions = n.withoutTableRegions := by
  cases fs with
  | nil => cases h
  | cons f fs =>
    obtain ⟨k',m⟩ := f
    cases fs with
    | nil =>
      simp only [Node.withoutEntries,List.cons.injEq,Prod.mk.injEq] at h
      exact ⟨m,by rw [h.1.1],h.1.2⟩
    | cons f fs => simp [Node.withoutEntries] at h

section
variable {L : Library}

/-- The text of a value of the grammar parses to what it means. -/
theorem parsesTo_text (hL : L.Conforms (kMaximumDocumentBytes + 8)) {v : Toml.Value} (hv : v.Sound)
    (hu : Utf8.valid v.text = true) (hsize : v.text.length ≤ kMaximumDocumentBytes) {p : Position} {n m : Node Region}
    (hn : v.node p = some n) (he : m.erase = n.erase) : ParsesTo L v.text (valueOf L m) := by
  obtain ⟨n',hprobe,he'⟩ := parse_probe hv hu hn
  have hlength : (probe v.text).length ≤ kMaximumDocumentBytes + 8 := by
    rw [length_probe]
    omega
  obtain ⟨fs,hfs,hwf⟩ := hL.parses hlength hprobe
  obtain ⟨m',rfl,hm⟩ := single_without hwf
  refine ⟨m',hfs,valueOf_erase ?_⟩
  rw [he,← he',← Node.erase_withoutTableRegions m',hm,Node.erase_withoutTableRegions]

/-- A record of the library's tree is one of the grammar's, in its place and with its value. -/
theorem record_conforms (hL : L.Conforms (kMaximumDocumentBytes + 8)) {s : Bytes}
    (hsize : s.length ≤ kMaximumDocumentBytes) {root : Entries Region} (hroot : L.parse s = .ok root)
    {r : KeyPath × Node Region} (hr : r ∈ records [] root) :
    ∃ t, Toml.parse s = some t ∧ ∃ r' ∈ records [] t, r.2.erase = r'.2.erase ∧ r.2.source = r'.2.source := by
  obtain ⟨t,ht,hw⟩ := hL.ok (hsize.trans (Nat.le_add_right _ _)) hroot
  have hrecords := congrArg (records []) hw
  rw [records_without,records_without] at hrecords
  have hmem := List.mem_map_of_mem (f := fun r : KeyPath × Node Region => (r.1,r.2.withoutTableRegions)) hr
  rw [← hrecords] at hmem
  obtain ⟨r',hr',he⟩ := List.mem_map.mp hmem
  obtain ⟨hkey,hnode⟩ := Prod.ext_iff.mp he
  simp only at hkey hnode
  have herase : r.2.erase = r'.2.erase := by
    rw [← Node.erase_withoutTableRegions r.2,← hnode,Node.erase_withoutTableRegions]
  exact ⟨t,ht,r',hr',herase,source_without hnode.symm (inline_records [] t r' hr')⟩

/-- The span of a record that is no array of tables holds its value. -/
theorem parsesTo_record (hL : L.Conforms (kMaximumDocumentBytes + 8)) {s : Bytes} (hs : Utf8.valid s = true)
    (hbom : byteOrderMark.isPrefixOf s = false) (hsize : s.length ≤ kMaximumDocumentBytes) {root : Entries Region}
    (hroot : L.parse s = .ok root) {r : KeyPath × Node Region} (hr : r ∈ records [] root)
    (hn : r.2.isArrayOfTables = false) :
    ParsesTo L (slice s (entryOf L s r.2).source.begin (entryOf L s r.2).source.stop) (entryOf L s r.2).value := by
  obtain ⟨t,ht,r',hr',herase,hsource⟩ := record_conforms hL hsize hroot hr
  have hstands := stands_parse ht r' hr'
  rw [content,if_neg (by simp [hbom])] at hstands
  obtain hA | ⟨pre,post,v,hc,hsound,hv⟩ := hstands
  · rw [← isArrayOfTables_erase,← herase,isArrayOfTables_erase,hn] at hA
    cases hA
  · simp only [List.nil_append] at hc hv
    obtain ⟨halone,hedged,below⟩ := hsound
    rw [hc] at hs
    obtain ⟨hvalid,hslice⟩ := slice_value hs hedged
    have hregion : r.2.source = ⟨Position.start.advance pre,(Position.start.advance pre).advance v.text⟩ := by
      rw [hsource]
      exact source_node hv
    have hlength : v.text.length ≤ kMaximumDocumentBytes := by
      rw [hc] at hsize
      simp only [List.length_append] at hsize
      omega
    simp only [entryOf,hregion]
    rw [hc,hslice]
    exact parsesTo_text hL (.intro halone hedged below) hvalid hlength hv herase

end

/-- Offsets are byte exact, and spans hold their values, in every document that does not
begin with a byte order mark; in no other one are they. -/
theorem exactSpans_iff {L : Library} (hL : L.Conforms (kMaximumDocumentBytes + 8)) {s : Bytes}
    (hs : Utf8.valid s = true) : ExactSpans L s ↔ byteOrderMark.isPrefixOf s = false := by
  constructor
  · intro h
    by_contra hbom
    obtain ⟨t,rfl⟩ : byteOrderMark <+: s := List.isPrefixOf_iff_prefix.mp (by simpa using hbom)
    exact not_exactSpans_marked L t h
  · intro hbom
    refine ⟨fun i hi hv => offset_reported hs hbom hi hv,?_⟩
    intro path snapshot root hparse hroot e he
    obtain ⟨root',hsize,hroot',rfl⟩ := parseDocument_value hparse
    cases hroot.symm.trans hroot'
    simp only [collect_eq_map,List.mem_map] at he
    obtain ⟨r,hr,rfl⟩ := he
    exact ⟨r.2,hr,rfl,parsesTo_record hL hs hbom hsize hroot hr⟩

/-- A document with characters of two octets, a comment and an array over two lines. -/
def plainDocument : Bytes := bytes "x = \"é\" # ü\ny = [1,\n 2]"

theorem exactSpans_plain :
    ExactSpans Reference.library plainDocument ↔ byteOrderMark.isPrefixOf plainDocument = false :=
  exactSpans_iff (Reference.conforms _) (by decide +kernel)

def markedDocument : Bytes := byteOrderMark ++ bytes "x = 1\n"

theorem parse_marked : Toml.parse markedDocument =
    some [(bytes "x",.scalar ⟨⟨1,5⟩,⟨1,6⟩⟩ (.integer 1))] := by decide +kernel

/-- Behind a byte order mark the span of `1` holds the blank before it. -/
theorem exactSpans_misplaced :
    (¬ ∀ s root, Utf8.valid s = true → Reference.library.parse s = .ok root →
      ExactSpans Reference.library s) ∧
    slice markedDocument (offset markedDocument ⟨1,5⟩) (offset markedDocument ⟨1,6⟩) = [0x20] := by
  refine ⟨fun h => ?_,by decide +kernel⟩
  have hvalid : Utf8.valid markedDocument = true := by decide +kernel
  exact not_exactSpans_marked _ _ (h markedDocument _ hvalid (reference_parse parse_marked))

end Document
end HolonightConfig
