import HolonightConfig.Toml.Library

/-! A library that conforms by definition: the grammar's own reader with a printer in
the default format of such libraries. Concrete runs use it. -/
namespace Toml
namespace Reference
open Text Lexical

def hexDigit (n : ℕ) : UInt8 := if n < 10 then (0x30 + n).toUInt8 else (0x41 + n - 10).toUInt8

def escapeOctet (c : UInt8) : Bytes :=
  if c = 0x22 then bytes "\\\""
  else if c = 0x5C then bytes "\\\\"
  else if c = 0x08 then bytes "\\b"
  else if c = 0x09 then bytes "\\t"
  else if c = 0x0A then bytes "\\n"
  else if c = 0x0C then bytes "\\f"
  else if c = 0x0D then bytes "\\r"
  else if c < 0x20 ∨ c = 0x7F then
    bytes "\\u00" ++ [hexDigit (c.toNat / 16),hexDigit (c.toNat % 16)]
  else [c]

/-- A literal string where nothing needs an escape. -/
def stringText (s : Bytes) : Bytes :=
  if s.all (fun c => isNonEol c && c != 0x27) then 0x27 :: (s ++ [0x27])
  else 0x22 :: (s.flatMap escapeOctet ++ [0x22])

def keyText (k : Bytes) : Bytes := if k ≠ [] ∧ k.all isBareKey then k else stringText k

/-- The fewest digits that read back, and always a fraction or an exponent. -/
def floatText (d : Binary64) : Bytes :=
  match d.toInteger.filter (fun n => n ≠ 0 ∧ n.natAbs < 10 ^ 15) with
  | some n => Binary64.decimalInteger n ++ bytes ".0"
  | none =>
  let candidates := (List.range 17).map (fun p => Binary64.general (p + 1) d)
  let reads := fun t => match (integer t).or (floating t) with
    | some (.integer n) => Binary64.ofInteger n == d
    | some (.floating e) => e == d
    | _ => false
  let t := (candidates.find? reads).getD (Binary64.general 17 d)
  if t.all (fun c => isDigit c || c == 0x2D) then t ++ bytes ".0" else t

def padded (width n : ℕ) : Bytes :=
  let ds := Binary64.decimal n
  List.replicate (width - ds.length) 0x30 ++ ds

def dateText (d : Date) : Bytes :=
  padded 4 d.year ++ 0x2D :: (padded 2 d.month ++ 0x2D :: padded 2 d.day)

def timeText (t : Time) : Bytes :=
  padded 2 t.hour ++ 0x3A :: (padded 2 t.minute ++ 0x3A ::
    Binary64.withFraction (padded 2 t.second) (padded 9 t.nanosecond))

def zoneText (o : ℤ) : Bytes :=
  if o = 0 then [0x5A]
  else (if o < 0 then 0x2D else 0x2B) :: (padded 2 (o.natAbs / 60) ++ 0x3A :: padded 2 (o.natAbs % 60))

def scalarText : Scalar → Bytes
  | .boolean b => if b then bytes "true" else bytes "false"
  | .integer n => Binary64.decimalInteger n
  | .floating d => floatText d
  | .string s => stringText s
  | .date d => dateText d
  | .time t => timeText t
  | .dateTime d t o => dateText d ++ 0x54 :: (timeText t ++ (o.map zoneText).getD [])

mutual
/-- A value on one line. -/
def valueText : Node Unit → Bytes
  | .scalar _ v => scalarText v
  | .array _ [] => bytes "[]"
  | .array _ (n :: ns) => bytes "[ " ++ (valueText n ++ (itemsText ns ++ bytes " ]"))
  | .table _ _ [] => bytes "\x7b\x7d"
  | .table _ _ ((k,n) :: es) =>
    bytes "\x7b " ++ (keyText k ++ (bytes " = " ++ (valueText n ++ (membersText es ++ bytes " \x7d"))))
def itemsText : List (Node Unit) → Bytes
  | [] => []
  | n :: ns => bytes ", " ++ (valueText n ++ itemsText ns)
def membersText : List (Bytes × Node Unit) → Bytes
  | [] => []
  | (k,n) :: es => bytes ", " ++ (keyText k ++ (bytes " = " ++ (valueText n ++ membersText es)))
end

/-- The assignments of a table, before the sections of its subtables. -/
def assignmentsText : List (Bytes × Node Unit) → Bytes
  | [] => []
  | (_,.table _ false _) :: es => assignmentsText es
  | (k,n) :: es => keyText k ++ (bytes " = " ++ (valueText n ++ (0x0A :: assignmentsText es)))

mutual
def sectionText (path : Bytes) : Node Unit → Bytes
  | .table _ false es =>
    bytes "\n[" ++ (path ++ (bytes "]\n" ++ (assignmentsText es ++ sectionsText (path ++ [0x2E]) es)))
  | _ => []
def sectionsText (path : Bytes) : List (Bytes × Node Unit) → Bytes
  | [] => []
  | (k,n) :: es => sectionText (path ++ keyText k) n ++ sectionsText path es
end

def nodeText : Node Unit → Bytes
  | .table _ false es => assignmentsText es ++ sectionsText [] es
  | n => valueText n

def parse (s : Bytes) : Except ParseError (Entries Region) :=
  match Toml.parse s with
  | some t => .ok t
  | none => .error ⟨bytes "syntax error",.start⟩

def toInt64 : Node Unit → Option ℤ
  | .scalar _ (.integer i) => some i
  | .scalar _ (.floating d) => d.toInteger.filter (fun i => -2 ^ 63 ≤ i ∧ i < 2 ^ 63)
  | .scalar _ (.boolean b) => some (if b then 1 else 0)
  | _ => none

def toDouble : Node Unit → Option Binary64
  | .scalar _ (.floating d) => some d
  | .scalar _ (.integer i) => some (.ofInteger i)
  | _ => none

def toText : Node Unit → Option Bytes
  | .scalar _ (.string s) => some s
  | _ => none

def library : Library := ⟨parse,nodeText,toInt64,toDouble,toText⟩

theorem conforms (bound : ℕ) : library.Conforms bound := by
  intro s _
  change ((parse s).toOption.map Node.withoutEntries) = _
  unfold parse
  cases Toml.parse s <;> rfl

theorem permissive : library.Permissive where
  toInt64 n := by cases n with | scalar u v => cases v <;> rfl | _ => rfl
  toDouble n := by cases n with | scalar u v => cases v <;> rfl | _ => rfl
  toText n := by cases n with | scalar u v => cases v <;> rfl | _ => rfl

theorem parse_ok {s : Bytes} (h : (Toml.parse s).isSome = true) :
    library.parse s = .ok ((Toml.parse s).getD []) := by
  obtain ⟨t,ht⟩ := Option.isSome_iff_exists.mp h
  change parse s = _
  unfold parse
  rw [ht]
  rfl

end Reference
end Toml
