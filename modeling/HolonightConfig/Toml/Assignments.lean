import HolonightConfig.Toml.Node

/-! How the values of a tree were written, and what they are whichever way that was. -/
namespace Toml
open Text

namespace Scalar

/-- Every nan is one value. -/
def plain : Scalar → Scalar
  | .floating d => .floating (if d.isNaN then ⟨0x7FF8000000000000⟩ else d)
  | v => v

end Scalar

namespace Node
variable {σ : Type}

mutual
/-- The value alone, with no regard to how its tables were written. -/
def plain : Node σ → Node Unit
  | .scalar _ v => .scalar () v.plain
  | .array _ ns => .array () (plainItems ns)
  | .table _ _ es => .table () true (plainEntries es)
def plainItems : List (Node σ) → List (Node Unit)
  | [] => []
  | n :: ns => n.plain :: plainItems ns
def plainEntries : Entries σ → Entries Unit
  | [] => []
  | (k,n) :: es => (k,n.plain) :: plainEntries es
end

def hasMembers : Node σ → Bool
  | .table _ _ es => !es.isEmpty
  | _ => false

/-- Declared by `[[headers]]`. -/
def isArrayOfTables : Node σ → Bool
  | .array _ (n :: ns) => (n :: ns).all (fun n => n.isTable && !n.isInline)
  | _ => false

mutual
/-- How many assignments a node was written with, those in inline tables not counted. -/
def assignments : Node σ → ℕ
  | .scalar _ _ => 1
  | .array source ns => if isArrayOfTables (.array source ns) then assignmentsOfItems ns else 1
  | .table _ isInline es => if isInline then 1 else assignmentsOfEntries es
def assignmentsOfItems : List (Node σ) → ℕ
  | [] => 0
  | .table _ _ es :: ns => assignmentsOfEntries es + assignmentsOfItems ns
  | _ :: ns => assignmentsOfItems ns
def assignmentsOfEntries : Entries σ → ℕ
  | [] => 0
  | (_,n) :: es => n.assignments + assignmentsOfEntries es
end

mutual
/-- A table of dotted keys is not empty. -/
def populated : Node σ → Bool
  | .table _ isInline es => (isInline || !es.isEmpty) && populatedEntries es
  | _ => true
def populatedEntries : Entries σ → Bool
  | [] => true
  | (_,n) :: es => n.populated && populatedEntries es
end

/-- As an assignment writes a value. -/
def isAssigned (n : Node σ) : Bool := n.isTable == n.isInline && !n.isArrayOfTables && n.populated

theorem assignmentsOfEntries_append (es fs : Entries σ) :
    assignmentsOfEntries (es ++ fs) = assignmentsOfEntries es + assignmentsOfEntries fs := by
  induction es with
  | nil => simp [assignmentsOfEntries]
  | cons e es ih =>
    simp only [List.cons_append,assignmentsOfEntries,ih]
    omega

theorem assignments_assigned {n : Node σ} (h : n.isAssigned = true) : n.assignments = 1 := by
  cases n with
  | scalar source v => rfl
  | array source ns =>
    simp only [isAssigned,Bool.and_eq_true,Bool.not_eq_true'] at h
    rw [assignments,if_neg (by simp [h.1.2])]
  | table source isInline es =>
    simp only [isAssigned,Bool.and_eq_true,beq_iff_eq] at h
    have hin : isInline = true := h.1.1.symm
    rw [assignments,if_pos hin]

theorem hasMembers_plain (n : Node σ) : n.plain.hasMembers = n.hasMembers := by
  cases n with
  | table source isInline es => cases es <;> rfl
  | _ => rfl

end Node
end Toml
