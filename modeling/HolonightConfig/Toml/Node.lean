import HolonightConfig.Text.Bytes
import HolonightConfig.Number.Binary64

/-! The tree a TOML reader returns: scalars, arrays and tables, each with the region
of the text it was read from. -/
namespace Toml
open Text

/-- Lines count line feeds and columns count code points, both from one. -/
structure Position where
  line : ℕ
  column : ℕ
  deriving DecidableEq

structure Region where
  begin : Position
  stop : Position
  deriving DecidableEq

namespace Position

def start : Position := ⟨1,1⟩

def step (p : Position) (b : UInt8) : Position :=
  if b = lineFeed then ⟨p.line + 1,1⟩
  else if isContinuation b then p
  else ⟨p.line,p.column + 1⟩

def advance (p : Position) (text : Bytes) : Position := text.foldl step p

@[simp] theorem advance_nil (p : Position) : p.advance [] = p := rfl
@[simp] theorem advance_append (p : Position) (s t : Bytes) :
    p.advance (s ++ t) = (p.advance s).advance t := by simp [advance]

end Position

structure Date where
  year : ℕ
  month : ℕ
  day : ℕ
  deriving DecidableEq

structure Time where
  hour : ℕ
  minute : ℕ
  second : ℕ
  nanosecond : ℕ
  deriving DecidableEq

inductive Scalar
  | boolean (value : Bool)
  | integer (value : ℤ)
  | floating (value : Binary64)
  | string (value : Bytes)
  | date (value : Date)
  | time (value : Time)
  | dateTime (date : Date) (time : Time) (offset : Option ℤ)
  deriving DecidableEq

inductive NodeType
  | table | array | string | integer | floating | boolean | date | time | dateTime
  deriving DecidableEq

def Scalar.type : Scalar → NodeType
  | .boolean _ => .boolean
  | .integer _ => .integer
  | .floating _ => .floating
  | .string _ => .string
  | .date _ => .date
  | .time _ => .time
  | .dateTime _ _ _ => .dateTime

/-- A node over annotations `σ`: `Region` for what a reader returns, `Unit` for the
value alone. -/
inductive Node (σ : Type) where
  | scalar (source : σ) (value : Scalar)
  | array (source : σ) (items : List (Node σ))
  | table (source : σ) (isInline : Bool) (entries : List (Bytes × Node σ))

/-- A table's members by key, in the order of their keys. -/
abbrev Entries (σ : Type) := List (Bytes × Node σ)

namespace Node
variable {σ : Type}

def source : Node σ → σ
  | .scalar s _ => s
  | .array s _ => s
  | .table s _ _ => s

def type : Node σ → NodeType
  | .scalar _ v => v.type
  | .array _ _ => .array
  | .table _ _ _ => .table

def isTable : Node σ → Bool
  | .table _ _ _ => true
  | _ => false

def isInline : Node σ → Bool
  | .table _ i _ => i
  | _ => false

def asTable : Node σ → Option (Entries σ)
  | .table _ _ es => some es
  | _ => none

def isNumber (n : Node σ) : Bool := n.type == .integer || n.type == .floating

@[simp] theorem source_scalar (s : σ) (v : Scalar) : (Node.scalar s v).source = s := rfl
@[simp] theorem type_scalar (s : σ) (v : Scalar) : (Node.scalar s v).type = v.type := rfl
@[simp] theorem type_array (s : σ) (ns : List (Node σ)) : (Node.array s ns).type = .array := rfl
@[simp] theorem type_table (s : σ) (i : Bool) (es : Entries σ) : (Node.table s i es).type = .table := rfl

mutual
/-- The value of a node without the regions it was read from. -/
def erase : Node σ → Node Unit
  | .scalar _ v => .scalar () v
  | .array _ ns => .array () (eraseItems ns)
  | .table _ i es => .table () i (eraseEntries es)
def eraseItems : List (Node σ) → List (Node Unit)
  | [] => []
  | n :: ns => n.erase :: eraseItems ns
def eraseEntries : Entries σ → Entries Unit
  | [] => []
  | (k,n) :: es => (k,n.erase) :: eraseEntries es
end

theorem eraseItems_eq_map (ns : List (Node σ)) : eraseItems ns = ns.map erase := by
  induction ns with
  | nil => rfl
  | cons n ns ih => simp [eraseItems,ih]

theorem eraseEntries_eq_map (es : Entries σ) :
    eraseEntries es = es.map (fun e => (e.1,e.2.erase)) := by
  induction es with
  | nil => rfl
  | cons e es ih => simp [eraseEntries,ih]

mutual
@[simp] theorem erase_erase : ∀ n : Node σ, n.erase.erase = n.erase
  | .scalar _ _ => rfl
  | .array _ ns => by simp [erase,eraseItems_eraseItems ns]
  | .table _ _ es => by simp [erase,eraseEntries_eraseEntries es]
@[simp] theorem eraseItems_eraseItems : ∀ ns : List (Node σ), eraseItems (eraseItems ns) = eraseItems ns
  | [] => rfl
  | n :: ns => by simp [eraseItems,erase_erase n,eraseItems_eraseItems ns]
@[simp] theorem eraseEntries_eraseEntries :
    ∀ es : Entries σ, eraseEntries (eraseEntries es) = eraseEntries es
  | [] => rfl
  | (k,n) :: es => by simp [eraseEntries,erase_erase n,eraseEntries_eraseEntries es]
end

theorem asTable_erase (n : Node σ) : n.erase.asTable = n.asTable.map eraseEntries := by
  cases n <;> rfl

@[simp] theorem type_erase (n : Node σ) : n.erase.type = n.type := by cases n <;> simp [erase,type]
@[simp] theorem isTable_erase (n : Node σ) : n.erase.isTable = n.isTable := by
  cases n <;> simp [erase,isTable]
@[simp] theorem isInline_erase (n : Node σ) : n.erase.isInline = n.isInline := by
  cases n <;> simp [erase,isInline]

mutual
def decEq [DecidableEq σ] : (n m : Node σ) → Decidable (n = m)
  | .scalar s v,.scalar t w => decidable_of_iff (s = t ∧ v = w) (by simp)
  | .array s ns,.array t ms =>
    have := decEqItems ns ms
    decidable_of_iff (s = t ∧ ns = ms) (by simp)
  | .table s i es,.table t j fs =>
    have := decEqEntries es fs
    decidable_of_iff (s = t ∧ i = j ∧ es = fs) (by simp)
  | .scalar _ _,.array _ _ => isFalse (by simp)
  | .scalar _ _,.table _ _ _ => isFalse (by simp)
  | .array _ _,.scalar _ _ => isFalse (by simp)
  | .array _ _,.table _ _ _ => isFalse (by simp)
  | .table _ _ _,.scalar _ _ => isFalse (by simp)
  | .table _ _ _,.array _ _ => isFalse (by simp)
def decEqItems [DecidableEq σ] : (ns ms : List (Node σ)) → Decidable (ns = ms)
  | [],[] => isTrue rfl
  | [],_ :: _ => isFalse (by simp)
  | _ :: _,[] => isFalse (by simp)
  | n :: ns,m :: ms =>
    have := decEq n m
    have := decEqItems ns ms
    decidable_of_iff (n = m ∧ ns = ms) (by simp)
def decEqEntries [DecidableEq σ] : (es fs : List (Bytes × Node σ)) → Decidable (es = fs)
  | [],[] => isTrue rfl
  | [],_ :: _ => isFalse (by simp)
  | _ :: _,[] => isFalse (by simp)
  | (k,n) :: es,(k',m) :: fs =>
    have := decEq n m
    have := decEqEntries es fs
    decidable_of_iff (k = k' ∧ n = m ∧ es = fs) (by simp [and_assoc])
end

instance [DecidableEq σ] : DecidableEq (Node σ) := decEq

end Node

namespace Entries
variable {σ : Type}

def get (es : Entries σ) (k : Bytes) : Option (Node σ) := es.lookup k

def contains (es : Entries σ) (k : Bytes) : Bool := (es.get k).isSome

/-- Insertion keeps the keys in order. -/
def insert {β : Type} (k : Bytes) (b : β) : List (Bytes × β) → List (Bytes × β)
  | [] => [(k,b)]
  | (k',b') :: es => if lexLt k k' then (k,b) :: (k',b') :: es else (k',b') :: insert k b es

def replace {β : Type} (k : Bytes) (b : β) (es : List (Bytes × β)) : List (Bytes × β) :=
  es.map (fun e => if e.1 == k then (e.1,b) else e)

def insertOrAssign {β : Type} (k : Bytes) (b : β) (es : List (Bytes × β)) : List (Bytes × β) :=
  match es.lookup k with
  | some _ => replace k b es
  | none => insert k b es

section Lookup
variable {β : Type}

theorem lookup_insert_self (k : Bytes) (b : β) {es : List (Bytes × β)} (h : es.lookup k = none) :
    (insert k b es).lookup k = some b := by
  induction es with
  | nil => simp [insert]
  | cons e es ih =>
    obtain ⟨k',b'⟩ := e
    rw [List.lookup_cons] at h
    split at h
    · cases h
    · next hk =>
      unfold insert
      split
      · simp
      · simp [List.lookup_cons,hk,ih h]

theorem lookup_insert_of_ne {k k' : Bytes} (hk : k' ≠ k) (b : β) (es : List (Bytes × β)) :
    (insert k b es).lookup k' = es.lookup k' := by
  have hb : (k' == k) = false := by simpa using hk
  induction es with
  | nil => simp [insert,List.lookup_cons,hb]
  | cons e es ih =>
    obtain ⟨k₁,b₁⟩ := e
    unfold insert
    split
    · simp only [List.lookup_cons,hb]
    · simp only [List.lookup_cons,ih]

theorem lookup_replace_self (k : Bytes) (b : β) {es : List (Bytes × β)} {b₀ : β}
    (h : es.lookup k = some b₀) : (replace k b es).lookup k = some b := by
  induction es with
  | nil => simp at h
  | cons e es ih =>
    obtain ⟨k₁,b₁⟩ := e
    by_cases hk : k₁ = k
    · simp [replace,hk]
    · have hk' : (k == k₁) = false := by simpa using Ne.symm hk
      simp only [List.lookup_cons,hk'] at h
      simpa [replace,hk,List.lookup_cons,hk'] using ih h

theorem lookup_replace_of_ne {k k' : Bytes} (hk : k' ≠ k) (b : β) (es : List (Bytes × β)) :
    (replace k b es).lookup k' = es.lookup k' := by
  have hb : (k' == k) = false := by simpa using hk
  induction es with
  | nil => rfl
  | cons e es ih =>
    obtain ⟨k₁,b₁⟩ := e
    change (((if k₁ == k then (k₁,b) else (k₁,b₁)) :: replace k b es).lookup k') = _
    split
    · next h₁ =>
      obtain rfl : k₁ = k := by simpa using h₁
      simp only [List.lookup_cons,hb,ih]
    · simp only [List.lookup_cons,ih]

@[simp] theorem lookup_insertOrAssign_self (k : Bytes) (b : β) (es : List (Bytes × β)) :
    (insertOrAssign k b es).lookup k = some b := by
  unfold insertOrAssign
  cases h : es.lookup k with
  | some b₀ => exact lookup_replace_self k b h
  | none => exact lookup_insert_self k b h

theorem lookup_insertOrAssign_of_ne {k k' : Bytes} (hk : k' ≠ k) (b : β) (es : List (Bytes × β)) :
    (insertOrAssign k b es).lookup k' = es.lookup k' := by
  unfold insertOrAssign
  cases es.lookup k with
  | some b₀ => exact lookup_replace_of_ne hk b es
  | none => exact lookup_insert_of_ne hk b es

end Lookup

theorem lookup_eraseEntries (es : Entries σ) (k : Bytes) :
    (Node.eraseEntries es).lookup k = (es.lookup k).map Node.erase := by
  induction es with
  | nil => rfl
  | cons e es ih =>
    obtain ⟨k',n⟩ := e
    simp only [Node.eraseEntries,List.lookup_cons]
    split <;> simp [ih]

theorem get_eraseEntries (es : Entries σ) (k : Bytes) :
    (Node.eraseEntries es : Entries Unit).get k = (es.get k).map Node.erase := lookup_eraseEntries es k

/-- The node a key path names, through tables of either spelling. -/
def find : Entries σ → List Bytes → Option (Node σ)
  | _,[] => none
  | es,[k] => es.get k
  | es,k :: k' :: ks => ((es.get k).bind Node.asTable).bind (find · (k' :: ks))

end Entries
end Toml
