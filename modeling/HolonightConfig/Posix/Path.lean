import HolonightConfig.Text.Bytes

/-! Paths by their components. -/
namespace Posix
open Text

abbrev Name := Bytes

def dot : Name := [0x2E]
def dotdot : Name := [0x2E,0x2E]

/-- A component that names a file, unlike the dots and what a trailing separator leaves. -/
def IsName (c : Name) : Prop := c ≠ [] ∧ c ≠ dot ∧ c ≠ dotdot

instance (c : Name) : Decidable (IsName c) := inferInstanceAs (Decidable (_ ∧ _))

/-- A path by its components, which a trailing separator ends with an empty one. -/
structure Path where
  isAbsolute : Bool
  components : List Name
  deriving DecidableEq

namespace Path

def none : Path := ⟨false,[]⟩

def isEmpty (p : Path) : Bool := !p.isAbsolute && p.components.isEmpty

def filename (p : Path) : Name := p.components.getLast?.getD []

def parentPath (p : Path) : Path := ⟨p.isAbsolute,p.components.dropLast⟩

/-- `operator/` with a single component. -/
def child (p : Path) (name : Name) : Path := ⟨p.isAbsolute,p.components ++ [name]⟩

/-- The path whose text goes on behind the last component. -/
def append (p : Path) (suffix : Bytes) : Path := p.parentPath.child (p.filename ++ suffix)

def absolute (current : List Name) (p : Path) : List Name :=
  if p.isAbsolute then p.components else current ++ p.components

/-- The absolute path of a location. -/
def ofLocation (l : List Name) : Path := ⟨true,l⟩

@[simp] theorem isEmpty_none : none.isEmpty = true := rfl
@[simp] theorem parentPath_child (p : Path) (n : Name) : (p.child n).parentPath = p := by
  simp [child,parentPath]
@[simp] theorem filename_child (p : Path) (n : Name) : (p.child n).filename = n := by
  simp [child,filename]
@[simp] theorem absolute_ofLocation (current l : List Name) : (ofLocation l).absolute current = l := rfl
@[simp] theorem isEmpty_ofLocation (l : List Name) : (ofLocation l).isEmpty = false := rfl
@[simp] theorem parentPath_ofLocation (l : List Name) : (ofLocation l).parentPath = ofLocation l.dropLast := rfl

/-- One component on the reversed stack of `lexically_normal`, with whether the result
ends in a separator. -/
def normalStep (isAbsolute : Bool) (s : List Name × Bool) (c : Name) : List Name × Bool :=
  if c = dotdot then
    match s.1 with
    | [] => (if isAbsolute then [] else [dotdot],true)
    | top :: rest => if top = dotdot then (dotdot :: top :: rest,false) else (rest,true)
  else if c = dot ∨ c = [] then (s.1,true)
  else (c :: s.1,false)

def lexicallyNormal (p : Path) : Path :=
  let s := p.components.foldl (normalStep p.isAbsolute) ([],false)
  match s.1 with
  | [] => if p.isAbsolute || p.components.isEmpty then ⟨p.isAbsolute,[]⟩ else ⟨false,[dot]⟩
  | top :: rest =>
    ⟨p.isAbsolute,(top :: rest).reverse ++ if s.2 && top != dotdot then [[]] else []⟩

theorem foldl_normalStep {l : List Name} (h : ∀ c ∈ l, IsName c) (isAbsolute : Bool) (stack : List Name) :
    l.foldl (normalStep isAbsolute) (stack,false) = (l.reverse ++ stack,false) := by
  induction l generalizing stack with
  | nil => rfl
  | cons c l ih =>
    rw [List.forall_mem_cons] at h
    obtain ⟨⟨h₁,h₂,h₃⟩,hl⟩ := h
    rw [List.foldl_cons,normalStep,if_neg h₃,if_neg (by simp [h₁,h₂]),ih hl]
    simp

/-- Names alone are in normal form. -/
theorem lexicallyNormal_ofLocation {l : List Name} (h : ∀ c ∈ l, IsName c) :
    (ofLocation l).lexicallyNormal = ofLocation l := by
  unfold lexicallyNormal
  simp only [ofLocation,foldl_normalStep h,List.append_nil]
  cases hl : l.reverse with
  | nil => simp [List.reverse_eq_nil_iff.mp hl]
  | cons top rest => simp [← hl]

end Path
end Posix
