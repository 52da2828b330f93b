import HolonightConfig.Posix.Path

/-! Diagnostics and results. -/
namespace HolonightConfig
open Text Posix

inductive Severity
  | info | error | warning
  deriving DecidableEq

inductive ErrorCode
  | missing | pathUnavailable | ioError | tooLarge | syntaxError | unsupportedVersion
  | validationError | atomicWriteError
  deriving DecidableEq

structure SourcePosition where
  line : ℕ
  column : ℕ
  deriving DecidableEq

structure Diagnostic where
  code : ErrorCode
  severity : Severity
  message : Bytes
  path : Option Path
  position : Option SourcePosition
  deriving DecidableEq

def hasErrors (diagnostics : List Diagnostic) : Bool :=
  diagnostics.any (fun item => item.severity == .error)

@[simp] theorem hasErrors_nil : hasErrors [] = false := rfl
@[simp] theorem hasErrors_append (ds es : List Diagnostic) :
    hasErrors (ds ++ es) = (hasErrors ds || hasErrors es) := by simp [hasErrors]

theorem hasErrors_flatMap {α : Type} (l : List α) (f : α → List Diagnostic) :
    hasErrors (l.flatMap f) = l.any (fun e => hasErrors (f e)) := by
  induction l with
  | nil => rfl
  | cons e l ih => simp [ih]

structure Result (α : Type) where
  value : Option α
  diagnostics : List Diagnostic

namespace Result
variable {α : Type}

def success (a : α) (notes : List Diagnostic) : Result α := ⟨some a,notes⟩
def failure (errors : List Diagnostic) : Result α := ⟨Option.none,errors⟩

@[simp] theorem value_success (a : α) (ns : List Diagnostic) : (success a ns).value = some a := rfl
@[simp] theorem value_failure (es : List Diagnostic) : (failure es : Result α).value = Option.none := rfl
@[simp] theorem diagnostics_success (a : α) (ns : List Diagnostic) :
    (success a ns).diagnostics = ns := rfl
@[simp] theorem diagnostics_failure (es : List Diagnostic) :
    (failure es : Result α).diagnostics = es := rfl

end Result
end HolonightConfig
