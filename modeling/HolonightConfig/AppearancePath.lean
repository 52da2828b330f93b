import HolonightConfig.AppearanceStore.Readers
import HolonightConfig.Codec

/-! Where the appearance document is looked for, by the environment. -/
namespace Posix
open Text

namespace Path

/-- The path of a text: separators part it, and one at the end leaves an empty name. -/
def ofText (s : Bytes) : Path :=
  let names := (s.splitOn 0x2F).filter (fun name => !name.isEmpty)
  ⟨s.head? = some 0x2F,names ++ if s.getLast? = some 0x2F ∧ names ≠ [] then [[]] else []⟩

/-- `operator/` with a name, behind a separator that may be there already. -/
def slash (p : Path) (name : Name) : Path :=
  ⟨p.isAbsolute,(if p.components.getLast? = some [] then p.components.dropLast else p.components) ++ [name]⟩

@[simp] theorem filename_slash (p : Path) (name : Name) : (p.slash name).filename = name := by
  simp [slash,filename]

@[simp] theorem isEmpty_slash (p : Path) (name : Name) : (p.slash name).isEmpty = false := by
  simp [slash,isEmpty]

end Path
end Posix

namespace HolonightConfig
open Text Posix

/-- Variables with their values, each once. -/
abbrev Environment := List (Bytes × Bytes)

def valueFor (environment : Environment) (name : Bytes) : Bytes := (environment.lookup name).getD []

def appearanceVariables : List Bytes :=
  [bytes "HOLONIGHT_APPEARANCE_FILE",bytes "XDG_CONFIG_HOME",bytes "HOME"]

/-- What `getenv` says of the variables that are asked for. -/
def processEnvironment (getenv : Bytes → Option Bytes) : Environment :=
  appearanceVariables.filterMap (fun name => (getenv name).map (fun value => (name,value)))

def pathUnavailable : Diagnostic :=
  ⟨.pathUnavailable,.error,bytes "cannot resolve appearance path: HOLONIGHT_APPEARANCE_FILE, " ++
    bytes "XDG_CONFIG_HOME, and HOME " ++ bytes "are empty",none,none⟩

def appearanceName : Name := bytes "appearance.toml"

def resolveAppearancePath (environment : Environment) : Result Path :=
  let override_path := valueFor environment (bytes "HOLONIGHT_APPEARANCE_FILE")
  if override_path ≠ [] then .success (Path.ofText override_path) []
  else
    let xdg := valueFor environment (bytes "XDG_CONFIG_HOME")
    if xdg ≠ [] then .success (((Path.ofText xdg).slash (bytes "holonight")).slash appearanceName) []
    else
      let home := valueFor environment (bytes "HOME")
      if home ≠ [] then
        .success ((((Path.ofText home).slash (bytes ".config")).slash (bytes "holonight")).slash appearanceName) []
      else .failure [pathUnavailable]

/-- Loading by the environment, where each path is in some state. -/
def loadEnvironment (L : Toml.Library) (states : Path → Readers.PathState) (environment : Environment) :
    Result Readers.LoadedAppearance :=
  let path := resolveAppearancePath environment
  match path.value with
  | none => .failure path.diagnostics
  | some path => Readers.load L (states path) path

/-- Without any of the variables there is no path. -/
theorem resolveAppearancePath_none_iff (environment : Environment) :
    (resolveAppearancePath environment).value = none ↔ ∀ name ∈ appearanceVariables, valueFor environment name = [] := by
  unfold resolveAppearancePath appearanceVariables
  simp only [List.forall_mem_cons,List.not_mem_nil,false_implies,implies_true,and_true]
  split
  · next h => simp [h]
  · next h =>
    rw [not_not] at h
    split
    · next h' => simp [h']
    · next h' =>
      rw [not_not] at h'
      split
      · next h'' => simp [h'']
      · next h'' => simpa [h,h'] using h''

/-- But for one that is given outright, the path names the document, so that it can be written to. -/
theorem resolveAppearancePath_filename {environment : Environment} {path : Path}
    (h : valueFor environment (bytes "HOLONIGHT_APPEARANCE_FILE") = [])
    (hp : (resolveAppearancePath environment).value = some path) :
    path.filename = appearanceName ∧ path.isEmpty = false := by
  unfold resolveAppearancePath at hp
  simp only [h,ne_eq,not_true_eq_false,if_false] at hp
  split at hp
  · cases hp
    exact ⟨Path.filename_slash _ _,Path.isEmpty_slash _ _⟩
  · split at hp
    · cases hp
      exact ⟨Path.filename_slash _ _,Path.isEmpty_slash _ _⟩
    · cases hp

example : (resolveAppearancePath [(bytes "XDG_CONFIG_HOME",bytes "/xdg"),(bytes "HOME",bytes "/home")]).value =
    some (.ofLocation [bytes "xdg",bytes "holonight",appearanceName]) := by decide +kernel

end HolonightConfig
