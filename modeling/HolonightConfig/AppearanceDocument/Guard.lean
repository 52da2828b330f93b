import HolonightConfig.AppearanceDocument.Upgrade

/-! What a save refuses beside what reading refuses: the editing schema asks for the type of the
default where the strict decoder converts. -/
namespace HolonightConfig
open Text Toml Posix

namespace AppearanceDocument
open Document
open Sparse (Kind sections kindOf TypesOk defaultTable default_section default_field template_section
  root_notes)

section
variable {L : Library} {current : DocumentSnapshot} {root template : Entries Region} {s k : Bytes} {kind : Kind}

end

end AppearanceDocument
end HolonightConfig
