import ScopedResources.Registry.Basic

/-!
# Built-in resources

The brushes and colors of the system, and one brush of the application.
-/

namespace ScopedResources.Registry

def black : SolidBrush := .rgb 0 0 0

def highlight : SolidBrush := .rgb 51 153 255

def transparent : SolidBrush := .rgba 0 0 0 0

def systemBrushes : List (String × SolidBrush) := [
  ("ControlTextBrush", black),
  ("HighlightBrush", highlight),
  ("TransparentBrush", transparent),
  ("ATextBrush", black),
  ("ATransparentBrush", highlight),
  ("AHighlightBrush", transparent),
  ("BTextBrush", black),
  ("BHighlightBrush", highlight),
  ("BTransparentBrush", transparent),
  ("CTextBrush", black),
  ("CHighlightBrush", highlight),
  ("CTransparentBrush", transparent)]

def systemColors : List (String × Color) := [
  ("ControlTextColor", black.color),
  ("HighlightColor", highlight.color)]

def applicationBrushes : List (String × SolidBrush) := [
  ("CustomHighlightBrush", .rgb 255 165 0)]

def builtinResources : List Resource :=
  (systemBrushes.map fun (name, brush) => ⟨.system, name, .solidBrush brush⟩) ++
    (systemColors.map fun (name, color) => ⟨.system, name, .color color⟩) ++
    applicationBrushes.map fun (name, brush) => ⟨.application, name, .solidBrush brush⟩

def builtin : Registry := empty.seed builtinResources

end ScopedResources.Registry
