/-!
# Terminal colours

The colours in which listings and traces are shown. With `Palette.plain` the same functions give
uncoloured text.
-/
namespace PatternAutomata

/-- The control sequences that start each colour, and the one that ends any of them. -/
structure Palette where
  blue : String
  green : String
  dim : String
  reset : String
  deriving DecidableEq, Repr

namespace Palette

def plain : Palette := ⟨"", "", "", ""⟩

def ansi : Palette := ⟨"\x1b[34m", "\x1b[32m", "\x1b[2m", "\x1b[0m"⟩

def inBlue (p : Palette) (text : String) : String := p.blue ++ text ++ p.reset

def inGreen (p : Palette) (text : String) : String := p.green ++ text ++ p.reset

def inDim (p : Palette) (text : String) : String := p.dim ++ text ++ p.reset

end Palette

end PatternAutomata
