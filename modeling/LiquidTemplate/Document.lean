import LiquidTemplate.Nesting
import LiquidTemplate.Token.Reader

namespace LiquidTemplate

namespace Document

/-- Reads a template and nests it. -/
def parse (options : Options) (entry : Entry) (source : String) : Except Error Document := do
  let text := source.toList
  let stop := Text.byteLength text
  let tokens ← Token.read ⟨0, options.mode⟩ entry text
  let children ← Node.ofTokens options stop tokens
  return ⟨children, source, .between 0 stop⟩

def parseLiquidHtml (options : Options) (source : String) : Except Error Document :=
  parse options .liquidHtml source

def parseLiquid (options : Options) (source : String) : Except Error Document :=
  parse options .liquid source

end Document

end LiquidTemplate
