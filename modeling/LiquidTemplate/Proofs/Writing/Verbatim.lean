import LiquidTemplate.Proofs.Origin.Dash
import LiquidTemplate.Proofs.Rule.Raw
import LiquidTemplate.Proofs.Writing.Text

namespace LiquidTemplate

open Text Rule
open Peg (Pair Grown)

variable {source : String} {offset : Nat} {p body : Pair Rule}

section Parts

variable (hsource : byteLength source.toList < Span.limit) (hp : Seated source.toList offset p)

end Parts

namespace Token

section Readers

variable {read : ReadText} {region : Region} {t : Token} (hsource : byteLength source.toList < Span.limit)

include hsource

end Readers

end Token

end LiquidTemplate
