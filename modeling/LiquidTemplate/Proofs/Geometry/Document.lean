import LiquidTemplate.Document
import LiquidTemplate.Proofs.Geometry.Building
import LiquidTemplate.Proofs.Geometry.Reading

namespace LiquidTemplate

open Text

/-- The tree of a parsed template lies in the template: every node covers some of it and cuts no
character, lists of nodes are in order, and each part of a node lies in its place. The length of a
text always fits a signed word. -/
theorem Document.nodesIn_parse {o : Options} {entry : Entry} {source : String} {d : Document}
    (hsource : byteLength source.toList < Span.limit) (h : Document.parse o entry source = .ok d) :
    NodesIn source.toList 0 (byteLength source.toList) d.children := by
  unfold Document.parse at h
  obtain ⟨ts, hts, h⟩ := bind_eq_ok.mp h
  obtain ⟨children, hchildren, h⟩ := bind_eq_ok.mp h
  cases h
  have htokens := Token.tokensIn_read hsource hts
  have hend : Boundary source.toList (byteLength source.toList) := ⟨source.toList, [], by simp, rfl⟩
  exact Node.nodesIn_ofTokens hsource htokens hend hchildren

def mixedTemplate : String :=
  "<a b='\x7b\x7b c \x7d\x7d'>\u00e9\x7b% if x %\x7d<p>\x7b% else %\x7d\x7b% endif %\x7d" ++
    "</a>\x7b% liquid\necho y %\x7d<svg>\x7b\x7b d \x7d\x7d</svg>"

theorem Document.nodesIn_mixedTemplate :
    byteLength mixedTemplate.toList < Span.limit ∧
      ∃ d, Document.parse {} .liquidHtml mixedTemplate = .ok d ∧ d.children.length = 3 ∧
        NodesIn mixedTemplate.toList 0 (byteLength mixedTemplate.toList) d.children := by
  have hsource : byteLength mixedTemplate.toList < Span.limit := by decide +kernel
  have hlength : (Document.parse {} .liquidHtml mixedTemplate).toOption.map (·.children.length) =
      some 3 := by decide +kernel
  cases h : Document.parse {} .liquidHtml mixedTemplate with
  | error e =>
      rw [h] at hlength
      cases hlength
  | ok d =>
      rw [h] at hlength
      exact ⟨hsource, d, rfl, Option.some.inj hlength, Document.nodesIn_parse hsource h⟩

end LiquidTemplate
