import LiquidTemplate.Proofs.Embedding.Building

namespace LiquidTemplate

open Text

theorem Token.read_add {text : List Char} {k : Nat} (hk : k + byteLength text < Span.limit)
    (mode : Mode) (entry : Entry) :
    Token.read ⟨k, mode⟩ entry text =
      moved k (List.map (Token.shift k)) (Token.read ⟨0, mode⟩ entry text) := by
  have hmoves := Token.moves_readWithin k (text.length + 1) 0 mode entry text (by omega)
  rwa [Nat.zero_add] at hmoves

theorem Document.standalone_parse {o : Options} {entry : Entry} {source : String} {d : Document}
    (hsource : byteLength source.toList < Span.limit) (h : Document.parse o entry source = .ok d) :
    ∀ n ∈ d.children, Node.Standalone source.toList o.mode n := by
  unfold Document.parse at h
  obtain ⟨ts, hts, h⟩ := bind_eq_ok.mp h
  obtain ⟨children, hchildren, h⟩ := bind_eq_ok.mp h
  cases h
  have htokens := Token.standalone_read hsource hts
  apply Node.holds_ofTokens composes_standalone _ hchildren
  intro t ht item hitem
  exact Nesting.complete_standalone hsource (htokens t ht) rfl hitem

/-- Reading and nesting go with moving: a text further to the right gives the same tokens, the
tokens give the same tree, and an error stays the same error, all of it moved right. And a text
embedded in a template is parsed as if it stood alone: its nodes are those of the document that it
is by itself, moved to where it stands. -/
theorem Document.parse_moves {source : String} {k : Nat}
    (hk : k + byteLength source.toList < Span.limit) (entry : Entry) (o : Options) :
    Token.read ⟨k, o.mode⟩ entry source.toList =
        moved k (List.map (Token.shift k)) (Token.read ⟨0, o.mode⟩ entry source.toList) ∧
      (∀ ts, Token.read ⟨0, o.mode⟩ entry source.toList = .ok ts →
        ∀ (o' : Options) (stop : Nat), stop + k < Span.limit →
          Node.ofTokens o' (stop + k) (ts.map (Token.shift k)) =
            moved k (List.map (Node.shift k)) (Node.ofTokens o' stop ts)) ∧
      ∀ d, Document.parse o entry source = .ok d →
        ∀ n ∈ d.children, Node.Standalone source.toList o.mode n := by
  refine ⟨Token.read_add hk o.mode entry, ?_, ?_⟩
  · intro ts hts o' stop hstop
    have htokens := Token.tokensIn_read (by omega) hts
    exact Node.ofTokens_shift (by omega) o' hstop htokens
  · intro d hd
    exact Document.standalone_parse (by omega) hd

def embeddedTemplate : String :=
  "<svg>\x7b\x7b a \x7d\x7d</svg>\x7b% style %\x7d\u00e9 \x7b% if b %\x7d\x7b% endstyle %\x7d" ++
    "\x7b%- liquid\n echo c\n liquid echo d\n-%\x7d"

theorem Document.parse_moves_embeddedTemplate :
    100 + byteLength embeddedTemplate.toList < Span.limit ∧
      ∃ d, Document.parse {} .liquidHtml embeddedTemplate = .ok d ∧
        d.children.map Node.kind = ["HtmlRawNode", "LiquidRawTag", "LiquidTag"] ∧
        Token.read ⟨100, .tolerant⟩ .liquidHtml embeddedTemplate.toList =
          moved 100 (List.map (Token.shift 100))
            (Token.read ⟨0, .tolerant⟩ .liquidHtml embeddedTemplate.toList) ∧
        ∀ n ∈ d.children, Node.Standalone embeddedTemplate.toList .tolerant n := by
  have hsource : 100 + byteLength embeddedTemplate.toList < Span.limit := by decide +kernel
  have hkinds : (Document.parse {} .liquidHtml embeddedTemplate).toOption.map (·.children.map Node.kind) =
      some ["HtmlRawNode", "LiquidRawTag", "LiquidTag"] := by decide +kernel
  obtain ⟨hread, _, hall⟩ := Document.parse_moves hsource .liquidHtml {}
  cases h : Document.parse {} .liquidHtml embeddedTemplate with
  | error e =>
      rw [h] at hkinds
      cases hkinds
  | ok d =>
      rw [h] at hkinds
      exact ⟨hsource, d, rfl, Option.some.inj hkinds, hread, hall d h⟩

end LiquidTemplate
