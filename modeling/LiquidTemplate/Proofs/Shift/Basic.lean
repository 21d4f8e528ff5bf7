import LiquidTemplate.Nesting

namespace LiquidTemplate

namespace Expression

mutual

/-- The expression moved right by `k` bytes; the functions of this name below move everything that
has a span. -/
def shift (k : Nat) : Expression → Expression
  | string value singleQuoted s => string value singleQuoted (s.shift k)
  | number digits s => number digits (s.shift k)
  | literal value s => literal value (s.shift k)
  | range first last s => range (first.shift k) (last.shift k) (s.shift k)
  | lookup name keys s => lookup name (shiftAll k keys) (s.shift k)

def shiftAll (k : Nat) : List Expression → List Expression
  | [] => []
  | e :: es => e.shift k :: shiftAll k es

end

end Expression

def NamedArgument.shift (k : Nat) (a : NamedArgument) : NamedArgument :=
  ⟨a.name, a.value.shift k, a.span.shift k⟩

def Argument.shift (k : Nat) : Argument → Argument
  | positional value => positional (value.shift k)
  | named argument => named (argument.shift k)

def Filter.shift (k : Nat) (f : Filter) : Filter :=
  ⟨f.name, f.arguments.map (Argument.shift k), f.span.shift k⟩

def Variable.shift (k : Nat) (v : Variable) : Variable :=
  ⟨v.expression.shift k, v.filters.map (Filter.shift k), v.source, v.span.shift k⟩

def Test.shift (k : Nat) : Test → Test
  | comparison c left right s => comparison c (left.shift k) (right.shift k) (s.shift k)
  | expression value => expression (value.shift k)

def Clause.shift (k : Nat) (c : Clause) : Clause := ⟨c.connective, c.test.shift k, c.span.shift k⟩

def Condition.shift (k : Nat) : Condition → Condition
  | logical c left right s => logical c (left.shift k) (right.shift k) (s.shift k)
  | comparison c left right s => comparison c (left.shift k) (right.shift k) (s.shift k)
  | expression value s => expression (value.shift k) (s.shift k)

def Loop.shift (k : Nat) (l : Loop) : Loop :=
  ⟨l.name, l.collection.shift k, l.reversed, l.arguments.map (NamedArgument.shift k)⟩

def RenderVariable.shift (k : Nat) (v : RenderVariable) : RenderVariable :=
  ⟨v.mode, v.value.shift k, v.span.shift k⟩

def RenderAlias.shift (k : Nat) (a : RenderAlias) : RenderAlias := ⟨a.name, a.span.shift k⟩

def Render.shift (k : Nat) (r : Render) : Render :=
  ⟨r.snippet.shift k, r.value.map (RenderVariable.shift k), r.asName.map (RenderAlias.shift k),
    r.arguments.map (NamedArgument.shift k)⟩

namespace Markup

variable {κ : Type}

def shift (k : Nat) (f : κ → κ) : Markup κ → Markup κ
  | text value => text value
  | assign name value => assign name (value.shift k)
  | variableName name => variableName name
  | caseOf subject => caseOf (subject.shift k)
  | whenAny values => whenAny (values.map (Expression.shift k))
  | condition c => condition (f c)
  | loop l => loop (l.shift k)
  | cycle group values => cycle (group.map (Expression.shift k)) (values.map (Expression.shift k))
  | render r => render (r.shift k)
  | paginate collection pageSize arguments =>
    paginate (collection.shift k) (pageSize.shift k) (arguments.map (NamedArgument.shift k))
  | contentFor type arguments => contentFor (type.shift k) (arguments.map (NamedArgument.shift k))
  | form arguments => form (arguments.map (Argument.shift k))
  | layout name => layout (name.shift k)
  | sectionName name => sectionName (name.shift k)
  | echo value => echo (value.shift k)

def shiftFlat (k : Nat) : Flat → Flat := shift k (List.map (Clause.shift k))

def shiftFolded (k : Nat) : Folded → Folded := shift k (Condition.shift k)

end Markup

def TextRun.shift (k : Nat) (r : TextRun) : TextRun := ⟨r.value, r.span.shift k⟩

def Block.shift (k : Nat) (b : Block) : Block :=
  ⟨b.span.shift k, b.opening.shift k, b.closing.shift k⟩

def OutputMarkup.shift (k : Nat) : OutputMarkup → OutputMarkup
  | value v => value (v.shift k)
  | raw text => raw text

def Output.shift (k : Nat) (o : Output) : Output := ⟨o.markup.shift k, o.trim, o.span.shift k⟩

def Piece.shift (k : Nat) : Piece → Piece
  | text run => text (run.shift k)
  | output o => output (o.shift k)

def Tag.shift (k : Nat) (t : Tag) : Tag :=
  ⟨t.name, t.markup.shiftFlat k, t.markupSpan.shift k, t.trim, t.span.shift k⟩

def TagClose.shift (k : Nat) (c : TagClose) : TagClose := ⟨c.name, c.trim, c.span.shift k⟩

def Statements.shift (k : Nat) (s : Statements) : Statements :=
  ⟨s.markupSpan.shift k, s.trim, s.span.shift k⟩

def RawTag.shift (k : Nat) (t : RawTag) : RawTag :=
  ⟨t.name, t.markup, t.body, t.bodySpan.shift k, t.trim, t.closingTrim, t.block.shift k⟩

def RawElement.shift (k : Nat) (e : RawElement) : RawElement :=
  ⟨e.name.shift k, e.body, e.bodySpan.shift k, e.block.shift k⟩

def DocParam.shift (k : Nat) (p : DocParam) : DocParam := { p with span := p.span.shift k }

namespace Token

mutual

def shift (k : Nat) : Token → Token
  | text run => text (run.shift k)
  | frontmatter body s => frontmatter body (s.shift k)
  | doctype legacy s => doctype legacy (s.shift k)
  | comment body s => comment body (s.shift k)
  | rawElement e attributes body =>
    rawElement (e.shift k) (shiftAll k attributes) (shiftAll k body)
  | voidElement name attributes s => voidElement (name.shift k) (shiftAll k attributes) (s.shift k)
  | selfClosing name attributes s =>
    selfClosing (name.map (Piece.shift k)) (shiftAll k attributes) (s.shift k)
  | elementOpen name attributes s =>
    elementOpen (name.map (Piece.shift k)) (shiftAll k attributes) (s.shift k)
  | elementClose name s => elementClose (name.map (Piece.shift k)) (s.shift k)
  | valueAttribute quotes name value valueSpan s =>
    valueAttribute quotes (name.map (Piece.shift k)) (shiftAll k value) (valueSpan.shift k)
      (s.shift k)
  | bareAttribute name s => bareAttribute (name.map (Piece.shift k)) (s.shift k)
  | output o => output (o.shift k)
  | tagOpen t => tagOpen (t.shift k)
  | tag t => tag (t.shift k)
  | statements head body => statements (head.shift k) (shiftAll k body)
  | tagClose close => tagClose (close.shift k)
  | rawTag t body => rawTag (t.shift k) (shiftAll k body)
  | docParam p => docParam (p.shift k)
  | docExample content s => docExample content (s.shift k)
  | docDescription content s => docDescription content (s.shift k)

def shiftAll (k : Nat) : List Token → List Token
  | [] => []
  | t :: ts => t.shift k :: shiftAll k ts

end

theorem shiftAll_eq_map (k : Nat) (ts : List Token) : shiftAll k ts = ts.map (shift k) := by
  induction ts with
  | nil => rfl
  | cons t ts ih => rw [shiftAll, ih, List.map_cons]

end Token

def TagHead.shift (k : Nat) (h : TagHead) : TagHead :=
  ⟨h.name, h.markup.shiftFolded k, h.trim, h.span.shift k⟩

def Closing.shift (k : Nat) (c : Closing) : Closing := ⟨c.trim, c.span.shift k⟩

def BranchHead.shift (k : Nat) (h : BranchHead) : BranchHead :=
  ⟨h.name, h.markup.shiftFolded k, h.trim, h.span.shift k⟩

mutual

def Node.shift (k : Nat) : Node → Node
  | .text run => .text (run.shift k)
  | .frontmatter body s => .frontmatter body (s.shift k)
  | .doctype legacy s => .doctype legacy (s.shift k)
  | .comment body s => .comment body (s.shift k)
  | .element name attributes opening children closing =>
    .element (name.map (Piece.shift k)) (shiftNodes k attributes) (opening.shift k)
      (shiftNodes k children) (closing.shift k)
  | .rawElement e kind attributes nodes =>
    .rawElement (e.shift k) kind (shiftNodes k attributes) (shiftNodes k nodes)
  | .voidElement name attributes s =>
    .voidElement (name.shift k) (shiftNodes k attributes) (s.shift k)
  | .selfClosing name attributes s =>
    .selfClosing (name.map (Piece.shift k)) (shiftNodes k attributes) (s.shift k)
  | .danglingClose name s => .danglingClose (name.map (Piece.shift k)) (s.shift k)
  | .valueAttribute quotes name value valueSpan s =>
    .valueAttribute quotes (name.map (Piece.shift k)) (shiftNodes k value) (valueSpan.shift k)
      (s.shift k)
  | .bareAttribute name s => .bareAttribute (name.map (Piece.shift k)) (s.shift k)
  | .output o => .output (o.shift k)
  | .tag head => .tag (head.shift k)
  | .block head children closing =>
    .block (head.shift k) (shiftNodes k children) (closing.shift k)
  | .branched head first others closing =>
    .branched (head.shift k) (first.shift k) (shiftBranches k others) (closing.shift k)
  | .statements trim s body => .statements trim (s.shift k) (shiftNodes k body)
  | .rawTag t kind nodes => .rawTag (t.shift k) kind (shiftNodes k nodes)
  | .docParam p => .docParam (p.shift k)
  | .docExample content s => .docExample content (s.shift k)
  | .docDescription content s => .docDescription content (s.shift k)

def shiftNodes (k : Nat) : List Node → List Node
  | [] => []
  | n :: ns => n.shift k :: shiftNodes k ns

def Branch.shift (k : Nat) : Branch → Branch
  | .mk head children closing => .mk (head.shift k) (shiftNodes k children) (closing.shift k)

def shiftBranches (k : Nat) : List Branch → List Branch
  | [] => []
  | b :: bs => b.shift k :: shiftBranches k bs

end

theorem shiftNodes_eq_map (k : Nat) (ns : List Node) : shiftNodes k ns = ns.map (Node.shift k) := by
  induction ns with
  | nil => rfl
  | cons n ns ih => rw [shiftNodes, ih, List.map_cons]

theorem shiftBranches_eq_map (k : Nat) (bs : List Branch) :
    shiftBranches k bs = bs.map (Branch.shift k) := by
  induction bs with
  | nil => rfl
  | cons b bs ih => rw [shiftBranches, ih, List.map_cons]

def Unclosed.shift (k : Nat) (u : Unclosed) : Unclosed := ⟨u.container, u.name, u.opening.shift k⟩

def Misnesting.shift (k : Nat) : Misnesting → Misnesting
  | closeUnopened container name => closeUnopened container name
  | closeBefore container name u => closeBefore container name (u.shift k)
  | branchOutside name => branchOutside name
  | branchBefore name u => branchBefore name (u.shift k)
  | endBefore u => endBefore (u.shift k)
  | tooDeep => tooDeep

def Error.shift (k : Nat) : Error → Error
  | unreadable cause s => unreadable cause (s.shift k)
  | misnested cause s => misnested (cause.shift k) (s.shift k)

def moved {α β : Type} (k : Nat) (f : α → β) : Except Error α → Except Error β
  | .ok a => .ok (f a)
  | .error e => .error (e.shift k)

section Moved

variable {α β γ δ : Type} {k : Nat} {f : α → β}

@[simp]
theorem moved_ok (a : α) : moved k f (.ok a) = .ok (f a) := rfl

@[simp]
theorem moved_error (e : Error) : moved k f (.error e) = .error (e.shift k) := rfl

theorem moved_eq_ok {x : Except Error α} {b : β} (h : moved k f x = .ok b) :
    ∃ a, x = .ok a ∧ b = f a := by
  cases x with
  | error e => cases h
  | ok a => exact ⟨a, rfl, (Except.ok.inj h).symm⟩

theorem moved_eq_error {x : Except Error α} {e : Error} (h : moved k f x = .error e) :
    ∃ e', x = .error e' := by
  cases x with
  | error e' => exact ⟨e', rfl⟩
  | ok a => cases h

theorem moved_bind {h : γ → δ} {x : Except Error α} {g : α → Except Error γ}
    {g' : β → Except Error δ} (hg : ∀ a, x = .ok a → g' (f a) = moved k h (g a)) :
    (moved k f x >>= g') = moved k h (x >>= g) := by
  cases x with
  | error e => rfl
  | ok a => exact hg a rfl

theorem moved_map {h : γ → δ} {x : Except Error α} {g : α → γ} {g' : β → δ}
    (hg : ∀ a, g' (f a) = h (g a)) : g' <$> moved k f x = moved k h (g <$> x) := by
  cases x with
  | error e => rfl
  | ok a => exact congrArg Except.ok (hg a)

theorem moved_mapM {xs : List γ} {g g' : γ → Except Error α} {f : α → α}
    (hg : ∀ x ∈ xs, g' x = moved k f (g x)) : xs.mapM g' = moved k (List.map f) (xs.mapM g) := by
  induction xs with
  | nil => rfl
  | cons x xs ih =>
      rw [List.mapM_cons, List.mapM_cons, hg x (by simp), ih fun y hy => hg y (by simp [hy])]
      apply moved_bind
      intro y _
      apply moved_bind
      intro ys _
      rfl

end Moved

end LiquidTemplate
