/-!
Parsed markup: the blocks and formatting codes that a markup parser hands over. Every field holds a
value of the parameter type, and nothing is checked when a field is filled, so that the rules of
conversion alone decide what is acceptable where.
-/
namespace DocTree

inductive MarkupClass where
  | block
  | named
  | para
  | code
  | comment
  | heading
  | item
  | table
  | formatting
  deriving DecidableEq, Repr, Inhabited

namespace MarkupClass

def name : MarkupClass → String
  | block => "Block"
  | named => "NamedBlock"
  | para => "Para"
  | code => "CodeBlock"
  | comment => "CommentBlock"
  | heading => "HeadingBlock"
  | item => "ItemBlock"
  | table => "TableBlock"
  | formatting => "FormattingCode"

def all : List MarkupClass :=
  [block, named, para, code, comment, heading, item, table, formatting]

theorem mem_all (c : MarkupClass) : c ∈ all := by
  cases c <;> decide

def ofName? (name : String) : Option MarkupClass :=
  all.find? (·.name = name)

theorem ofName?_name (c : MarkupClass) : ofName? c.name = some c := by
  cases c <;> decide

end MarkupClass

/-- One piece of markup. A formatting code has no configuration; all the others are blocks. -/
inductive Markup (α : Type) where
  | block (contents config : α)
  | named (contents config name : α)
  | para (contents config : α)
  | code (contents config : α)
  | comment (contents config : α)
  | heading (contents config level : α)
  | item (contents config level : α)
  | table (contents config headers caption : α)
  | formatting (code contents extra : α)
  deriving Inhabited

namespace Markup

def documentName : String := "pod"

variable {α : Type}

def markupClass : Markup α → MarkupClass
  | block .. => .block
  | named .. => .named
  | para .. => .para
  | code .. => .code
  | comment .. => .comment
  | heading .. => .heading
  | item .. => .item
  | table .. => .table
  | formatting .. => .formatting

def contents : Markup α → α
  | block contents _ | named contents _ _ | para contents _ | code contents _
  | comment contents _ | heading contents _ _ | item contents _ _ | table contents _ _ _
  | formatting _ contents _ => contents

def withContents (c : α) : Markup α → Markup α
  | block _ g => block c g
  | named _ g n => named c g n
  | para _ g => para c g
  | code _ g => code c g
  | comment _ g => comment c g
  | heading _ g l => heading c g l
  | item _ g l => item c g l
  | table _ g h t => table c g h t
  | formatting k _ x => formatting k c x

@[simp] theorem contents_withContents (c : α) (m : Markup α) :
    (m.withContents c).contents = c := by
  cases m <;> rfl

@[simp] theorem markupClass_withContents (c : α) (m : Markup α) :
    (m.withContents c).markupClass = m.markupClass := by
  cases m <;> rfl

def fields : Markup α → List (String × α)
  | block c g | para c g | code c g | comment c g => [("contents", c), ("config", g)]
  | named c g n => [("contents", c), ("config", g), ("name", n)]
  | heading c g l | item c g l => [("contents", c), ("config", g), ("level", l)]
  | table c g h t => [("contents", c), ("config", g), ("headers", h), ("caption", t)]
  | formatting k c x => [("type", k), ("contents", c), ("meta", x)]

end Markup

end DocTree
