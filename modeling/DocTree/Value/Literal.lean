import DocTree.Decimal.Layout
import DocTree.Text.Quoted
import DocTree.Value

/-!
Values written out. Texts are quoted, containers list their members in order, markup names its
fields, and a tree node shows its kind and payload but none of its links.
-/
namespace DocTree

/-- Numbers are written with the fewest digits that identify them, positionally for leading digits
from 10^-4 up to 10^15, otherwise with a signed exponent of two digits. -/
def numberLayout : Decimal.Layout where
  plainFrom := -4
  plainBelow := 16
  exponentWidth := 2

def enclosed (opening closing : String) (members : List String) : String :=
  opening ++ ", ".intercalate members ++ closing

def MarkupClass.literal (c : MarkupClass) (fields : List (String × String)) : String :=
  enclosed (c.name ++ "(") ")" (fields.map fun field => field.1 ++ "=" ++ field.2)

namespace Value

/-- A kind with its payload, already written out. A payload of null is not shown. -/
def kindLiteral (kind : NodeKind) (payload : Value) (written : String) : String :=
  match payload with
  | null => kind.tag ++ "()"
  | _ => kind.tag ++ "(" ++ written ++ ")"

mutual

def literal : Value → String
  | null => "None"
  | bool b => if b then "True" else "False"
  | int n => toString n
  | float x => numberLayout.write x
  | str s => Text.quote s
  | bytes bs => Text.quoteBytes bs
  | list xs => enclosed "[" "]" (literals xs)
  | tuple [x] => "(" ++ literal x ++ ",)"
  | tuple xs => enclosed "(" ")" (literals xs)
  | dict entries => enclosed "\x7b" "\x7d" (entryLiterals entries)
  | markup (.block c g) =>
    MarkupClass.block.literal [("contents", literal c), ("config", literal g)]
  | markup (.named c g n) =>
    MarkupClass.named.literal [("contents", literal c), ("config", literal g), ("name", literal n)]
  | markup (.para c g) => MarkupClass.para.literal [("contents", literal c), ("config", literal g)]
  | markup (.code c g) => MarkupClass.code.literal [("contents", literal c), ("config", literal g)]
  | markup (.comment c g) =>
    MarkupClass.comment.literal [("contents", literal c), ("config", literal g)]
  | markup (.heading c g l) =>
    MarkupClass.heading.literal
      [("contents", literal c), ("config", literal g), ("level", literal l)]
  | markup (.item c g l) =>
    MarkupClass.item.literal [("contents", literal c), ("config", literal g), ("level", literal l)]
  | markup (.table c g h t) =>
    MarkupClass.table.literal
      [("contents", literal c), ("config", literal g), ("headers", literal h),
        ("caption", literal t)]
  | markup (.formatting k c x) =>
    MarkupClass.formatting.literal
      [("type", literal k), ("contents", literal c), ("meta", literal x)]
  | node _ label => labelLiteral label
  | object o => o.literal

def literals : List Value → List String
  | [] => []
  | x :: xs => literal x :: literals xs

def entryLiterals : List (Value × Value) → List String
  | [] => []
  | (k, v) :: entries => (literal k ++ ": " ++ literal v) :: entryLiterals entries

def labelLiteral : Label Value → String
  | .namedSection v => kindLiteral .namedSection v (literal v)
  | .heading v => kindLiteral .heading v (literal v)
  | .item v => kindLiteral .item v (literal v)
  | .entity v => kindLiteral .entity v (literal v)
  | .link v => kindLiteral .link v (literal v)
  | .text v => kindLiteral .text v (literal v)
  | label => kindLiteral label.kind null ""

end

mutual

/-- The integers in the written form of a value. An object is written in its own way. -/
def integers : Value → List Int
  | int n => [n]
  | list xs | tuple xs => integersOfAll xs
  | dict entries => integersOfEntries entries
  | markup (.block c g) | markup (.para c g) | markup (.code c g) | markup (.comment c g) =>
    integers c ++ integers g
  | markup (.named c g a) | markup (.heading c g a) | markup (.item c g a) =>
    integers c ++ integers g ++ integers a
  | markup (.table c g h t) => integers c ++ integers g ++ integers h ++ integers t
  | markup (.formatting k c x) => integers k ++ integers c ++ integers x
  | node _ label => integersOfLabel label
  | _ => []

def integersOfAll : List Value → List Int
  | [] => []
  | x :: xs => integers x ++ integersOfAll xs

def integersOfEntries : List (Value × Value) → List Int
  | [] => []
  | (k, v) :: entries => integers k ++ integers v ++ integersOfEntries entries

def integersOfLabel : Label Value → List Int
  | .namedSection v | .heading v | .item v | .entity v | .link v | .text v => integers v
  | _ => []

end

/-- Markup shows every field under its name, in order. -/
theorem literal_markup (m : Markup Value) :
    literal (.markup m) = m.markupClass.literal (m.fields.map fun f => (f.1, literal f.2)) := by
  cases m <;> simp [literal, Markup.markupClass, Markup.fields]

/-- The text of a value: a text is itself, and an object has a text of its own. -/
def display : Value → String
  | str s => s
  | object o => o.text
  | v => v.literal

end Value

def Label.literal (label : Label Value) : String := Value.labelLiteral label

end DocTree
