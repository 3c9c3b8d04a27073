import DocTree.Proofs.OrderedTree
import DocTree.Value.Dictionary
import DocTree.Value.Literal

/-!
The tree of a value, by recursion on the value and apart from any store. Text is a leaf; a block or a
formatting code is a node over the trees of the elements of its contents, whatever sequence they are; a
table has a header if there are headers and a body if there are rows. Values without a rule of their own
get a bare leaf, so that every value has a tree. Of an iterator nothing is left below a link whose target
has been read off it.
-/
namespace DocTree

open OrderedTree (leaf)

def cellOver (t : OrderedTree (Label Value)) : OrderedTree (Label Value) := .node .tableData [t]

/-- A table of these header cells and these rows of cells. Without header cells it has no header, and
without rows no body. -/
def tableOver (headers : List (OrderedTree (Label Value)))
    (rows : List (List (OrderedTree (Label Value)))) : OrderedTree (Label Value) :=
  .node .table
    ((if headers = [] then [] else [.node .tableHeader (headers.map cellOver)]) ++
      (if rows = [] then [] else
        [.node .tableBody (rows.map fun cells => .node .tableBodyRow (cells.map cellOver))]))

namespace Value

def elements (v : Value) : List Value := v.elements?.getD []

theorem elements_eq {v : Value} {xs : List Value} (h : v.elements? = some xs) : v.elements = xs := by
  rw [elements, h]
  rfl

def heldContents : Value → Value
  | markup m => m.contents
  | node _ (.entity contents) => contents
  | _ => null

/-- The text at which a link points: the first of the extra data, if there are any, else the direct
text of the contents. -/
def linkText (contents extra : Value) : String :=
  if extra.isTruthy then
    match extra.atZero with
    | .found v => v.display
    | _ => ""
  else String.join ((contents.elements.filter isStr).map display)

def isEntityCode : Value → Bool
  | str s => s = "E"
  | _ => false

theorem isEntityCode_eq_false {code : Value} (h : code ≠ .str "E") : code.isEntityCode = false := by
  unfold isEntityCode
  split <;> simp_all

/-- The label of a block by its name: `pod` stands for a whole document, and any other name is the title
of a section. -/
def nameLabel : Value → Label Value
  | str "pod" => .document
  | name => .namedSection name

/-- The label of a formatting code that is not an entity. An unknown code is a name. -/
def codeLabel (code contents extra : Value) : Label Value :=
  match code with
  | .str "B" => .bold
  | .str "C" => .code
  | .str "L" => .link (.str (linkText contents extra))
  | .str "X" => .reference
  | _ => nameLabel code

def isIterator : Value → Bool
  | object ⟨_, _, _, _, .once _, _, _⟩ => true
  | _ => false

/-- Without extra data the target of a link is read off its contents, and that uses up an iterator. -/
def isUsedUp (code contents extra : Value) : Bool :=
  match code with
  | .str "L" => !extra.isTruthy && contents.isIterator
  | _ => false

def textLeaf : Value → OrderedTree (Label Value)
  | str s => leaf (.text (.str s))
  | _ => leaf .node

mutual

def outline : Value → OrderedTree (Label Value)
  | markup (.named contents _ name) => .node (nameLabel name) (branches contents)
  | markup (.para contents _) => .node .paragraph (branches contents)
  | markup (.code contents _) => .node .code (branches contents)
  | markup (.comment contents _) => .node .comment (branches contents)
  | markup (.heading contents _ level) => .node (.heading level) (branches contents)
  | markup (.item contents _ level) => .node (.item level) (branches contents)
  | markup (.table contents _ headers _) =>
    .node .table
      ((if headers.isTruthy then [.node .tableHeader ((branches headers).map cellOver)] else []) ++
        (if contents.isTruthy then [.node .tableBody (rows contents)] else []))
  | markup (.formatting code contents extra) =>
    if code.isEntityCode then leaf (.entity contents)
    else .node (codeLabel code contents extra)
      (if isUsedUp code contents extra then [] else branches contents)
  | v => textLeaf v

def branches : Value → List (OrderedTree (Label Value))
  | list xs | tuple xs => outlineAll xs
  | dict entries => outlineKeys entries
  | object ⟨_, _, _, _, iteration, _, _⟩ => iterationBranches iteration
  | v => v.elements.map textLeaf

def iterationBranches : Iteration Value → List (OrderedTree (Label Value))
  | .refused => []
  | .sized xs | .unsized xs | .once xs => outlineAll xs

def outlineAll : List Value → List (OrderedTree (Label Value))
  | [] => []
  | x :: xs => outline x :: outlineAll xs

def outlineKeys : List (Value × Value) → List (OrderedTree (Label Value))
  | [] => []
  | (k, _) :: entries => outline k :: outlineKeys entries

/-- The rows of a table body, one for each element of a value, with one cell for each element of that
element. -/
def rows : Value → List (OrderedTree (Label Value))
  | list xs | tuple xs => rowAll xs
  | dict entries => rowKeys entries
  | object ⟨_, _, _, _, iteration, _, _⟩ => iterationRows iteration
  | v => v.elements.map fun x => .node .tableBodyRow ((x.elements.map textLeaf).map cellOver)

def iterationRows : Iteration Value → List (OrderedTree (Label Value))
  | .refused => []
  | .sized xs | .unsized xs | .once xs => rowAll xs

def rowAll : List Value → List (OrderedTree (Label Value))
  | [] => []
  | x :: xs => .node .tableBodyRow ((branches x).map cellOver) :: rowAll xs

def rowKeys : List (Value × Value) → List (OrderedTree (Label Value))
  | [] => []
  | (k, _) :: entries => .node .tableBodyRow ((branches k).map cellOver) :: rowKeys entries

end

theorem outlineAll_eq (xs : List Value) : outlineAll xs = xs.map outline := by
  induction xs with
  | nil => rfl
  | cons x xs ih => rw [outlineAll, ih, List.map_cons]

theorem outlineKeys_eq (entries : List (Value × Value)) :
    outlineKeys entries = (entries.map Prod.fst).map outline := by
  induction entries with
  | nil => rfl
  | cons entry entries ih => rw [outlineKeys, ih, List.map_cons, List.map_cons]

theorem exists_of_mem_elements_str {s : String} {x : Value} (hx : x ∈ (str s).elements) :
    ∃ c, x = str c := by
  simp only [elements, elements?, Option.getD_some, List.mem_map] at hx
  obtain ⟨c, -, rfl⟩ := hx
  exact ⟨_, rfl⟩

theorem exists_of_mem_elements_bytes {bs : List UInt8} {x : Value}
    (hx : x ∈ (bytes bs).elements) : ∃ n, x = int n := by
  simp only [elements, elements?, Option.getD_some, List.mem_map] at hx
  obtain ⟨b, -, rfl⟩ := hx
  exact ⟨_, rfl⟩

/-- The branches are the trees of the elements. -/
theorem branches_eq (v : Value) : branches v = v.elements.map outline := by
  cases v with
  | list xs | tuple xs => exact outlineAll_eq xs
  | dict entries => exact outlineKeys_eq entries
  | str s =>
    apply List.map_congr_left
    intro x hx
    obtain ⟨c, rfl⟩ := exists_of_mem_elements_str hx
    rfl
  | bytes bs =>
    apply List.map_congr_left
    intro x hx
    obtain ⟨n, rfl⟩ := exists_of_mem_elements_bytes hx
    rfl
  | object o =>
    obtain ⟨_, _, _, _, iteration, _, _⟩ := o
    cases iteration with
    | refused => rfl
    | sized xs | unsized xs | once xs => exact outlineAll_eq xs
  | _ => rfl

def rowOver (v : Value) : OrderedTree (Label Value) :=
  .node .tableBodyRow ((branches v).map cellOver)

theorem rowAll_eq (xs : List Value) : rowAll xs = xs.map rowOver := by
  induction xs with
  | nil => rfl
  | cons x xs ih => rw [rowAll, ih, List.map_cons, rowOver]

theorem rowKeys_eq (entries : List (Value × Value)) :
    rowKeys entries = (entries.map Prod.fst).map rowOver := by
  induction entries with
  | nil => rfl
  | cons entry entries ih => rw [rowKeys, ih, List.map_cons, List.map_cons, rowOver]

/-- The rows are those of the elements. -/
theorem rows_eq (v : Value) : rows v = v.elements.map rowOver := by
  cases v with
  | list xs | tuple xs => exact rowAll_eq xs
  | dict entries => exact rowKeys_eq entries
  | str s =>
    apply List.map_congr_left
    intro x hx
    obtain ⟨c, rfl⟩ := exists_of_mem_elements_str hx
    rfl
  | bytes bs =>
    apply List.map_congr_left
    intro x hx
    obtain ⟨n, rfl⟩ := exists_of_mem_elements_bytes hx
    rfl
  | object o =>
    obtain ⟨_, _, _, _, iteration, _, _⟩ := o
    cases iteration with
    | refused => rfl
    | sized xs | unsized xs | once xs => exact rowAll_eq xs
  | _ => rfl

/-- What has a length is filled in just when it has elements. -/
theorem isTruthy_iff_ne_nil {v : Value} {xs : List Value} (h : v.elements? = some xs)
    (hlength : v.length?.isSome) : v.isTruthy = true ↔ xs ≠ [] := by
  obtain ⟨n, hn⟩ := Option.isSome_iff_exists.mp hlength
  obtain ⟨ys, hys, -, htruthy⟩ := exists_elements_of_length? hn
  rwa [Option.some.inj (h.symm.trans hys)]

theorem spent_eq_self {v : Value} (h : v.isIterator = false) : v.spent = v := by
  cases v with
  | object o =>
    obtain ⟨_, _, _, _, iteration, _, _⟩ := o
    cases iteration with
    | once => exact absurd h (by simp [isIterator])
    | _ => rfl
  | _ => rfl

theorem elements_spent {v : Value} (h : v.isIterator = true) : v.spent.elements = [] := by
  cases v with
  | object o =>
    obtain ⟨_, _, _, _, iteration, _, _⟩ := o
    cases iteration with
    | once => rfl
    | _ => exact absurd h (by simp [isIterator])
  | _ => exact absurd h (by simp [isIterator])

/-- The contents of markup as they are when they are converted. The target of a link without extra data
has been read off them by then. -/
def visited : Markup Value → Value
  | .formatting (.str "L") contents extra => if extra.isTruthy then contents else contents.spent
  | m => m.contents

theorem visited_formatting {code : Value} (hlink : code ≠ .str "L") (contents extra : Value) :
    visited (.formatting code contents extra) = contents := by
  unfold visited
  split <;> simp_all [Markup.contents]

/-- It is only of an iterator that less may be left. -/
theorem visited_eq_contents {m : Markup Value} (h : m.contents.isIterator = false) :
    visited m = m.contents := by
  unfold visited
  split
  · rename_i contents extra
    simp only [Markup.contents] at h ⊢
    rw [spent_eq_self h, ite_self]
  · rfl

/-- The branches of a formatting code are the trees of what is met when its contents are converted. -/
theorem branches_visited (code contents extra : Value) :
    branches (visited (.formatting code contents extra)) =
      if isUsedUp code contents extra then [] else branches contents := by
  cases hiterator : contents.isIterator with
  | false =>
    have hused : isUsedUp code contents extra = false := by
      unfold isUsedUp
      split <;> simp [hiterator]
    rw [visited_eq_contents (m := .formatting code contents extra) hiterator, hused]
    rfl
  | true =>
    unfold visited isUsedUp
    split
    · rename_i heq
      obtain ⟨rfl, rfl, rfl⟩ := heq
      cases extra.isTruthy <;> simp [hiterator, branches_eq, elements_spent hiterator]
    · split <;> simp_all [Markup.contents]

theorem outline_formatting {code : Value} (h : code ≠ .str "E") (contents extra : Value) :
    outline (markup (.formatting code contents extra)) =
      .node (codeLabel code contents extra)
        (visited (.formatting code contents extra)).branches := by
  rw [outline, if_neg (by simp [isEntityCode_eq_false h]), branches_visited]

/-- A table has a header just when it has headers, and a body just when it has rows. -/
theorem outline_table {contents headers : Value} {hs rs : List Value}
    (hheaders : headers.elements? = some hs ∧ headers.length?.isSome)
    (hrows : contents.elements? = some rs ∧ contents.length?.isSome) (config caption : Value) :
    outline (markup (.table contents config headers caption)) =
      tableOver (hs.map outline) (rs.map fun r => r.elements.map outline) := by
  have hheadersTruthy := isTruthy_iff_ne_nil hheaders.1 hheaders.2
  have hrowsTruthy := isTruthy_iff_ne_nil hrows.1 hrows.2
  have hrow : rowOver = fun r =>
      .node .tableBodyRow ((r.elements.map outline).map cellOver) := by
    funext r
    rw [rowOver, branches_eq]
  rw [outline, branches_eq, rows_eq, elements_eq hheaders.1, elements_eq hrows.1, hrow, tableOver]
  simp only [hheadersTruthy, hrowsTruthy, ite_not, List.map_eq_nil_iff,
    List.map_map (f := fun r : Value => r.elements.map outline), Function.comp_def]

end Value

end DocTree
