import DocTree.Conversion
import DocTree.Proofs.LinkedTree
import DocTree.Proofs.Making
import DocTree.Proofs.Outline

/-!
Conversion makes the tree of the value. Each rule makes the tree that the outline says, if what it
converts one level further down makes the trees of the elements. So below the root that conversion gives
the links are those of that tree, all of its nodes being new.
-/
namespace DocTree

open OrderedTree

namespace Conversion

open Workspace

theorem quiet_elements (v : Value) : Quiet (elements v) fun xs => xs = v.elements := by
  unfold elements
  cases h : v.elements? with
  | some xs => exact .pure (by simp [Value.elements, h])
  | none => exact .throw _

theorem quiet_length (v : Value) : Quiet (length v) fun _ => True := by
  unfold length
  cases v.length? with
  | some n => exact .pure trivial
  | none => exact .throw _

theorem quiet_display (digits : Option ℕ) (levels : ℕ) (v : Value) :
    Quiet (display digits levels v) fun text => text = v.display := by
  unfold display
  split
  · exact .pure rfl
  · exact .throw _

theorem quiet_linkTarget (digits : Option ℕ) (levels : ℕ) (contents extra : Value) :
    Quiet (linkTarget digits levels contents extra) fun url => url = Value.linkText contents extra := by
  unfold linkTarget
  by_cases hextra : extra.isTruthy = true
  · cases h : extra.atZero with
    | found v => simpa [Value.linkText, hextra, h] using quiet_display digits levels v
    | missing => simpa [hextra, h] using Quiet.throw _
    | unindexable => simpa [hextra, h] using Quiet.throw _
  · rw [if_neg hextra]
    refine (quiet_elements contents).bind fun xs hxs => .pure ?_
    rw [Value.linkText, if_neg hextra, hxs]

theorem sectionLabel_eq (name : Value) : sectionLabel name = name.nameLabel := by
  unfold sectionLabel Value.nameLabel
  cases name with
  | str s => by_cases hs : s = "pod" <;> simp [Markup.documentName, hs]
  | _ => rfl

section Rules

variable {inner : Value → Conversion NodeId} {g : Value → OrderedTree (Label Value)}

theorem appends_appendEach (hinner : ∀ v, Makes (inner v) (g v)) (target : NodeId)
    (vs : List Value) : Appends (appendEach inner target vs) target (vs.map g) := by
  induction vs with
  | nil => exact .pure
  | cons v vs ih =>
    have hcons := ((hinner v).appendTo target).bind ih
    rwa [bind_assoc] at hcons

/-- A node over the converted elements is a node over their trees. -/
theorem makes_branch (hinner : ∀ v, Makes (inner v) (g v)) (label : Label Value)
    (contents : Value) :
    Makes (branch inner label contents) (.node label (contents.elements.map g)) := by
  have hover : Makes _ (.node label (contents.elements.map g)) := Makes.over fun n =>
    Appends.after_quiet (k := appendEach inner n) (quiet_elements contents) fun xs hxs =>
      hxs ▸ appends_appendEach hinner n xs
  simpa only [branch, bind_assoc] using hover

theorem makes_cell (hinner : ∀ v, Makes (inner v) (g v)) (v : Value) :
    Makes (cell inner v) (cellOver (g v)) := by
  have hover : Makes _ (cellOver (g v)) :=
    Makes.over fun n => (hinner v).appendTo n
  simpa only [cell, bind_assoc] using hover

theorem makes_row (hinner : ∀ v, Makes (inner v) (g v)) (label : Label Value) (v : Value) :
    Makes (row inner label v) (.node label ((v.elements.map g).map cellOver)) := by
  simpa only [row, List.map_map, Function.comp_def] using
    makes_branch (makes_cell hinner) label v

end Rules

section Outline

variable {inner : Value → Conversion NodeId} (hinner : ∀ v, Makes (inner v) v.outline)

include hinner

theorem makes_branches (label : Label Value) (contents : Value) :
    Makes (branch inner label contents) (.node label contents.branches) := by
  rw [Value.branches_eq]
  exact makes_branch hinner label contents

theorem makes_table (contents config headers caption : Value) :
    Makes (table inner headers contents)
      (Value.outline (.markup (.table contents config headers caption))) := by
  have hheader := makes_row hinner .tableHeader headers
  have hbody := makes_branch (makes_row hinner .tableBodyRow) .tableBody contents
  rw [← Value.branches_eq] at hheader
  have hrows : contents.elements.map
      (fun v => OrderedTree.node .tableBodyRow ((v.elements.map Value.outline).map cellOver)) =
      contents.rows := by
    rw [Value.rows_eq]
    apply List.map_congr_left
    intro v _
    rw [Value.rowOver, Value.branches_eq]
  rw [hrows] at hbody
  have hquiet : Quiet (do
      let headerCells ← length headers
      let bodyRows ← length contents
      record (.tableConverted headerCells bodyRows)) fun _ => True :=
    (quiet_length headers).bind fun _ _ => (quiet_length contents).bind fun _ _ => .record _
  have hover : Makes _ (.node .table _) := Makes.over fun n =>
    ((hheader.appendTo n).onlyIf headers.isTruthy).bind
      (((hbody.appendTo n).onlyIf contents.isTruthy).bind hquiet.appends)
  simpa only [table, Value.outline, bind_assoc, List.append_nil] using hover

theorem makes_formatting (digits : Option ℕ) (levels : ℕ) (code contents extra : Value) :
    Makes (formatting digits levels inner code contents extra)
      (Value.outline (.markup (.formatting code contents extra))) := by
  unfold formatting
  split
  · rw [Value.outline_formatting (by simp)]
    exact makes_branches hinner _ contents
  · rw [Value.outline_formatting (by simp)]
    exact makes_branches hinner _ contents
  · exact .newNode _
  · rw [Value.outline_formatting (by simp)]
    refine Makes.after_quiet (quiet_linkTarget digits levels contents extra) fun url hurl => ?_
    rw [hurl]
    exact makes_branches hinner _ _
  · rw [Value.outline_formatting (by simp)]
    exact makes_branches hinner _ contents
  · rename_i hB hC hE hL hX
    have hlabel : Value.codeLabel code contents extra = sectionLabel code := by
      rw [sectionLabel_eq]
      unfold Value.codeLabel
      split <;> simp_all
    rw [Value.outline_formatting hE, hlabel, Value.visited_formatting hL]
    exact Makes.after_quiet (quiet_display digits levels code) fun _ _ =>
      Makes.after_quiet (.record _) fun _ _ => makes_branches hinner _ contents

theorem makes_rule (digits : Option ℕ) (levels : ℕ) (m : Markup Value) :
    Makes (rule digits levels inner m) (Value.outline (.markup m)) := by
  cases m with
  | block => exact .throw _
  | named contents _ name =>
    rw [rule, sectionLabel_eq]
    exact makes_branches hinner _ contents
  | para contents _ => exact makes_branches hinner _ contents
  | code contents _ => exact makes_branches hinner _ contents
  | comment contents _ => exact makes_branches hinner _ contents
  | heading contents _ level => exact makes_branches hinner _ contents
  | item contents _ level => exact makes_branches hinner _ contents
  | table contents config headers caption => exact makes_table hinner contents config headers caption
  | formatting code contents extra => exact makes_formatting hinner digits levels code contents extra

end Outline

theorem quiet_recordConverted (c : MarkupClass) (n : NodeId) :
    Quiet (recordConverted c n) fun _ => True := by
  refine Quiet.onlyIf ?_ _
  intro w
  exact ⟨rfl, trivial⟩

/-- Conversion makes the tree of the value, however many levels are left. -/
theorem makes_convert (digits : Option ℕ) (levels : ℕ) (v : Value) :
    Makes (convert digits levels v) v.outline := by
  induction levels generalizing v with
  | zero =>
    cases v with
    | str s => exact .newNode _
    | _ => exact .throw _
  | succ levels ih =>
    cases v with
    | str s => exact .newNode _
    | markup m =>
      exact (makes_rule ih digits (levels + 1) m).then_quiet fun n => quiet_recordConverted _ n
    | _ => exact .throw _

theorem quiet_contentsOf (v : Value) :
    Quiet (contentsOf v) fun contents => contents = v.heldContents := by
  unfold contentsOf
  split
  · exact .pure rfl
  · exact .pure rfl
  · exact .throw _

/-- The trees of the elements of the contents become further children. -/
theorem appends_convertChildren (digits : Option ℕ) (levels : ℕ) (target : NodeId) (source : Value) :
    Appends (convertChildren digits levels target source) target source.heldContents.branches := by
  rw [Value.branches_eq]
  unfold convertChildren
  refine Appends.after_quiet (quiet_contentsOf source) fun contents hcontents => ?_
  refine Appends.after_quiet (quiet_elements contents) fun parts hparts => ?_
  rw [hparts, hcontents]
  exact appends_appendEach (makes_convert digits levels) target _

end Conversion

/-- Below a root stands a tree of its own, with these labels. -/
structure Store.Represents (s : Store) (root : NodeId) (t : OrderedTree (Label Value)) : Prop where
  isTree : s.IsTree (s.tree root)
  map_label : (s.tree root).map s.label = t

theorem exists_spans_of_convert {digits : Option ℕ} {levels : ℕ} {source : Value}
    {w w' : Workspace} {n : NodeId} (h : convert digits levels source w = .ok n w') :
    ∃ f u, w'.store.Realizes w.store.size f ∧ f.Spans u ∧ u.root = n ∧ f.parent n = none ∧
      (∀ m ∈ u.nodes, w.store.size ≤ m.index ∧ m.index < w'.store.size) ∧
      u.map w'.store.label = source.outline := by
  have hmakes := Conversion.makes_convert digits levels source w w.store.size .empty
    (.empty w.store) (Nat.le_refl _)
  rw [h] at hmakes
  obtain ⟨f, u, halters, hu, hroot, hfree, hnew, hlabel⟩ := hmakes
  exact ⟨f, u, halters.realizes, hu, hroot, hfree, hnew, hlabel⟩

/-- What conversion gives is the tree of the value, made of new nodes. -/
theorem convert_represents {digits : Option ℕ} {levels : ℕ} {source : Value} {w w' : Workspace}
    {root : NodeId} (h : convert digits levels source w = .ok root w') :
    w'.store.Represents root source.outline ∧
      ∀ n ∈ (w'.store.tree root).nodes, w.store.size ≤ n.index ∧ n.index < w'.store.size := by
  obtain ⟨f, u, hs, hu, rfl, hfree, hnew, hlabel⟩ := exists_spans_of_convert h
  have hroot := hnew u.root u.root_mem_nodes
  have htree := hs.tree_eq hu hroot.1 hroot.2
  refine ⟨⟨?_, by rw [htree, hlabel]⟩, by rwa [htree]⟩
  rw [htree]
  exact hs.isTree hu hroot.1 hfree

/-- A document over one item with a text. -/
def itemDocument : Value :=
  .markup (.named (.list [.markup (.item (.list [.str "first"]) .null (.int 1))]) .null (.str "pod"))

theorem convert_itemDocument : ∃ w', convert (some 4300) 2 itemDocument .empty = .ok ⟨0⟩ w' ∧
    w'.store.Represents ⟨0⟩ itemDocument.outline ∧
      ∀ n ∈ (w'.store.tree ⟨0⟩).nodes, Workspace.empty.store.size ≤ n.index ∧
        n.index < w'.store.size := by
  obtain ⟨w', hconvert⟩ : ∃ w', convert (some 4300) 2 itemDocument .empty = .ok ⟨0⟩ w' := ⟨_, rfl⟩
  exact ⟨w', hconvert, convert_represents hconvert⟩

/-- The outline of the document, text and all. -/
example : itemDocument.outline =
    .node .document [.node (.item (.int 1)) [.leaf (.text (.str "first"))]] := rfl

end DocTree
