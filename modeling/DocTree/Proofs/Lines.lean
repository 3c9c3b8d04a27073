import DocTree.Proofs.Composition
import DocTree.Proofs.FirstFault

/-!
The lines that conversion logs, by recursion on the value and apart from any run. A block is logged when
it has been converted, behind the lines of what stands in it; a table has a line of its own before that,
and a formatting code without a rule of its own is logged before its contents. The sizes in the line of
a table are those of its node, and they are the same after the items have been wrapped.
-/
namespace DocTree

open OrderedTree Conversion

variable {digits : Option ℕ}

namespace OrderedTree

variable {α : Type}

mutual

def postorder : OrderedTree α → List (OrderedTree α)
  | node a ts => postorderAll ts ++ [node a ts]

def postorderAll : List (OrderedTree α) → List (OrderedTree α)
  | [] => []
  | t :: ts => postorder t ++ postorderAll ts

end

theorem postorder_node (a : α) (ts : List (OrderedTree α)) :
    (node a ts).postorder = ts.flatMap postorder ++ [node a ts] := by
  have hall : ∀ us : List (OrderedTree α), postorderAll us = us.flatMap postorder := by
    intro us
    induction us with
    | nil => rfl
    | cons u us ih => rw [postorderAll, ih, List.flatMap_cons]
  rw [postorder, hall]

end OrderedTree

section Tables

/-- How many nodes of the one kind stand under the children of the other kind. -/
def sizeUnder (part cell : NodeKind) (t : OrderedTree (Label Value)) : ℕ :=
  ((t.children.filter (·.root.kind = part)).flatMap children).countP (·.root.kind = cell)

/-- The line of a table, with the cells under its header and the rows under its body. -/
def Event.ofTable (t : OrderedTree (Label Value)) : Event :=
  .tableConverted (sizeUnder .tableHeader .tableData t) (sizeUnder .tableBody .tableBodyRow t)

def Event.isOfTable : Event → Bool
  | .tableConverted .. => true
  | _ => false

def tableLines (t : OrderedTree (Label Value)) : List Event :=
  (t.postorder.filter (·.root.kind = .table)).map Event.ofTable

theorem tableLines_node (label : Label Value) (ts : List (OrderedTree (Label Value))) :
    tableLines (.node label ts) =
      ts.flatMap tableLines ++ if label.kind = .table then [.ofTable (.node label ts)] else [] := by
  rw [tableLines, postorder_node, List.filter_append, List.map_append, List.filter_flatMap,
    List.map_flatMap]
  congr 1
  by_cases h : label.kind = .table <;> simp [h]

theorem tableLines_of_ne {label : Label Value} (h : label.kind ≠ .table)
    (ts : List (OrderedTree (Label Value))) :
    tableLines (.node label ts) = ts.flatMap tableLines := by
  rw [tableLines_node, if_neg h, List.append_nil]

end Tables

namespace Value

/-- The elements of a part of a table, which is gone through only if it counts as filled in. -/
def filledElements (v : Value) : List Value := if v.isTruthy then v.elements else []

theorem mem_elements_of_mem_filledElements {v x : Value} (h : x ∈ v.filledElements) :
    x ∈ v.elements := by
  unfold filledElements at h
  split at h
  · exact h
  · exact absurd h (by simp)

/-- What has a length has as many elements, all of which are gone through. -/
theorem length_filledElements {v : Value} {n : ℕ} (h : v.length? = some n) :
    v.filledElements.length = n := by
  obtain ⟨xs, hxs, rfl, htruthy⟩ := exists_elements_of_length? h
  rw [filledElements, elements_eq hxs]
  split
  · rfl
  · rename_i hempty
    rw [htruthy, not_not] at hempty
    rw [hempty]

/-- What is converted for a piece of markup, in order: the elements of its contents; for a table the
header cells and then the cells of the body, row by row. -/
def parts : Markup Value → List Value
  | .block .. => []
  | .table contents _ headers _ =>
    headers.filledElements ++ contents.filledElements.flatMap elements
  | .formatting (.str "E") _ _ => []
  | m => (visited m).elements

def opening : Markup Value → List Event
  | .formatting (.str "B") _ _ | .formatting (.str "C") _ _ | .formatting (.str "E") _ _
  | .formatting (.str "L") _ _ | .formatting (.str "X") _ _ => []
  | .formatting code _ _ => [.unmappedCode code.display]
  | _ => []

def sizing (m : Markup Value) : List Event :=
  if m.markupClass = .table then [.ofTable (outline (markup m))] else []

def closing (m : Markup Value) : List Event :=
  if m.markupClass = .formatting then []
  else [.converted m.markupClass (outline (markup m)).root.kind]

theorem nesting_lt_of_mem_parts {m : Markup Value} {v : Value} (h : v ∈ parts m) :
    v.nesting < (markup m).nesting := by
  have hcontents : m.contents.nesting < (markup m).nesting := by
    cases m <;> simp only [Markup.contents, nesting] <;> omega
  unfold parts at h
  split at h
  · exact absurd h (by simp)
  · rename_i contents config headers caption
    rcases List.mem_append.mp h with h | h
    · have hle := nesting_le_of_mem_elements (mem_elements_of_mem_filledElements h)
      simp only [nesting]
      omega
    · obtain ⟨row, hrow, h⟩ := List.mem_flatMap.mp h
      have hle := nesting_le_of_mem_elements h
      have hle' := nesting_le_of_mem_elements (mem_elements_of_mem_filledElements hrow)
      simp only [nesting]
      omega
  · exact absurd h (by simp)
  · have hle := nesting_le_of_mem_elements h
    have hvisited := nesting_visited_le m
    omega

/-- The lines of a value that can be converted. -/
def lines : Value → List Event
  | markup m =>
    opening m ++ (parts m).attach.flatMap (fun part => lines part.1) ++ sizing m ++ closing m
  | _ => []
termination_by v => v.nesting
decreasing_by exact nesting_lt_of_mem_parts part.2

theorem lines_markup (m : Markup Value) :
    lines (markup m) = opening m ++ (parts m).flatMap lines ++ sizing m ++ closing m := by
  rw [lines, List.flatMap_subtype (g := lines) fun _ _ => rfl, List.unattach_attach]

/-- What holds of markup when it holds of its parts, and of everything that is no markup, holds of every
value. -/
theorem parts_induction {P : Value → Prop} (hmarkup : ∀ m, (∀ x ∈ parts m, P x) → P (markup m))
    (hother : ∀ v, (∀ m, v ≠ markup m) → P v) (v : Value) : P v :=
  lines.induct P (fun m ih => hmarkup m fun x hx => ih ⟨x, hx⟩) (fun v h => hother v h) v

theorem lines_of_not_markup {v : Value} (h : ∀ m, v ≠ markup m) : v.lines = [] := by
  cases v with
  | markup m => exact absurd rfl (h m)
  | _ => rw [lines]; exact h

end Value

def Conversion.Step.lines : Step → List Event
  | .convert v => v.lines
  | .announce code => [.unmappedCode code.display]
  | _ => []

/-- The first fault of a value together with the lines that are logged before it, which are those of the
steps that have been done. -/
inductive Value.FailsAfter (digits : Option ℕ) : Value → ConversionError → List Event → Prop
  | noRule {v : Value} (h : ¬ v.HasRule) (hshown : v.digitsFault? digits = none) :
      FailsAfter digits v (.unrecognized v) []
  | noReport {v : Value} {e : ConversionError} (h : ¬ v.HasRule)
      (he : v.digitsFault? digits = some e) : FailsAfter digits v e []
  | step {m : Markup Value} {before after : List Step} {step : Step} {e : ConversionError}
      (hsteps : Step.ofMarkup m = before ++ step :: after) (hbefore : ∀ s ∈ before, s.Done digits)
      (he : step.error? digits = some e) :
      FailsAfter digits (.markup m) e (before.flatMap Step.lines)
  | inside {m : Markup Value} {before after : List Step} {v : Value} {e : ConversionError}
      {ls : List Event} (hsteps : Step.ofMarkup m = before ++ .convert v :: after)
      (hbefore : ∀ s ∈ before, s.Done digits) (hv : FailsAfter digits v e ls) :
      FailsAfter digits (.markup m) e (before.flatMap Step.lines ++ ls)

namespace Value

/-- There are lines before every first fault. -/
theorem firstFault_iff_exists_failsAfter {v : Value} {e : ConversionError} :
    v.FirstFault digits e ↔ ∃ ls, v.FailsAfter digits e ls := by
  constructor
  · intro h
    induction h with
    | noRule h hshown => exact ⟨_, .noRule h hshown⟩
    | noReport h he => exact ⟨_, .noReport h he⟩
    | step hsteps hbefore he => exact ⟨_, .step hsteps hbefore he⟩
    | inside hsteps hbefore _ ih =>
      obtain ⟨ls, hv⟩ := ih
      exact ⟨_, .inside hsteps hbefore hv⟩
  · rintro ⟨ls, h⟩
    induction h with
    | noRule h hshown => exact .noRule h hshown
    | noReport h he => exact .noReport h he
    | step hsteps hbefore he => exact .step hsteps hbefore he
    | inside hsteps hbefore _ ih => exact .inside hsteps hbefore ih

theorem parts_formatting {code : Value} (h : code ≠ .str "E") (contents extra : Value) :
    parts (.formatting code contents extra) =
      (visited (.formatting code contents extra)).elements := by
  unfold parts
  split <;> simp_all

/-- What is done for a part of a table is done for its elements, if it counts as filled in. -/
theorem flatMap_if_isTruthy {α β : Type} {v : Value} {steps : List α} {F : α → List β}
    {G : Value → List β} (h : steps.flatMap F = v.elements.flatMap G) :
    (if v.isTruthy then steps else []).flatMap F = v.filledElements.flatMap G := by
  unfold filledElements
  cases v.isTruthy with
  | true => exact h
  | false => rfl

/-- The steps of a piece of markup announce it and convert its parts. -/
theorem flatMap_lines_ofMarkup (m : Markup Value) :
    (Step.ofMarkup m).flatMap Step.lines = opening m ++ (parts m).flatMap lines := by
  have heach : ∀ {steps : Value → List Step} (v : Value),
      (Step.each steps v).flatMap Step.lines =
        v.elements.flatMap fun x => (steps x).flatMap Step.lines := fun v => by
    rw [Step.each, List.flatMap_cons, List.flatMap_assoc]
    rfl
  have hvisit : ∀ v, (Step.visit v).flatMap Step.lines = v.elements.flatMap lines := fun v => by
    rw [Step.visit, heach]
    simp only [List.flatMap_singleton, Step.lines]
  cases m with
  | block => rfl
  | table contents config headers caption =>
    have hrows : (Step.each Step.visit contents).flatMap Step.lines =
        contents.elements.flatMap fun row => row.elements.flatMap lines := by
      rw [heach]
      simp only [hvisit]
    have hmeasure : [Step.measure headers, Step.measure contents].flatMap Step.lines = [] := rfl
    rw [Step.ofMarkup, List.flatMap_append, List.flatMap_append, hmeasure, List.append_nil,
      flatMap_if_isTruthy (hvisit headers), flatMap_if_isTruthy hrows, parts, List.flatMap_append,
      List.flatMap_assoc]
    rfl
  | formatting code contents extra =>
    by_cases hentity : code = .str "E"
    · subst hentity
      rfl
    rw [parts_formatting hentity]
    by_cases hlink : code = .str "L"
    · subst hlink
      rw [Step.ofMarkup, List.flatMap_cons, hvisit]
      cases extra.isTruthy <;> rfl
    · have hannounced : (Step.announced code).flatMap Step.lines =
          opening (.formatting code contents extra) := by
        unfold Step.announced opening
        split <;> simp_all [Step.lines]
      rw [Step.ofMarkup_formatting hentity hlink, List.flatMap_append, hannounced, hvisit,
        visited_formatting hlink]
  | _ => exact hvisit _

/-! The sizes of a table are the numbers of its headers and of its rows. -/

theorem sizeUnder_header (contents config headers caption : Value) :
    sizeUnder .tableHeader .tableData (outline (markup (.table contents config headers caption))) =
      headers.filledElements.length := by
  have hcells : (headers.branches.map cellOver).countP (·.root.kind = .tableData) =
      headers.elements.length := by
    rw [List.countP_eq_length.mpr (by simp [cellOver, Label.kind]), List.length_map, branches_eq,
      List.length_map]
  rw [sizeUnder, outline, children_node, List.filter_append, filledElements]
  cases headers.isTruthy with
  | true => cases contents.isTruthy <;> simpa [Label.kind] using hcells
  | false => cases contents.isTruthy <;> simp [Label.kind]

theorem sizeUnder_body (contents config headers caption : Value) :
    sizeUnder .tableBody .tableBodyRow (outline (markup (.table contents config headers caption))) =
      contents.filledElements.length := by
  have hrows : contents.rows.countP (·.root.kind = .tableBodyRow) = contents.elements.length := by
    rw [rows_eq, List.countP_eq_length.mpr (by simp [rowOver, Label.kind]), List.length_map]
  rw [sizeUnder, outline, children_node, List.filter_append, filledElements]
  cases contents.isTruthy with
  | true => cases headers.isTruthy <;> simpa [Label.kind] using hrows
  | false => cases headers.isTruthy <;> simp [Label.kind]

theorem sizing_table (contents config headers caption : Value) :
    sizing (.table contents config headers caption) =
      [.tableConverted headers.filledElements.length contents.filledElements.length] := by
  rw [sizing, Markup.markupClass, if_pos rfl, Event.ofTable, sizeUnder_header, sizeUnder_body]

/-! The lines of the tables in a value are those of the tables in its tree. -/

theorem tableLines_cells (label : Label Value) (hlabel : label.kind ≠ .table) (v : Value) :
    tableLines (.node label (v.branches.map cellOver)) =
      v.elements.flatMap fun x => tableLines x.outline := by
  have hcell : ∀ t, tableLines (cellOver t) = tableLines t := fun t => by
    rw [cellOver, tableLines_of_ne (by simp [Label.kind]), List.flatMap_singleton]
  rw [tableLines_of_ne hlabel, branches_eq, List.flatMap_map, List.flatMap_map]
  simp only [hcell]

theorem tableLines_container {label : Label Value} (hlabel : label.kind ∈ NodeKind.containers)
    (v : Value) :
    tableLines (.node label v.branches) = v.elements.flatMap fun x => tableLines x.outline := by
  have hne : label.kind ≠ .table := fun he => absurd (he ▸ hlabel) (by decide)
  rw [tableLines_of_ne hne, branches_eq, List.flatMap_map]

theorem tableLines_rows (v : Value) :
    tableLines (.node .tableBody v.rows) =
      v.elements.flatMap fun row => row.elements.flatMap fun x => tableLines x.outline := by
  rw [tableLines_of_ne (by simp [Label.kind]), rows_eq, List.flatMap_map]
  exact List.flatMap_congr fun row _ =>
    tableLines_cells .tableBodyRow (by simp [Label.kind]) row

/-- Besides those of its parts there is the line of a table itself. -/
theorem tableLines_markup (m : Markup Value) :
    tableLines (outline (markup m)) =
      (parts m).flatMap (fun x => tableLines x.outline) ++ sizing m := by
  have hcontainer : ∀ {label}, label.kind ∈ NodeKind.containers → m.markupClass ≠ .table →
      outline (markup m) = .node label (visited m).branches → parts m = (visited m).elements →
      tableLines (outline (markup m)) =
        (parts m).flatMap (fun x => tableLines x.outline) ++ sizing m := by
    intro label hlabel hclass houtline hparts
    rw [houtline, hparts, tableLines_container hlabel, sizing, if_neg hclass, List.append_nil]
  cases m with
  | block => rfl
  | table contents config headers caption =>
    have hheader := tableLines_cells .tableHeader (by simp [Label.kind]) headers
    have hbody := tableLines_rows contents
    rw [← List.flatMap_singleton tableLines] at hheader hbody
    rw [parts, List.flatMap_append, List.flatMap_assoc, outline, tableLines_node,
      List.flatMap_append, flatMap_if_isTruthy hheader, flatMap_if_isTruthy hbody]
    simp [sizing, Markup.markupClass, outline, Label.kind]
  | formatting code contents extra =>
    by_cases hcode : code = .str "E"
    · subst hcode
      rfl
    · exact hcontainer (kind_codeLabel code contents extra).1 (by simp [Markup.markupClass])
        (outline_formatting hcode contents extra) (parts_formatting hcode contents extra)
  | named contents _ name =>
    exact hcontainer (kind_nameLabel name).1 (by simp [Markup.markupClass]) rfl rfl
  | para | code | comment | heading | item =>
    exact hcontainer (by simp [Label.kind, NodeKind.containers]) (by simp [Markup.markupClass])
      rfl rfl

theorem filter_isOfTable_lines (v : Value) :
    v.lines.filter Event.isOfTable = tableLines v.outline := by
  induction v using parts_induction with
  | hmarkup m ih =>
    have hopening : (opening m).filter Event.isOfTable = [] := by
      unfold opening
      split <;> simp [Event.isOfTable]
    have hsizing : (sizing m).filter Event.isOfTable = sizing m := by
      unfold sizing
      split <;> simp [Event.ofTable, Event.isOfTable]
    have hclosing : (closing m).filter Event.isOfTable = [] := by
      unfold closing
      split <;> simp [Event.isOfTable]
    rw [lines_markup, tableLines_markup]
    simp only [List.filter_append, List.filter_flatMap, hopening, hsizing, hclosing,
      List.nil_append, List.append_nil]
    rw [List.flatMap_congr ih]
  | hother v h =>
    rw [lines_of_not_markup h]
    cases v with
    | markup m => exact absurd rfl (h m)
    | _ => simp [outline, textLeaf, leaf, tableLines_node, Label.kind]

end Value

/-! Wrapping changes neither the tables nor the order in which they stand. -/

namespace OrderedTree

variable {α : Type} {item q : OrderedTree α → Bool} {list : α}

/-- Grouping leaves alone what is neither an item nor a list. -/
theorem filter_regroup (hlist : ∀ us, q (node list us) = false)
    (hitem : ∀ t, item t = true → q t = false) (merge : Bool) (ts : List (OrderedTree α)) :
    (regroup item list merge ts).filter q = ts.filter q := by
  -- items join a list in front or get a new one, and neither passes the filter
  have hopened : ∀ opened, (remaining item list merge opened ts).filter q = ts.filter q := by
    induction ts with
    | nil => simp [remaining_nil]
    | cons t ts ih =>
      intro opened
      cases ht : item t with
      | false =>
        rw [remaining_cons_of_not ht, List.filter_cons, List.filter_cons, ih]
      | true =>
        have hskip : (t :: ts).filter q = ts.filter q :=
          List.filter_cons_of_neg (by simp [hitem t ht])
        cases opened with
        | false =>
          rw [remaining_cons ht, List.filter_cons_of_neg (by simp [hlist]), ih, hskip]
        | true => rw [remaining_cons_of_opened ht, ih, hskip]
  exact hopened false

end OrderedTree

section Normalize

variable (merge : Bool) (t : OrderedTree (Label Value))

/-- The children of a kind other than item and list stay, each of them normalized. -/
theorem filter_children_normalize {kind : NodeKind} (hitem : kind ≠ .item) (hlist : kind ≠ .list) :
    (normalize Label.kind .list merge t).children.filter (·.root.kind = kind) =
      (t.children.filter (·.root.kind = kind)).map (normalize Label.kind .list merge) := by
  cases t with
  | node label ts =>
    rw [normalize_node, children_node, children_node, filter_regroup, List.filter_map]
    · congr 2
      funext u
      simp
    · exact fun us => decide_eq_false hlist.symm
    · intro u hu
      have hu' : u.root.kind = .item := (of_decide_eq_true hu).2
      exact decide_eq_false (hu' ▸ hitem.symm)

theorem sizeUnder_normalize {part cell : NodeKind} (hpart : part ≠ .item ∧ part ≠ .list)
    (hcell : cell ≠ .item ∧ cell ≠ .list) :
    sizeUnder part cell (normalize Label.kind .list merge t) = sizeUnder part cell t := by
  have hcells : ∀ u : OrderedTree (Label Value),
      (normalize Label.kind .list merge u).children.countP (·.root.kind = cell) =
        u.children.countP (·.root.kind = cell) := by
    intro u
    rw [List.countP_eq_length_filter, filter_children_normalize merge u hcell.1 hcell.2,
      List.length_map, List.countP_eq_length_filter]
  rw [sizeUnder, filter_children_normalize merge t hpart.1 hpart.2, sizeUnder, List.flatMap_map,
    List.countP_flatMap, List.countP_flatMap]
  congr 1
  exact List.map_congr_left fun u _ => hcells u

theorem tableLines_normalize :
    tableLines (normalize Label.kind .list merge t) = tableLines t := by
  induction t using induction with
  | h label ts ih =>
    have hsizes : Event.ofTable (normalize Label.kind .list merge (.node label ts)) =
        .ofTable (.node label ts) := by
      rw [Event.ofTable, sizeUnder_normalize merge _ (by decide) (by decide),
        sizeUnder_normalize merge _ (by decide) (by decide), Event.ofTable]
    have hlist : ∀ us, tableLines (.node .list us) = us.flatMap tableLines :=
      tableLines_of_ne (by simp [Label.kind])
    rw [normalize_node] at hsizes ⊢
    rw [tableLines_node, hsizes, flatMap_regroup hlist, List.flatMap_map, tableLines_node]
    congr 1
    exact List.flatMap_congr ih

end Normalize

theorem tableLines_finished (v : Value) (merge : Bool) :
    tableLines (v.finished merge) = v.lines.filter Event.isOfTable := by
  rw [Value.filter_isOfTable_lines, Value.finished, tableLines_normalize, wrappedItem]
  split
  · rw [tableLines_of_ne (by simp [Label.kind]), List.flatMap_singleton]
  · rfl

end DocTree
