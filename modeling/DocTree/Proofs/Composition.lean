import DocTree.Proofs.ContentModel

/-!
Building is compositional. What is built of a piece of markup is put together from what is built of its
elements, each built on its own: their trees stand side by side below the node made of the markup, and
if runs are merged the lists around neighbouring items become one. So the list around a root and the
lists made further down are the same thing.
-/
namespace DocTree

open OrderedTree

def Value.isItemBlock : Value → Bool
  | .markup m => m.markupClass = .item
  | _ => false

/-- Trees next to the values they have been built of. Each maximal run of trees of item blocks becomes
one list, which holds their items in order. -/
def mergeRuns : List (Value × OrderedTree (Label Value)) → List (OrderedTree (Label Value))
  | [] => []
  | (v, t) :: parts =>
    if v.isItemBlock then
      .node .list (t.children ++
          (parts.takeWhile fun part => part.1.isItemBlock).flatMap fun part => part.2.children) ::
        mergeRuns (parts.dropWhile fun part => part.1.isItemBlock)
    else t :: mergeRuns parts
termination_by parts => parts.length
decreasing_by
  · exact length_dropWhile_lt _ (v, t) parts
  · simp

/-! Finished trees of elements. -/

namespace Value

theorem ruleFault?_of_accepted {digits : Option ℕ} {levels : ℕ} {m : Markup Value}
    (h : (markup m).fault? digits levels = none) :
    ruleFault? digits levels (fault? digits levels) m = none := by
  cases levels with
  | zero => exact absurd h (by simp [fault?])
  | succ levels => exact ruleFault?_mono (Nat.le_refl _) (fun _ => fault?_succ) h

/-- Just item blocks become items. -/
theorem kind_outline_eq_item_iff (v : Value) :
    v.outline.root.kind = .item ↔ v.isItemBlock = true := by
  cases v with
  | markup m =>
    cases m with
    | named contents _ name =>
      rw [outline]
      simpa [isItemBlock, Markup.markupClass] using (kind_nameLabel name).2
    | formatting kind contents extra =>
      rw [outline]
      split
      · simp [isItemBlock, Markup.markupClass, leaf, Label.kind]
      · simpa [isItemBlock, Markup.markupClass] using (kind_codeLabel kind contents extra).2
    | _ => simp [outline, isItemBlock, Markup.markupClass, Label.kind, textLeaf, leaf]
  | _ => simp [outline, isItemBlock, textLeaf, leaf, Label.kind]

theorem finished_eq (v : Value) (merge : Bool) :
    v.finished merge =
      if v.isItemBlock then .node .list [normalize Label.kind .list merge v.outline]
      else normalize Label.kind .list merge v.outline := by
  rw [finished, normalize_wrappedItem, wrappedItem, root_normalize]
  simp only [kind_outline_eq_item_iff]

theorem wrappable_outline {label : Label Value} (hlabel : label.kind ≠ .list) (merge : Bool)
    (v : Value) :
    wrappable Label.kind label (normalize Label.kind .list merge v.outline) = v.isItemBlock := by
  simp [wrappable, hlabel, kind_outline_eq_item_iff]

/-- Runs are merged alike before and after each item has got its list. -/
theorem wrapRuns_eq_mergeRuns {label : Label Value} (hlabel : label.kind ≠ .list) (merge : Bool)
    (xs : List Value) :
    wrapRuns (wrappable Label.kind label) .list
        (xs.map fun x => normalize Label.kind .list merge x.outline) =
      mergeRuns (xs.map fun x => (x, x.finished merge)) := by
  have hitem : (wrappable Label.kind label ∘ fun x : Value =>
      normalize Label.kind .list merge x.outline) = isItemBlock :=
    funext (wrappable_outline hlabel merge)
  have hpart : ((fun part : Value × OrderedTree (Label Value) => part.1.isItemBlock) ∘
      fun x : Value => (x, x.finished merge)) = isItemBlock := rfl
  -- what is left behind a run is shorter by the whole run
  induction hn : xs.length using Nat.strong_induction_on generalizing xs with
  | h n ih =>
    cases xs with
    | nil => simp [wrapRuns, mergeRuns]
    | cons x xs =>
      rw [List.map_cons, List.map_cons, wrapRuns, mergeRuns, wrappable_outline hlabel]
      split
      · rename_i hblock
        have hle := (List.dropWhile_sublist isItemBlock (l := xs)).length_le
        have hrest := ih _ (by rw [← hn, List.length_cons]; omega) (xs.dropWhile isItemBlock) rfl
        have hrun : (xs.takeWhile isItemBlock).flatMap (fun y => (y.finished merge).children) =
            (xs.takeWhile isItemBlock).map fun y => normalize Label.kind .list merge y.outline := by
          rw [List.map_eq_flatMap]
          refine List.flatMap_congr fun y hy => ?_
          rw [finished_eq, if_pos (List.mem_takeWhile_imp hy), children_node]
        rw [List.takeWhile_map, List.dropWhile_map, List.takeWhile_map, List.dropWhile_map, hitem,
          hpart, hrest, List.flatMap_map, hrun, finished_eq, if_pos hblock, children_node]
        rfl
      · rename_i hblock
        rw [ih _ (by rw [← hn, List.length_cons]; omega) xs rfl, finished_eq, if_neg hblock]

end Value

/-- What stands below a node made of markup whose elements are the values of the parts. -/
def sideBySide (merge : Bool) (xs : List Value) (ts : List (OrderedTree (Label Value))) :
    List (OrderedTree (Label Value)) :=
  if merge then mergeRuns (xs.zip ts) else ts

theorem normalize_container {label : Label Value} (hlabel : label.kind ≠ .list) (merge : Bool)
    (xs : List Value) :
    normalize Label.kind .list merge (.node label (xs.map Value.outline)) =
      .node label (sideBySide merge xs (xs.map fun x => x.finished merge)) := by
  have hzip : xs.zip (xs.map fun x => x.finished merge) = xs.map fun x => (x, x.finished merge) := by
    simpa using List.zip_map' (f := id) (g := fun x : Value => x.finished merge) (l := xs)
  rw [normalize_node, List.map_map, sideBySide, hzip]
  cases merge with
  | true =>
    exact congrArg (OrderedTree.node label) (Value.wrapRuns_eq_mergeRuns hlabel true xs)
  | false =>
    refine congrArg (OrderedTree.node label) ?_
    simp only [regroup, Bool.false_eq_true, if_false, wrapEach, List.map_map]
    refine List.map_congr_left fun x _ => ?_
    rw [Value.finished_eq, Function.comp_apply, Function.comp_apply,
      Value.wrappable_outline hlabel]

/-- Where no item stands below the root nothing is grouped there. -/
theorem normalize_of_ne_item {label : Label Value} {ts : List (OrderedTree (Label Value))}
    (h : ∀ t ∈ ts, t.root.kind ≠ .item) (merge : Bool) :
    normalize Label.kind .list merge (.node label ts) =
      .node label (ts.map (normalize Label.kind .list merge)) := by
  rw [normalize_node, regroup_of_not]
  exact List.forall_mem_map.mpr fun t ht => by simp [wrappable, h t ht]

theorem normalize_cellOver (merge : Bool) (t : OrderedTree (Label Value)) :
    normalize Label.kind .list merge (cellOver t) =
      cellOver (wrappedItem (normalize Label.kind .list merge t)) := by
  rw [cellOver, normalize_node, List.map_singleton, regroup_singleton, cellOver, wrappedItem]
  simp [wrappable, Label.kind]

theorem normalize_row (label : Label Value) (merge : Bool) (ts : List (OrderedTree (Label Value))) :
    normalize Label.kind .list merge (.node label (ts.map cellOver)) =
      .node label
        ((ts.map fun t => wrappedItem (normalize Label.kind .list merge t)).map cellOver) := by
  rw [normalize_of_ne_item (by simp [cellOver, Label.kind]), List.map_map, List.map_map]
  exact congrArg (OrderedTree.node label)
    (List.map_congr_left fun t _ => normalize_cellOver merge t)

theorem normalize_tableOver (merge : Bool) (hs : List (OrderedTree (Label Value)))
    (rows : List (List (OrderedTree (Label Value)))) :
    normalize Label.kind .list merge (tableOver hs rows) =
      tableOver (hs.map fun t => wrappedItem (normalize Label.kind .list merge t))
        (rows.map fun ts => ts.map fun t => wrappedItem (normalize Label.kind .list merge t)) := by
  have hbody : normalize Label.kind .list merge
        (.node .tableBody (rows.map fun ts => .node .tableBodyRow (ts.map cellOver))) =
      .node .tableBody ((rows.map fun ts => ts.map fun t =>
        wrappedItem (normalize Label.kind .list merge t)).map fun ts =>
          .node .tableBodyRow (ts.map cellOver)) := by
    rw [normalize_of_ne_item (by simp [Label.kind]), List.map_map, List.map_map]
    exact congrArg (OrderedTree.node .tableBody)
      (List.map_congr_left fun ts _ => normalize_row .tableBodyRow merge ts)
  rw [tableOver, normalize_of_ne_item, List.map_append, tableOver]
  · simp only [List.map_eq_nil_iff, apply_ite (List.map (normalize Label.kind .list merge)),
      List.map_nil, List.map_singleton, hbody, normalize_row]
  · intro t ht
    rcases List.mem_append.mp ht with ht | ht
    · split at ht <;> simp_all [Label.kind]
    · split at ht <;> simp_all [Label.kind]

/-! The elements and the whole. -/

/-- Each of the accepted values is built into its finished tree. -/
theorem forall₂_builds {digits : Option ℕ} {levels : ℕ} {options : BuildOptions} {xs : List Value}
    (h : ∀ x ∈ xs, x.fault? digits levels = none) :
    List.Forall₂ (Builds digits levels options) xs
      (xs.map fun x => x.finished options.mergeAdjacentItems) := by
  rw [List.forall₂_map_right_iff, List.forall₂_same]
  exact fun x hx => builds_finished (h x hx) options

/-- What is built of markup is put together from what is built of its elements, each on its own: the
trees of the contents stand side by side below the node of the markup, which itself stands in a list if
it is an item, and the trees of the cells stand in the cells of a table. -/
theorem build_compositional {digits : Option ℕ} {levels : ℕ} {m : Markup Value} {options : BuildOptions}
    {w w' : Workspace} {root : NodeId} (h : build digits levels (.markup m) options w = .ok root w') :
    (m.markupClass ≠ .table → m.isEntity = false →
      ∃ xs ts, (Value.visited m).elements? = some xs ∧
        List.Forall₂ (Builds digits levels options) xs ts ∧
        ∃ made : OrderedTree (Label Value), made.root = (Value.markup m).outline.root ∧
          made.children = sideBySide options.mergeAdjacentItems xs ts ∧
          w'.store.Represents root (if m.markupClass = .item then .node .list [made] else made)) ∧
      ∀ contents config headers caption, m = .table contents config headers caption →
        ∃ hs cells rs rows, headers.elements? = some hs ∧
          List.Forall₂ (Builds digits levels options) hs cells ∧
          contents.elements? = some rs ∧
          List.Forall₂ (fun r ts => ∃ xs, r.elements? = some xs ∧
            List.Forall₂ (Builds digits levels options) xs ts) rs rows ∧
          w'.store.Represents root (tableOver cells rows) := by
  have haccepted := fault?_eq_none_of_build h
  have hbuilt := represents_of_build h
  have hrule := Value.ruleFault?_of_accepted haccepted
  rw [Value.finished_eq] at hbuilt
  constructor
  · intro htable hentity
    obtain ⟨hparts, label, hlabel, houtline⟩ := Value.outline_container hrule htable hentity
    obtain ⟨xs, hxs, hall⟩ := (Value.partsFault?_eq_none_iff (Value.visited m)).mp hparts
    have hlist : label.kind ≠ .list := fun he => absurd (he ▸ hlabel) (by decide)
    rw [Value.branches_eq, Value.elements_eq hxs] at houtline
    rw [houtline, normalize_container hlist] at hbuilt
    refine ⟨xs, _, hxs, forall₂_builds hall, _, ?_, rfl, by simpa [Value.isItemBlock] using hbuilt⟩
    rw [houtline, root_node, root_node]
  · rintro contents config headers caption rfl
    obtain ⟨⟨hs, hhs, hheaders⟩, rs, hrs, hrows⟩ :=
      (Value.tableFault?_eq_none_iff headers contents).mp hrule
    have hwrap : ∀ x : Value,
        wrappedItem (normalize Label.kind .list options.mergeAdjacentItems x.outline) =
          x.finished options.mergeAdjacentItems := fun x => (normalize_wrappedItem _ _).symm
    rw [Value.outline_table hhs hrs, normalize_tableOver] at hbuilt
    simp only [List.map_map, Function.comp_def, hwrap] at hbuilt
    refine ⟨hs, _, rs, _, hhs.1, forall₂_builds hheaders, hrs.1, ?_, hbuilt⟩
    rw [List.forall₂_map_right_iff, List.forall₂_same]
    intro r hr
    obtain ⟨xs, hxs, hcells⟩ := hrows r hr
    rw [Value.elements_eq hxs]
    exact ⟨xs, hxs, forall₂_builds hcells⟩

/-- A table with a text in its header and an item in its only row. -/
def itemTable : Value :=
  .markup (.table (.list [.list [.markup (.item (.list [.str "first"]) .null (.int 1))]]) .null
    (.list [.str "head"]) .null)

theorem build_itemTable_compositional :
    (∃ root w', build (some 4300) 2 itemDocument ⟨true, false⟩ .empty = .ok root w' ∧
      ∃ made, made.root = itemDocument.outline.root ∧ w'.store.Represents root made ∧
        ∃ xs ts, List.Forall₂ (Builds (some 4300) 2 ⟨true, false⟩) xs ts ∧
          made.children = sideBySide true xs ts) ∧
      ∃ root w', build (some 4300) 2 itemTable ⟨true, false⟩ .empty = .ok root w' ∧
        ∃ cells rows, w'.store.Represents root (tableOver cells rows) := by
  have hdocument : itemDocument.fault? (some 4300) 2 = none := rfl
  have htable : itemTable.fault? (some 4300) 2 = none := rfl
  obtain ⟨root, w', hbuild, -⟩ := builds_finished hdocument ⟨true, false⟩ .empty
  obtain ⟨root₂, w₂, hbuild₂, -⟩ := builds_finished htable ⟨true, false⟩ .empty
  obtain ⟨xs, ts, -, hts, made, hroot, hchildren, hmade⟩ :=
    (build_compositional hbuild).1 (by decide) rfl
  obtain ⟨-, cells, -, rows, -, -, -, -, hrepresents⟩ :=
    (build_compositional hbuild₂).2 _ _ _ _ rfl
  exact ⟨⟨root, w', hbuild, made, hroot, hmade, xs, ts, hts, hchildren⟩,
    root₂, w₂, hbuild₂, cells, rows, hrepresents⟩

end DocTree
