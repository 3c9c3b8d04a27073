import DocTree.Proofs.FinishedTree

/-!
The content model: what may stand where in a finished tree. For each kind it is laid down which children
a node of the kind holds, and for some kinds below which kinds they stand. Conversion leaves a tree that
fits but for its items, which stand free in it, while there are no lists at all; grouping puts each item
where it belongs and keeps everything else, so that the finished tree fits at all its places.
-/
namespace DocTree

open OrderedTree

namespace NodeKind

/-- The kinds below which a node of this kind has to stand, if it is not free to stand anywhere. -/
def owners? : NodeKind → Option (List NodeKind)
  | item => some [list]
  | tableHeader | tableBody => some [table]
  | tableBodyRow => some [tableBody]
  | tableData => some [tableHeader, tableBodyRow]
  | _ => none

def BelongsTo (kind owner : NodeKind) : Prop := ∀ owners, kind.owners? = some owners → owner ∈ owners

/-- A node of this kind may have children of the kinds `below`, in this order. A list holds one item,
or more if runs are merged; text and entities hold nothing; and a table has a header, a body, both in
this order or nothing. -/
def Holds (merge : Bool) (below : List NodeKind) : NodeKind → Prop
  | list => below ≠ [] ∧ (∀ k ∈ below, k = item) ∧ (merge = false → below.length = 1)
  | text | entity => below = []
  | table => below ∈ [[], [tableHeader], [tableBody], [tableHeader, tableBody]]
  | tableHeader => below ≠ [] ∧ ∀ k ∈ below, k = tableData
  | tableBody => below ≠ [] ∧ ∀ k ∈ below, k = tableBodyRow
  | tableBodyRow => ∀ k ∈ below, k = tableData
  | tableData => below.length = 1
  | _ => True

/-- The kinds that hold whatever markup holds. -/
def containers : List NodeKind :=
  [document, namedSection, paragraph, heading, item, bold, code, comment, link, reference]

/-- A node of this kind stands for a value: it is an item, or it is free to stand anywhere and no
list. -/
def IsContent (kind : NodeKind) : Prop := kind = item ∨ kind.owners? = none ∧ kind ≠ list

theorem IsContent.belongsTo {kind : NodeKind} (h : kind.IsContent) (owner : NodeKind) :
    kind = item ∨ kind.BelongsTo owner := by
  refine h.imp id fun hfree owners howners => ?_
  rw [hfree.1] at howners
  exact absurd howners (by simp)

theorem isContent_of_mem_containers {kind : NodeKind} (h : kind ∈ containers) : kind.IsContent := by
  revert h
  cases kind <;> simp [containers, IsContent, owners?]

theorem holds_of_mem_containers {kind : NodeKind} (h : kind ∈ containers) (merge : Bool)
    (below : List NodeKind) : kind.Holds merge below := by
  revert h
  cases kind <;> simp [containers, Holds]

/-- What holds an item among others holds whatever comes of them, except that a single one stays
single. -/
theorem Holds.of_item_mem {merge : Bool} {kind : NodeKind} {below below' : List NodeKind}
    (h : kind.Holds merge below) (hkind : kind ≠ list) (hitem : item ∈ below)
    (hlength : below.length = 1 → below'.length = 1) : kind.Holds merge below' := by
  cases kind with
  | list => exact absurd rfl hkind
  | text | entity => exact absurd hitem (by simp [show below = [] from h])
  | table =>
    have hmem : below ∈ [[], [tableHeader], [tableBody], [tableHeader, tableBody]] := h
    revert hitem
    simp only [List.mem_cons, List.not_mem_nil, or_false] at hmem
    rcases hmem with rfl | rfl | rfl | rfl <;> simp
  | tableHeader | tableBody => exact absurd (h.2 item hitem) (by decide)
  | tableBodyRow => exact absurd (h item hitem) (by decide)
  | tableData => exact hlength h
  | _ => trivial

end NodeKind

def rootKinds (ts : List (OrderedTree (Label Value))) : List NodeKind := ts.map fun t => t.root.kind

/-- At the root of the tree stands what conversion puts there: the children are those of the kind, a
list is nowhere, and an item may be anywhere. -/
structure Plain (t : OrderedTree (Label Value)) : Prop where
  ne_list : t.root.kind ≠ .list
  holds : ∀ merge, t.root.kind.Holds merge (rootKinds t.children)
  belongs : ∀ u ∈ t.children, u.root.kind = .item ∨ u.root.kind.BelongsTo t.root.kind

/-- At the root of the tree stands what has to stand there in a finished tree: the children are those of
the kind, all of them may be there, and runs of lists have been merged if they had to be. -/
structure Fits (merge : Bool) (t : OrderedTree (Label Value)) : Prop where
  holds : t.root.kind.Holds merge (rootKinds t.children)
  belongs : ∀ u ∈ t.children, u.root.kind.BelongsTo t.root.kind
  apart : merge = true →
    t.children.IsChain fun u v => ¬ (u.root.kind = .list ∧ v.root.kind = .list)

/-! Conversion. -/

structure PlainContent (t : OrderedTree (Label Value)) : Prop where
  isContent : t.root.kind.IsContent
  plain : ∀ u ∈ t.subtrees, Plain u

section Plain

variable {label : Label Value} {ts : List (OrderedTree (Label Value))}

theorem plain_leaf (h : label.kind = .text ∨ label.kind = .entity) : PlainContent (leaf label) where
  isContent := by
    rcases h with h | h <;> simp [leaf, h, NodeKind.IsContent, NodeKind.owners?]
  plain := by
    rw [leaf, forall_subtrees_node]
    refine ⟨⟨?_, fun merge => ?_, by simp⟩, by simp⟩
    · rcases h with h | h <;> simp [h]
    · rcases h with h | h <;> simp [h, NodeKind.Holds, rootKinds]

/-- Anything may stand in a container. -/
theorem plain_container (hlabel : label.kind ∈ NodeKind.containers)
    (hts : ∀ t ∈ ts, PlainContent t) : PlainContent (.node label ts) where
  isContent := NodeKind.isContent_of_mem_containers hlabel
  plain := by
    rw [forall_subtrees_node]
    refine ⟨⟨?_, fun merge => NodeKind.holds_of_mem_containers hlabel merge _, ?_⟩,
      fun t ht => (hts t ht).plain⟩
    · intro he
      rw [root_node] at he
      exact absurd (he ▸ hlabel) (by decide)
    · exact fun u hu => (hts u hu).isContent.belongsTo _

/-- A part of a table stands over parts of one kind. -/
theorem plain_part (kind : NodeKind) (hlabel : label.kind ≠ .list)
    (hholds : ∀ merge, label.kind.Holds merge (rootKinds ts))
    (hbelongs : kind.BelongsTo label.kind) (hkind : ∀ t ∈ ts, t.root.kind = kind)
    (hts : ∀ t ∈ ts, ∀ u ∈ t.subtrees, Plain u) : ∀ u ∈ (node label ts).subtrees, Plain u := by
  rw [forall_subtrees_node]
  exact ⟨⟨hlabel, hholds, fun u hu => Or.inr (hkind u hu ▸ hbelongs)⟩, hts⟩

end Plain

theorem rootKinds_map_cellOver (ts : List (OrderedTree (Label Value))) :
    ∀ k ∈ rootKinds (ts.map cellOver), k = .tableData := by
  simp [rootKinds, cellOver, Label.kind]

/-- A row of cells, in the header or in the body. -/
theorem plain_row {label : Label Value} {ts : List (OrderedTree (Label Value))}
    (hlabel : label.kind = .tableHeader ∧ ts ≠ [] ∨ label.kind = .tableBodyRow)
    (hts : ∀ t ∈ ts, PlainContent t) :
    ∀ u ∈ (node label (ts.map cellOver)).subtrees, Plain u := by
  have hcells : ∀ u ∈ ts.map cellOver, ∀ x ∈ u.subtrees, Plain x := by
    intro u hu
    obtain ⟨t, ht, rfl⟩ := List.mem_map.mp hu
    rw [cellOver, forall_subtrees_node]
    refine ⟨⟨by simp [Label.kind], fun _ => rfl, ?_⟩, by simpa using (hts t ht).plain⟩
    simpa using (hts t ht).isContent.belongsTo _
  have hkind : ∀ u ∈ ts.map cellOver, u.root.kind = .tableData := by
    simp [cellOver, Label.kind]
  refine plain_part .tableData ?_ (fun merge => ?_) ?_ hkind hcells
  · rcases hlabel with ⟨h, -⟩ | h <;> simp [h]
  · have hall := rootKinds_map_cellOver ts
    rcases hlabel with ⟨h, hne⟩ | h
    · rw [h]
      exact ⟨by simpa [rootKinds] using hne, hall⟩
    · rw [h]
      exact hall
  · rcases hlabel with ⟨h, -⟩ | h <;> simp [h, NodeKind.BelongsTo, NodeKind.owners?]

/-- A table of a header, if there are header cells, and a body, if there are rows. -/
theorem plain_table {hs : List (OrderedTree (Label Value))}
    {rows : List (List (OrderedTree (Label Value)))} (hhs : ∀ t ∈ hs, PlainContent t)
    (hrows : ∀ ts ∈ rows, ∀ t ∈ ts, PlainContent t) :
    PlainContent (tableOver hs rows) := by
  have hheader : hs ≠ [] → ∀ u ∈ (node .tableHeader (hs.map cellOver)).subtrees, Plain u :=
    fun hne => plain_row (Or.inl ⟨rfl, hne⟩) hhs
  have hbody : rows ≠ [] → ∀ u ∈ (node .tableBody
      (rows.map fun ts => node .tableBodyRow (ts.map cellOver))).subtrees, Plain u := by
    intro hne
    refine plain_part .tableBodyRow (by decide) (fun merge => ?_) ?_ ?_ ?_
    · exact ⟨by simpa [rootKinds] using hne, by simp [rootKinds, Label.kind]⟩
    · simp [NodeKind.BelongsTo, NodeKind.owners?, Label.kind]
    · simp [Label.kind]
    · intro t ht
      obtain ⟨ts, hts, rfl⟩ := List.mem_map.mp ht
      exact plain_row (Or.inr rfl) (hrows ts hts)
  refine ⟨Or.inr (by simp [tableOver, NodeKind.owners?, Label.kind]), ?_⟩
  rw [tableOver, forall_subtrees_node]
  refine ⟨⟨by simp [Label.kind], fun merge => ?_, ?_⟩, ?_⟩
  · split <;> split <;> simp [rootKinds, NodeKind.Holds, Label.kind]
  · split <;> split <;> simp [NodeKind.BelongsTo, NodeKind.owners?, Label.kind]
  · intro t ht
    rcases List.mem_append.mp ht with ht | ht
    · split at ht
      · exact absurd ht (by simp)
      · rename_i hne
        exact List.mem_singleton.mp ht ▸ hheader hne
    · split at ht
      · exact absurd ht (by simp)
      · rename_i hne
        exact List.mem_singleton.mp ht ▸ hbody hne

def Markup.isEntity : Markup Value → Bool
  | .formatting kind _ _ => kind.isEntityCode
  | _ => false

namespace Value

theorem outline_entity {m : Markup Value} (h : m.isEntity = true) :
    ∃ contents, outline (markup m) = leaf (.entity contents) := by
  cases m with
  | formatting kind contents extra =>
    rw [outline, if_pos (show kind.isEntityCode = true from h)]
    exact ⟨contents, rfl⟩
  | _ => exact absurd h (by simp [Markup.isEntity])

/-- A section holds what its markup holds, and it is no item. -/
theorem kind_nameLabel (name : Value) :
    (nameLabel name).kind ∈ NodeKind.containers ∧ (nameLabel name).kind ≠ .item := by
  unfold nameLabel
  split <;> simp [Label.kind, NodeKind.containers]

theorem kind_codeLabel (code contents extra : Value) :
    (codeLabel code contents extra).kind ∈ NodeKind.containers ∧
      (codeLabel code contents extra).kind ≠ .item := by
  unfold codeLabel
  split
  · simp [Label.kind, NodeKind.containers]
  · simp [Label.kind, NodeKind.containers]
  · simp [Label.kind, NodeKind.containers]
  · simp [Label.kind, NodeKind.containers]
  · exact kind_nameLabel _

/-- Accepted markup, unless it is a table or an entity, is a container over its elements. -/
theorem outline_container {inner : Value → Option ConversionError} {digits : Option ℕ} {levels : ℕ}
    {m : Markup Value} (h : ruleFault? digits levels inner m = none) (htable : m.markupClass ≠ .table)
    (hentity : m.isEntity = false) :
    partsFault? inner (visited m) = none ∧
      ∃ label, label.kind ∈ NodeKind.containers ∧
        outline (markup m) = .node label (branches (visited m)) := by
  cases m with
  | block => exact absurd h (by simp [ruleFault?])
  | table => exact absurd rfl htable
  | formatting kind contents extra =>
    have hcode : ¬ kind.isEntityCode = true := by simpa [Markup.isEntity] using hentity
    rw [ruleFault?, formattingFault?, if_neg hcode, Option.or_eq_none_iff] at h
    rw [outline, if_neg hcode, ← branches_visited]
    exact ⟨h.2, _, (kind_codeLabel kind contents extra).1, rfl⟩
  | named contents _ name => exact ⟨h, _, (kind_nameLabel name).1, rfl⟩
  | para | code | comment | heading | item =>
    exact ⟨h, _, by simp [Label.kind, NodeKind.containers], rfl⟩

/-- The tree of an accepted value is plain. -/
theorem plain_outline {digits : Option ℕ} {levels : ℕ} {v : Value} (h : v.fault? digits levels = none) :
    PlainContent v.outline := by
  induction levels generalizing v with
  | zero =>
    cases v with
    | str s => exact plain_leaf (Or.inl rfl)
    | _ => exact absurd h (by simp [fault?])
  | succ levels ih =>
    cases v with
    | str s => exact plain_leaf (Or.inl rfl)
    | markup m =>
      rw [fault?] at h
      by_cases htable : m.markupClass = .table
      · cases m with
        | table contents config headers caption =>
          obtain ⟨⟨hs, hhs, hheaders⟩, rs, hrs, hrows⟩ :=
            (tableFault?_eq_none_iff headers contents).mp h
          rw [outline_table hhs hrs]
          refine plain_table ?_ ?_
          · exact List.forall_mem_map.mpr fun x hx => ih (hheaders x hx)
          · refine List.forall_mem_map.mpr fun r hr => ?_
            obtain ⟨cs, hcs, hcells⟩ := hrows r hr
            rw [elements_eq hcs]
            exact List.forall_mem_map.mpr fun x hx => ih (hcells x hx)
        | _ => exact absurd htable (by simp [Markup.markupClass])
      cases hentity : m.isEntity with
      | true =>
        obtain ⟨contents, houtline⟩ := outline_entity hentity
        rw [houtline]
        exact plain_leaf (Or.inr rfl)
      | false =>
        obtain ⟨hparts, label, hlabel, houtline⟩ := outline_container h htable hentity
        obtain ⟨xs, hxs, hall⟩ := (partsFault?_eq_none_iff (visited m)).mp hparts
        rw [houtline, branches_eq, elements_eq hxs]
        exact plain_container hlabel (List.forall_mem_map.mpr fun x hx => ih (hall x hx))
    | _ => exact absurd h (by simp [fault?])

end Value

/-! Grouping. -/

section Grouping

variable {merge : Bool} {label : Label Value} {ts : List (OrderedTree (Label Value))}

abbrev grouped (merge : Bool) (label : Label Value) (ts : List (OrderedTree (Label Value))) :
    List (OrderedTree (Label Value)) :=
  regroup (wrappable Label.kind label) .list merge (ts.map (normalize Label.kind .list merge))

/-- A list made for items. -/
theorem fits_list {run : List (OrderedTree (Label Value))} (hne : run ≠ [])
    (hitems : ∀ u ∈ run, u.root.kind = .item) (hlength : merge = false → run.length = 1) :
    Fits merge (.node .list run) where
  holds := ⟨by simpa [rootKinds] using hne, by simpa [rootKinds] using hitems,
    by simpa [rootKinds] using hlength⟩
  belongs u hu := by
    rw [hitems u hu, root_node]
    simp [NodeKind.BelongsTo, NodeKind.owners?, Label.kind]
  apart _ := by
    rw [children_node]
    refine List.Pairwise.isChain (List.pairwise_of_forall_mem_list fun u hu v _ => ?_)
    simp [hitems u hu]

theorem fits_grouped (h : Plain (.node label ts)) (hts : ∀ t ∈ ts, t.root.kind ≠ .list) :
    Fits merge (.node label (grouped merge label ts)) := by
  have hkept : ∀ {u}, u ∈ ts.map (normalize Label.kind .list merge) →
      ∃ t ∈ ts, u.root = t.root := by
    intro u hu
    obtain ⟨t, ht, rfl⟩ := List.mem_map.mp hu
    exact ⟨t, ht, root_normalize ..⟩
  refine ⟨?_, fun u hu => ?_, ?_⟩
  · by_cases hitem : .item ∈ rootKinds ts
    · refine (h.holds merge).of_item_mem h.ne_list hitem fun hlength => ?_
      obtain ⟨t, rfl⟩ := List.length_eq_one_iff.mp (by simpa [rootKinds] using hlength)
      simp [rootKinds, grouped, regroup_singleton]
    · have hstay : grouped merge label ts = ts.map (normalize Label.kind .list merge) := by
        refine regroup_of_not fun u hu => ?_
        obtain ⟨t, ht, hroot⟩ := hkept hu
        have hne : t.root.kind ≠ .item := fun he => hitem (he ▸ List.mem_map_of_mem ht)
        simp [wrappable, hroot, hne]
      have hkinds : rootKinds (ts.map (normalize Label.kind .list merge)) = rootKinds ts := by
        simp [rootKinds]
      rw [hstay, root_node, children_node, hkinds]
      exact h.holds merge
  · rcases mem_regroup hu with ⟨hmem, hnot⟩ | ⟨run, rfl, -⟩
    · obtain ⟨t, ht, hroot⟩ := hkept hmem
      have hlabel : label.kind ≠ .list := h.ne_list
      have hne : t.root.kind ≠ .item := by simpa [wrappable, hlabel, hroot] using hnot
      exact hroot ▸ (h.belongs t ht).resolve_left hne
    · simp [NodeKind.BelongsTo, NodeKind.owners?, Label.kind]
  · rintro rfl
    refine isChain_regroup fun u hu _ => ?_
    obtain ⟨t, ht, hroot⟩ := hkept hu
    exact hroot ▸ hts t ht

/-- Grouping makes a plain tree fit at all its places. -/
theorem fits_normalize {t : OrderedTree (Label Value)} (h : ∀ u ∈ t.subtrees, Plain u) :
    ∀ u ∈ (normalize Label.kind .list merge t).subtrees, Fits merge u := by
  induction t using induction with
  | h label ts ih =>
    rw [forall_subtrees_node] at h
    rw [normalize_node, forall_subtrees_node]
    have hbelow : ∀ u ∈ ts.map (normalize Label.kind .list merge), ∀ x ∈ u.subtrees,
        Fits merge x := List.forall_mem_map.mpr fun t ht => ih t ht (h.2 t ht)
    refine ⟨fits_grouped h.1 fun t ht => (h.2 t ht t t.self_mem_subtrees).ne_list, fun u hu => ?_⟩
    rcases mem_regroup hu with ⟨hmem, -⟩ | ⟨run, rfl, hne, hrun, hlength⟩
    · exact hbelow u hmem
    · rw [forall_subtrees_node]
      have hitems : ∀ x ∈ run, x.root.kind = .item := by
        intro x hx
        have hitem := (hrun x hx).2
        simp only [wrappable, decide_eq_true_eq] at hitem
        exact hitem.2
      exact ⟨fits_list hne hitems hlength, fun x hx => hbelow x (hrun x hx).1⟩

/-- The finished tree of an accepted value fits at all its places, and its root is free. -/
theorem fits_finished {digits : Option ℕ} {levels : ℕ} {v : Value}
    (h : v.fault? digits levels = none) (merge : Bool) :
    (v.finished merge).root.kind.owners? = none ∧
      ∀ u ∈ (v.finished merge).subtrees, Fits merge u := by
  have hplain := Value.plain_outline h
  have hfits := @fits_normalize merge _ hplain.plain
  rw [Value.finished, normalize_wrappedItem, wrappedItem, root_normalize]
  split
  · rename_i hitem
    rw [forall_subtrees_node]
    refine ⟨rfl, fits_list (by simp) (by simpa using hitem) (by simp), by simpa using hfits⟩
  · rename_i hitem
    rw [root_normalize]
    exact ⟨(hplain.isContent.resolve_left hitem).1, hfits⟩

end Grouping

end DocTree
