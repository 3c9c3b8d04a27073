import DocTree.Proofs.Transcript

/-!
The log of a build. A build that succeeds logs the lines of its value, a line for the root if that has
been wrapped, the number of lists made, and the end of the build; one that fails logs what its
conversion has logged before the first fault and nothing more. What is said of lists and tables is true
of the tree that the build gives.
-/
namespace DocTree

open OrderedTree

variable {digits : Option ℕ} {levels : ℕ}

def Workspace.log (w : Workspace) (elapsed : String) : List (String × String) :=
  w.trace.toList.map fun e => (e.logger, e.message elapsed)

def converterLog (elapsed : String) (ls : List Event) : List (String × String) :=
  ls.map fun e => ("podtree.converter", e.message elapsed)

theorem Workspace.log_eq {w w' : Workspace} {ls : List Event}
    (h : w'.trace.toList = w.trace.toList ++ ls) (elapsed : String) :
    w'.log elapsed = w.log elapsed ++ ls.map fun e => (e.logger, e.message elapsed) := by
  rw [log, log, h, List.map_append]

/-! The lines of a value are all logged by the converter. -/

namespace Value

theorem logger_of_mem_opening {m : Markup Value} {e : Event} (h : e ∈ opening m) :
    e.logger = "podtree.converter" := by
  unfold opening at h
  split at h <;> simp_all [Event.logger]

theorem logger_of_mem_lines {v : Value} {e : Event} (h : e ∈ v.lines) :
    e.logger = "podtree.converter" := by
  induction v using parts_induction with
  | hmarkup m ih =>
    rw [lines_markup] at h
    simp only [List.mem_append, List.mem_flatMap] at h
    rcases h with ((h | ⟨x, hx, h⟩) | h) | h
    · exact logger_of_mem_opening h
    · exact ih x hx h
    · unfold sizing at h
      split at h
      · exact List.mem_singleton.mp h ▸ rfl
      · exact absurd h (by simp)
    · unfold closing at h
      split at h
      · exact absurd h (by simp)
      · exact List.mem_singleton.mp h ▸ rfl
  | hother v hv =>
    rw [lines_of_not_markup hv] at h
    exact absurd h (by simp)

theorem logger_of_failsAfter {v : Value} {c : ConversionError} {ls : List Event}
    (hv : v.FailsAfter digits c ls) {e : Event} (he : e ∈ ls) : e.logger = "podtree.converter" := by
  have hbefore : ∀ {before : List Conversion.Step},
      e ∈ before.flatMap Conversion.Step.lines → e.logger = "podtree.converter" := by
    intro before h
    obtain ⟨step, -, h⟩ := List.mem_flatMap.mp h
    cases step with
    | convert x => exact logger_of_mem_lines h
    | announce code => exact List.mem_singleton.mp h ▸ rfl
    | _ => exact absurd h (by simp [Conversion.Step.lines])
  induction hv with
  | noRule | noReport => exact absurd he (by simp)
  | step => exact hbefore he
  | inside _ _ _ ih =>
    rcases List.mem_append.mp he with he | he
    · exact hbefore he
    · exact ih he

end Value

theorem map_eq_converterLog {ls : List Event} (h : ∀ e ∈ ls, e.logger = "podtree.converter")
    (elapsed : String) :
    ls.map (fun e => (e.logger, e.message elapsed)) = converterLog elapsed ls :=
  List.map_congr_left fun e he => by rw [h e he]

section Accepted

variable {source : Value}

/-- What is left as it was converted has no lists; a wrapped root has one around it. -/
theorem countP_list_wrappedItem (h : source.fault? digits levels = none) :
    (wrappedItem source.outline).nodes.countP (·.kind = .list) =
      if source.isItemBlock then 1 else 0 := by
  have hplain := Value.plain_outline h
  have hnone : source.outline.nodes.countP (·.kind = .list) = 0 := by
    rw [← map_root_subtrees, List.countP_map, List.countP_eq_zero]
    exact fun u hu => by simpa using (hplain.plain u hu).ne_list
  rw [wrappedItem]
  simp only [Value.kind_outline_eq_item_iff]
  split
  · rw [nodes_node, List.flatMap_singleton, List.countP_cons_of_pos (by simp [Label.kind]), hnone]
  · exact hnone

/-- The wrapping of the root is logged just when the value is an item block. -/
theorem rootTrace_of_convert {w w₁ : Workspace} {converted : NodeId}
    (h : convert digits levels source w = .ok converted w₁) :
    (Building.rootTrace converted w₁).toList =
      w₁.trace.toList ++ if source.isItemBlock then [.rootWrapped] else [] := by
  obtain ⟨hrepresents, hnew⟩ := convert_represents h
  have hlt : converted.index < w₁.store.size :=
    (hnew converted (by simpa using (w₁.store.tree converted).root_mem_nodes)).2
  have hkind : w₁.store.kind converted = source.outline.root.kind := by
    rw [← hrepresents.map_label, root_map, Store.root_tree]
    rfl
  have hwrapped : (w₁.store.wrapRoot converted).2 ≠ converted ↔ source.isItemBlock = true := by
    rw [← Value.kind_outline_eq_item_iff, ← hkind, Store.wrapRoot]
    split
    · rename_i hitem
      exact iff_of_true (Store.ne_fresh hlt).symm hitem
    · rename_i hitem
      exact iff_of_false (fun h => h rfl) hitem
  unfold Building.rootTrace
  simp only [hwrapped]
  split <;> simp

/-- The trace of a build that succeeds, and what it says of lists and tables. -/
theorem build_traces (hsource : source.nesting ≤ levels) (haccepted : source.Accepted digits)
    (options : BuildOptions) (w : Workspace) :
    ∃ root w' made, build digits levels source options w = .ok root w' ∧
      w'.trace.toList = w.trace.toList ++ source.lines ++
        (if source.isItemBlock then [.rootWrapped] else []) ++
        [.listsCreated made, .buildCompleted] ∧
      (w'.store.tree root).nodes.countP (w'.store.kind · = .list) =
        made + (if source.isItemBlock then 1 else 0) ∧
      tableLines ((w'.store.tree root).map w'.store.label) =
        source.lines.filter Event.isOfTable := by
  obtain ⟨converted, w₁, hconvert, htrace⟩ := convert_logs_lines hsource w haccepted
  have hfault := (convert_eq_ok_iff digits levels source w).mp ⟨converted, w₁, hconvert⟩
  obtain ⟨s', made, hitems, -, hrepresents, hcount⟩ :=
    exists_wrapped_of_convert hconvert options.mergeAdjacentItems
  have hcheck := hrepresents.isTree.check_eq_ok
  rw [Store.root_tree] at hcheck
  refine ⟨_, _, made, build_of_check hconvert hitems hcheck options.checkInvariants, ?_, ?_, ?_⟩
  · simp [rootTrace_of_convert hconvert, htrace]
  · rw [hcount, countP_list_wrappedItem hfault]
  · rw [hrepresents.map_label, tableLines_finished]

end Accepted

/-- An item with a table of two cells, a code without a rule and an item. -/
def loggedItem : Value :=
  .markup (.item (.list [
    .markup (.table (.list [.list [.str "cell"]]) .null (.list [.str "head"]) .null),
    .markup (.formatting (.str "Z") (.list [.str "text"]) .null),
    .markup (.item (.list [.str "inner"]) .null (.int 2))]) .null (.int 1))

theorem loggedItem_accepted : loggedItem.Accepted (some 4300) := by
  have hdecides : loggedItem.Decides (some 4300) (loggedItem.fault? (some 4300) 2) :=
    Value.decides_fault? (by decide)
  exact hdecides.none_iff.mp rfl

theorem lines_loggedItem :
    loggedItem.lines = [.tableConverted 1 1, .converted .table .table, .unmappedCode "Z",
      .converted .item .item, .converted .item .item] := by
  have hshown : (Value.str "Z").display = "Z" := rfl
  have hitem : ∀ contents level : Value, Value.sizing (.item contents .null level) = [] :=
    fun _ _ => rfl
  have hcode : ∀ code contents : Value, Value.sizing (.formatting code contents .null) = [] :=
    fun _ _ => rfl
  simp [loggedItem, Value.lines_markup, Value.lines_of_not_markup, Value.parts, Value.visited,
    Value.opening, Value.closing, Value.sizing_table, Value.filledElements, Value.isTruthy,
    Value.elements, Value.elements?, Markup.markupClass, Markup.contents, Value.outline, Label.kind,
    hshown, hitem, hcode]

def codeBlock : Value := .markup (.code (.list [.str "x"]) .null)

/-- A paragraph with a code block and a number behind it. -/
def halfParagraph : Value := .markup (.para (.list [codeBlock, .int 7]) .null)

theorem lines_codeBlock : codeBlock.lines = [.converted .code .code] := by
  simp [codeBlock, Value.lines_markup, Value.lines_of_not_markup, Value.parts, Value.visited,
    Value.opening, Value.closing, Value.sizing, Value.elements, Value.elements?, Markup.markupClass,
    Markup.contents, Value.outline, Label.kind]

theorem halfParagraph_failsAfter :
    halfParagraph.FailsAfter (some 4300) (.unrecognized (.int 7)) [.converted .code .code] := by
  have hcode : codeBlock.Accepted (some 4300) := .block (by decide) rfl (by simp [Value.Accepted.text])
  have hsteps : Conversion.Step.ofMarkup (.para (.list [codeBlock, .int 7]) .null) =
      [.iterate (.list [codeBlock, .int 7]), .convert codeBlock] ++ .convert (.int 7) :: [] := rfl
  have hseven : (Value.int 7).digitsFault? (some 4300) = none := by decide
  have hfails := Value.FailsAfter.inside hsteps (by simp [Value.elements?, hcode])
    (.noRule id hseven)
  simpa [halfParagraph, Conversion.Step.lines, lines_codeBlock] using hfails

end DocTree
