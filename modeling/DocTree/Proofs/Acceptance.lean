import DocTree.Proofs.Making
import DocTree.Proofs.Outline

/-!
Which values can be converted. What a conversion fails on is a matter of the value alone: the rules are
gone through in order, and the first step that cannot be done decides, whatever state the conversion
starts from. So a value is accepted once and for all, and with it everything that is converted on the
way.
-/
namespace DocTree

namespace Value

section Faults

/-! What goes wrong first, by the steps of a rule; nothing if all of them can be done. -/

variable (digits : Option ℕ) (levels : ℕ)

def refusal (v : Value) : ConversionError :=
  (Conversion.writingFault? digits levels v).getD (.unrecognized v)

def elementsFault? (v : Value) : Option ConversionError :=
  if v.elements?.isSome then none else some (.notIterable v)

def lengthFault? (v : Value) : Option ConversionError :=
  if v.length?.isSome then none else some (.noLength v)

def linkFault? (contents extra : Value) : Option ConversionError :=
  if extra.isTruthy then
    match extra.atZero with
    | .found v => Conversion.writingFault? digits levels v
    | .missing => some .missingKey
    | .unindexable => some (.notIndexable extra)
  else contents.elementsFault?

/-- The target of a link is taken, and the name of an unknown code written out, before the contents are
converted. -/
def codeFault? (code contents extra : Value) : Option ConversionError :=
  match code with
  | .str "B" | .str "C" | .str "X" => none
  | .str "L" => linkFault? digits levels contents extra
  | _ => Conversion.writingFault? digits levels code

variable (inner : Value → Option ConversionError)

def partsFault? (v : Value) : Option ConversionError :=
  v.elementsFault?.or (v.elements.findSome? inner)

def filledFault? (v : Value) : Option ConversionError :=
  if v.isTruthy then partsFault? inner v else none

/-- The cells of the header come first, then those of the body, row by row, and then the lengths. -/
def tableFault? (headers rows : Value) : Option ConversionError :=
  (filledFault? inner headers).or
    ((filledFault? (partsFault? inner) rows).or (headers.lengthFault?.or rows.lengthFault?))

def formattingFault? (code contents extra : Value) : Option ConversionError :=
  if code.isEntityCode then none
  else (codeFault? digits levels code contents extra).or
    (partsFault? inner (visited (.formatting code contents extra)))

def ruleFault? (m : Markup Value) : Option ConversionError :=
  match m with
  | .block .. => some (refusal digits levels (.markup m))
  | .table contents _ headers _ => tableFault? inner headers contents
  | .formatting code contents extra => formattingFault? digits levels inner code contents extra
  | _ => partsFault? inner m.contents

end Faults

theorem formattingFault?_eq {digits : Option ℕ} {levels : ℕ} {inner : Value → Option ConversionError}
    {code : Value} (h : code ≠ .str "E") (contents extra : Value) :
    formattingFault? digits levels inner code contents extra =
      (codeFault? digits levels code contents extra).or
        (partsFault? inner (visited (.formatting code contents extra))) :=
  if_neg (by simp [isEntityCode_eq_false h])

/-- What goes wrong first when a value is converted with so many levels of markup left. -/
def fault? (digits : Option ℕ) : (levels : ℕ) → Value → Option ConversionError
  | _, .str _ => none
  | 0, .markup _ => some .nestingTooDeep
  | levels + 1, .markup m => ruleFault? digits (levels + 1) (fault? digits levels) m
  | levels, v => some (v.refusal digits levels)

end Value

namespace Conversion

open Workspace Value

/-- From every state the step ends in this way: it fails as said, or, if no failure is said, its result
has the property. -/
def Ends {α : Type} (x : Conversion α) (fault : Option ConversionError) (P : α → Prop) : Prop :=
  ∀ w, match x w with
    | .ok a _ => fault = none ∧ P a
    | .error e _ => fault = some e

section Ends

variable {α β : Type} {P : α → Prop} {Q : β → Prop} {fault fault' : Option ConversionError}

theorem Ends.pure {a : α} (h : P a) : Ends (pure a) none P := fun _ => ⟨rfl, h⟩

theorem Ends.throw (e : ConversionError) : Ends (throw e) (some e) P := fun _ => rfl

/-- The first failure decides. -/
theorem Ends.bind {x : Conversion α} {k : α → Conversion β} (hx : Ends x fault P)
    (hk : ∀ a, P a → Ends (k a) fault' Q) : Ends (x >>= k) (fault.or fault') Q := by
  intro w
  have hxw := hx w
  rw [bind_eq]
  cases h : x w with
  | error e w' =>
    rw [h] at hxw
    simp only
    rw [hxw, Option.some_or]
  | ok a w' =>
    rw [h] at hxw
    obtain ⟨rfl, ha⟩ := hxw
    exact hk a ha w'

/-- What cannot fail afterwards does not matter. -/
theorem Ends.before {x : Conversion α} {k : α → Conversion β} (hx : Ends x fault P)
    (hk : ∀ a, P a → Ends (k a) none Q) : Ends (x >>= k) fault Q := by
  have hbind := hx.bind hk
  rwa [Option.or_none] at hbind

theorem Ends.before_pure {x : Conversion α} (hx : Ends x fault P) (k : α → β) :
    Ends (x >>= fun a => Pure.pure (k a)) fault fun _ => True :=
  hx.before fun _ _ => .pure trivial

theorem Ends.onlyIf {x : Conversion Unit} (hx : Ends x fault fun _ => True) (condition : Bool) :
    Ends (Workspace.onlyIf condition x) (if condition then fault else none) fun _ => True := by
  cases condition with
  | false => exact .pure trivial
  | true => exact hx

theorem Ends.newNode (label : Label Value) : Ends (Workspace.newNode label) none fun _ => True :=
  fun _ => ⟨rfl, trivial⟩

theorem Ends.edit (change : Store → Store) : Ends (Workspace.edit change) none fun _ => True :=
  fun _ => ⟨rfl, trivial⟩

theorem Ends.record (event : Event) : Ends (Workspace.record event) none fun _ => True :=
  fun _ => ⟨rfl, trivial⟩

end Ends

theorem ends_elements (v : Value) :
    Ends (elements v) v.elementsFault? fun xs => xs = v.elements := by
  unfold elements elementsFault?
  cases h : v.elements? with
  | some xs => exact .pure (by simp [Value.elements, h])
  | none => exact .throw _

theorem ends_length (v : Value) : Ends (length v) v.lengthFault? fun _ => True := by
  unfold length lengthFault?
  cases v.length? with
  | some n => exact .pure trivial
  | none => exact .throw _

variable (digits : Option ℕ) (levels : ℕ)

theorem ends_display (v : Value) :
    Ends (display digits levels v) (writingFault? digits levels v) fun _ => True := by
  unfold display
  cases writingFault? digits levels v with
  | none => exact .pure trivial
  | some e => exact .throw e

theorem ends_linkTarget (contents extra : Value) :
    Ends (linkTarget digits levels contents extra) (linkFault? digits levels contents extra)
      fun _ => True := by
  unfold linkTarget linkFault?
  split
  · cases extra.atZero with
    | found v => exact ends_display digits levels v
    | missing => exact .throw _
    | unindexable => exact .throw _
  · exact (ends_elements contents).before_pure _

section Rules

variable {inner : Value → Conversion NodeId} {fault : Value → Option ConversionError}
  (hinner : ∀ v, Ends (inner v) (fault v) fun _ => True)

include hinner

theorem ends_appendEach (target : NodeId) (vs : List Value) :
    Ends (appendEach inner target vs) (vs.findSome? fault) fun _ => True := by
  induction vs with
  | nil => exact .pure trivial
  | cons v vs ih =>
    have hfind : (v :: vs).findSome? fault = (fault v).or (vs.findSome? fault) := by
      rw [List.findSome?_cons]
      cases fault v <;> rfl
    rw [hfind]
    exact (hinner v).bind fun child _ => (Ends.edit (·.append target child)).bind fun _ _ => ih

theorem ends_branch (label : Label Value) (contents : Value) :
    Ends (branch inner label contents) (partsFault? fault contents) fun _ => True := by
  have hparts : ∀ target : NodeId, Ends
      (do let parts ← elements contents; appendEach inner target parts; return target)
      (partsFault? fault contents) fun _ => True := fun target =>
    (ends_elements contents).bind fun xs hxs =>
      hxs ▸ (ends_appendEach hinner target xs).before_pure fun _ => target
  exact (Ends.newNode label).bind fun target _ => hparts target

theorem ends_cell (v : Value) : Ends (cell inner v) (fault v) fun _ => True :=
  (Ends.newNode .tableData).bind fun data _ => (hinner v).before fun child _ =>
    (Ends.edit (·.append data child)).before_pure fun _ => data

theorem ends_row (label : Label Value) (v : Value) :
    Ends (row inner label v) (partsFault? fault v) fun _ => True :=
  ends_branch (ends_cell hinner) label v

theorem ends_table (headers rows : Value) :
    Ends (table inner headers rows) (tableFault? fault headers rows) fun _ => True := by
  have hheader : ∀ target, Ends (row inner .tableHeader headers >>= appendTo target)
      (partsFault? fault headers) fun _ => True := fun target =>
    (ends_row hinner .tableHeader headers).before fun _ _ => .edit _
  have hbody : ∀ target, Ends (branch (row inner .tableBodyRow) .tableBody rows >>= appendTo target)
      (partsFault? (partsFault? fault) rows) fun _ => True := fun target =>
    (ends_branch (ends_row hinner .tableBodyRow) .tableBody rows).before fun _ _ => .edit _
  have hlengths : ∀ target : NodeId, Ends
      (do
        let headerCells ← length headers
        let bodyRows ← length rows
        record (.tableConverted headerCells bodyRows)
        return target) (headers.lengthFault?.or rows.lengthFault?) fun _ => True := fun target =>
    (ends_length headers).bind fun _ _ => (ends_length rows).before fun _ _ =>
      (Ends.record _).before_pure fun _ => target
  exact (Ends.newNode .table).bind fun target _ =>
    ((hheader target).onlyIf _).bind fun _ _ => ((hbody target).onlyIf _).bind fun _ _ =>
      hlengths target

theorem ends_formatting (code contents extra : Value) :
    Ends (formatting digits levels inner code contents extra)
      (formattingFault? digits levels fault code contents extra) fun _ => True := by
  unfold formatting
  split
  · rw [formattingFault?_eq (by simp)]
    exact ends_branch hinner _ contents
  · rw [formattingFault?_eq (by simp)]
    exact ends_branch hinner _ contents
  · exact .newNode _
  · rw [formattingFault?_eq (by simp)]
    exact (ends_linkTarget digits levels contents extra).bind fun _ _ => ends_branch hinner _ _
  · rw [formattingFault?_eq (by simp)]
    exact ends_branch hinner _ contents
  · rename_i hB hC hE hL hX
    have hdisplay : codeFault? digits levels code contents extra =
        writingFault? digits levels code := by
      unfold codeFault?
      split <;> simp_all
    rw [formattingFault?_eq hE, hdisplay, visited_formatting hL]
    exact (ends_display digits levels code).bind fun shown _ =>
      (Ends.record (.unmappedCode shown)).bind fun _ _ =>
        ends_branch hinner (sectionLabel code) contents

theorem ends_rule (m : Markup Value) :
    Ends (rule digits levels inner m) (ruleFault? digits levels fault m) fun _ => True := by
  cases m with
  | block => exact .throw _
  | named contents _ name => exact ends_branch hinner _ contents
  | para contents _ => exact ends_branch hinner _ contents
  | code contents _ => exact ends_branch hinner _ contents
  | comment contents _ => exact ends_branch hinner _ contents
  | heading contents _ level => exact ends_branch hinner _ contents
  | item contents _ level => exact ends_branch hinner _ contents
  | table contents _ headers _ => exact ends_table hinner headers contents
  | formatting code contents extra => exact ends_formatting digits levels hinner code contents extra

end Rules

theorem ends_recordConverted (c : MarkupClass) (n : NodeId) :
    Ends (recordConverted c n) none fun _ => True := by
  unfold recordConverted
  cases decide (c ≠ .formatting) with
  | false => exact .pure trivial
  | true => exact fun _ => ⟨rfl, trivial⟩

theorem ends_convert (v : Value) :
    Ends (convert digits levels v) (v.fault? digits levels) fun _ => True := by
  induction levels generalizing v with
  | zero =>
    cases v with
    | str s => exact .newNode _
    | _ => exact .throw _
  | succ levels ih =>
    cases v with
    | str s => exact .newNode _
    | markup m =>
      exact (ends_rule digits (levels + 1) ih m).before fun target _ =>
        (ends_recordConverted m.markupClass target).before_pure fun _ => target
    | _ => exact .throw _

end Conversion

section Convert

variable (digits : Option ℕ) (levels : ℕ) (v : Value) (w : Workspace)

theorem fault?_eq_of_convert :
    v.fault? digits levels = match convert digits levels v w with
      | .ok _ _ => none
      | .error e _ => some e := by
  have hends := Conversion.ends_convert digits levels v w
  cases h : convert digits levels v w with
  | ok n w' =>
    rw [h] at hends
    exact hends.1
  | error e w' =>
    rw [h] at hends
    exact hends

/-- Conversion succeeds from every state or from none. -/
theorem convert_eq_ok_iff :
    (∃ n w', convert digits levels v w = .ok n w') ↔ v.fault? digits levels = none := by
  rw [fault?_eq_of_convert digits levels v w]
  cases convert digits levels v w <;> simp

/-- Conversion fails in one way from every state. -/
theorem convert_eq_error_iff (e : ConversionError) :
    (∃ w', convert digits levels v w = .error e w') ↔ v.fault? digits levels = some e := by
  rw [fault?_eq_of_convert digits levels v w]
  cases convert digits levels v w <;> simp

end Convert

namespace Value

section Inversion

variable {inner inner' : Value → Option ConversionError}

theorem elementsFault?_eq_none_iff (v : Value) :
    v.elementsFault? = none ↔ ∃ xs, v.elements? = some xs := by
  unfold elementsFault?
  cases v.elements? <;> simp

/-- All elements of what is accepted are accepted one level further down. -/
theorem partsFault?_eq_none_iff (v : Value) :
    partsFault? inner v = none ↔
      ∃ xs, v.elements? = some xs ∧ ∀ x ∈ xs, inner x = none := by
  rw [partsFault?, Option.or_eq_none_iff, elementsFault?_eq_none_iff, List.findSome?_eq_none_iff]
  constructor
  · rintro ⟨⟨xs, hxs⟩, h⟩
    rw [elements_eq hxs] at h
    exact ⟨xs, hxs, h⟩
  · rintro ⟨xs, hxs, h⟩
    exact ⟨⟨xs, hxs⟩, by rwa [elements_eq hxs]⟩

theorem lengthFault?_eq_none_iff (v : Value) : v.lengthFault? = none ↔ v.length?.isSome := by
  unfold lengthFault?
  cases v.length? <;> simp

/-- A value that counts as empty is not iterated. It has no elements if it has a length. -/
theorem filledFault?_eq_none_iff (v : Value) :
    filledFault? inner v = none ∧ v.lengthFault? = none ↔
      ∃ xs, (v.elements? = some xs ∧ v.length?.isSome) ∧ ∀ x ∈ xs, inner x = none := by
  rw [lengthFault?_eq_none_iff, filledFault?]
  constructor
  · rintro ⟨hparts, hlength⟩
    obtain ⟨n, hn⟩ := Option.isSome_iff_exists.mp hlength
    obtain ⟨xs, hxs, -, htruthy⟩ := exists_elements_of_length? hn
    refine ⟨xs, ⟨hxs, hlength⟩, fun x hx => ?_⟩
    rw [if_pos (htruthy.mpr (List.ne_nil_of_mem hx)), partsFault?_eq_none_iff] at hparts
    obtain ⟨ys, hys, h⟩ := hparts
    exact h x (Option.some.inj (hxs.symm.trans hys) ▸ hx)
  · rintro ⟨xs, ⟨hxs, hlength⟩, h⟩
    refine ⟨?_, hlength⟩
    split
    · exact (partsFault?_eq_none_iff v).mpr ⟨xs, hxs, h⟩
    · rfl

/-- A table is accepted when its headers and its rows can be iterated and have a length, and all its
cells are accepted. -/
theorem tableFault?_eq_none_iff (headers rows : Value) :
    tableFault? inner headers rows = none ↔
      (∃ hs, (headers.elements? = some hs ∧ headers.length?.isSome) ∧ ∀ h ∈ hs, inner h = none) ∧
        ∃ rs, (rows.elements? = some rs ∧ rows.length?.isSome) ∧
          ∀ r ∈ rs, ∃ cs, r.elements? = some cs ∧ ∀ c ∈ cs, inner c = none := by
  have hheaders := @filledFault?_eq_none_iff inner headers
  have hrows := @filledFault?_eq_none_iff (partsFault? inner) rows
  simp only [partsFault?_eq_none_iff] at hrows
  rw [← hheaders, ← hrows]
  simp only [tableFault?, Option.or_eq_none_iff]
  tauto

section Mono

variable {digits : Option ℕ} {levels levels' : ℕ} (hlevels : levels ≤ levels')

include hlevels

theorem writingFault?_mono {v : Value} (h : Conversion.writingFault? digits levels v = none) :
    Conversion.writingFault? digits levels' v = none := by
  unfold Conversion.writingFault? at h ⊢
  split at h
  · rwa [if_pos (by omega)]
  · exact absurd h (by simp)

theorem linkFault?_mono {contents extra : Value} (h : linkFault? digits levels contents extra = none) :
    linkFault? digits levels' contents extra = none := by
  unfold linkFault? at h ⊢
  split
  · rename_i hextra
    rw [if_pos hextra] at h
    cases hzero : extra.atZero with
    | found v =>
      rw [hzero] at h
      exact writingFault?_mono hlevels h
    | _ => exact absurd h (by simp [hzero])
  · rename_i hextra
    rwa [if_neg hextra] at h

theorem codeFault?_mono {code contents extra : Value}
    (h : codeFault? digits levels code contents extra = none) :
    codeFault? digits levels' code contents extra = none := by
  unfold codeFault? at h ⊢
  split <;> simp only at h
  · rfl
  · rfl
  · rfl
  · exact linkFault?_mono hlevels h
  · exact writingFault?_mono hlevels h

/-- With more accepted one level down, more is accepted. -/
theorem ruleFault?_mono (h : ∀ v, inner v = none → inner' v = none) {m : Markup Value}
    (hm : ruleFault? digits levels inner m = none) : ruleFault? digits levels' inner' m = none := by
  have hparts : ∀ v, partsFault? inner v = none → partsFault? inner' v = none := by
    intro v hv
    obtain ⟨xs, hxs, hall⟩ := (partsFault?_eq_none_iff v).mp hv
    exact (partsFault?_eq_none_iff v).mpr ⟨xs, hxs, fun x hx => h x (hall x hx)⟩
  cases m with
  | block => exact absurd hm (by simp [ruleFault?])
  | table contents config headers caption =>
    obtain ⟨⟨hs, hhs, hheaders⟩, rs, hrs, hrows⟩ := (tableFault?_eq_none_iff headers contents).mp hm
    refine (tableFault?_eq_none_iff headers contents).mpr
      ⟨⟨hs, hhs, fun x hx => h x (hheaders x hx)⟩, rs, hrs, fun r hr => ?_⟩
    obtain ⟨cs, hcs, hcells⟩ := hrows r hr
    exact ⟨cs, hcs, fun c hc => h c (hcells c hc)⟩
  | formatting code contents extra =>
    simp only [ruleFault?, formattingFault?] at hm ⊢
    split
    · rfl
    · rename_i hcode
      rw [if_neg hcode, Option.or_eq_none_iff] at hm
      exact Option.or_eq_none_iff.mpr ⟨codeFault?_mono hlevels hm.1, hparts _ hm.2⟩
  | _ => exact hparts _ hm

end Mono

end Inversion

theorem fault?_succ {digits : Option ℕ} {levels : ℕ} {v : Value}
    (h : v.fault? digits levels = none) : v.fault? digits (levels + 1) = none := by
  induction levels generalizing v with
  | zero =>
    cases v with
    | str s => rfl
    | _ => exact absurd h (by simp [fault?])
  | succ levels ih =>
    cases v with
    | str s => rfl
    | markup m => exact ruleFault?_mono (Nat.le_succ _) (fun _ => ih) h
    | _ => exact absurd h (by simp [fault?])

end Value

end DocTree
