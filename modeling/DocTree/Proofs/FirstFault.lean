import DocTree.Proofs.Acceptance

/-!
Acceptance and refusal said without the run of a conversion. The accepted values are a least set: texts
are in it, and so is markup whose contents can be iterated and hold accepted values only. What is done
with a piece of markup is a list of steps; a value that is not accepted has a first fault, found by going
down into the first of its steps that cannot be done. Within the limit of nesting a conversion succeeds
on just the accepted values, and it fails on any other with just the first fault. A bound on the digits
of an integer matters where a value is written out: the target of a link, an unknown code, and a value
without a rule.
-/
namespace DocTree

open Value

variable {digits : Option ℕ}

namespace Value

/-- The values that can be converted. In a formatting code those elements count that are still there when
the contents are converted. -/
inductive Accepted (digits : Option ℕ) : Value → Prop
  | text (s : String) : Accepted digits (.str s)
  | block {m : Markup Value} {xs : List Value}
      (hclass : m.markupClass ∈ [MarkupClass.para, .code, .comment, .named, .heading, .item])
      (hxs : m.contents.elements? = some xs) (hall : ∀ x ∈ xs, Accepted digits x) :
      Accepted digits (.markup m)
  | entity (contents extra : Value) :
      Accepted digits (.markup (.formatting (.str "E") contents extra))
  | span {code contents extra : Value} {xs : List Value} (hcode : code ≠ .str "E")
      (hshown : code.digitsFault? digits = none)
      (hlink : code = .str "L" → extra.isTruthy = false ∨
        ∃ target, extra.atZero = .found target ∧ target.digitsFault? digits = none)
      (hxs : (visited (.formatting code contents extra)).elements? = some xs)
      (hall : ∀ x ∈ xs, Accepted digits x) :
      Accepted digits (.markup (.formatting code contents extra))
  | table {contents config headers caption : Value} {hs rs : List Value}
      (hhs : headers.elements? = some hs) (hrs : contents.elements? = some rs)
      (hsized : headers.length?.isSome ∧ contents.length?.isSome)
      (hheaders : ∀ h ∈ hs, Accepted digits h) (hrows : ∀ r ∈ rs, r.elements?.isSome)
      (hcells : ∀ r ∈ rs, ∀ c ∈ r.elements, Accepted digits c) :
      Accepted digits (.markup (.table contents config headers caption))

def HasRule : Value → Prop
  | str _ => True
  | markup m => m.markupClass ≠ .block
  | _ => False

end Value

namespace Conversion

inductive Step where
  | convert (v : Value)
  /-- Writes an unknown code out and logs it. -/
  | announce (code : Value)
  | iterate (v : Value)
  /-- Takes the first of the extra data and writes it out. -/
  | takeFirst (v : Value)
  | measure (v : Value)

namespace Step

/-- Iterates a value and takes these steps for each element that is met. -/
def each (steps : Value → List Step) (v : Value) : List Step := iterate v :: v.elements.flatMap steps

def visit : Value → List Step := each fun x => [convert x]

/-- The codes without a rule of their own are announced. -/
def announced : Value → List Step
  | .str "B" | .str "C" | .str "X" => []
  | code => [announce code]

/-- The steps of a piece of markup, in the order in which they are taken. The target of a link comes
before its contents; the lengths of a table are taken after all cells have been converted. -/
def ofMarkup : Markup Value → List Step
  | .block .. => []
  | .table contents _ headers _ =>
    (if headers.isTruthy then visit headers else []) ++
      ((if contents.isTruthy then each visit contents else []) ++ [measure headers, measure contents])
  | .formatting (.str "E") _ _ => []
  | .formatting (.str "L") contents extra =>
    (if extra.isTruthy then takeFirst extra else iterate contents) ::
      visit (visited (.formatting (.str "L") contents extra))
  | .formatting code contents _ => announced code ++ visit contents
  | m => visit m.contents

def Done (digits : Option ℕ) : Step → Prop
  | convert v => v.Accepted digits
  | announce code => code.digitsFault? digits = none
  | iterate v => v.elements?.isSome
  | takeFirst v => ∃ first, v.atZero = .found first ∧ first.digitsFault? digits = none
  | measure v => v.length?.isSome

@[simp] theorem done_convert {v : Value} : (convert v).Done digits ↔ v.Accepted digits := .rfl

@[simp] theorem done_announce {code : Value} :
    (announce code).Done digits ↔ code.digitsFault? digits = none := .rfl

@[simp] theorem done_iterate {v : Value} : (iterate v).Done digits ↔ v.elements?.isSome := .rfl

@[simp] theorem done_takeFirst {v : Value} : (takeFirst v).Done digits ↔
    ∃ first, v.atZero = .found first ∧ first.digitsFault? digits = none := .rfl

@[simp] theorem done_measure {v : Value} : (measure v).Done digits ↔ v.length?.isSome := .rfl

/-- What goes wrong in a step that converts no value. -/
def error? (digits : Option ℕ) : Step → Option ConversionError
  | convert _ => none
  | announce code => code.digitsFault? digits
  | iterate v => v.elementsFault?
  | takeFirst v =>
    match v.atZero with
    | .found first => first.digitsFault? digits
    | .missing => some .missingKey
    | .unindexable => some (.notIndexable v)
  | measure v => v.lengthFault?

end Step

end Conversion

open Conversion

/-- The first thing that goes wrong with a value: there is no rule for it, or all steps in front of one
can be done and that one fails, by itself or by the first fault of the value that it converts. -/
inductive Value.FirstFault (digits : Option ℕ) : Value → ConversionError → Prop
  | noRule {v : Value} (h : ¬ v.HasRule) (hshown : v.digitsFault? digits = none) :
      FirstFault digits v (.unrecognized v)
  /-- The report that there is no rule shows the value. -/
  | noReport {v : Value} {e : ConversionError} (h : ¬ v.HasRule)
      (he : v.digitsFault? digits = some e) : FirstFault digits v e
  | step {m : Markup Value} {before after : List Step} {step : Step} {e : ConversionError}
      (hsteps : Step.ofMarkup m = before ++ step :: after) (hbefore : ∀ s ∈ before, s.Done digits)
      (he : step.error? digits = some e) : FirstFault digits (.markup m) e
  | inside {m : Markup Value} {before after : List Step} {v : Value} {e : ConversionError}
      (hsteps : Step.ofMarkup m = before ++ .convert v :: after)
      (hbefore : ∀ s ∈ before, s.Done digits) (hv : FirstFault digits v e) :
      FirstFault digits (.markup m) e

namespace Value

/-! Which values are accepted, by their form. -/

theorem accepted_block_iff {m : Markup Value}
    (hclass : m.markupClass ∈ [MarkupClass.para, .code, .comment, .named, .heading, .item]) :
    (markup m).Accepted digits ↔
      ∃ xs, m.contents.elements? = some xs ∧ ∀ x ∈ xs, x.Accepted digits := by
  constructor
  · intro h
    cases h with
    | block _ hxs hall => exact ⟨_, hxs, hall⟩
    | _ => exact absurd hclass (by simp [Markup.markupClass])
  · rintro ⟨xs, hxs, hall⟩
    exact .block hclass hxs hall

theorem accepted_formatting_iff {code contents extra : Value} (hcode : code ≠ .str "E") :
    (markup (.formatting code contents extra)).Accepted digits ↔
      code.digitsFault? digits = none ∧
        (code = .str "L" → extra.isTruthy = false ∨
          ∃ target, extra.atZero = .found target ∧ target.digitsFault? digits = none) ∧
        ∃ xs, (visited (.formatting code contents extra)).elements? = some xs ∧
          ∀ x ∈ xs, x.Accepted digits := by
  constructor
  · intro h
    cases h with
    | block hclass => exact absurd hclass (by simp [Markup.markupClass])
    | entity => exact absurd rfl hcode
    | span _ hshown hlink hxs hall => exact ⟨hshown, hlink, _, hxs, hall⟩
  · rintro ⟨hshown, hlink, xs, hxs, hall⟩
    exact .span hcode hshown hlink hxs hall

theorem accepted_table_iff {contents config headers caption : Value} :
    (markup (.table contents config headers caption)).Accepted digits ↔
      (∃ hs, (headers.elements? = some hs ∧ headers.length?.isSome) ∧ ∀ h ∈ hs, h.Accepted digits) ∧
        ∃ rs, (contents.elements? = some rs ∧ contents.length?.isSome) ∧
          ∀ r ∈ rs, ∃ cs, r.elements? = some cs ∧ ∀ c ∈ cs, c.Accepted digits := by
  constructor
  · intro h
    cases h with
    | block hclass => exact absurd hclass (by simp [Markup.markupClass])
    | table hhs hrs hsized hheaders hrows hcells =>
      refine ⟨⟨_, ⟨hhs, hsized.1⟩, hheaders⟩, _, ⟨hrs, hsized.2⟩, fun r hr => ?_⟩
      obtain ⟨cs, hcs⟩ := Option.isSome_iff_exists.mp (hrows r hr)
      exact ⟨cs, hcs, elements_eq hcs ▸ hcells r hr⟩
  · rintro ⟨⟨hs, ⟨hhs, hheadersSized⟩, hheaders⟩, rs, ⟨hrs, hrowsSized⟩, hrows⟩
    refine .table hhs hrs ⟨hheadersSized, hrowsSized⟩ hheaders (fun r hr => ?_) fun r hr => ?_
    · obtain ⟨cs, hcs, -⟩ := hrows r hr
      exact Option.isSome_iff_exists.mpr ⟨cs, hcs⟩
    · obtain ⟨cs, hcs, hcells⟩ := hrows r hr
      rwa [elements_eq hcs]

/-! What stands inside a value is nested no deeper than the value. -/

theorem nesting_le_nestingAll {x : Value} {xs : List Value} (hx : x ∈ xs) :
    x.nesting ≤ nestingAll xs := by
  induction xs with
  | nil => exact absurd hx (by simp)
  | cons y ys ih =>
    rw [nestingAll]
    rcases List.mem_cons.mp hx with rfl | hx
    · exact Nat.le_max_left ..
    · exact Nat.le_trans (ih hx) (Nat.le_max_right ..)

theorem nesting_le_nestingEntries {entry : Value × Value} {entries : List (Value × Value)}
    (h : entry ∈ entries) :
    entry.1.nesting ≤ nestingEntries entries ∧ entry.2.nesting ≤ nestingEntries entries := by
  induction entries with
  | nil => exact absurd h (by simp)
  | cons e es ih =>
    obtain ⟨k, v⟩ := e
    rw [nestingEntries]
    rcases List.mem_cons.mp h with rfl | h
    · simp only
      omega
    · have hle := ih h
      omega

theorem nesting_le_of_mem_elements {x v : Value} (hx : x ∈ v.elements) : x.nesting ≤ v.nesting := by
  cases v with
  | list xs | tuple xs => exact nesting_le_nestingAll hx
  | dict entries =>
    obtain ⟨entry, hentry, rfl⟩ := List.mem_map.mp hx
    exact (nesting_le_nestingEntries hentry).1
  | str s =>
    obtain ⟨c, rfl⟩ := exists_of_mem_elements_str hx
    simp [nesting]
  | bytes bs =>
    obtain ⟨n, rfl⟩ := exists_of_mem_elements_bytes hx
    simp [nesting]
  | object o =>
    obtain ⟨_, _, _, _, iteration, _, first⟩ := o
    have hiteration : x.nesting ≤ nestingIteration iteration := by
      cases iteration with
      | refused => exact absurd hx (by simp [elements, elements?, Iteration.elements?])
      | sized xs | unsized xs | once xs => exact nesting_le_nestingAll hx
    rw [nesting]
    omega
  | _ => exact absurd hx (by simp [elements, elements?])

theorem nesting_visited_le (m : Markup Value) : (visited m).nesting ≤ m.contents.nesting := by
  have hspent : ∀ v : Value, v.spent.nesting ≤ v.nesting := by
    intro v
    cases v with
    | object o =>
      obtain ⟨_, _, _, _, iteration, _, first⟩ := o
      cases iteration with
      | once xs =>
        simp only [spent, Iteration.spent, nesting, nestingIteration, nestingAll]
        omega
      | _ => exact Nat.le_refl _
    | _ => exact Nat.le_refl _
  unfold visited
  split
  · split
    · exact Nat.le_refl _
    · exact hspent _
  · exact Nat.le_refl _

theorem nesting_le_of_atZero {x v : Value} (hx : v.atZero = .found x) : x.nesting ≤ v.nesting := by
  have hhead : ∀ {xs : List Value}, v.elements = xs → xs.head?.elim .missing .found = Indexed.found x →
      x.nesting ≤ v.nesting := by
    intro xs hxs hfound
    refine nesting_le_of_mem_elements ?_
    cases xs with
    | nil => exact absurd hfound (by simp)
    | cons y ys =>
      obtain rfl := Indexed.found.inj hfound
      exact hxs ▸ List.mem_cons_self ..
  cases v with
  | dict entries =>
    rw [atZero, lookup?] at hx
    cases hfind : entries.find? fun entry => entry.1.sameKey (int 0) with
    | none => simp [hfind] at hx
    | some entry =>
      rw [hfind] at hx
      obtain rfl := Indexed.found.inj hx
      exact (nesting_le_nestingEntries (List.mem_of_find?_eq_some hfind)).2
  | list | tuple | str | bytes => exact hhead rfl hx
  | object o =>
    obtain ⟨_, _, _, _, iteration, _, first⟩ := o
    obtain rfl : first = .found x := hx
    rw [nesting, nestingIndexed]
    omega
  | _ => exact absurd hx (by simp [atZero, elements?])

/-- Only a bound on digits is left to keep a value of so little nesting from being written out. -/
theorem writingFault?_eq {levels : ℕ} {v : Value} (h : v.nesting ≤ levels) :
    writingFault? digits levels v = v.digitsFault? digits := if_pos h

end Value

namespace Conversion.Step

theorem nesting_lt_of_convert_mem {m : Markup Value} {v : Value} (hv : convert v ∈ ofMarkup m) :
    v.nesting < (markup m).nesting := by
  have heach : ∀ {steps : Value → List Step} {u : Value},
      (∀ x, convert v ∈ steps x → v.nesting ≤ x.nesting) → convert v ∈ each steps u →
        v.nesting ≤ u.nesting := by
    intro steps u hsteps hu
    simp only [each, List.mem_cons, reduceCtorEq, List.mem_flatMap, false_or] at hu
    obtain ⟨x, hx, hv⟩ := hu
    exact Nat.le_trans (hsteps x hv) (nesting_le_of_mem_elements hx)
  have hvisit : ∀ u, convert v ∈ visit u → v.nesting ≤ u.nesting := fun u =>
    heach fun x hx => by
      rw [List.mem_singleton, convert.injEq] at hx
      exact Nat.le_of_eq (congrArg nesting hx)
  have hcontents : m.contents.nesting < (markup m).nesting := by
    cases m <;> simp only [Markup.contents, nesting] <;> omega
  unfold ofMarkup at hv
  split at hv
  · exact absurd hv (by simp)
  · rename_i contents config headers caption
    have hheaders : headers.nesting < (markup (.table contents config headers caption)).nesting := by
      simp only [nesting]
      omega
    simp only [List.mem_append, List.mem_cons, reduceCtorEq, List.not_mem_nil, or_false] at hv
    rcases hv with hv | hv
    · split at hv
      · exact Nat.lt_of_le_of_lt (hvisit headers hv) hheaders
      · exact absurd hv (by simp)
    · split at hv
      · exact Nat.lt_of_le_of_lt (heach hvisit hv) hcontents
      · exact absurd hv (by simp)
  · exact absurd hv (by simp)
  · rcases List.mem_cons.mp hv with hv | hv
    · split at hv <;> exact absurd hv (by simp)
    · exact Nat.lt_of_le_of_lt (Nat.le_trans (hvisit _ hv) (nesting_visited_le _)) hcontents
  · rcases List.mem_append.mp hv with hv | hv
    · unfold announced at hv
      split at hv <;> exact absurd hv (by simp)
    · exact Nat.lt_of_le_of_lt (hvisit _ hv) hcontents
  · exact Nat.lt_of_le_of_lt (hvisit _ hv) hcontents

/-! Markup with a rule is accepted when all its steps can be done. -/

theorem forall_each {steps : Value → List Step} (v : Value) :
    (∀ s ∈ each steps v, s.Done digits) ↔
      ∃ xs, v.elements? = some xs ∧ ∀ x ∈ xs, ∀ s ∈ steps x, s.Done digits := by
  simp only [each, List.forall_mem_cons, done_iterate, Option.isSome_iff_exists, List.mem_flatMap]
  constructor
  · rintro ⟨⟨xs, hxs⟩, hall⟩
    exact ⟨xs, hxs, fun x hx s hs => hall s ⟨x, by rwa [elements_eq hxs], hs⟩⟩
  · rintro ⟨xs, hxs, hall⟩
    refine ⟨⟨xs, hxs⟩, ?_⟩
    rintro s ⟨x, hx, hs⟩
    rw [elements_eq hxs] at hx
    exact hall x hx s hs

theorem forall_visit (v : Value) :
    (∀ s ∈ visit v, s.Done digits) ↔ ∃ xs, v.elements? = some xs ∧ ∀ x ∈ xs, x.Accepted digits := by
  simp [visit, forall_each]

/-- A value that counts as empty is not iterated. It has no elements if it has a length. -/
theorem forall_each_of_truthy {steps : Value → List Step} (v : Value) :
    ((∀ s ∈ if v.isTruthy then each steps v else [], s.Done digits) ∧ (measure v).Done digits) ↔
      ∃ xs, (v.elements? = some xs ∧ v.length?.isSome) ∧ ∀ x ∈ xs, ∀ s ∈ steps x, s.Done digits := by
  rw [done_measure]
  constructor
  · rintro ⟨hall, hlength⟩
    obtain ⟨n, hn⟩ := Option.isSome_iff_exists.mp hlength
    obtain ⟨xs, hxs, -, htruthy⟩ := exists_elements_of_length? hn
    refine ⟨xs, ⟨hxs, hlength⟩, fun x hx => ?_⟩
    rw [if_pos (htruthy.mpr (List.ne_nil_of_mem hx)), forall_each] at hall
    obtain ⟨ys, hys, hall⟩ := hall
    exact hall x (Option.some.inj (hxs.symm.trans hys) ▸ hx)
  · rintro ⟨xs, ⟨hxs, hlength⟩, hall⟩
    refine ⟨?_, hlength⟩
    split
    · exact (forall_each v).mpr ⟨xs, hxs, hall⟩
    · simp

theorem forall_ofMarkup_table (contents config headers caption : Value) :
    (∀ s ∈ ofMarkup (.table contents config headers caption), s.Done digits) ↔
      (∃ hs, (headers.elements? = some hs ∧ headers.length?.isSome) ∧ ∀ h ∈ hs, h.Accepted digits) ∧
        ∃ rs, (contents.elements? = some rs ∧ contents.length?.isSome) ∧
          ∀ r ∈ rs, ∃ cs, r.elements? = some cs ∧ ∀ c ∈ cs, c.Accepted digits := by
  have hheaders := @forall_each_of_truthy digits (fun x => [convert x]) headers
  have hrows := @forall_each_of_truthy digits visit contents
  simp only [List.forall_mem_singleton, done_convert, forall_visit] at hheaders hrows
  rw [← hheaders, ← hrows]
  simp only [ofMarkup, visit, List.forall_mem_append, List.forall_mem_cons]
  tauto

theorem ofMarkup_formatting {code : Value} (hentity : code ≠ .str "E") (hlink : code ≠ .str "L")
    (contents extra : Value) :
    ofMarkup (.formatting code contents extra) = announced code ++ visit contents := by
  unfold ofMarkup
  split <;> simp_all

/-- A code with a rule of its own is a text, which can always be shown. -/
theorem forall_announced (code : Value) :
    (∀ s ∈ announced code, s.Done digits) ↔ code.digitsFault? digits = none := by
  unfold announced
  split <;> simp

/-- What can be iterated once more could be iterated before. -/
theorem done_iterate_of_spent {v : Value} (h : v.spent.elements?.isSome) : (iterate v).Done digits := by
  cases v with
  | object o =>
    obtain ⟨_, _, _, _, iteration, _, _⟩ := o
    cases iteration with
    | refused => exact absurd h (by simp [spent, Iteration.spent, elements?, Iteration.elements?])
    | sized xs | unsized xs | once xs => rfl
  | _ => exact h

theorem forall_ofMarkup_link (contents extra : Value) :
    (∀ s ∈ ofMarkup (.formatting (.str "L") contents extra), s.Done digits) ↔
      (extra.isTruthy = false ∨
          ∃ target, extra.atZero = .found target ∧ target.digitsFault? digits = none) ∧
        ∀ s ∈ visit (visited (.formatting (.str "L") contents extra)), s.Done digits := by
  have hsteps : ofMarkup (.formatting (.str "L") contents extra) =
      (if extra.isTruthy then takeFirst extra else iterate contents) ::
        visit (visited (.formatting (.str "L") contents extra)) := rfl
  rw [hsteps, List.forall_mem_cons]
  cases hextra : extra.isTruthy with
  | true => simp
  | false =>
    have hiterate : (∀ s ∈ visit (visited (.formatting (.str "L") contents extra)), s.Done digits) →
        (iterate contents).Done digits := fun hall => by
      have hvisited : visited (.formatting (.str "L") contents extra) = contents.spent := by
        simp [visited, hextra]
      rw [hvisited] at hall
      exact done_iterate_of_spent (hall _ (List.mem_cons_self ..))
    simpa using hiterate

theorem accepted_iff_done {m : Markup Value} (hclass : m.markupClass ≠ .block) :
    (markup m).Accepted digits ↔ ∀ s ∈ ofMarkup m, s.Done digits := by
  cases m with
  | block => exact absurd rfl hclass
  | table => rw [accepted_table_iff, forall_ofMarkup_table]
  | formatting code contents extra =>
    by_cases hentity : code = .str "E"
    · subst hentity
      exact iff_of_true (.entity contents extra) (by simp [ofMarkup])
    rw [accepted_formatting_iff hentity, ← forall_visit]
    by_cases hlink : code = .str "L"
    · subst hlink
      simp [forall_ofMarkup_link]
    · rw [ofMarkup_formatting hentity hlink, visited_formatting hlink, List.forall_mem_append,
        forall_announced]
      simp [hlink]
  | _ => exact (accepted_block_iff (by simp [Markup.markupClass])).trans (forall_visit _).symm

/-! The fault of a rule is that of the first of its steps. -/

variable (digits) (inner : Value → Option ConversionError)

/-- What goes wrong in a step, the faults of the values converted being given. -/
def fault? : Step → Option ConversionError
  | convert v => inner v
  | step => step.error? digits

theorem findSome?_fault?_cons (step : Step) (steps : List Step) :
    (step :: steps).findSome? (fault? digits inner) =
      (fault? digits inner step).or (steps.findSome? (fault? digits inner)) := by
  rw [List.findSome?_cons]
  cases fault? digits inner step <;> rfl

theorem findSome?_fault?_each (steps : Value → List Step) (v : Value) :
    (each steps v).findSome? (fault? digits inner) =
      partsFault? (fun x => (steps x).findSome? (fault? digits inner)) v := by
  have hflat : ∀ xs : List Value, (xs.flatMap steps).findSome? (fault? digits inner) =
      xs.findSome? fun x => (steps x).findSome? (fault? digits inner) := by
    intro xs
    induction xs with
    | nil => rfl
    | cons x xs ih =>
      rw [List.flatMap_cons, List.findSome?_append, ih, List.findSome?_cons]
      cases (steps x).findSome? (fault? digits inner) <;> rfl
  rw [each, findSome?_fault?_cons, hflat]
  rfl

theorem findSome?_fault?_visit (v : Value) :
    (visit v).findSome? (fault? digits inner) = partsFault? inner v := by
  have hinner : (fun x => [convert x].findSome? (fault? digits inner)) = inner := by
    funext x
    rw [findSome?_fault?_cons, List.findSome?_nil, Option.or_none]
    rfl
  rw [visit, findSome?_fault?_each, hinner]

/-- The fault of a link target is that of the step which takes it. -/
theorem linkFault?_eq {levels : ℕ} {contents extra : Value} (hextra : extra.nesting ≤ levels) :
    linkFault? digits levels contents extra =
      fault? digits inner (if extra.isTruthy then takeFirst extra else iterate contents) := by
  unfold linkFault?
  split
  · simp only [fault?, error?]
    cases hzero : extra.atZero with
    | found v => exact writingFault?_eq (Nat.le_trans (nesting_le_of_atZero hzero) hextra)
    | missing => rfl
    | unindexable => rfl
  · rfl

theorem findSome?_fault?_table (contents config headers caption : Value) :
    (ofMarkup (.table contents config headers caption)).findSome? (fault? digits inner) =
      tableFault? inner headers contents := by
  have hlengths : [measure headers, measure contents].findSome? (fault? digits inner) =
      headers.lengthFault?.or contents.lengthFault? := by
    rw [findSome?_fault?_cons, findSome?_fault?_cons]
    simp [fault?, error?]
  simp only [ofMarkup, List.findSome?_append, apply_ite (List.findSome? (fault? digits inner)),
    findSome?_fault?_visit, findSome?_fault?_each, hlengths, List.findSome?_nil]
  rfl

theorem findSome?_fault?_announced (code : Value) :
    (announced code).findSome? (fault? digits inner) = code.digitsFault? digits := by
  have hannounce : [announce code].findSome? (fault? digits inner) = code.digitsFault? digits := by
    rw [findSome?_fault?_cons, List.findSome?_nil, Option.or_none]
    rfl
  unfold announced
  split
  · rw [digitsFault?_str, List.findSome?_nil]
  · rw [digitsFault?_str, List.findSome?_nil]
  · rw [digitsFault?_str, List.findSome?_nil]
  · exact hannounce

theorem findSome?_fault?_formatting {levels : ℕ} {code contents extra : Value}
    (hcode : code.nesting ≤ levels) (hextra : extra.nesting ≤ levels) :
    (ofMarkup (.formatting code contents extra)).findSome? (fault? digits inner) =
      formattingFault? digits levels inner code contents extra := by
  by_cases hentity : code = .str "E"
  · subst hentity
    rfl
  rw [formattingFault?_eq hentity]
  by_cases hlink : code = .str "L"
  · subst hlink
    have hfault : codeFault? digits levels (.str "L") contents extra =
        linkFault? digits levels contents extra := rfl
    rw [hfault, linkFault?_eq digits inner hextra, ← findSome?_fault?_visit, ← findSome?_fault?_cons]
    rfl
  · have hfault : codeFault? digits levels code contents extra = code.digitsFault? digits := by
      unfold codeFault?
      split
      · exact (digitsFault?_str ..).symm
      · exact (digitsFault?_str ..).symm
      · exact (digitsFault?_str ..).symm
      · exact absurd rfl hlink
      · exact writingFault?_eq hcode
    rw [hfault, ofMarkup_formatting hentity hlink, List.findSome?_append,
      findSome?_fault?_announced, findSome?_fault?_visit, visited_formatting hlink]

theorem ruleFault?_eq {levels : ℕ} {m : Markup Value} (hclass : m.markupClass ≠ .block)
    (hm : (markup m).nesting ≤ levels) :
    ruleFault? digits levels inner m = (ofMarkup m).findSome? (fault? digits inner) := by
  cases m with
  | block => exact absurd rfl hclass
  | table contents config headers caption =>
    exact (findSome?_fault?_table digits inner contents config headers caption).symm
  | formatting code contents extra =>
    simp only [nesting] at hm
    exact (findSome?_fault?_formatting digits inner (by omega) (by omega)).symm
  | _ => exact (findSome?_fault?_visit digits inner _).symm

variable {digits inner}

/-- A step can be done just when it has no fault, if that is so for the values that it converts. -/
theorem done_iff {m : Markup Value}
    (hnone : ∀ v, v.nesting < (markup m).nesting → (inner v = none ↔ v.Accepted digits)) {step : Step}
    (hstep : step ∈ ofMarkup m) : step.Done digits ↔ fault? digits inner step = none := by
  cases step with
  | convert v => exact (hnone v (nesting_lt_of_convert_mem hstep)).symm
  | announce code => rfl
  | iterate v => simp [fault?, error?, elementsFault?, Option.isSome_iff_ne_none]
  | takeFirst v =>
    simp only [done_takeFirst, fault?, error?]
    cases v.atZero <;> simp
  | measure v => simp [fault?, error?, lengthFault?, Option.isSome_iff_ne_none]

end Conversion.Step

namespace Value

theorem Accepted.hasRule {v : Value} (h : v.Accepted digits) : v.HasRule := by
  cases h with
  | text => trivial
  | block hclass => exact fun h => absurd (h ▸ hclass) (by decide)
  | _ => exact fun h => absurd h (by simp [Markup.markupClass])

/-- Without a rule that is the fault, or that it cannot be reported. -/
theorem firstFault_iff_of_not_hasRule {v : Value} (hrule : ¬ v.HasRule) {e : ConversionError} :
    v.FirstFault digits e ↔ (v.digitsFault? digits).getD (.unrecognized v) = e := by
  have hsteps : ∀ {m : Markup Value}, v = markup m → Step.ofMarkup m = [] := by
    rintro m rfl
    cases m with
    | block => rfl
    | _ => exact absurd (by simp [HasRule, Markup.markupClass]) hrule
  constructor
  · intro h
    cases h with
    | noRule _ hshown => rw [hshown, Option.getD_none]
    | noReport _ he => rw [he, Option.getD_some]
    | step h => simp [hsteps rfl] at h
    | inside h => simp [hsteps rfl] at h
  · rintro rfl
    cases h : v.digitsFault? digits with
    | none => exact .noRule hrule h
    | some e => exact .noReport hrule h

structure Decides (digits : Option ℕ) (v : Value) (fault : Option ConversionError) : Prop where
  none_iff : fault = none ↔ v.Accepted digits
  some_iff : ∀ e, fault = some e ↔ v.FirstFault digits e

theorem decides_str (s : String) : (str s).Decides digits none where
  none_iff := iff_of_true rfl (.text s)
  some_iff e := by
    refine iff_of_false (by simp) fun h => ?_
    cases h with
    | noRule h | noReport h => exact h trivial

theorem refusal_eq {levels : ℕ} {v : Value} (h : v.nesting ≤ levels) :
    v.refusal digits levels = (v.digitsFault? digits).getD (.unrecognized v) := by
  rw [refusal, writingFault?_eq h]

theorem decides_refusal {levels : ℕ} {v : Value} (h : v.nesting ≤ levels) (hrule : ¬ v.HasRule) :
    v.Decides digits (some (v.refusal digits levels)) where
  none_iff := iff_of_false (by simp) fun h => hrule h.hasRule
  some_iff e := by
    rw [Option.some.injEq, refusal_eq h]
    exact (firstFault_iff_of_not_hasRule hrule).symm

section Markup

variable {inner : Value → Option ConversionError} {digits : Option ℕ} {levels : ℕ} {m : Markup Value}
  (hm : (markup m).nesting ≤ levels)
  (hinner : ∀ v : Value, v.nesting < (markup m).nesting → v.Decides digits (inner v))

include hinner

/-- In front of the first step that fails stand steps that can be done. -/
theorem forall_before_iff {before after : List Step} {step : Step}
    (hsteps : Step.ofMarkup m = before ++ step :: after) :
    (∀ s ∈ before, s.Done digits) ↔ ∀ s ∈ before, Step.fault? digits inner s = none := by
  refine forall₂_congr fun s hs => Step.done_iff (fun v hv => (hinner v hv).none_iff) ?_
  rw [hsteps]
  exact List.mem_append_left _ hs

/-- The first fault of markup is found by going through its steps. -/
theorem findSome?_eq_some_iff_firstFault (hclass : m.markupClass ≠ .block) (e : ConversionError) :
    (Step.ofMarkup m).findSome? (Step.fault? digits inner) = some e ↔
      (markup m).FirstFault digits e := by
  rw [List.findSome?_eq_some_iff]
  constructor
  · rintro ⟨before, step, after, hsteps, he, hbefore⟩
    have hbefore := (forall_before_iff hinner hsteps).mpr hbefore
    cases step with
    | convert v =>
      have hlt := Step.nesting_lt_of_convert_mem (m := m) (v := v) (by simp [hsteps])
      exact .inside hsteps hbefore (((hinner v hlt).some_iff e).mp he)
    | _ => exact .step hsteps hbefore he
  · intro h
    cases h with
    | noRule h | noReport h => exact absurd hclass h
    | @step _ before after step _ hsteps hbefore he =>
      refine ⟨before, step, after, hsteps, ?_, (forall_before_iff hinner hsteps).mp hbefore⟩
      cases step with
      | convert v => exact absurd he (by simp [Step.error?])
      | _ => exact he
    | @inside _ before after v _ hsteps hbefore hv =>
      have hlt := Step.nesting_lt_of_convert_mem (m := m) (v := v) (by simp [hsteps])
      exact ⟨before, .convert v, after, hsteps, ((hinner v hlt).some_iff e).mpr hv,
        (forall_before_iff hinner hsteps).mp hbefore⟩

include hm

/-- A rule decides on its markup, if that is so for the values one level further down. -/
theorem decides_ruleFault? : (markup m).Decides digits (ruleFault? digits levels inner m) := by
  by_cases hclass : m.markupClass = .block
  · cases m with
    | block =>
      exact decides_refusal hm fun h => h rfl
    | _ => exact absurd hclass (by simp [Markup.markupClass])
  · rw [Step.ruleFault?_eq digits inner hclass hm]
    refine ⟨?_, findSome?_eq_some_iff_firstFault hinner hclass⟩
    rw [Step.accepted_iff_done hclass, List.findSome?_eq_none_iff]
    exact forall₂_congr fun s hs => (Step.done_iff (fun v hv => (hinner v hv).none_iff) hs).symm

end Markup

/-- With enough levels left a conversion decides on its value. -/
theorem decides_fault? {levels : ℕ} {v : Value} (hv : v.nesting ≤ levels) :
    v.Decides digits (v.fault? digits levels) := by
  induction levels generalizing v with
  | zero =>
    cases v with
    | str s => exact decides_str s
    | markup m => exact absurd hv (by cases m <;> simp [nesting])
    | _ => exact decides_refusal hv (by simp [HasRule])
  | succ levels ih =>
    cases v with
    | str s => exact decides_str s
    | markup m => exact decides_ruleFault? hv fun u hu => ih (by omega)
    | _ => exact decides_refusal hv (by simp [HasRule])

end Value

/-- A table of one row that has no headers at all: its one cell can be converted, and then the headers
have no length. -/
def looseTable : Value :=
  .markup (.table (.list [.list [.str "cell"]]) .null .null .null)

/-- A link over an iterator that holds a number. The number is not met any more when the contents are
converted. -/
def usedUpLink : Value :=
  .markup (.formatting (.str "L")
    (.object ⟨0, "list_iterator", "<numbers>", "<numbers>", .once [.int 42], true, .unindexable⟩) .null)

end DocTree
