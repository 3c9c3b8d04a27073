import DocTree.Proofs.Lines

/-!
What a conversion logs, whether it succeeds or fails. The transcript of a step is the lines it logs and
the fault it ends with, and what comes after a fault is not reached. The steps of a rule are gone
through in order, so that a failed conversion has logged what was logged before the step that failed,
inside the pieces of markup around it as well. Where a conversion succeeds it has logged all lines of the
value.
-/
namespace DocTree

open Conversion

variable {digits : Option ℕ}

/-- The lines that are logged up to the end or up to the fault. -/
structure Transcript where
  lines : List Event
  fault? : Option ConversionError

namespace Transcript

def logged (lines : List Event) : Transcript := ⟨lines, none⟩

def ended (fault : Option ConversionError) : Transcript := ⟨[], fault⟩

def andThen (t u : Transcript) : Transcript :=
  match t.fault? with
  | none => ⟨t.lines ++ u.lines, u.fault?⟩
  | some _ => t

@[simp] theorem logged_nil_andThen (t : Transcript) : (logged []).andThen t = t := rfl

@[simp] theorem ended_none_andThen (t : Transcript) : (ended none).andThen t = t := rfl

@[simp] theorem ended_some_andThen (e : ConversionError) (t : Transcript) :
    (ended (some e)).andThen t = ended (some e) := rfl

@[simp] theorem logged_andThen_logged (ls ls' : List Event) :
    (logged ls).andThen (logged ls') = logged (ls ++ ls') := rfl

@[simp] theorem andThen_logged_nil (t : Transcript) : t.andThen (logged []) = t := by
  obtain ⟨lines, _ | e⟩ := t <;> simp [andThen, logged]

theorem andThen_assoc (t u v : Transcript) : (t.andThen u).andThen v = t.andThen (u.andThen v) := by
  obtain ⟨lines, _ | e⟩ := t
  · obtain ⟨lines', _ | e'⟩ := u <;> simp [andThen]
  · rfl

section Steps

variable (digits) (inner : Value → Transcript)

/-- The transcript of a step, those of the values converted being given. -/
def ofStep : Step → Transcript
  | .convert v => inner v
  | .announce code => (ended (code.digitsFault? digits)).andThen (logged [.unmappedCode code.display])
  | step => ended (step.error? digits)

def ofSteps : List Step → Transcript
  | [] => logged []
  | step :: steps => (ofStep digits inner step).andThen (ofSteps steps)

def ofMarkup (m : Markup Value) : Transcript :=
  (ofSteps digits inner (Step.ofMarkup m)).andThen (logged (Value.sizing m ++ Value.closing m))

end Steps

def within (digits : Option ℕ) : (levels : ℕ) → Value → Transcript
  | _, .str _ => logged []
  | 0, .markup _ => ended (some .nestingTooDeep)
  | levels + 1, .markup (.block contents config) =>
    ended (some (Value.refusal digits (levels + 1) (.markup (.block contents config))))
  | levels + 1, .markup m => ofMarkup digits (within digits levels) m
  | levels, v => ended (some (v.refusal digits levels))

variable {inner : Value → Transcript}

theorem ofSteps_append (steps steps' : List Step) :
    ofSteps digits inner (steps ++ steps') =
      (ofSteps digits inner steps).andThen (ofSteps digits inner steps') := by
  induction steps with
  | nil => rfl
  | cons step steps ih => rw [List.cons_append, ofSteps, ih, ofSteps, andThen_assoc]

theorem ofSteps_singleton (step : Step) : ofSteps digits inner [step] = ofStep digits inner step :=
  andThen_logged_nil _

theorem within_markup {levels : ℕ} {m : Markup Value} (h : m.markupClass ≠ .block) :
    within digits (levels + 1) (.markup m) = ofMarkup digits (within digits levels) m := by
  cases m with
  | block => exact absurd rfl h
  | _ => rfl

end Transcript

namespace Conversion

open Transcript Workspace Value

/-- From every state the step logs these lines and ends in this way, and a result has the property. -/
def Logs {α : Type} (x : Conversion α) (t : Transcript) (P : α → Prop) : Prop :=
  ∀ w, match x w with
    | .ok a w' => t.fault? = none ∧ w'.trace.toList = w.trace.toList ++ t.lines ∧ P a
    | .error e w' => t.fault? = some e ∧ w'.trace.toList = w.trace.toList ++ t.lines

section Logs

variable {α β : Type} {P : α → Prop} {Q : β → Prop} {t u : Transcript}

theorem Logs.pure {a : α} (h : P a) : Logs (pure a) (logged []) P := fun _ => ⟨rfl, by simp [logged], h⟩

theorem Logs.throw (e : ConversionError) : Logs (throw e) (ended (some e)) P :=
  fun _ => ⟨rfl, by simp [ended]⟩

theorem Logs.imp {x : Conversion α} {P' : α → Prop} (hx : Logs x t P) (h : ∀ a, P a → P' a) :
    Logs x t P' := by
  intro w
  have hxw := hx w
  cases hrun : x w with
  | error e w' =>
    rw [hrun] at hxw
    exact hxw
  | ok a w' =>
    rw [hrun] at hxw
    exact ⟨hxw.1, hxw.2.1, h a hxw.2.2⟩

/-- What a step logs comes before what the steps after it log, if those are reached. -/
theorem Logs.bind {x : Conversion α} {k : α → Conversion β} (hx : Logs x t P)
    (hk : ∀ a, P a → Logs (k a) u Q) : Logs (x >>= k) (t.andThen u) Q := by
  intro w
  have hxw := hx w
  rw [bind_eq]
  cases h : x w with
  | error e w' =>
    rw [h] at hxw
    simpa only [Transcript.andThen, hxw.1] using hxw
  | ok a w' =>
    rw [h] at hxw
    obtain ⟨hnone, htrace, ha⟩ := hxw
    have hkw := hk a ha w'
    simp only [Transcript.andThen, hnone]
    cases h' : k a w' with
    | error e w'' =>
      rw [h'] at hkw
      exact ⟨hkw.1, by rw [hkw.2, htrace, List.append_assoc]⟩
    | ok b w'' =>
      rw [h'] at hkw
      exact ⟨hkw.1, by rw [hkw.2.1, htrace, List.append_assoc], hkw.2.2⟩

/-- A step that logs nothing and cannot fail may come first. -/
theorem Logs.after_silent {x : Conversion α} {k : α → Conversion β} (hx : Logs x (logged []) P)
    (hk : ∀ a, P a → Logs (k a) t Q) : Logs (x >>= k) t Q := by
  simpa only [logged_nil_andThen] using hx.bind hk

/-- A step that logs nothing and cannot fail may come last. -/
theorem Logs.before_silent {x : Conversion α} {k : α → Conversion β} (hx : Logs x t P)
    (hk : ∀ a, P a → Logs (k a) (logged []) Q) : Logs (x >>= k) t Q := by
  simpa only [andThen_logged_nil] using hx.bind hk

theorem Logs.onlyIf {x : Conversion Unit} (hx : Logs x t fun _ => True) (condition : Bool) :
    Logs (Workspace.onlyIf condition x) (if condition then t else logged []) fun _ => True := by
  cases condition with
  | false => exact .pure trivial
  | true => exact hx

theorem Logs.newNode (label : Label Value) :
    Logs (Workspace.newNode label) (logged []) fun _ => True :=
  fun _ => ⟨rfl, by simp [logged], trivial⟩

theorem Logs.edit (change : Store → Store) :
    Logs (Workspace.edit change) (logged []) fun _ => True :=
  fun _ => ⟨rfl, by simp [logged], trivial⟩

theorem Logs.record (event : Event) :
    Logs (Workspace.record event) (logged [event]) fun _ => True :=
  fun _ => ⟨rfl, by simp [logged], trivial⟩

end Logs

theorem logs_elements (v : Value) :
    Logs (elements v) (ended v.elementsFault?) fun xs => xs = v.elements := by
  unfold elements elementsFault?
  cases h : v.elements? with
  | some xs => exact .pure (by simp [Value.elements, h])
  | none => exact .throw _

theorem logs_length (v : Value) :
    Logs (length v) (ended v.lengthFault?) fun n => n = v.filledElements.length := by
  unfold length lengthFault?
  cases h : v.length? with
  | some n => exact .pure (length_filledElements h).symm
  | none => exact .throw _

theorem logs_display {levels : ℕ} {v : Value} (hv : v.nesting ≤ levels) :
    Logs (display digits levels v) (ended (v.digitsFault? digits))
      fun shown => shown = v.display := by
  unfold display
  rw [writingFault?_eq hv]
  cases v.digitsFault? digits with
  | none => exact .pure rfl
  | some e => exact .throw e

/-- The target of a link is taken in one step. -/
theorem logs_linkTarget (inner : Value → Transcript) {levels : ℕ} {contents extra : Value}
    (hextra : extra.nesting ≤ levels) :
    Logs (linkTarget digits levels contents extra)
      (ofStep digits inner (if extra.isTruthy then .takeFirst extra else .iterate contents))
      fun _ => True := by
  unfold linkTarget
  split
  · simp only [ofStep, Step.error?]
    cases hzero : extra.atZero with
    | found v =>
      have hv := Nat.le_trans (nesting_le_of_atZero hzero) hextra
      exact (logs_display hv).imp fun _ _ => trivial
    | missing => exact .throw _
    | unindexable => exact .throw _
  · exact (logs_elements contents).before_silent fun _ _ => .pure trivial

section Rules

variable {inner : Value → Transcript}

section Branch

variable {make : Value → Conversion NodeId} {steps : Value → List Step}

theorem logs_appendEach (target : NodeId) {vs : List Value}
    (hmake : ∀ v ∈ vs, Logs (make v) (ofSteps digits inner (steps v)) fun _ => True) :
    Logs (appendEach make target vs) (ofSteps digits inner (vs.flatMap steps)) fun _ => True := by
  induction vs with
  | nil => exact .pure trivial
  | cons v vs ih =>
    rw [List.forall_mem_cons] at hmake
    rw [List.flatMap_cons, ofSteps_append]
    exact hmake.1.bind fun child _ => (Logs.edit (·.append target child)).after_silent fun _ _ =>
      ih hmake.2

/-- A node over the converted elements logs what these log, one after the other. -/
theorem logs_branch (label : Label Value) {contents : Value}
    (hmake : ∀ v ∈ contents.elements, Logs (make v) (ofSteps digits inner (steps v)) fun _ => True) :
    Logs (branch make label contents) (ofSteps digits inner (Step.each steps contents)) fun _ => True :=
  (Logs.newNode label).after_silent fun target _ => (logs_elements contents).bind fun xs hxs => by
    subst hxs
    exact (logs_appendEach target hmake).before_silent fun _ _ => .pure trivial

end Branch

variable {convertInner : Value → Conversion NodeId} {levels : ℕ}
  (hinner : ∀ v : Value, v.nesting ≤ levels → Logs (convertInner v) (inner v) fun _ => True)

include hinner

theorem logs_visit (label : Label Value) {contents : Value} (h : contents.nesting ≤ levels) :
    Logs (branch convertInner label contents) (ofSteps digits inner (Step.visit contents))
      fun _ => True := by
  refine logs_branch label fun v hv => ?_
  rw [ofSteps_singleton]
  exact hinner v (Nat.le_trans (nesting_le_of_mem_elements hv) h)

theorem logs_cell {v : Value} (hv : v.nesting ≤ levels) :
    Logs (cell convertInner v) (ofSteps digits inner [.convert v]) fun _ => True := by
  rw [ofSteps_singleton]
  exact (Logs.newNode .tableData).after_silent fun data _ => (hinner v hv).before_silent
    fun child _ => (Logs.edit (·.append data child)).after_silent fun _ _ => .pure trivial

theorem logs_row (label : Label Value) {v : Value} (hv : v.nesting ≤ levels) :
    Logs (row convertInner label v) (ofSteps digits inner (Step.visit v)) fun _ => True :=
  logs_branch label fun _ hx => logs_cell hinner (Nat.le_trans (nesting_le_of_mem_elements hx) hv)

/-- The cells of the header come first, then those of the body, and then the sizes are logged. -/
theorem logs_table {headers contents : Value} (hheaders : headers.nesting ≤ levels)
    (hcontents : contents.nesting ≤ levels) (config caption : Value) :
    Logs (table convertInner headers contents)
      ((ofSteps digits inner (Step.ofMarkup (.table contents config headers caption))).andThen
        (logged (sizing (.table contents config headers caption)))) fun _ => True := by
  have happend : ∀ {x : Conversion NodeId} {steps : List Step} (target : NodeId) (condition : Bool),
      Logs x (ofSteps digits inner steps) (fun _ => True) →
      Logs (Workspace.onlyIf condition (x >>= appendTo target))
        (ofSteps digits inner (if condition then steps else [])) fun _ => True := by
    intro x steps target condition hx
    have honly := (hx.before_silent fun child _ =>
      Logs.edit (·.append target child)).onlyIf condition
    rwa [apply_ite (ofSteps digits inner)]
  have hheader : Logs (row convertInner .tableHeader headers)
      (ofSteps digits inner (Step.visit headers)) fun _ => True :=
    logs_row hinner .tableHeader hheaders
  have hbody : Logs (branch (row convertInner .tableBodyRow) .tableBody contents)
      (ofSteps digits inner (Step.each Step.visit contents)) fun _ => True :=
    logs_branch .tableBody fun v hv =>
      logs_row hinner .tableBodyRow (Nat.le_trans (nesting_le_of_mem_elements hv) hcontents)
  have hsizes : ∀ target : NodeId, Logs
      (do
        let headerCells ← length headers
        let bodyRows ← length contents
        record (.tableConverted headerCells bodyRows)
        return target)
      ((ofSteps digits inner [.measure headers, .measure contents]).andThen
        (logged (sizing (.table contents config headers caption)))) fun _ => True := by
    intro target
    rw [ofSteps, ofSteps_singleton, andThen_assoc, sizing_table]
    refine (logs_length headers).bind fun n hn => (logs_length contents).bind fun k hk => ?_
    rw [hn, hk]
    exact (Logs.record _).before_silent fun _ _ => .pure trivial
  rw [Step.ofMarkup, ofSteps_append, ofSteps_append, andThen_assoc, andThen_assoc]
  exact (Logs.newNode .table).after_silent fun target _ => (happend target _ hheader).bind
    fun _ _ => (happend target _ hbody).bind fun _ _ => hsizes target

theorem logs_formatting {limit : ℕ} {code contents extra : Value} (hcode : code.nesting ≤ limit)
    (hcontents : contents.nesting ≤ levels) (hextra : extra.nesting ≤ limit) :
    Logs (formatting digits limit convertInner code contents extra)
      (ofSteps digits inner (Step.ofMarkup (.formatting code contents extra))) fun _ => True := by
  have hvisit : ∀ label, Logs (branch convertInner label contents)
      (ofSteps digits inner (Step.visit contents)) fun _ => True :=
    fun label => logs_visit hinner label hcontents
  unfold formatting
  split
  · exact hvisit _
  · exact hvisit _
  · exact .newNode _
  · have hvisited := Nat.le_trans (nesting_visited_le (.formatting (.str "L") contents extra)) hcontents
    exact (logs_linkTarget inner hextra).bind fun _ _ => logs_visit hinner _ hvisited
  · exact hvisit _
  · rename_i hB hC hE hL hX
    have hannounced : Step.announced code = [.announce code] := by
      unfold Step.announced
      split <;> simp_all
    rw [Step.ofMarkup_formatting hE hL, hannounced, ofSteps_append, ofSteps_singleton, ofStep,
      andThen_assoc]
    refine (logs_display hcode).bind fun shown hshown => ?_
    rw [hshown]
    exact (Logs.record _).bind fun _ _ => hvisit _

/-- Up to the line of the finished block, markup with a rule is logged behind its steps. -/
theorem logs_rule {m : Markup Value} (hclass : m.markupClass ≠ .block)
    (hm : (markup m).nesting ≤ levels + 1) :
    Logs (rule digits (levels + 1) convertInner m)
      ((ofSteps digits inner (Step.ofMarkup m)).andThen (logged (sizing m))) fun _ => True := by
  cases m with
  | block => exact absurd rfl hclass
  | table contents config headers caption =>
    simp only [nesting] at hm
    exact logs_table hinner (by omega) (by omega) config caption
  | formatting code contents extra =>
    simp only [nesting] at hm
    have hsizing : sizing (.formatting code contents extra) = [] := rfl
    rw [hsizing, andThen_logged_nil]
    exact logs_formatting hinner (by omega) (by omega) (by omega)
  | named contents | para contents | code contents | comment contents | heading contents
  | item contents =>
    simp only [nesting] at hm
    exact (andThen_logged_nil _).symm ▸ logs_visit hinner _ (by omega)

end Rules

/-- The line of a block names the kind of its node. -/
theorem recordConverted_apply (c : MarkupClass) (n : NodeId) (w : Workspace) :
    ∃ w', recordConverted c n w = .ok () w' ∧ w'.trace.toList = w.trace.toList ++
      if c = .formatting then [] else [.converted c (w.store.kind n)] := by
  by_cases hc : c = .formatting
  · subst hc
    exact ⟨w, rfl, by simp⟩
  · refine ⟨{ w with trace := w.trace.push (.converted c (w.store.kind n)) }, ?_, by simp [hc]⟩
    simp [recordConverted, onlyIf, hc]
    rfl

/-- A block is logged when its node has been made. -/
theorem Logs.then_recordConverted {x : Conversion NodeId} {t : Transcript}
    {tree : OrderedTree (Label Value)} (hx : Logs x t fun _ => True) (hmakes : Makes x tree)
    (c : MarkupClass) :
    Logs (do let n ← x; recordConverted c n; return n)
      (t.andThen (logged (if c = .formatting then [] else [.converted c tree.root.kind])))
      fun _ => True := by
  intro w
  have hxw := hx w
  have htree := hmakes w w.store.size .empty (.empty w.store) (Nat.le_refl _)
  rw [bind_eq]
  cases h : x w with
  | error e w' =>
    rw [h] at hxw
    simpa only [Transcript.andThen, hxw.1] using hxw
  | ok n w' =>
    rw [h] at hxw htree
    -- the kind is read off the store, where the tree has just been made
    obtain ⟨f', u, -, -, rfl, -, -, hlabel⟩ := htree
    have hkind : w'.store.kind u.root = tree.root.kind := by
      rw [← hlabel, OrderedTree.root_map]
      rfl
    obtain ⟨w'', hrun, htrace⟩ := recordConverted_apply c u.root w'
    simp only
    rw [bind_eq, hrun]
    simp only [Transcript.andThen, hxw.1]
    refine ⟨rfl, ?_, trivial⟩
    rw [htrace, hxw.2.1, hkind, List.append_assoc]
    rfl

/-- The transcript of a conversion is a matter of the value and of the levels left. -/
theorem logs_convert (digits : Option ℕ) (levels : ℕ) {v : Value} (hv : v.nesting ≤ levels) :
    Logs (convert digits levels v) (within digits levels v) fun _ => True := by
  induction levels generalizing v with
  | zero =>
    cases v with
    | str s => exact .newNode _
    | _ => exact .throw _
  | succ levels ih =>
    cases v with
    | str s => exact .newNode _
    | markup m =>
      by_cases hclass : m.markupClass = .block
      · cases m with
        | block contents config =>
          have hrefuse : Logs
              (rule digits (levels + 1) (convert digits levels) (.block contents config))
              (within digits (levels + 1) (.markup (.block contents config))) fun _ => False := .throw _
          exact hrefuse.before_silent fun _ hfalse => hfalse.elim
        | _ => exact absurd hclass (by simp [Markup.markupClass])
      · have hwithin : within digits (levels + 1) (.markup m) =
            ((ofSteps digits (within digits levels) (Step.ofMarkup m)).andThen
              (logged (sizing m))).andThen (logged (closing m)) := by
          rw [within_markup hclass, ofMarkup, andThen_assoc, logged_andThen_logged]
        rw [hwithin]
        exact (logs_rule (fun u hu => ih hu) hclass hv).then_recordConverted
          (makes_rule (makes_convert digits levels) digits (levels + 1) m) m.markupClass
    | _ => exact .throw _

end Conversion

namespace Transcript

open Value

variable {inner : Value → Transcript}

/-- A step that can be done has no fault of its own. -/
theorem error?_of_done {step : Step} (h : step.Done digits) : step.error? digits = none := by
  cases step with
  | convert v => rfl
  | announce code => exact h
  | iterate v => exact if_pos h
  | takeFirst v =>
    obtain ⟨first, hfirst, hshown⟩ := h
    simp [Step.error?, hfirst, hshown]
  | measure v => exact if_pos h

/-- Steps that can be done log all their lines. -/
theorem ofSteps_of_done {steps : List Step} (hdone : ∀ s ∈ steps, s.Done digits)
    (hinner : ∀ v, .convert v ∈ steps → v.Accepted digits → inner v = logged v.lines) :
    ofSteps digits inner steps = logged (steps.flatMap Step.lines) := by
  induction steps with
  | nil => rfl
  | cons step steps ih =>
    rw [List.forall_mem_cons] at hdone
    have hstep : ofStep digits inner step = logged step.lines := by
      cases step with
      | convert v => exact hinner v (List.mem_cons_self ..) hdone.1
      | announce code =>
        have hshown : code.digitsFault? digits = none := hdone.1
        rw [ofStep, hshown, ended_none_andThen]
        rfl
      | _ => exact congrArg ended (error?_of_done hdone.1)
    rw [ofSteps, hstep, ih hdone.2 fun v hv => hinner v (List.mem_cons_of_mem step hv),
      logged_andThen_logged, List.flatMap_cons]

/-- All lines of an accepted value are logged. -/
theorem within_of_accepted {levels : ℕ} {v : Value} (hv : v.Accepted digits)
    (hlevels : v.nesting ≤ levels) :
    within digits levels v = logged v.lines := by
  induction levels generalizing v with
  | zero =>
    cases v with
    | str s => rw [lines_of_not_markup (by simp)]; rfl
    | markup m => exact absurd hlevels (by cases m <;> simp [nesting])
    | _ => exact hv.hasRule.elim
  | succ levels ih =>
    cases v with
    | str s => rw [lines_of_not_markup (by simp)]; rfl
    | markup m =>
      have hclass : m.markupClass ≠ .block := hv.hasRule
      have hinner : ∀ u, Step.convert u ∈ Step.ofMarkup m → u.Accepted digits →
          within digits levels u = logged u.lines := fun u hu haccepted => by
        have hlt := Step.nesting_lt_of_convert_mem hu
        exact ih haccepted (by omega)
      have hsteps : ofSteps digits (within digits levels) (Step.ofMarkup m) =
          logged (opening m ++ (parts m).flatMap Value.lines) := by
        rw [ofSteps_of_done ((Step.accepted_iff_done hclass).mp hv) hinner, flatMap_lines_ofMarkup]
      rw [within_markup hclass, ofMarkup, hsteps, lines_markup]
      simp
    | _ => exact hv.hasRule.elim

/-- Markup whose steps have failed has no line behind them. -/
theorem ofMarkup_of_failed {m : Markup Value} {before after : List Step} {step : Step}
    {e : ConversionError} {ls : List Event} (hsteps : Step.ofMarkup m = before ++ step :: after)
    (hbefore : ofSteps digits inner before = logged (before.flatMap Step.lines))
    (hstep : ofStep digits inner step = ⟨ls, some e⟩) :
    ofMarkup digits inner m = ⟨before.flatMap Step.lines ++ ls, some e⟩ := by
  rw [ofMarkup, hsteps, ofSteps_append, hbefore, ofSteps, hstep]
  rfl

/-- Markup with steps has a rule, and the steps in front of one log all their lines. -/
theorem within_of_steps {levels : ℕ} {m : Markup Value} {before after : List Step} {step : Step}
    (hsteps : Step.ofMarkup m = before ++ step :: after) (hbefore : ∀ s ∈ before, s.Done digits)
    (hlevels : (markup m).nesting ≤ levels) :
    ∃ levels', levels = levels' + 1 ∧
      within digits levels (.markup m) = ofMarkup digits (within digits levels') m ∧
      ofSteps digits (within digits levels') before = logged (before.flatMap Step.lines) := by
  have hclass : m.markupClass ≠ .block := by
    cases m with
    | block => exact absurd hsteps (by simp [Step.ofMarkup])
    | _ => simp [Markup.markupClass]
  cases levels with
  | zero => exact absurd hlevels (by cases m <;> simp [nesting])
  | succ levels =>
    refine ⟨levels, rfl, within_markup hclass, ofSteps_of_done hbefore fun u hu haccepted => ?_⟩
    have hlt := Step.nesting_lt_of_convert_mem (m := m) (v := u) (by simp [hsteps, hu])
    exact within_of_accepted haccepted (by omega)

theorem within_of_not_hasRule {levels : ℕ} {v : Value} (hrule : ¬ v.HasRule)
    (hlevels : v.nesting ≤ levels) :
    within digits levels v = ended (some ((v.digitsFault? digits).getD (.unrecognized v))) := by
  rw [← refusal_eq hlevels]
  cases v with
  | str s => exact absurd trivial hrule
  | markup m =>
    cases m with
    | block =>
      cases levels with
      | zero => exact absurd hlevels (by simp [nesting])
      | succ levels => rfl
    | _ => exact absurd (by simp [HasRule, Markup.markupClass]) hrule
  | _ => cases levels <;> rfl

/-- Just the lines before the first fault are logged. -/
theorem within_of_failsAfter {levels : ℕ} {v : Value} {e : ConversionError} {ls : List Event}
    (hv : v.FailsAfter digits e ls) (hlevels : v.nesting ≤ levels) :
    within digits levels v = ⟨ls, some e⟩ := by
  -- on the way down to the fault, one level of markup being used up each time
  induction hv generalizing levels with
  | noRule hrule hshown => rw [within_of_not_hasRule hrule hlevels, hshown]; rfl
  | noReport hrule he => rw [within_of_not_hasRule hrule hlevels, he]; rfl
  | @step m before after step e hsteps hbefore he =>
    obtain ⟨levels, rfl, hwithin, hlogged⟩ := within_of_steps hsteps hbefore hlevels
    have hstep : ofStep digits (within digits levels) step = ⟨[], some e⟩ := by
      cases step with
      | convert v => exact absurd he (by simp [Step.error?])
      | announce code =>
        have hcode : code.digitsFault? digits = some e := he
        rw [ofStep, hcode]
        rfl
      | _ => exact congrArg ended he
    rw [hwithin, ofMarkup_of_failed hsteps hlogged hstep, List.append_nil]
  | @inside m before after v e ls hsteps hbefore _ ih =>
    obtain ⟨levels, rfl, hwithin, hlogged⟩ := within_of_steps hsteps hbefore hlevels
    have hlt := Step.nesting_lt_of_convert_mem (m := m) (v := v) (by simp [hsteps])
    rw [hwithin, ofMarkup_of_failed hsteps hlogged (ih (by omega))]

end Transcript

section Convert

variable {levels : ℕ} {v : Value} (hv : v.nesting ≤ levels) (w : Workspace)

include hv

/-- An accepted value is converted, and all its lines are logged. -/
theorem convert_logs_lines (haccepted : v.Accepted digits) :
    ∃ n w', convert digits levels v w = .ok n w' ∧ w'.trace.toList = w.trace.toList ++ v.lines := by
  have hlogs := logs_convert digits levels hv w
  rw [Transcript.within_of_accepted haccepted hv] at hlogs
  cases h : convert digits levels v w with
  | error e w' =>
    rw [h] at hlogs
    exact absurd hlogs.1 (by simp [Transcript.logged])
  | ok n w' =>
    rw [h] at hlogs
    exact ⟨n, w', rfl, hlogs.2.1⟩

/-- Any other value fails with its first fault, and the lines before it are logged. -/
theorem convert_logs_before_fault {e : ConversionError} {ls : List Event}
    (hfails : v.FailsAfter digits e ls) :
    ∃ w', convert digits levels v w = .error e w' ∧ w'.trace.toList = w.trace.toList ++ ls := by
  have hlogs := logs_convert digits levels hv w
  rw [Transcript.within_of_failsAfter hfails hv] at hlogs
  cases h : convert digits levels v w with
  | error e' w' =>
    rw [h] at hlogs
    obtain rfl := Option.some.inj hlogs.1
    exact ⟨w', rfl, hlogs.2⟩
  | ok n w' =>
    rw [h] at hlogs
    exact absurd hlogs.1 (by simp)

end Convert

end DocTree
