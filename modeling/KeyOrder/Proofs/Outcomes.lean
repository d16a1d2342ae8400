import KeyOrder.Proofs.Verdict
/-!
# Every document has an outcome

Whatever a document holds, it is skipped, refused with a message, settled, or given a new
text: each value that is read can be sorted and printed, or is nested too deeply to be
sorted, which is reported.  What is left to fail is the indentation, of which there may be
no text; that is noticed only where a document is to be printed.
-/

namespace KeyOrder

/-! ## Widths of which there is a text -/

namespace Json

/-- Why there is no text of a great number of spaces. -/
def widthFault (indent : Int) : LayoutFault :=
  if lengthLimit ≤ indent then .noLength else .noMemory

/-- Tabs, and every positive width but a great one, are a layout. -/
theorem Layout.exists_of {tabs : Bool} {indent : Int} (hwidth : tabs = true ∨ 1 ≤ indent)
    (hsmall : tabs = true ∨ indent < memoryLimit) :
    ∃ layout, Layout.of tabs indent = .ok layout := by
  have hlimits : memoryLimit ≤ lengthLimit := by decide
  cases tabs with
  | true => exact ⟨.tabs, rfl⟩
  | false =>
      have hpositive : 1 ≤ indent := hwidth.resolve_left Bool.false_ne_true
      have hmemory : indent < memoryLimit := hsmall.resolve_left Bool.false_ne_true
      refine ⟨.spaces (indent.toNat - 1), ?_⟩
      rw [Layout.of, if_neg Bool.false_ne_true, if_neg (by omega), if_neg (by omega),
        if_neg (by omega)]

/-- A great width is none. -/
theorem Layout.of_wide {indent : Int} (hwide : memoryLimit ≤ indent) :
    Layout.of false indent = .error (widthFault indent) := by
  have hpositive : 1 ≤ memoryLimit := by decide
  rw [Layout.of, if_neg Bool.false_ne_true, if_neg (by omega), if_pos hwide, widthFault]
  split <;> rfl

end Json

/-! ## Values that are read -/

/-- A value that can be sorted and printed in every layout, or is nested too deeply to be sorted. -/
structure IsHandled [Platform] (sortFrom : Int) (order : List CodeText) (v : Value) : Prop where
  sorted : sortFromDepth v sortFrom order = .error .nestedTooDeeply ∨
    ∃ r, sortFromDepth v sortFrom order = .ok r ∧
      ∀ layout, Json.format layout r = .ok (Json.printDocument layout r)
  printed : ∀ layout, Json.format layout v = .ok (Json.printDocument layout v)

/-- A document value is sorted and printed unless it is nested too deeply. -/
theorem isHandled_of_isDocument [Platform] {v : Value} (hv : v.IsDocument) {sortFrom : Int}
    (hdepth : 0 ≤ sortFrom) (order : List CodeText) : IsHandled sortFrom order v where
  sorted := by
    rw [sortFromDepth_of_nonneg hv hdepth]
    split
    · exact Or.inl rfl
    · exact Or.inr ⟨_, rfl, fun layout => Json.format_of_isDocument layout (hv.sortValue _ 0)⟩
  printed layout := Json.format_of_isDocument layout hv

/-! ## What is reported -/

section Process

variable {options : ProcessOptions} {content : Text} {v : Value}

/-- What is said and written about a document: only a success may write, and only where that is
asked for; an error tells why the document cannot be decoded, or that it is nested too deeply. -/
structure IsReported [Platform] (options : ProcessOptions) (content : Text) (outcome : Outcome) :
    Prop where
  output : outcome.output ≠ none →
    outcome.status = .success ∧ options.write = true ∧ options.check = false
  error : outcome.status = .error →
    (∃ e, Json.parseDocument (readText content) = .error e ∧
      outcome.message = some ("Parse error: " ++ e.documentMessage)) ∨
    ∃ v, Json.parseDocument (readText content) = .ok v ∧
      sortFromDepth v options.sortFrom options.sortOrder = .error .nestedTooDeeply ∧
      outcome.message = some Json.nestedTooDeeply

/-- Without a layout a document value that can be sorted cannot be printed. -/
theorem processValue_of_layout_error [Platform] {fault : Json.LayoutFault}
    (hlayout : Json.Layout.of options.tabs options.indent = .error fault)
    (hdepth : 0 ≤ options.sortFrom) (hv : v.IsDocument) :
    processValue options content v =
      if Platform.maxSortedNesting < v.nesting then .ok .tooDeep
      else .error (.print (.layout fault)) := by
  have hsort := sortFromDepth_of_nonneg hv hdepth options.sortOrder
  split
  · next hdeep =>
    rw [if_pos hdeep] at hsort
    simp only [processValue, hsort]
  · next hdeep =>
    rw [if_neg hdeep] at hsort
    simp only [processValue, hsort, Json.formatWith, hlayout]
    rfl

/-- A document value has an outcome, unless it can be sorted and there is no text of the
indentation. -/
theorem exists_outcome_of_isDocument [Platform] (hwidth : options.tabs = true ∨ 1 ≤ options.indent)
    (hdepth : 0 ≤ options.sortFrom) (hv : v.IsDocument) (content : Text) :
    (∃ outcome, processValue options content v = .ok outcome) ∨
      options.tabs = false ∧ Json.memoryLimit ≤ options.indent ∧
      v.nesting ≤ Platform.maxSortedNesting ∧
        processValue options content v
          = .error (.print (.layout (Json.widthFault options.indent))) := by
  by_cases hsmall : options.tabs = true ∨ options.indent < Json.memoryLimit
  · obtain ⟨layout, hlayout⟩ := Json.Layout.exists_of hwidth hsmall
    exact Or.inl ⟨_, processValue_of_isDocument hlayout hdepth hv⟩
  · obtain ⟨htabs, hwide⟩ := not_or.mp hsmall
    rw [Bool.not_eq_true] at htabs
    rw [Int.not_lt] at hwide
    have hlayout : Json.Layout.of options.tabs options.indent
        = .error (Json.widthFault options.indent) := by
      rw [htabs]
      exact Json.Layout.of_wide hwide
    rw [processValue_of_layout_error hlayout hdepth hv]
    split
    · exact Or.inl ⟨_, rfl⟩
    · next hdeep => exact Or.inr ⟨htabs, hwide, Nat.not_lt.mp hdeep, rfl⟩

/-- What comes of a document that is read is reported. -/
theorem isReported_of_processValue [Platform]
    (hread : Json.parseDocument (readText content) = .ok v)
    {outcome : Outcome} (h : processValue options content v = .ok outcome) :
    IsReported options content outcome := by
  rcases processValue_cases h with ⟨rfl, hdeep⟩ |
    ⟨sorted, printed, -, -, rfl | rfl | ⟨rfl, hwrite, hcheck⟩⟩
  · exact ⟨fun houtput => absurd rfl houtput, fun _ => Or.inr ⟨v, hread, hdeep, rfl⟩⟩
  · exact ⟨fun houtput => absurd rfl houtput, fun herror => by cases herror⟩
  · exact ⟨fun houtput => absurd rfl houtput, fun herror => by cases herror⟩
  · exact ⟨fun _ => ⟨rfl, hwrite, hcheck⟩, fun herror => by cases herror⟩

/-! ## Outcomes -/

/-- Every document has an outcome, which says why a document is refused and writes only where that
is asked for, as long as there is a text of the indentation.  Where there is none, a document that
is read and can be sorted fails for that reason, whatever it holds.  Every value that is read can be
sorted and printed, or is nested too deeply to be sorted. -/
theorem exists_outcome_of_processText [Platform] (options : ProcessOptions)
    (hdepth : 0 ≤ options.sortFrom)
    (hwidth : options.tabs = true ∨ 1 ≤ options.indent) (content : Text) :
    ((∃ outcome, processText options content = .ok outcome ∧ IsReported options content outcome) ∨
      (options.tabs = false ∧ Json.memoryLimit ≤ options.indent ∧
        (∃ v, ReadAs options.force content v ∧ v.nesting ≤ Platform.maxSortedNesting) ∧
        processText options content
          = .error (.print (.layout (Json.widthFault options.indent))))) ∧
      ∀ text v, Json.parseDocument text = .ok v →
        IsHandled options.sortFrom options.sortOrder v := by
  refine ⟨?_, fun text v hread =>
    isHandled_of_isDocument (Json.isDocument_of_parseDocument hread).1 hdepth _⟩
  by_cases h : ∃ v, ReadAs options.force content v
  · obtain ⟨v, hv⟩ := h
    obtain ⟨hdocument, -⟩ := Json.isDocument_of_parseDocument hv.2
    rw [processText_of_readAs hv]
    rcases exists_outcome_of_isDocument hwidth hdepth hdocument content with
      ⟨outcome, houtcome⟩ | ⟨htabs, hwide, hnesting, hfault⟩
    · exact Or.inl ⟨outcome, houtcome, isReported_of_processValue hv.2 houtcome⟩
    · exact Or.inr ⟨htabs, hwide, ⟨v, hv, hnesting⟩, hfault⟩
  · obtain ⟨outcome, haside, hprocess⟩ := exists_outcome_of_not_readAs (not_exists.mp h)
    refine Or.inl ⟨outcome, hprocess options rfl, ?_⟩
    rcases haside with rfl | ⟨e, hread, rfl⟩
    · exact ⟨fun houtput => absurd rfl houtput, fun herror => by cases herror⟩
    · exact ⟨fun houtput => absurd rfl houtput, fun _ => Or.inl ⟨e, hread, rfl⟩⟩

end Process

/-- The options of a check with an indentation of which there is no text. -/
def wideCheck : ProcessOptions where
  check := true
  write := true
  force := false
  tabs := false
  indent := Json.lengthLimit
  sortFrom := 0
  sortOrder := []

/-- A document has an outcome also with the widest indentation of which there is a text. -/
theorem exists_outcome_of_processText_widest :
    (0 : Int) ≤ 0 ∧ 1 ≤ Json.memoryLimit - 1 ∧
      ∃ outcome, processText { wideCheck with indent := Json.memoryLimit - 1 }
          "[-2e308, \"\\ud800\", 0.1]".toList = .ok outcome ∧
        IsReported { wideCheck with indent := Json.memoryLimit - 1 }
          "[-2e308, \"\\ud800\", 0.1]".toList outcome := by
  have houtcome := exists_outcome_of_processText { wideCheck with indent := Json.memoryLimit - 1 }
    (by decide) (Or.inr (by decide)) "[-2e308, \"\\ud800\", 0.1]".toList
  refine ⟨by decide, by decide, houtcome.1.resolve_right ?_⟩
  rintro ⟨-, hwide, -⟩
  exact absurd hwide (by decide)

/-- A document that is in order has no outcome where there is no text of the indentation. -/
theorem processText_wideCheck :
    0 ≤ wideCheck.sortFrom ∧ 1 ≤ wideCheck.indent ∧
      processText wideCheck "null\n".toList = .error (.print (.layout .noLength)) ∧
      ¬ ∃ outcome, processText wideCheck "null\n".toList = .ok outcome := by
  have hdocument : Value.null.IsDocument := .scalar trivial trivial
  have hfault : processText wideCheck "null\n".toList = .error (.print (.layout .noLength)) := by
    refine (processText_printDocument .tabs hdocument (by decide)).trans ?_
    rw [processValue_of_layout_error (Json.Layout.of_wide (by decide)) (by decide) hdocument]
    rfl
  refine ⟨by decide, by decide, hfault, ?_⟩
  rintro ⟨outcome, h⟩
  rw [hfault] at h
  cases h

end KeyOrder
