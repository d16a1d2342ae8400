import KeyOrder.Proofs.Arrangement
import KeyOrder.Proofs.RoundTrip
import KeyOrder.Proofs.Uncommented
import KeyOrder.Run.Process
/-!
# New texts are settled

The text that a document gets is printed from a sorted document value.  It holds no
comments, it is read as that value, the value is sorted again to itself, and is
printed again as the same text; so there is nothing left to do about it.
-/

namespace KeyOrder

/-! ## Sorting and printing document values -/

/-- Sorting a document value gives a document value that sorting leaves alone. -/
theorem sortFromDepth_of_eq_ok [Platform] {v r : Value} (hv : v.IsDocument) {sortFrom : Int}
    {order : List CodeText} (h : sortFromDepth v sortFrom order = .ok r) :
    r.IsDocument ∧ r.nesting = v.nesting ∧ sortFromDepth r sortFrom order = .ok r := by
  have hnonneg : 0 ≤ sortFrom := by
    by_contra hneg
    rw [sortFromDepth, if_pos (Int.not_le.mp hneg)] at h
    cases h
  obtain ⟨depth, rfl⟩ := Int.eq_ofNat_of_zero_le hnonneg
  rw [sortFromDepth_of_isTree hv] at h
  split at h
  · cases h
  · next hdeep =>
    obtain rfl := Except.ok.inj h
    have hnesting := nesting_sortValue ⟨depth, order⟩ hv 0
    have hsorted := hv.sortValue ⟨depth, order⟩ 0
    refine ⟨hsorted, hnesting, ?_⟩
    rw [sortFromDepth_of_isTree hsorted, hnesting, if_neg hdeep, sortValue_sortValue _ hv]

/-- A document value is printed with an indentation in the layout that the indentation asks for. -/
theorem exists_layout_of_formatWith {tabs : Bool} {indent : Int} {v : Value} {text : Text}
    (hv : v.IsDocument) (h : Json.formatWith tabs indent v = .ok text) :
    ∃ layout, Json.Layout.of tabs indent = .ok layout ∧ text = Json.printDocument layout v := by
  unfold Json.formatWith at h
  split at h
  · cases h
  · next layout hlayout =>
    rw [Json.format_of_isDocument layout hv] at h
    exact ⟨layout, hlayout, (Except.ok.inj h).symm⟩

/-! ## New texts -/

section Process

variable {options : ProcessOptions} {content text : Text} {v sorted : Value} {outcome : Outcome}

/-- A value that can be sorted and printed is compared in its sorted form: in check mode with its
own print, else with the text that it was read from. -/
theorem processValue_of_printed [Platform]
    (hsorted : sortFromDepth v options.sortFrom options.sortOrder = .ok sorted)
    (hprinted : Json.formatWith options.tabs options.indent sorted = .ok text) :
    processValue options content v =
      if options.check then
        ((Json.formatWith options.tabs options.indent v).mapError .print).map fun asRead =>
          if text = asRead then .settled else .unsorted
      else .ok (if options.write && text != content then .updated text else .settled) := by
  simp only [processValue, hsorted, hprinted]
  cases options.check with
  | false => rfl
  | true => cases Json.formatWith options.tabs options.indent v <;> rfl

/-- What can come of a value: it is nested too deeply, or it is sorted and printed; its print is
then a new text only where that is asked for. -/
theorem processValue_cases [Platform] (h : processValue options content v = .ok outcome) :
    (outcome = .tooDeep ∧
      sortFromDepth v options.sortFrom options.sortOrder = .error .nestedTooDeeply) ∨
    ∃ sorted printed, sortFromDepth v options.sortFrom options.sortOrder = .ok sorted ∧
      Json.formatWith options.tabs options.indent sorted = .ok printed ∧
      (outcome = .settled ∨ outcome = .unsorted ∨
        outcome = .updated printed ∧ options.write = true ∧ options.check = false) := by
  cases hsorted : sortFromDepth v options.sortFrom options.sortOrder with
  | error e =>
      simp only [processValue, hsorted] at h
      cases e with
      | nestedTooDeeply => exact Or.inl ⟨(Except.ok.inj h).symm, rfl⟩
      | _ => cases h
  | ok sorted =>
      cases hprinted : Json.formatWith options.tabs options.indent sorted with
      | error e =>
          simp only [processValue, hsorted, hprinted] at h
          cases h
      | ok printed =>
          refine Or.inr ⟨sorted, printed, rfl, hprinted, ?_⟩
          rw [processValue_of_printed hsorted hprinted] at h
          split at h
          · cases hread : Json.formatWith options.tabs options.indent v with
            | error e => rw [hread] at h; cases h
            | ok asRead =>
                -- In check mode there is no new text.
                rw [hread] at h
                have houtcome := Except.ok.inj h
                dsimp only at houtcome
                split at houtcome
                · exact Or.inl houtcome.symm
                · exact Or.inr (Or.inl houtcome.symm)
          · next hcheck =>
            have houtcome := Except.ok.inj h
            split at houtcome
            · next hwrite =>
              exact Or.inr (Or.inr ⟨houtcome.symm, (Bool.and_eq_true_iff.mp hwrite).1,
                Bool.eq_false_iff.mpr hcheck⟩)
            · exact Or.inl houtcome.symm

/-- A new text is the print of the sorted form of the value that was read. -/
theorem exists_sorted_of_processValue [Platform]
    (h : processValue options content v = .ok (.updated text)) :
    ∃ sorted, sortFromDepth v options.sortFrom options.sortOrder = .ok sorted ∧
      Json.formatWith options.tabs options.indent sorted = .ok text := by
  rcases processValue_cases h with ⟨hdeep, -⟩ |
    ⟨sorted, printed, hsorted, hprinted, hsame | hsame | ⟨hsame, -⟩⟩
  · cases hdeep
  · cases hsame
  · cases hsame
  · rw [Outcome.updated.inj hsame]
    exact ⟨sorted, hsorted, hprinted⟩

/-- A value that sorting leaves alone is settled by its own print. -/
theorem processValue_eq_settled [Platform]
    (hsorted : sortFromDepth v options.sortFrom options.sortOrder = .ok v)
    (hprinted : Json.formatWith options.tabs options.indent v = .ok text) :
    processValue options text v = .ok .settled := by
  rw [processValue_of_printed hsorted hprinted]
  split
  · rw [hprinted]
    show Except.ok (if text = text then Outcome.settled else Outcome.unsorted) = _
    rw [if_pos rfl]
  · rw [bne_self_eq_false, Bool.and_false, if_neg Bool.false_ne_true]

/-- A new text is the print of a document value, nested no more deeply than containers may be open,
that sorting leaves alone. -/
theorem exists_sorted_of_processText [Platform]
    (h : processText options content = .ok (.updated text)) :
    ∃ v, v.IsDocument ∧ v.nesting ≤ Platform.maxDepth ∧
      sortFromDepth v options.sortFrom options.sortOrder = .ok v ∧
      Json.formatWith options.tabs options.indent v = .ok text := by
  simp only [processText] at h
  split at h
  · cases h
  split at h
  · cases h
  · next v hread =>
    obtain ⟨sorted, hsorted, hprinted⟩ := exists_sorted_of_processValue h
    obtain ⟨hdocument, hnesting⟩ := Json.isDocument_of_parseDocument hread
    obtain ⟨hdocument', hnesting', hagain⟩ := sortFromDepth_of_eq_ok hdocument hsorted
    exact ⟨sorted, hdocument', hnesting'.trans_le hnesting, hagain, hprinted⟩

/-- The print of a document value holds no comments, and is read as that value. -/
theorem processText_printDocument [Platform] (layout : Json.Layout) (hv : v.IsDocument)
    (hnesting : v.nesting ≤ Platform.maxDepth) :
    processText options (Json.printDocument layout v)
      = processValue options (Json.printDocument layout v) v := by
  simp only [processText, Comment.detect_printDocument layout hv, Bool.false_and,
    Bool.false_eq_true, if_false, Json.parseDocument_printDocument layout hv hnesting]

/-- A new text is settled whether it is checked or not, may be written or not, and whether comments
may be lost or not. -/
theorem processText_updated [Platform] (h : processText options content = .ok (.updated text))
    (check write force : Bool) :
    processText { options with check, write, force } text = .ok .settled := by
  obtain ⟨v, hdocument, hnesting, hsorted, hprinted⟩ := exists_sorted_of_processText h
  obtain ⟨layout, -, rfl⟩ := exists_layout_of_formatWith hdocument hprinted
  rw [processText_printDocument layout hdocument hnesting]
  exact processValue_eq_settled hsorted hprinted

/-- Only a new text is written. -/
theorem Outcome.eq_updated_of_output (h : outcome.output = some text) :
    outcome = .updated text := by
  cases outcome with
  | updated printed => exact congrArg _ (Option.some.inj h)
  | _ => cases h

/-- The text that a document gets is a fixed point: it is settled whether it is checked or not, may
be written or not, and whether comments may be lost or not. -/
theorem processText_output [Platform] (h : processText options content = .ok outcome)
    (houtput : outcome.output = some text) (check write force : Bool) :
    ∃ outcome', processText { options with check, write, force } text = .ok outcome' ∧
      outcome'.status = .success ∧ outcome'.message = none ∧ outcome'.output = none := by
  rw [Outcome.eq_updated_of_output houtput] at h
  exact ⟨.settled, processText_updated h check write force, rfl, rfl, rfl⟩

end Process

/-- A document with slashes in a string gets a text that a check then finds in order. -/
theorem processText_output_slashes :
    ∃ text outcome,
      processText ⟨false, true, false, false, 1, 0, []⟩
        "\x7b\n\t\"b\": \"//\",\n\t\"a\": null\n\x7d\n".toList = .ok (.updated text) ∧
      processText ⟨true, true, false, false, 1, 0, []⟩ text = .ok outcome ∧
      outcome.status = .success ∧ outcome.message = none ∧ outcome.output = none := by
  have hdocument : (Value.map (stringMembers
      [(codeText "b", .str (codeText "//")), (codeText "a", .null)])).IsDocument := by
    refine .map (by decide) (by decide) ?_
    simp only [List.forall_mem_cons]
    have hslashes : (codeText "//").IsJoined := by decide
    exact ⟨.scalar trivial hslashes, .scalar trivial trivial, List.forall_mem_nil _⟩
  have hprocess : processText ⟨false, true, false, false, 1, 0, []⟩
      (Json.printDocument .tabs (.map (stringMembers
        [(codeText "b", .str (codeText "//")), (codeText "a", .null)])))
      = .ok (.updated (Json.printDocument (.spaces 0) (.map (stringMembers
        [(codeText "a", .null), (codeText "b", .str (codeText "//"))])))) := by
    rw [processText_printDocument .tabs hdocument (by decide),
      processValue_of_printed (by cbv) (by rfl)]
    rfl
  obtain ⟨outcome, hagain, hstatus, hmessage, houtput⟩ :=
    processText_output hprocess rfl true true false
  exact ⟨_, outcome, hprocess, hagain, hstatus, hmessage, houtput⟩

end KeyOrder
