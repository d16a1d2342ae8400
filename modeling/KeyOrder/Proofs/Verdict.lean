import KeyOrder.Proofs.FixedPoint
/-!
# What a check finds

A check compares the print of a document with that of its sorted form.  It finds
fault exactly with documents in which the keys of some mapping that is to be sorted
are not in order, whatever the layout is and whatever blanks stand between the
tokens of the document; and it leaves aside the same documents, for the same
reasons, as a rewrite does.
-/

namespace KeyOrder

/-! ## Mappings within values -/

/-- A mapping with the given keys stands at the depth `mapping` within a value that itself stands at
a depth. -/
inductive HasMapping (mapping : Nat) (keys : List CodeText) : Nat → Value → Prop
  /-- The value is the mapping. -/
  | here {members : List (CodeText × Value)} (h : members.map Prod.fst = keys) :
      HasMapping mapping keys mapping (.map (stringMembers members))
  /-- The mapping stands within an item of a list. -/
  | item {depth : Nat} {items : List Value} {v : Value} (hv : v ∈ items)
      (h : HasMapping mapping keys depth v) : HasMapping mapping keys depth (.list items)
  /-- The mapping stands within the value of a member, one level deeper. -/
  | member {depth : Nat} {members : List (CodeText × Value)} {m : CodeText × Value}
      (hm : m ∈ members) (h : HasMapping mapping keys (depth + 1) m.2) :
      HasMapping mapping keys depth (.map (stringMembers members))

/-- A mapping within a mapping is that mapping itself, or stands within the value of a member. -/
theorem HasMapping.of_map {mapping depth : Nat} {keys : List CodeText}
    {members : List (CodeText × Value)}
    (h : HasMapping mapping keys depth (.map (stringMembers members))) :
    (mapping = depth ∧ members.map Prod.fst = keys) ∨
      ∃ m ∈ members, HasMapping mapping keys (depth + 1) m.2 := by
  generalize hv : Value.map (stringMembers members) = v at h
  cases h with
  | here h =>
      obtain rfl := stringMembers_injective (Value.map.inj hv)
      exact Or.inl ⟨rfl, h⟩
  | item _ _ => cases hv
  | member hm h =>
      obtain rfl := stringMembers_injective (Value.map.inj hv)
      exact Or.inr ⟨_, hm, h⟩

/-- The keys of a mapping at a depth stand in the order that is due there: the custom one at depth
zero, and that by code elsewhere. -/
def Scope.InOrder (scope : Scope) (depth : Nat) (keys : List CodeText) : Prop :=
  keys.Pairwise (if depth = 0 then Precedes scope.order else CodeText.Before)

/-- Some mapping of a value that is to be sorted has its keys out of order. -/
def Scope.OutOfOrder (scope : Scope) (v : Value) : Prop :=
  ∃ depth keys, HasMapping depth keys 0 v ∧ scope.sortFrom ≤ depth ∧ ¬ scope.InOrder depth keys

/-- A value is its own sorted form if all mappings that are to be sorted have their keys in
order. -/
theorem arranged_self_iff {good : Value → Prop} {scope : Scope} {v : Value} (hv : v.IsTree good)
    {depth : Nat} :
    Arranged scope depth v v ↔ ∀ mapping keys, HasMapping mapping keys depth v →
      scope.sortFrom ≤ mapping → scope.InOrder mapping keys := by
  induction hv generalizing depth with
  | scalar hscalar _ =>
      refine ⟨fun _ mapping keys hmapping => ?_, fun _ => .scalar hscalar⟩
      cases hmapping <;> exact hscalar.elim
  | @list items _ ih =>
      constructor
      · intro h mapping keys hmapping
        cases h with
        | scalar hscalar => exact hscalar.elim
        | list _ h =>
            cases hmapping with
            | item hv hmapping =>
                obtain ⟨i, hi, rfl⟩ := List.getElem_of_mem hv
                exact (ih _ hv).mp (h i hi hi) mapping keys hmapping
      · intro h
        refine .list rfl fun i hi _ => ?_
        have hmem := List.getElem_mem hi
        exact (ih _ hmem).mpr fun mapping keys hmapping => h mapping keys (.item hmem hmapping)
  | @map members hkeys _ _ ih =>
      constructor
      · intro h mapping keys hmapping
        obtain ⟨members', hsame, harranged, h⟩ := h.of_map
        obtain rfl := stringMembers_injective (Value.map.inj hsame)
        rcases hmapping.of_map with ⟨rfl, rfl⟩ | ⟨m, hm, hmapping⟩
        · exact harranged.ordered
        · exact (ih m hm).mp (h m hm m hm rfl) mapping keys hmapping
      · intro h
        refine .map ⟨.refl _, fun _ => rfl, h depth _ (.here rfl)⟩ fun m hm m' hm' hkey => ?_
        obtain rfl := eq_of_mem_of_key_eq hkeys hm hm' hkey
        exact (ih m hm).mpr fun mapping keys hmapping => h mapping keys (.member hm hmapping)

/-- Sorting changes a value exactly if some mapping that is to be sorted has its keys out of
order. -/
theorem sortValue_ne_iff_outOfOrder {good : Value → Prop} {scope : Scope} {v : Value}
    (hv : v.IsTree good) : sortValue scope 0 v ≠ v ↔ scope.OutOfOrder v := by
  rw [ne_comm, ne_eq, ← arranged_iff hv, arranged_self_iff hv]
  unfold Scope.OutOfOrder
  push Not
  rfl

/-! ## Documents that are read -/

/-- The text of a document that is read: if comments are found in it, what is left without them. -/
def readText (content : Text) : Text :=
  if Comment.detect content then Comment.strip content else content

/-- A document holds a value, and comments that are found in it may be lost. -/
def ReadAs [Platform] (force : Bool) (content : Text) (v : Value) : Prop :=
  (Comment.detect content = true → force = true) ∧ Json.parseDocument (readText content) = .ok v

/-- What comes of a document that is read is what comes of its value. -/
theorem processText_of_readAs [Platform] {options : ProcessOptions} {content : Text} {v : Value}
    (h : ReadAs options.force content v) :
    processText options content = processValue options content v := by
  obtain ⟨hforce, hread⟩ := h
  have hgo : (Comment.detect content && !options.force) = false := by
    cases hdetect : Comment.detect content with
    | false => rfl
    | true => rw [hforce hdetect]; rfl
  rw [readText] at hread
  simp only [processText, hgo, Bool.false_eq_true, if_false, hread]

/-- A document that is not read has comments or cannot be decoded, and it is left aside for the same
reason whatever the other options are. -/
theorem exists_outcome_of_not_readAs [Platform] {force : Bool} {content : Text}
    (h : ∀ v, ¬ ReadAs force content v) :
    ∃ outcome : Outcome,
      (outcome = .commented ∨
        ∃ e, Json.parseDocument (readText content) = .error e ∧ outcome = .malformed e) ∧
      ∀ options : ProcessOptions, options.force = force →
        processText options content = .ok outcome := by
  by_cases hforce : Comment.detect content = true → force = true
  · have hgo : (Comment.detect content && !force) = false := by
      cases hdetect : Comment.detect content with
      | false => rfl
      | true => rw [hforce hdetect]; rfl
    cases hread : Json.parseDocument (readText content) with
    | ok v => exact absurd ⟨hforce, hread⟩ (h v)
    | error e =>
        refine ⟨.malformed e, Or.inr ⟨e, rfl, rfl⟩, ?_⟩
        rintro options rfl
        rw [readText] at hread
        simp only [processText, hgo, Bool.false_eq_true, if_false, hread]
  · obtain ⟨hdetect, hkept⟩ := Classical.not_imp.mp hforce
    refine ⟨.commented, Or.inl rfl, ?_⟩
    rintro options rfl
    simp [processText, hdetect, hkept]

/-- The outcomes of a check and of a rewrite of the same document go together. -/
structure Agree (checked written : Outcome) : Prop where
  skipped_iff : checked.status = .skipped ↔ written.status = .skipped
  error_iff : checked.status = .error ↔ written.status = .error
  message_eq : checked.status = .skipped ∨ checked.status = .error →
    checked.message = written.message
  output : checked.status = .changed → ∃ text, written.output = some text

/-- Documents that are left aside alike go together. -/
theorem Agree.of_ne_changed {outcome : Outcome} (h : outcome.status ≠ .changed) :
    Agree outcome outcome where
  skipped_iff := Iff.rfl
  error_iff := Iff.rfl
  message_eq _ := rfl
  output hchanged := absurd hchanged h

/-- Documents that are in order, or are not and get a new text, go together. -/
theorem Agree.of_success {checked written : Outcome} (hwritten : written.status = .success)
    (h : checked.status = .success ∨
      checked.status = .changed ∧ ∃ text, written.output = some text) :
    Agree checked written := by
  rcases h with hchecked | ⟨hchecked, houtput⟩
  · refine ⟨?_, ?_, ?_, ?_⟩ <;> simp [hchecked, hwritten]
  · refine ⟨?_, ?_, ?_, fun _ => houtput⟩ <;> simp [hchecked, hwritten]

/-! ## Checks -/

section Check

variable {options : ProcessOptions} {layout : Json.Layout} {content : Text} {v : Value}

/-- A document value is compared in its sorted form unless it is nested too deeply. -/
theorem processValue_of_isDocument [Platform]
    (hlayout : Json.Layout.of options.tabs options.indent = .ok layout)
    (hdepth : 0 ≤ options.sortFrom) (hv : v.IsDocument) :
    processValue options content v = .ok (
      if Platform.maxSortedNesting < v.nesting then .tooDeep
      else
        let printed := Json.printDocument layout
          (sortValue ⟨options.sortFrom.toNat, options.sortOrder⟩ 0 v)
        if options.check then
          if printed = Json.printDocument layout v then .settled else .unsorted
        else if options.write && printed != content then .updated printed else .settled) := by
  have hsort := sortFromDepth_of_nonneg hv hdepth options.sortOrder
  have hprint : ∀ w : Value, w.IsDocument →
      Json.formatWith options.tabs options.indent w = .ok (Json.printDocument layout w) := by
    intro w hw
    rw [Json.formatWith, hlayout]
    exact Json.format_of_isDocument layout hw
  by_cases hdeep : Platform.maxSortedNesting < v.nesting
  · rw [if_pos hdeep] at hsort ⊢
    simp only [processValue, hsort]
  · rw [if_neg hdeep] at hsort ⊢
    rw [processValue_of_printed hsort (hprint _ (hv.sortValue _ 0)), hprint v hv]
    cases options.check <;> rfl

/-- A check finds fault with a value exactly if it can be sorted and some mapping that is to be
sorted has its keys out of order; and it goes together with a rewrite. -/
theorem exists_outcomes_of_isDocument [Platform]
    (hlayout : Json.Layout.of options.tabs options.indent = .ok layout)
    (hdepth : 0 ≤ options.sortFrom) (hv : v.IsDocument) (hnesting : v.nesting ≤ Platform.maxDepth)
    (hread : Json.parseDocument (readText content) = .ok v) :
    ∃ checked written,
      processValue { options with check := true } content v = .ok checked ∧
      processValue { options with check := false, write := true } content v = .ok written ∧
      Agree checked written ∧
      (checked.status = .changed ↔ v.nesting ≤ Platform.maxSortedNesting ∧
        Scope.OutOfOrder ⟨options.sortFrom.toNat, options.sortOrder⟩ v) := by
  refine ⟨_, _, processValue_of_isDocument hlayout hdepth hv,
    processValue_of_isDocument hlayout hdepth hv, ?_⟩
  by_cases hdeep : Platform.maxSortedNesting < v.nesting
  · simp only [if_pos hdeep]
    refine ⟨.of_ne_changed (by decide), iff_of_false (by decide) ?_⟩
    rintro ⟨hle, -⟩
    exact absurd hdeep (not_lt.mpr hle)
  · simp only [if_neg hdeep, if_true, Bool.false_eq_true, if_false, Bool.true_and, bne_iff_ne]
    rw [and_iff_right (not_lt.mp hdeep), ← sortValue_ne_iff_outOfOrder hv]
    generalize hsorted : sortValue ⟨options.sortFrom.toNat, options.sortOrder⟩ 0 v = sorted
    have hdocument : sorted.IsDocument := hsorted ▸ hv.sortValue _ 0
    have hnesting' : sorted.nesting ≤ Platform.maxDepth := by
      rw [← hsorted, nesting_sortValue _ hv]
      exact hnesting
    by_cases hsame : Json.printDocument layout sorted = Json.printDocument layout v
    · have heq := Json.printDocument_inj hdocument hnesting' hv hnesting hsame
      rw [if_pos hsame]
      refine ⟨.of_success ?_ (Or.inl rfl), iff_of_false (by decide) fun hne => hne heq⟩
      split <;> rfl
    · -- The document is not its sorted print, as that is read as the sorted value.
      have hother : Json.printDocument layout sorted ≠ content := by
        rintro rfl
        rw [readText, Comment.detect_printDocument layout hdocument, if_neg Bool.false_ne_true,
          Json.parseDocument_printDocument layout hdocument hnesting'] at hread
        rw [Except.ok.inj hread] at hsame
        exact hsame rfl
      rw [if_neg hsame, if_pos hother]
      refine ⟨.of_success rfl (Or.inr ⟨rfl, _, rfl⟩), iff_of_true rfl ?_⟩
      rintro rfl
      exact hsame rfl

end Check

/-! ## Blanks between tokens -/

namespace Json

/-- The tokens of a document that has no others. -/
def Tokens.row : Tokens → Option (List Token)
  | stop .ending _ => some []
  | stop _ _ => none
  | cons token _ rest => rest.row.map (token :: ·)

/-- What a row of tokens is read as from a place on. -/
def readRow [Platform] (dialect : Dialect) : Place → List Token → Option Value
  | .after v [], [] => some v
  | _, [] => none
  | place, token :: row =>
    match place.next dialect token with
    | some (.ok place') => readRow dialect place' row
    | _ => none

/-- What is read depends on the tokens alone. -/
theorem readTokens_eq_ok_iff [Platform] {dialect : Dialect} {text : Text} {place : Place}
    {tokens : Tokens} {v : Value} :
    readTokens dialect text place tokens = .ok v ↔
      ∃ row, tokens.row = some row ∧ readRow dialect place row = some v := by
  induction tokens generalizing place with
  | stop reason source =>
      rw [readTokens]
      cases reason with
      | ending =>
          rw [Tokens.row]
          cases place with
          | after w outer => cases outer <;> simp [Place.finish, readRow]
          | _ => simp [Place.finish, readRow]
      | unknown | broken fault =>
          refine iff_of_false ?_ (by rintro ⟨row, hrow, -⟩; cases hrow)
          unfold Place.finish
          split
          · next hfinish =>
            split at hfinish
            · next heq => cases heq
            · split at hfinish <;> cases hfinish
            · cases hfinish
          · intro h
            cases h
  | cons token source rest ih =>
      rw [readTokens, Tokens.row]
      constructor
      · intro h
        split at h
        · next place' hnext =>
          obtain ⟨row, hrow, hread⟩ := ih.mp h
          refine ⟨token :: row, by rw [hrow, Option.map_some], ?_⟩
          rw [readRow, hnext]
          exact hread
        · cases h
        · cases h
      · rintro ⟨row, hrow, hread⟩
        obtain ⟨row, hrest, rfl⟩ := Option.map_eq_some_iff.mp hrow
        rw [readRow] at hread
        split at hread
        · next place' hnext =>
          rw [hnext]
          exact ih.mpr ⟨row, hrest, hread⟩
        · cases hread

end Json

/-- The tokens of a document without its comments, if it is made of tokens. -/
def documentTokens (content : Text) : Option (List Json.Token) :=
  (Json.Tokens.ofText (readText content)).row

/-- Documents with the same tokens hold the same value. -/
theorem parseDocument_eq_ok_iff_of_tokens [Platform] {content content' : Text}
    (h : documentTokens content' = documentTokens content) (v : Value) :
    Json.parseDocument (readText content') = .ok v ↔
      Json.parseDocument (readText content) = .ok v := by
  unfold documentTokens at h
  rw [Json.parseDocument_eq_ok_iff, Json.parseDocument_eq_ok_iff, Json.readFrom, Json.readFrom,
    Json.readTokens_eq_ok_iff, Json.readTokens_eq_ok_iff, h]

/-! ## The verdict -/

/-- A check and a rewrite of a document go together.  The check finds fault exactly if the document
is read as a value that is not nested too deeply and in which some mapping that is to be sorted has
its keys out of order. -/
theorem exists_outcomes_of_check [Platform] (options : ProcessOptions) {layout : Json.Layout}
    (hlayout : Json.Layout.of options.tabs options.indent = .ok layout)
    (hdepth : 0 ≤ options.sortFrom) (content : Text) :
    ∃ checked written,
      processText { options with check := true } content = .ok checked ∧
      processText { options with check := false, write := true } content = .ok written ∧
      Agree checked written ∧
      (checked.status = .changed ↔ ∃ v, ReadAs options.force content v ∧
        v.nesting ≤ Platform.maxSortedNesting ∧
        Scope.OutOfOrder ⟨options.sortFrom.toNat, options.sortOrder⟩ v) := by
  by_cases h : ∃ v, ReadAs options.force content v
  · obtain ⟨v, hv⟩ := h
    obtain ⟨hdocument, hnesting⟩ := Json.isDocument_of_parseDocument hv.2
    obtain ⟨checked, written, hchecked, hwritten, hagree, hchanged⟩ :=
      exists_outcomes_of_isDocument hlayout hdepth hdocument hnesting hv.2
    have hprocess : ∀ options' : ProcessOptions, options'.force = options.force →
        processText options' content = processValue options' content v := by
      intro options' hforce
      rw [← hforce] at hv
      exact processText_of_readAs hv
    refine ⟨checked, written, (hprocess { options with check := true } rfl).trans hchecked,
      (hprocess { options with check := false, write := true } rfl).trans hwritten, hagree, ?_⟩
    rw [hchanged]
    constructor
    · exact fun hcond => ⟨v, hv, hcond⟩
    · rintro ⟨w, hw, hcond⟩
      obtain rfl := Except.ok.inj (hv.2.symm.trans hw.2)
      exact hcond
  · rw [not_exists] at h
    obtain ⟨outcome, haside, hprocess⟩ := exists_outcome_of_not_readAs h
    have hne : outcome.status ≠ .changed := by
      rcases haside with rfl | ⟨e, -, rfl⟩
      · exact Status.noConfusion
      · exact Status.noConfusion
    refine ⟨outcome, outcome, hprocess _ rfl, hprocess _ rfl, .of_ne_changed hne, ?_⟩
    exact iff_of_false hne fun ⟨v, hv, _⟩ => h v hv

/-- A check gives the same verdict as a look at the keys of the value that the document is read as,
and it leaves aside the same documents as a rewrite and for the same reason; where it finds fault
the rewrite has a new text.  Neither the layout nor blanks between tokens count for the verdict. -/
theorem processText_check_status [Platform] (options : ProcessOptions) {layout : Json.Layout}
    (hlayout : Json.Layout.of options.tabs options.indent = .ok layout)
    (hdepth : 0 ≤ options.sortFrom) (content : Text) :
    ∃ checked written,
      processText { options with check := true } content = .ok checked ∧
      processText { options with check := false, write := true } content = .ok written ∧
      Agree checked written ∧
      (checked.status = .changed ↔ ∃ v, ReadAs options.force content v ∧
        v.nesting ≤ Platform.maxSortedNesting ∧
        Scope.OutOfOrder ⟨options.sortFrom.toNat, options.sortOrder⟩ v) ∧
      ∀ content' tabs indent layout', Json.Layout.of tabs indent = .ok layout' →
        (options.force = true ∨ Comment.detect content' = Comment.detect content) →
        documentTokens content' = documentTokens content →
        ∃ checked', processText { options with check := true, tabs, indent } content'
            = .ok checked' ∧
          (checked'.status = .changed ↔ checked.status = .changed) := by
  obtain ⟨checked, written, hchecked, hwritten, hagree, hchanged⟩ :=
    exists_outcomes_of_check options hlayout hdepth content
  refine ⟨checked, written, hchecked, hwritten, hagree, hchanged, ?_⟩
  intro content' tabs indent layout' hlayout' hcomments htokens
  obtain ⟨checked', -, hchecked', -, -, hchanged'⟩ :=
    exists_outcomes_of_check { options with tabs, indent } hlayout' hdepth content'
  refine ⟨checked', hchecked', ?_⟩
  rw [hchanged, hchanged']
  refine exists_congr fun v => and_congr_left fun _ => ?_
  unfold ReadAs
  rw [parseDocument_eq_ok_iff_of_tokens htokens]
  refine and_congr_left fun _ => ?_
  rcases hcomments with hforce | hdetect
  · exact iff_of_true (fun _ => hforce) fun _ => hforce
  · rw [hdetect]

/-- A check finds fault with a document whose keys are swapped, and a rewrite has a new text. -/
theorem processText_check_swapped :
    ∃ checked written,
      processText ⟨true, true, false, false, 2, 0, []⟩
        "\x7b\n\t\"b\": 0,\n\t\"a\": null\n\x7d\n".toList = .ok checked ∧
      processText ⟨false, true, false, false, 2, 0, []⟩
        "\x7b\n\t\"b\": 0,\n\t\"a\": null\n\x7d\n".toList = .ok written ∧
      checked.status = .changed ∧ ∃ text, written.output = some text := by
  have hdocument : (Value.map (stringMembers
      [(codeText "b", .int 0), (codeText "a", .null)])).IsDocument := by
    refine .map (by decide) (by decide) ?_
    simp only [List.forall_mem_cons]
    exact ⟨.scalar trivial (Nat.pow_pos (by decide)), .scalar trivial trivial,
      List.forall_mem_nil _⟩
  have hread : ReadAs false (Json.printDocument .tabs (.map (stringMembers
      [(codeText "b", .int 0), (codeText "a", .null)]))) (.map (stringMembers
      [(codeText "b", .int 0), (codeText "a", .null)])) := by
    refine ⟨?_, ?_⟩
    · rw [Comment.detect_printDocument .tabs hdocument]
      exact id
    · rw [readText, Comment.detect_printDocument .tabs hdocument, if_neg Bool.false_ne_true]
      exact Json.parseDocument_printDocument .tabs hdocument (by decide)
  obtain ⟨checked, written, hchecked, hwritten, hagree, hchanged, -⟩ :=
    processText_check_status ⟨true, true, false, false, 2, 0, []⟩ rfl (by decide)
      (Json.printDocument .tabs (.map (stringMembers
        [(codeText "b", .int 0), (codeText "a", .null)])))
  have hfault : checked.status = .changed := by
    refine hchanged.mpr ⟨_, hread, by decide, 0, _, .here rfl, le_refl _, ?_⟩
    intro hordered
    have hbefore := List.rel_of_pairwise_cons hordered List.mem_cons_self
    rw [if_pos rfl, precedes_nil] at hbefore
    exact absurd hbefore (by decide : ¬ (codeText "b").codes < (codeText "a").codes)
  exact ⟨checked, written, hchecked, hwritten, hfault, hagree.output hfault⟩

end KeyOrder
