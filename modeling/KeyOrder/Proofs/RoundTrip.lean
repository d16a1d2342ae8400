import KeyOrder.Json.Print
import KeyOrder.Proofs.Doubles
import KeyOrder.Proofs.Reading
/-!
# Reading what is printed

Wherever a value may come, the reader takes what the printer writes for it and has
that value then, whatever follows.  It goes by induction on the value, with one
induction along the items of a list and one along the members of a mapping.
-/

namespace KeyOrder.Json

/-! ## Places that take values -/

/-- A value may come at a place, inside the open containers. -/
def Place.Takes [Platform] (place : Place) (outer : List Frame) : Prop :=
  ∀ token, token ≠ .arrayEnd → place.next .standard token = startValue .standard outer token

/-- After a comma in a list, after a colon and at the start of a text a value may come. -/
theorem Place.takes_value [Platform] (outer : List Frame) : (value outer).Takes outer := by
  intro token _
  rfl

/-- After an opening bracket a value may come, as an item. -/
theorem Place.takes_firstItem [Platform] (outer : List Frame) :
    (firstItem outer).Takes (.items [] :: outer) := by
  intro token htoken
  cases token with
  | arrayEnd => exact absurd rfl htoken
  | _ => rfl

/-- A numeral does not go on with a comma. -/
theorem endsNumeral_comma (rest : Text) : EndsNumeral (',' :: rest) := by
  rintro c ⟨⟩
  decide

/-- A numeral does not go on on the next line. -/
theorem endsNumeral_newline (layout : Layout) (level : Nat) (rest : Text) :
    EndsNumeral (layout.newline level rest) := by
  rintro c ⟨⟩
  decide

/-- What is printed for the items after a value does not go on with a numeral in front. -/
theorem endsNumeral_printItems (layout : Layout) (level : Nat) (items : List Value) {rest : Text}
    (hrest : EndsNumeral rest) : EndsNumeral (printItems layout level items rest) := by
  cases items with
  | nil => rwa [printItems]
  | cons v items =>
      rw [printItems]
      exact endsNumeral_comma _

/-- What is printed for the members after a value does not go on with a numeral in front. -/
theorem endsNumeral_printMembers (layout : Layout) (level : Nat) (members : List (Key × Value))
    {rest : Text} (hrest : EndsNumeral rest) :
    EndsNumeral (printMembers layout level members rest) := by
  cases members with
  | nil => rwa [printMembers]
  | cons m members =>
      rw [printMembers]
      exact endsNumeral_comma _

/-! ## Values that are read back -/

/-- The reader has a value after what is printed for it, wherever a value may come. -/
def IsReadBack [Platform] (layout : Layout) (v : Value) : Prop :=
  ∀ (text : Text) (level : Nat) (place : Place) (outer : List Frame) (rest : Text),
    place.Takes outer → v.nesting + outer.length ≤ Platform.maxDepth → EndsNumeral rest →
    readFrom .standard text place (printValue layout level v rest)
      = readFrom .standard text (.after v outer) rest

/-- A value that is printed as one token is read back if the token starts it. -/
theorem isReadBack_of_scanToken [Platform] {layout : Layout} {v : Value}
    (h : ∀ level rest, EndsNumeral rest → ∃ token, token ≠ .arrayEnd ∧
      scanToken (printValue layout level v rest) = .ok (token, rest) ∧
      ∀ outer, startValue .standard outer token = some (.ok (.after v outer))) :
    IsReadBack layout v := by
  intro text level place outer rest hplace _ hrest
  obtain ⟨token, htoken, hscan, hstart⟩ := h level rest hrest
  refine readFrom_of_scanToken hscan ?_
  rw [hplace token htoken, hstart]

/-- A spelled numeral starts its value. -/
theorem startValue_number [Platform] {n : Numeral} {v : Value} (h : n.value .standard = .ok v)
    (outer : List Frame) :
    startValue .standard outer (.number n) = some (.ok (.after v outer)) := by
  rw [startValue, h]
  rfl

/-- The scalars of documents are read back. -/
theorem isReadBack_of_isScalar [Platform] {layout : Layout} {v : Value} (hv : v.IsScalar)
    (hdocument : v.IsDocumentScalar) : IsReadBack layout v := by
  refine isReadBack_of_scanToken fun level rest hrest => ?_
  cases v with
  | null => exact ⟨.null, Token.noConfusion, scanToken_null rest, fun _ => rfl⟩
  | bool b => exact ⟨.bool b, Token.noConfusion, scanToken_boolLiteral b rest, fun _ => rfl⟩
  | int z =>
      obtain ⟨n, hspelled, htext, hvalue⟩ := exists_numeral_value_int hdocument
      refine ⟨.number n, Token.noConfusion, ?_, startValue_number hvalue⟩
      rw [printValue, ← htext]
      exact scanToken_text hspelled hrest
  | float x =>
      obtain ⟨negative, m, rfl⟩ := hdocument
      obtain ⟨n, hspelled, htext, hvalue⟩ := exists_numeral_value_float negative m
      refine ⟨.number n, Token.noConfusion, ?_, startValue_number hvalue⟩
      rw [printValue, ← htext]
      exact scanToken_text hspelled hrest
  | str s =>
      refine ⟨.string s, Token.noConfusion, ?_, fun _ => rfl⟩
      rw [printValue]
      exact scanToken_stringLiteral hdocument rest
  | _ => exact hv.elim

/-! ## Containers -/

section Containers

variable {layout : Layout} {text : Text}

/-- The items after a value are read back, and their list is closed. -/
theorem readFrom_printItems [Platform] {items : List Value} (level level' : Nat) (v : Value)
    (read : List Value) (outer : List Frame) (rest : Text)
    (h : ∀ w ∈ items, IsReadBack layout w)
    (hnesting : ∀ w ∈ items, w.nesting + (outer.length + 1) ≤ Platform.maxDepth) :
    readFrom .standard text (.after v (.items read :: outer))
        (printItems layout level items (layout.newline level' (']' :: rest)))
      = readFrom .standard text (.after (.list ((v :: read).reverse ++ items)) outer) rest := by
  -- Along the items: at each comma the value that was read joins those before it.
  induction items generalizing v read with
  | nil =>
      rw [printItems, readFrom_newline, List.append_nil]
      exact readFrom_punctuation rfl rfl rest
  | cons w items ih =>
      obtain ⟨hw, hitems⟩ := List.forall_mem_cons.mp h
      obtain ⟨hwnesting, hitemsnesting⟩ := List.forall_mem_cons.mp hnesting
      have hcomma : (Place.after v (.items read :: outer)).next .standard .comma
          = some (.ok (.value (.items (v :: read) :: outer))) := rfl
      rw [printItems, readFrom_punctuation rfl hcomma, readFrom_newline,
        hw text level _ (.items (v :: read) :: outer) _ (Place.takes_value _) hwnesting
          (endsNumeral_printItems layout level items (endsNumeral_newline layout level' _)),
        ih w (v :: read) hitems hitemsnesting]
      simp only [List.reverse_cons, List.append_assoc, List.cons_append, List.nil_append]

/-- A list of values that are read back is read back. -/
theorem isReadBack_list [Platform] {items : List Value} (h : ∀ v ∈ items, IsReadBack layout v) :
    IsReadBack layout (.list items) := by
  intro text level place outer rest hplace hnesting hrest
  rw [Value.nesting] at hnesting
  have hopen : place.next .standard .arrayStart = some (.ok (.firstItem outer)) := by
    rw [hplace .arrayStart Token.noConfusion, startValue, openContainer, if_pos (by omega)]
  -- The items stand in one more container than their list.
  have hitems : ∀ v ∈ items, v.nesting + (outer.length + 1) ≤ Platform.maxDepth := by
    have hle : nestingOfItems items ≤ Platform.maxDepth - (outer.length + 1) := by omega
    intro v hv
    have hv := nestingOfItems_le_iff.mp hle v hv
    omega
  cases items with
  | nil =>
      rw [printValue, printList, readFrom_punctuation rfl hopen]
      exact readFrom_punctuation rfl rfl rest
  | cons v items =>
      obtain ⟨hv, hrestItems⟩ := List.forall_mem_cons.mp h
      obtain ⟨hvnesting, hitemsnesting⟩ := List.forall_mem_cons.mp hitems
      rw [printValue, printList, readFrom_punctuation rfl hopen, readFrom_newline,
        hv text (level + 1) _ (.items [] :: outer) _ (Place.takes_firstItem outer) hvnesting
          (endsNumeral_printItems layout (level + 1) items (endsNumeral_newline layout level _)),
        readFrom_printItems (level + 1) level v [] outer rest hrestItems hitemsnesting]
      rfl

/-- A member is read back where its key may come. -/
theorem readFrom_member [Platform] {place : Place} {read : List (CodeText × Value)} {s : CodeText}
    {v : Value} {outer : List Frame} (level : Nat) {rest : Text}
    (hplace : place.next .standard (.string s) = some (.ok (.colon read s outer)))
    (hs : s.IsJoined) (hv : IsReadBack layout v)
    (hnesting : v.nesting + (outer.length + 1) ≤ Platform.maxDepth) (hrest : EndsNumeral rest) :
    readFrom .standard text place
        (keyLiteral (.str s) ++ ':' :: ' ' :: printValue layout level v rest)
      = readFrom .standard text (.after v (.members read s :: outer)) rest := by
  have hblank : ∀ c ∈ [' '], isBlank c = true := List.forall_mem_singleton.mpr rfl
  have hcolon : (Place.colon read s outer).next .standard .colon
      = some (.ok (.value (.members read s :: outer))) := rfl
  rw [keyLiteral, readFrom_of_scanToken (scanToken_stringLiteral hs _) hplace,
    readFrom_punctuation rfl hcolon]
  refine (readFrom_blanks hblank _ _).trans ?_
  exact hv text level _ (.members read s :: outer) rest (Place.takes_value _) hnesting hrest

/-- The members after a value are read back, and their mapping is closed. -/
theorem readFrom_printMembers [Platform] {members : List (CodeText × Value)} (level level' : Nat)
    (s : CodeText) (v : Value) (read : List (CodeText × Value)) (outer : List Frame) (rest : Text)
    (h : ∀ m ∈ members, m.1.IsJoined ∧ IsReadBack layout m.2)
    (hnesting : ∀ m ∈ members, m.2.nesting + (outer.length + 1) ≤ Platform.maxDepth) :
    readFrom .standard text (.after v (.members read s :: outer))
        (printMembers layout level (stringMembers members) (layout.newline level' ('}' :: rest)))
      = readFrom .standard text
          (.after (.ofMembers (((s, v) :: read).reverse ++ members)) outer) rest := by
  -- Along the members: at each comma the member that was read joins those before it.
  induction members generalizing s v read with
  | nil =>
      rw [stringMembers_nil, printMembers, readFrom_newline, List.append_nil]
      exact readFrom_punctuation rfl rfl rest
  | cons m members ih =>
      obtain ⟨⟨hkey, hm⟩, hmembers⟩ := List.forall_mem_cons.mp h
      obtain ⟨hmnesting, hmembersnesting⟩ := List.forall_mem_cons.mp hnesting
      have hcomma : (Place.after v (.members read s :: outer)).next .standard .comma
          = some (.ok (.key ((s, v) :: read) outer)) := rfl
      rw [stringMembers_cons, printMembers, readFrom_punctuation rfl hcomma, readFrom_newline,
        readFrom_member level rfl hkey hm hmnesting
          (endsNumeral_printMembers layout level _ (endsNumeral_newline layout level' _)),
        ih m.1 m.2 ((s, v) :: read) hmembers hmembersnesting]
      simp only [List.reverse_cons, List.append_assoc, List.cons_append, List.nil_append]

/-- A mapping with distinct keys and values that are read back is read back. -/
theorem isReadBack_map [Platform] {members : List (CodeText × Value)}
    (hkeys : (members.map Prod.fst).Nodup)
    (h : ∀ m ∈ members, m.1.IsJoined ∧ IsReadBack layout m.2) :
    IsReadBack layout (.map (stringMembers members)) := by
  intro text level place outer rest hplace hnesting hrest
  rw [Value.nesting] at hnesting
  have hopen : place.next .standard .objectStart = some (.ok (.firstKey outer)) := by
    rw [hplace .objectStart Token.noConfusion, startValue, openContainer, if_pos (by omega)]
  have hmembers : ∀ m ∈ members, m.2.nesting + (outer.length + 1) ≤ Platform.maxDepth := by
    have hle : nestingOfMembers (stringMembers members)
        ≤ Platform.maxDepth - (outer.length + 1) := by
      omega
    intro m hm
    have hm := nestingOfStringMembers_le_iff.mp hle m hm
    omega
  cases members with
  | nil =>
      rw [stringMembers_nil, printValue, readFrom_punctuation rfl hopen]
      exact readFrom_punctuation rfl rfl rest
  | cons m members =>
      obtain ⟨⟨hkey, hm⟩, hrestMembers⟩ := List.forall_mem_cons.mp h
      obtain ⟨hmnesting, hmembersnesting⟩ := List.forall_mem_cons.mp hmembers
      rw [stringMembers_cons, printValue, readFrom_punctuation rfl hopen, readFrom_newline,
        readFrom_member (level + 1) rfl hkey hm hmnesting
          (endsNumeral_printMembers layout (level + 1) _ (endsNumeral_newline layout level _)),
        readFrom_printMembers (level + 1) level m.1 m.2 [] outer rest hrestMembers
          hmembersnesting,
        ← stringMembers_cons, ← Value.ofMembers_of_nodup hkeys]
      rfl

end Containers

/-! ## Documents -/

/-- Every document value is read back. -/
theorem isReadBack_of_isDocument [Platform] (layout : Layout) {v : Value} (h : v.IsDocument) :
    IsReadBack layout v := by
  induction h with
  | scalar hscalar hgood => exact isReadBack_of_isScalar hscalar hgood
  | list _ ih => exact isReadBack_list ih
  | map hkeys hgood _ ih => exact isReadBack_map hkeys fun m hm => ⟨hgood m hm, ih m hm⟩

/-- A text that is read from its start on has no byte order mark in front. -/
theorem parseDocument_of_readFrom [Platform] {text : Text} {v : Value}
    (h : readFrom .standard text (.value []) text = .ok v) : parseDocument text = .ok v := by
  rw [parseDocument, decode_eq_readFrom, h]
  cases text with
  | nil =>
      intro hc
      cases hc
  | cons c rest =>
      intro hc
      obtain rfl := Option.some.inj hc
      -- No token starts with the mark, so nothing would have been read.
      have hscan : scanToken (skipBlanks ('\uFEFF' :: rest)) = .error .unknown := rfl
      unfold readFrom at h
      rw [Tokens.ofText] at h
      split at h
      · next hstop =>
        rw [hscan] at hstop
        obtain rfl := Except.error.inj hstop
        cases h
      · next htoken => rw [hscan] at htoken; cases htoken

/-- A text is read from its start on. -/
theorem parseDocument_eq_ok_iff [Platform] {text : Text} {v : Value} :
    parseDocument text = .ok v ↔ readFrom .standard text (.value []) text = .ok v := by
  constructor
  · intro h
    rw [parseDocument] at h
    rw [← decode_eq_readFrom, h]
    intro hmark
    obtain ⟨rest, rfl⟩ := List.head?_eq_some_iff.mp hmark
    cases h
  · exact parseDocument_of_readFrom

/-- Reading what is printed for a document value gives that value. -/
theorem parseDocument_printDocument [Platform] (layout : Layout) {v : Value} (h : v.IsDocument)
    (hnesting : v.nesting ≤ Platform.maxDepth) :
    parseDocument (printDocument layout v) = .ok v := by
  have hend : EndsNumeral ['\n'] := endsNumeral_newline layout 0 []
  refine parseDocument_of_readFrom ?_
  unfold printDocument
  rw [isReadBack_of_isDocument layout h _ 0 _ [] _ (Place.takes_value []) hnesting hend,
    readFrom_finish]

/-- Document values that are printed alike are equal. -/
theorem printDocument_inj [Platform] {layout : Layout} {v w : Value} (hv : v.IsDocument)
    (hvn : v.nesting ≤ Platform.maxDepth) (hw : w.IsDocument) (hwn : w.nesting ≤ Platform.maxDepth)
    (h : printDocument layout v = printDocument layout w) : v = w := by
  have hread := parseDocument_printDocument layout hv hvn
  rw [h, parseDocument_printDocument layout hw hwn] at hread
  exact (Except.ok.inj hread).symm

/-- There is no fault among items without faults. -/
theorem itemFault?_eq_none {items : List Value} (h : ∀ v ∈ items, valueFault? v = none) :
    itemFault? items = none := by
  induction items with
  | nil => rfl
  | cons v items ih =>
      obtain ⟨hv, hitems⟩ := List.forall_mem_cons.mp h
      rw [itemFault?, hv, ih hitems]
      rfl

/-- There is no fault among string members whose values have none. -/
theorem memberFault?_eq_none {members : List (CodeText × Value)}
    (h : ∀ m ∈ members, valueFault? m.2 = none) : memberFault? (stringMembers members) = none := by
  induction members with
  | nil => rfl
  | cons m members ih =>
      obtain ⟨hm, hmembers⟩ := List.forall_mem_cons.mp h
      rw [stringMembers_cons, memberFault?, hm, ih hmembers]
      rfl

/-- A document value has no fault. -/
theorem valueFault?_of_isDocument {v : Value} (h : v.IsDocument) : valueFault? v = none := by
  induction h with
  | @scalar v hscalar hgood =>
      cases v with
      | null | bool _ | str _ => rfl
      | int n => exact if_pos (isWritable_iff.mpr hgood)
      | float x =>
          obtain ⟨negative, m, rfl⟩ := hgood
          rfl
      | _ => exact hscalar.elim
  | list _ ih => exact itemFault?_eq_none ih
  | map _ _ _ ih => exact memberFault?_eq_none ih

/-- A document value is printed. -/
theorem format_of_isDocument (layout : Layout) {v : Value} (h : v.IsDocument) :
    format layout v = .ok (printDocument layout v) := by
  rw [format, valueFault?_of_isDocument h]

/-- What a text holds is printed in every layout and read back from what is printed; so no two
values that texts hold are printed alike. -/
theorem parseDocument_format [Platform] (layout : Layout) {text : Text} {v : Value}
    (h : parseDocument text = .ok v) :
    ∃ printed, format layout v = .ok printed ∧
      (∀ tabs indent, Layout.of tabs indent = .ok layout →
        formatWith tabs indent v = .ok printed) ∧
      parseDocument printed = .ok v ∧
      ∀ text' v', parseDocument text' = .ok v' → format layout v' = .ok printed → v' = v := by
  obtain ⟨hdocument, hnesting⟩ := isDocument_of_parseDocument h
  have hformat := format_of_isDocument layout hdocument
  have hread := parseDocument_printDocument layout hdocument hnesting
  refine ⟨printDocument layout v, hformat, ?_, hread, ?_⟩
  · intro tabs indent hlayout
    rw [formatWith, hlayout]
    exact hformat
  · intro text' v' h' hformat'
    obtain ⟨hdocument', hnesting'⟩ := isDocument_of_parseDocument h'
    rw [format_of_isDocument layout hdocument'] at hformat'
    exact printDocument_inj hdocument' hnesting' hdocument hnesting (Except.ok.inj hformat')

/-- An unpaired half in a key and an item survive printing and reading. -/
theorem parseDocument_format_half :
    ∃ v printed,
      parseDocument "\x7b\n\t\"\\ud800\": [\n\t\t-12,\n\t\ttrue\n\t]\n\x7d\n".toList = .ok v ∧
      format (.spaces 1) v = .ok printed ∧ parseDocument printed = .ok v := by
  have hdocument : (Value.map (stringMembers
      [([.leading 0], .list [.int (-12), .bool true])])).IsDocument := by
    refine .map (by decide) ?_ ?_
    · rintro m hm
      obtain rfl := List.mem_singleton.mp hm
      exact List.isChain_singleton _
    · rintro m hm
      obtain rfl := List.mem_singleton.mp hm
      refine .list fun v hv => ?_
      rcases List.mem_cons.mp hv with rfl | hv
      · have hsmall : (-12 : Int).natAbs < 10 ^ 2 := by decide
        exact .scalar trivial (hsmall.trans_le (Nat.pow_le_pow_right (by decide) (by decide)))
      · obtain rfl := List.mem_singleton.mp hv
        exact .scalar trivial trivial
  have hread := parseDocument_printDocument .tabs hdocument (by decide)
  obtain ⟨printed, hformat, -, hback, -⟩ := parseDocument_format (.spaces 1) hread
  exact ⟨_, printed, hread, hformat, hback⟩

end KeyOrder.Json
