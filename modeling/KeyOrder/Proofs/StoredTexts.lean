import KeyOrder.Proofs.Drafts
import KeyOrder.Proofs.PrintedLines
import KeyOrder.Proofs.TreeWrites
import KeyOrder.Proofs.Verdict
import KeyOrder.Proofs.Writing
/-!
# Texts in files

A new text of a document can be written to any file that can be written at all, and is read
from it as it is.  A file whose text is not the new one gets the bytes of the new text.  But a
file is compared as it is read, with its line ends unified: if nothing but its line ends
differs, it keeps its bytes.
-/

namespace KeyOrder

/-! ## Documents that succeed -/

section Process

variable {options : ProcessOptions} {content : Text} {outcome : Outcome}

/-- A document that succeeds is read, sorted and printed; what is printed is its new text, if it has
one. -/
theorem exists_printed_of_success [Platform] (h : processText options content = .ok outcome)
    (hsuccess : outcome.status = .success) : ∃ v sorted printed,
      ReadAs options.force content v ∧
      sortFromDepth v options.sortFrom options.sortOrder = .ok sorted ∧
      Json.formatWith options.tabs options.indent sorted = .ok printed ∧
      ∀ text, outcome.output = some text → text = printed := by
  by_cases hread : ∃ v, ReadAs options.force content v
  · obtain ⟨v, hread⟩ := hread
    rw [processText_of_readAs hread] at h
    rcases processValue_cases h with ⟨rfl, -⟩ |
      ⟨sorted, printed, hsorted, hprinted, rfl | rfl | ⟨rfl, -⟩⟩
    · cases hsuccess
    · exact ⟨v, sorted, printed, hread, hsorted, hprinted, fun _ hnone => by cases hnone⟩
    · cases hsuccess
    · exact ⟨v, sorted, printed, hread, hsorted, hprinted, fun _ hsome =>
        (Option.some.inj hsome).symm⟩
  · obtain ⟨outcome', hcases, hprocess⟩ := exists_outcome_of_not_readAs (not_exists.mp hread)
    obtain rfl := Except.ok.inj ((hprocess options rfl).symm.trans h)
    rcases hcases with rfl | ⟨e, -, rfl⟩
    · cases hsuccess
    · cases hsuccess

/-- The print of a document value is read as that value. -/
theorem readAs_printDocument [Platform] (layout : Json.Layout) {v : Value} (hv : v.IsDocument)
    (hnesting : v.nesting ≤ Platform.maxDepth) (force : Bool) :
    ReadAs force (Json.printDocument layout v) v := by
  have hdetect := Comment.detect_printDocument layout hv
  refine ⟨fun h => ?_, ?_⟩
  · rw [hdetect] at h
    cases h
  · rw [readText, hdetect, if_neg Bool.false_ne_true]
    exact Json.parseDocument_printDocument layout hv hnesting

/-- A document that is to be written gets what is printed for it, unless its text is that
already. -/
theorem processText_of_printed [Platform] {v sorted : Value} {printed : Text}
    (hcheck : options.check = false)
    (hwrite : options.write = true) (hread : ReadAs options.force content v)
    (hsorted : sortFromDepth v options.sortFrom options.sortOrder = .ok sorted)
    (hprinted : Json.formatWith options.tabs options.indent sorted = .ok printed) :
    processText options content
      = .ok (if printed = content then .settled else .updated printed) := by
  rw [processText_of_readAs hread, processValue_of_printed hsorted hprinted, hcheck, hwrite,
    if_neg Bool.false_ne_true, Bool.true_and]
  by_cases hsame : printed = content
  · rw [if_pos hsame, hsame, bne_self_eq_false, if_neg Bool.false_ne_true]
  · rw [if_neg hsame, bne_iff_ne.mpr hsame, if_pos rfl]

end Process

/-! ## What is written -/

/-- Lines are indented by tabs only if this was asked for. -/
theorem Json.Layout.eq_true_of_tabs {tabs : Bool} {indent : Int}
    (h : Layout.of tabs indent = .ok .tabs) : tabs = true := by
  by_contra hspaces
  rw [Layout.of, if_neg hspaces] at h
  split at h
  · cases h
  split at h
  · cases h
  split at h
  · cases h
  · cases h

/-- A text of characters alone has bytes. -/
theorem encodeFault?_ofText (passes : CodePoint → Bool) (text : Text) :
    Utf8.encodeFault? passes (CodeText.ofText text) = none := by
  have hnone : (CodeText.ofText text).dropWhile (fun c => !c.isHalf || passes c) = [] := by
    refine List.dropWhile_eq_nil_iff.mpr fun c hc => ?_
    obtain ⟨d, -, rfl⟩ := List.mem_map.mp hc
    rfl
  rw [Utf8.encodeFault?, hnone]

/-- A new text is the draft of the sorted value with the halves escaped.  Of the controls below the
space it has line feeds only, and tabs that indent a line if tabs were asked for; one line feed ends
it.  It has bytes; if it cannot be written to a file, no text can; and a file that it was written to
is read as the text. -/
theorem read_of_write_output [Platform] {options : ProcessOptions} {content text : Text}
    {outcome : Outcome}
    (h : processText options content = .ok outcome) (houtput : outcome.output = some text) :
    (∃ v sorted layout, ReadAs options.force content v ∧
      sortFromDepth v options.sortFrom options.sortOrder = .ok sorted ∧
      Json.Layout.of options.tabs options.indent = .ok layout ∧
      text = Json.escapeHalves (Json.draft layout sorted)) ∧
    (∀ before c after, text = before ++ c :: after → c.toNat < 0x20 → c = '\n' ∨
      options.tabs = true ∧ c = '\t' ∧
        ∃ lines tabs, before = lines ++ '\n' :: List.replicate tabs '\t') ∧
    (∃ front c, text = front ++ [c, '\n'] ∧ c ≠ '\n') ∧
    (∀ passes, Utf8.encodeFault? passes (CodeText.ofText text) = none) ∧
    ∀ (tree : Tree) (path : CodeText),
      (∀ fault, tree.write path text = .error fault →
        ∀ other, tree.write path other = .error fault) ∧
      ∀ tree', tree.write path text = .ok tree' → tree'.read path = .ok text := by
  obtain rfl := Outcome.eq_updated_of_output houtput
  obtain ⟨v, sorted, printed, hread, hsorted, hprinted, htext⟩ := exists_printed_of_success h rfl
  obtain rfl := htext text rfl
  obtain ⟨hdocument, -⟩ :=
    sortFromDepth_of_eq_ok (Json.isDocument_of_parseDocument hread.2).1 hsorted
  obtain ⟨layout, hlayout, rfl⟩ := exists_layout_of_formatWith hdocument hprinted
  obtain ⟨hlaid, front, c, hend, hc⟩ := Json.isLaidOut_printDocument layout hdocument
  refine ⟨⟨v, sorted, layout, hread, hsorted, hlayout,
    (Json.escapeHalves_draft layout sorted).symm⟩,
    ?_, ?_, fun passes => encodeFault?_ofText passes _,
    fun tree path => ⟨fun fault => Tree.write_eq_error, ?_⟩⟩
  · intro before d after heq hd
    refine (hlaid before d after heq (Nat.not_le.mpr hd)).imp_right ?_
    rintro ⟨rfl, htab, hline⟩
    exact ⟨Json.Layout.eq_true_of_tabs hlayout, htab, hline⟩
  · refine ⟨front, c, hend, ?_⟩
    rintro rfl
    exact absurd hc (by decide)
  · intro tree' hwrite
    obtain ⟨-, hread⟩ := Tree.read_of_write hwrite
    rwa [unifyLineEnds_eq_self_iff.mpr hlaid.return_not_mem] at hread

/-- A folder with one file of a text. -/
def oneFile (content : Text) : Tree where
  top := .directory [(codeText "a.json", .file (Utf8.encode content))]
  working := { root := [slash], names := [] }

/-- The file is read as its text, its line ends unified. -/
theorem read_oneFile (content : Text) :
    (oneFile content).read (codeText "a.json") = .ok (unifyLineEnds content) :=
  Tree.read_eq_ok_iff.mpr ⟨_, _, content, rfl, rfl, Utf8.decode_encode content, rfl⟩

/-- A half of a pair and a carriage return are written as escapes, and read so from the file. -/
theorem read_of_write_half :
    processText ⟨false, true, false, true, 2, 0, []⟩
        "\x7b\n \"b\": \"\\ud800\\r\",\n \"a\": null\n\x7d\n".toList
      = .ok (.updated "\x7b\n\t\"a\": null,\n\t\"b\": \"\\ud800\\r\"\n\x7d\n".toList) ∧
    ∃ tree', (oneFile []).write (codeText "a.json")
        "\x7b\n\t\"a\": null,\n\t\"b\": \"\\ud800\\r\"\n\x7d\n".toList = .ok tree' ∧
      tree'.read (codeText "a.json")
        = .ok "\x7b\n\t\"a\": null,\n\t\"b\": \"\\ud800\\r\"\n\x7d\n".toList := by
  have hdocument : (Value.map (stringMembers
      [(codeText "b", .str [.leading 0, .scalar '\r']), (codeText "a", .null)])).IsDocument := by
    refine .map (by decide) (by decide) ?_
    simp only [List.forall_mem_cons]
    have hhalf : CodeText.IsJoined [.leading 0, .scalar '\r'] := by decide
    exact ⟨.scalar trivial hhalf, .scalar trivial trivial, List.forall_mem_nil _⟩
  have hprocess : processText ⟨false, true, false, true, 2, 0, []⟩
      (Json.printDocument (.spaces 0) (.map (stringMembers
        [(codeText "b", .str [.leading 0, .scalar '\r']), (codeText "a", .null)])))
      = .ok (.updated (Json.printDocument .tabs (.map (stringMembers
        [(codeText "a", .null), (codeText "b", .str [.leading 0, .scalar '\r'])])))) := by
    rw [processText_printDocument (.spaces 0) hdocument (by decide),
      processValue_of_printed (by cbv) (by rfl)]
    rfl
  obtain ⟨-, -, -, -, hstored⟩ := read_of_write_output hprocess rfl
  exact ⟨hprocess, _, rfl, (hstored (oneFile []) (codeText "a.json")).2 _ rfl⟩

/-! ## What stands in the file -/

/-- What is printed for a document has no carriage returns. -/
theorem return_not_mem_of_formatWith {tabs : Bool} {indent : Int} {v : Value} {text : Text}
    (hv : v.IsDocument) (h : Json.formatWith tabs indent v = .ok text) : '\r' ∉ text := by
  obtain ⟨layout, -, rfl⟩ := exists_layout_of_formatWith hv h
  exact (Json.isLaidOut_printDocument layout hv).1.return_not_mem

/-- A file that is read as a text already and is left alone keeps its bytes, and one that the text
is written to gets those of the text. -/
theorem bytes_of_stored {tree after : Tree} {path : CodeText} {content printed : Text}
    (hread : tree.read path = .ok (unifyLineEnds content))
    (hbytes : tree.bytes (tree.path path) = .ok (Utf8.encode content)) (hreturn : '\r' ∉ printed)
    (hsettled : unifyLineEnds content = printed → after = tree)
    (hwritten : unifyLineEnds content ≠ printed → tree.write path printed = .ok after) :
    after.read path = .ok printed ∧ after.bytes (after.path path)
      = .ok (Utf8.encode (if unifyLineEnds content = printed then content else printed)) := by
  by_cases hsame : unifyLineEnds content = printed
  · obtain rfl := hsettled hsame
    rw [if_pos hsame, ← hsame]
    exact ⟨hread, hbytes⟩
  · obtain ⟨hnew, hprinted⟩ := Tree.read_of_write (hwritten hsame)
    rw [unifyLineEnds_eq_self_iff.mpr hreturn] at hprinted
    rw [if_neg hsame]
    exact ⟨hprinted, hnew⟩

/-- The bytes of a content or of the text in its place are those of the text, unless the content has
carriage returns and is read as the text. -/
theorem encode_eq_iff_of_stored {content printed : Text} :
    Utf8.encode (if unifyLineEnds content = printed then content else printed)
        = Utf8.encode printed ↔ ('\r' ∈ content → unifyLineEnds content ≠ printed) := by
  rw [Utf8.encode_injective.eq_iff]
  by_cases hsame : unifyLineEnds content = printed
  · -- The content is the text itself if it has no carriage returns.
    rw [if_pos hsame, ← hsame, eq_comm, unifyLineEnds_eq_self_iff]
    simp
  · rw [if_neg hsame]
    exact iff_of_true rfl fun _ => hsame

/-- A file of a tree that succeeds is read as what is printed for the sorted value of its text.  If
it is read so already it keeps its bytes, and otherwise it gets those of the printed text.  So
afterwards it has these bytes, unless it had carriage returns and nothing but its line ends
differs. -/
theorem bytes_of_processFile [Platform] {tree after : Tree} {path : CodeText}
    {options : ProcessOptions}
    {result : FileResult} (hcheck : options.check = false) (hwrite : options.write = true)
    (h : processFile tree path options = .ok (result, after))
    (hsuccess : result.status = .success) :
    ∃ content v sorted printed,
      tree.bytes (tree.path path) = .ok (Utf8.encode content) ∧
      ReadAs options.force (unifyLineEnds content) v ∧
      sortFromDepth v options.sortFrom options.sortOrder = .ok sorted ∧
      Json.formatWith options.tabs options.indent sorted = .ok printed ∧
      after.read path = .ok printed ∧
      after.bytes (after.path path)
        = .ok (Utf8.encode (if unifyLineEnds content = printed then content else printed)) ∧
      (after.bytes (after.path path) = .ok (Utf8.encode printed) ↔
        ('\r' ∈ content → unifyLineEnds content ≠ printed)) := by
  rcases processFile_cases h with ⟨fault, rfl, -⟩ | ⟨_, outcome, hread, hprocess, rfl, hstore⟩
  · cases hsuccess
  obtain ⟨sound, _, content, hsound, hbytes, hcontent, rfl⟩ := Tree.read_eq_ok_iff.mp hread
  obtain ⟨rfl, -⟩ := Tree.soundPath_eq_ok hsound
  obtain rfl := Utf8.encode_of_decode hcontent
  obtain ⟨v, sorted, printed, hvalue, hsorted, hprinted, -⟩ :=
    exists_printed_of_success hprocess hsuccess
  rw [processText_of_printed hcheck hwrite hvalue hsorted hprinted] at hprocess
  obtain rfl := Except.ok.inj hprocess
  have hsettled : unifyLineEnds content = printed → after = tree := by
    intro hsame
    rw [if_pos hsame.symm] at hstore
    exact (hstore.resolve_right fun ⟨_, hsome, _⟩ => by cases hsome).2
  have hwritten : unifyLineEnds content ≠ printed → tree.write path printed = .ok after := by
    intro hsame
    rw [if_neg (Ne.symm hsame)] at hstore
    obtain ⟨_, hsome, hstored⟩ := hstore.resolve_left fun ⟨hnone, _⟩ => by cases hnone
    obtain rfl := Option.some.inj hsome
    exact hstored
  have hdocument := (sortFromDepth_of_eq_ok
    (Json.isDocument_of_parseDocument hvalue.2).1 hsorted).1
  obtain ⟨hprintedBack, hafter⟩ := bytes_of_stored hread hbytes
    (return_not_mem_of_formatWith hdocument hprinted) hsettled hwritten
  refine ⟨content, v, sorted, printed, hbytes, hvalue, hsorted, hprinted, hprintedBack, hafter, ?_⟩
  rw [hafter, Except.ok.injEq]
  exact encode_eq_iff_of_stored

/-- The file is processed as its text is when it is read. -/
theorem processFile_oneFile [Platform] (content : Text) {options : ProcessOptions}
    {outcome : Outcome} (h : processText options (unifyLineEnds content) = .ok outcome) :
    processFile (oneFile content) (codeText "a.json") options
      = .ok (.ofOutcome (codeText "a.json") options outcome,
          (outcome.output.map oneFile).getD (oneFile content)) := by
  have hread : FileStore.read (oneFile content) (codeText "a.json") = .ok (unifyLineEnds content) :=
    read_oneFile content
  simp only [processFile, hread, h]
  cases outcome.output <;> rfl

/-- A file with carriage returns whose keys are out of order gets the bytes of the printed text. -/
theorem bytes_of_processFile_returns : ∃ result after,
    processFile (oneFile "\x7b\r\n \"b\": null,\r\n \"a\": null\r\n\x7d\r\n".toList)
        (codeText "a.json") ⟨false, true, false, false, 2, 0, []⟩ = .ok (result, after) ∧
      result.status = .success ∧ after.bytes (after.path (codeText "a.json"))
        = .ok (Utf8.encode "\x7b\n  \"a\": null,\n  \"b\": null\n\x7d\n".toList) := by
  have hdocument : (Value.map (stringMembers
      [(codeText "b", .null), (codeText "a", .null)])).IsDocument := by
    refine .map (by decide) (by decide) ?_
    simp only [List.forall_mem_cons]
    exact ⟨.scalar trivial trivial, .scalar trivial trivial, List.forall_mem_nil _⟩
  have hprocess : processText ⟨false, true, false, false, 2, 0, []⟩
      (Json.printDocument (.spaces 0) (.map (stringMembers
        [(codeText "b", .null), (codeText "a", .null)])))
      = .ok (.updated (Json.printDocument (.spaces 1) (.map (stringMembers
        [(codeText "a", .null), (codeText "b", .null)])))) := by
    rw [processText_printDocument (.spaces 0) hdocument (by decide),
      processValue_of_printed (by cbv) (by rfl)]
    rfl
  have hfile := processFile_oneFile
    "\x7b\r\n \"b\": null,\r\n \"a\": null\r\n\x7d\r\n".toList hprocess
  obtain ⟨content, _, _, printed, hbytes, -, -, -, hread, -, hcanonical⟩ :=
    bytes_of_processFile rfl rfl hfile rfl
  refine ⟨_, _, hfile, rfl, ?_⟩
  obtain rfl := Utf8.encode_injective (Except.ok.inj hbytes)
  obtain rfl := Except.ok.inj ((read_oneFile _).symm.trans hread)
  exact hcanonical.mpr fun _ => by decide

/-- A file whose text differs from the printed one in its line end alone succeeds and keeps its
bytes. -/
theorem bytes_of_processFile_return :
    ReadAs false "\x7b\x7d\n".toList (.map []) ∧
      sortFromDepth (.map []) 0 [] = .ok (.map []) ∧
      Json.formatWith false 2 (.map []) = .ok "\x7b\x7d\n".toList ∧
      ∃ result, processFile (oneFile "\x7b\x7d\r\n".toList) (codeText "a.json")
          ⟨false, true, false, false, 2, 0, []⟩
            = .ok (result, oneFile "\x7b\x7d\r\n".toList) ∧
        result.status = .success ∧
        (oneFile "\x7b\x7d\r\n".toList).bytes
            ((oneFile "\x7b\x7d\r\n".toList).path (codeText "a.json"))
          ≠ .ok (Utf8.encode "\x7b\x7d\n".toList) := by
  have hdocument : (Value.map (stringMembers [])).IsDocument :=
    .map (by decide) (by decide) (List.forall_mem_nil _)
  have hsorted : sortFromDepth (.map []) 0 [] = .ok (.map []) := by cbv
  have hprinted : Json.formatWith false 2 (.map []) = .ok "\x7b\x7d\n".toList := by rfl
  have hread : ReadAs false "\x7b\x7d\n".toList (.map []) :=
    readAs_printDocument (.spaces 1) hdocument (by decide) false
  have hprocess : processText ⟨false, true, false, false, 2, 0, []⟩ "\x7b\x7d\n".toList
      = .ok .settled := by
    rw [processText_of_printed rfl rfl hread hsorted hprinted]
    rfl
  have hfile := processFile_oneFile "\x7b\x7d\r\n".toList hprocess
  refine ⟨hread, hsorted, hprinted, _, hfile, rfl, fun hbytes => ?_⟩
  exact absurd (Except.ok.inj hbytes) (by decide)

end KeyOrder
