import KeyOrder.Proofs.SegmentCuts
/-!
# Lines of what is left

A line comment leaves the line feed that ends it, so only block comments take line feeds
away.  Every character that is left stands as many lines further up as there are line feeds
in the block comments before it.  If there are none, a fault in what is left is reported
with the line on which it stands in the text.
-/

namespace KeyOrder

/-! ## Places of faults -/

namespace Json

/-- A token that may come is refused, but it is never malformed. -/
theorem DecodeError.IsRefusal.ne_malformed {dialect : Dialect} {error : DecodeError}
    (h : error.IsRefusal dialect) (complaint : Complaint) (position : Position) :
    error ≠ .malformed complaint position := by
  rintro rfl
  rcases h with ⟨n, hvalue⟩ | ⟨c, hvalue⟩ | ⟨container, hdeep⟩
  · unfold Numeral.value at hvalue
    split at hvalue
    · split at hvalue <;> cases hvalue
    · split at hvalue <;> cases hvalue
  · cases dialect <;> cases hvalue
  · cases hdeep

/-- The place of what is malformed is that of its offset in the text. -/
theorem eq_position_of_decode [Platform] {dialect : Dialect} {text : Text} {complaint : Complaint}
    {position : Position} (h : decode dialect text = .error (.malformed complaint position)) :
    position = Position.of text position.offset := by
  rcases malformed_or_isRefusal_of_decode h with ⟨complaint', offset, hmalformed⟩ | hrefusal
  · obtain ⟨-, rfl⟩ := DecodeError.malformed.inj hmalformed
    rfl
  · exact absurd rfl (hrefusal.ne_malformed complaint position)

end Json

namespace Comment

/-! ## Characters in their segments -/

namespace Segment

/-- Whether a segment is a block comment. -/
def isBlock : Segment → Bool
  | block _ => true
  | _ => false

/-- The characters of a segment, each with the segment. -/
def characters (segment : Segment) : List (Char × Segment) :=
  segment.text.map fun c => (c, segment)

/-- The characters of a segment make up its text. -/
@[simp] theorem map_fst_characters (segment : Segment) :
    segment.characters.map Prod.fst = segment.text := by
  simp [characters, Function.comp_def]

/-- The characters of a segment stand in it. -/
theorem snd_of_mem_characters {segment : Segment} {place : Char × Segment}
    (h : place ∈ segment.characters) : place.2 = segment := by
  obtain ⟨c, -, rfl⟩ := List.mem_map.mp h
  rfl

end Segment

/-- The characters of a text, each with the segment that it stands in. -/
def placed (text : Text) : List (Char × Segment) :=
  (segments text).flatMap Segment.characters

/-- Whether a character is kept: it stands in no comment. -/
def isKept (place : Char × Segment) : Bool :=
  !place.2.isComment

/-- Whether a character is a line feed in a block comment. -/
def isBlockFeed (place : Char × Segment) : Bool :=
  place.1 == '\n' && place.2.isBlock

/-- How many of the characters before an offset are kept. -/
def keptBefore (text : Text) (offset : Nat) : Nat :=
  ((placed text).take offset).countP isKept

/-- How many line feeds stand in block comments before an offset. -/
def blockFeedsBefore (text : Text) (offset : Nat) : Nat :=
  ((placed text).take offset).countP isBlockFeed

/-- The characters make up the text. -/
theorem map_fst_placed (text : Text) : (placed text).map Prod.fst = text := by
  rw [placed, List.map_flatMap]
  simp only [Segment.map_fst_characters]
  exact flatMap_text_segments text

/-- The characters that are kept are what is left without comments. -/
theorem map_fst_filter_placed (text : Text) :
    ((placed text).filter isKept).map Prod.fst = strip text := by
  rw [strip_eq_kept, placed, kept]
  induction segments text with
  | nil => rfl
  | cons segment row ih =>
      rw [List.flatMap_cons, List.filter_append, List.map_append, ih]
      cases hcomment : segment.isComment with
      | false =>
          have hall : segment.characters.filter isKept = segment.characters := by
            refine List.filter_eq_self.mpr fun place hplace => ?_
            rw [isKept, Segment.snd_of_mem_characters hplace, hcomment, Bool.not_false]
          rw [hall, Segment.map_fst_characters, List.filter_cons_of_pos (by rw [hcomment]; rfl),
            List.flatMap_cons]
      | true =>
          have hnone : segment.characters.filter isKept = [] := by
            refine List.filter_eq_nil_iff.mpr fun place hplace => ?_
            rw [isKept, Segment.snd_of_mem_characters hplace, hcomment]
            exact Bool.false_ne_true
          rw [hnone, List.map_nil, List.nil_append,
            List.filter_cons_of_neg (by rw [hcomment]; exact Bool.false_ne_true)]

/-- A character stands in one of the segments. -/
theorem mem_of_mem_placed {text : Text} {place : Char × Segment} (h : place ∈ placed text) :
    place.2 ∈ segments text ∧ place.1 ∈ place.2.text := by
  obtain ⟨segment, hsegment, hplace⟩ := List.mem_flatMap.mp h
  obtain ⟨c, hc, rfl⟩ := List.mem_map.mp hplace
  exact ⟨hsegment, hc⟩

/-! ## Line feeds that are kept -/

/-- A line comment ends before the next line feed. -/
theorem Cuts.feed_not_mem {text body : Text} {row : List Segment} (h : Cuts text row)
    (hbody : .line body ∈ row) : '\n' ∉ body := by
  induction h with
  | nil => cases hbody
  | code _ _ _ ih => exact ih (List.mem_of_ne_of_mem Segment.noConfusion hbody)
  | literal _ _ ih => exact ih (List.mem_of_ne_of_mem Segment.noConfusion hbody)
  | openLiteral _ => cases List.mem_singleton.mp hbody
  | line hfeed _ _ ih =>
      rcases List.mem_cons.mp hbody with heq | hbody
      · obtain rfl := Segment.line.inj heq
        simpa using hfeed
      · exact ih hbody
  | block _ _ ih => exact ih (List.mem_of_ne_of_mem Segment.noConfusion hbody)
  | openBlock _ => cases List.mem_singleton.mp hbody

/-- A line feed that is not kept stands in a block comment. -/
theorem feed_and_not_isKept {text : Text} {place : Char × Segment} (h : place ∈ placed text) :
    (place.1 == '\n' && !isKept place) = isBlockFeed place := by
  obtain ⟨hsegment, hmem⟩ := mem_of_mem_placed h
  obtain ⟨c, segment⟩ := place
  cases segment with
  | code _ => rfl
  | literal _ => rfl
  | line body =>
      have hfeed : c ≠ '\n' := by
        rintro rfl
        exact (cuts_segments text).feed_not_mem hsegment hmem
      rw [isBlockFeed, beq_false_of_ne hfeed, Bool.false_and, Bool.false_and]
  | block _ => rfl

/-- The line feeds of a row of characters are those that are kept and those in block comments. -/
theorem count_feed {text : Text} (places : List (Char × Segment))
    (h : ∀ place ∈ places, place ∈ placed text) :
    (places.map Prod.fst).count '\n'
      = ((places.filter isKept).map Prod.fst).count '\n' + places.countP isBlockFeed := by
  rw [List.count_eq_countP, List.count_eq_countP, List.countP_map, List.countP_map,
    List.countP_eq_countP_filter_add _ _ isKept]
  congr 1
  rw [List.countP_filter]
  exact List.countP_congr fun place hplace => by
    rw [← feed_and_not_isKept (h place hplace)]
    rfl

/-! ## Offsets of characters that are kept -/

/-- What is left up to the offset of a character is what is kept of the characters before it. -/
theorem take_keptBefore (text : Text) (offset : Nat) :
    (strip text).take (keptBefore text offset)
      = (((placed text).take offset).filter isKept).map Prod.fst := by
  have hsplit : strip text = (((placed text).take offset).filter isKept).map Prod.fst ++
      (((placed text).drop offset).filter isKept).map Prod.fst := by
    rw [← List.map_append, ← List.filter_append, List.take_append_drop, map_fst_filter_placed]
  rw [hsplit, keptBefore, List.countP_eq_length_filter]
  exact List.take_left' (List.length_map _)

/-- A character that is kept is found in what is left, after those that are kept before it. -/
theorem getElem?_keptBefore {text : Text} {offset : Nat} {place : Char × Segment}
    (hplace : (placed text)[offset]? = some place) (hkept : isKept place = true) :
    (strip text)[keptBefore text offset]? = some place.1 := by
  have hsplit : placed text
      = (placed text).take offset ++ place :: (placed text).drop (offset + 1) := by
    obtain ⟨hlt, hget⟩ := List.getElem?_eq_some_iff.mp hplace
    rw [← hget, List.getElem_cons_drop, List.take_append_drop]
  have hfilter : (placed text).filter isKept = ((placed text).take offset).filter isKept ++
      place :: ((placed text).drop (offset + 1)).filter isKept := by
    conv => lhs; rw [hsplit]
    rw [List.filter_append, List.filter_cons_of_pos hkept]
  rw [← map_fst_filter_placed, hfilter, keptBefore, List.countP_eq_length_filter, List.getElem?_map,
    List.getElem?_append_right le_rfl, Nat.sub_self]
  rfl

/-- Every offset in what is left is that of a character that is kept. -/
theorem exists_keptBefore_eq {text : Text} {offset : Nat} (h : offset < (strip text).length) :
    ∃ origin place, (placed text)[origin]? = some place ∧ isKept place = true ∧
      keptBefore text origin = offset := by
  rw [← map_fst_filter_placed, List.length_map] at h
  unfold keptBefore
  -- The characters are gone through one by one; those that are kept count the offset down.
  revert offset
  induction placed text with
  | nil => exact fun h => absurd h (Nat.not_lt_zero _)
  | cons first places ih =>
      intro offset h
      cases hfirst : isKept first with
      | true =>
          rw [List.filter_cons_of_pos hfirst, List.length_cons] at h
          cases offset with
          | zero => exact ⟨0, first, rfl, hfirst, rfl⟩
          | succ offset =>
              obtain ⟨origin, place, hplace, hkept, hcount⟩ := ih (Nat.lt_of_succ_lt_succ h)
              refine ⟨origin + 1, place, hplace, hkept, ?_⟩
              rw [List.take_succ_cons, List.countP_cons_of_pos hfirst, hcount]
      | false =>
          have hnot : ¬ isKept first = true := ne_true_of_eq_false hfirst
          rw [List.filter_cons_of_neg hnot] at h
          obtain ⟨origin, place, hplace, hkept, hcount⟩ := ih h
          refine ⟨origin + 1, place, hplace, hkept, ?_⟩
          rw [List.take_succ_cons, List.countP_cons_of_neg hnot, hcount]

/-- A place in what is left is as many lines further up as there are line feeds in the block
comments before it. -/
theorem line_keptBefore (text : Text) (offset : Nat) :
    (Position.of (strip text) (keptBefore text offset)).line + blockFeedsBefore text offset
      = (Position.of text offset).line := by
  have hcount := count_feed ((placed text).take offset) fun place hplace =>
    List.mem_of_mem_take hplace
  rw [List.map_take, map_fst_placed, ← take_keptBefore] at hcount
  simp only [Position.of, blockFeedsBefore]
  omega

/-! ## Lines of what is left -/

/-- Block comments without line feeds take none away. -/
theorem countP_isBlockFeed_eq_zero {text : Text}
    (hblocks : ∀ body, .block body ∈ segments text → '\n' ∉ body) :
    (placed text).countP isBlockFeed = 0 := by
  refine List.countP_eq_zero.mpr fun place hplace hfeed => ?_
  obtain ⟨hsegment, hmem⟩ := mem_of_mem_placed hplace
  obtain ⟨c, segment⟩ := place
  cases segment with
  | block body =>
      rw [isBlockFeed, Bool.and_eq_true, beq_iff_eq] at hfeed
      rw [hfeed.1] at hmem
      exact hblocks body hsegment hmem
  | _ => simp [isBlockFeed, Segment.isBlock] at hfeed

/-- Every character that is kept stands in what is left after those kept before it, on a line as
many further up as there are line feeds in the block comments before it.  If no block comment has a
line feed, as many are left as there were, and a fault at a character that is left is reported with
the line of that character. -/
theorem line_strip [Platform] (text : Text) :
    (∀ offset c segment, (placed text)[offset]? = some (c, segment) →
      segment.isComment = false →
      (strip text)[keptBefore text offset]? = some c ∧
        (Position.of (strip text) (keptBefore text offset)).line + blockFeedsBefore text offset
          = (Position.of text offset).line) ∧
    ((∀ body, .block body ∈ segments text → '\n' ∉ body) →
      (strip text).count '\n' = text.count '\n' ∧
      ∀ complaint position,
        Json.parseDocument (strip text) = .error (.malformed complaint position) →
        position.offset < (strip text).length →
        ∃ offset c segment, (placed text)[offset]? = some (c, segment) ∧
          segment.isComment = false ∧ keptBefore text offset = position.offset ∧
          position.line = (Position.of text offset).line) := by
  refine ⟨fun offset c segment hplace hsegment => ?_, fun hblocks => ⟨?_, ?_⟩⟩
  · have hkept : isKept (c, segment) = true := by rw [isKept, hsegment, Bool.not_false]
    exact ⟨getElem?_keptBefore hplace hkept, line_keptBefore text offset⟩
  · have hcount := count_feed (placed text) fun _ hplace => hplace
    rw [map_fst_placed, map_fst_filter_placed, countP_isBlockFeed_eq_zero hblocks] at hcount
    exact hcount.symm
  · intro complaint position herror hoffset
    obtain ⟨origin, ⟨c, segment⟩, hplace, hkept, horigin⟩ := exists_keptBefore_eq hoffset
    refine ⟨origin, c, segment, hplace, by simpa [isKept] using hkept, horigin, ?_⟩
    have hfeeds : blockFeedsBefore text origin = 0 :=
      Nat.eq_zero_of_le_zero ((countP_isBlockFeed_eq_zero hblocks).symm ▸
        (List.take_sublist origin (placed text)).countP_le)
    rw [Json.eq_position_of_decode herror, ← horigin, ← line_keptBefore text, hfeeds, Nat.add_zero]

/-- In an array with a comment of each kind the unknown word on the second line is reported there,
and in front of a number the line feed of a block comment is missing afterwards. -/
theorem line_strip_unknownWord :
    (∃ complaint position offset c segment,
      Json.parseDocument (strip "[ // a\n/* b */ x]".toList)
        = .error (.malformed complaint position) ∧
      (placed "[ // a\n/* b */ x]".toList)[offset]? = some (c, segment) ∧
      segment.isComment = false ∧
      keptBefore "[ // a\n/* b */ x]".toList offset = position.offset ∧
      position.line = 2 ∧ (Position.of "[ // a\n/* b */ x]".toList offset).line = 2) ∧
    (strip "/*\n*/\n1".toList)[1]? = some '1' ∧
      (Position.of (strip "/*\n*/\n1".toList) 1).line + 1
        = (Position.of "/*\n*/\n1".toList 6).line := by
  constructor
  · have hsegments : segments "[ // a\n/* b */ x]".toList
        = [.code '[', .code ' ', .line "// a".toList, .code '\n', .block "/* b */".toList,
          .code ' ', .code 'x', .code ']'] := by
      simp [segments, cutBlock]
    have hread : Json.parseDocument (strip "[ // a\n/* b */ x]".toList)
        = .error (.malformed .valueExpected ⟨2, 2, 4⟩) := by
      refine (Json.decode_eq_readFrom (by decide)).trans ?_
      refine (Json.readFrom_of_scanToken
        (show Json.scanToken _ = .ok (_, " \n x]".toList) from rfl) rfl).trans ?_
      refine (Json.readFrom_of_scanToken_error (show Json.scanToken _ = .error _ from rfl)).trans ?_
      rfl
    have hblocks : ∀ body,
        .block body ∈ segments "[ // a\n/* b */ x]".toList → '\n' ∉ body := by
      rw [hsegments]
      simp
    obtain ⟨-, hlines⟩ := (line_strip "[ // a\n/* b */ x]".toList).2 hblocks
    obtain ⟨offset, c, segment, hplace, hkept, hoffset, hline⟩ :=
      hlines _ _ hread (by decide)
    exact ⟨_, _, offset, c, segment, hread, hplace, hkept, hoffset, rfl, hline.symm⟩
  · have hsegments : segments "/*\n*/\n1".toList
        = [.block "/*\n*/".toList, .code '\n', .code '1'] := by
      simp [segments, cutBlock]
    have hplaced : placed "/*\n*/\n1".toList
        = "/*\n*/".toList.map (fun c => (c, .block "/*\n*/".toList))
          ++ [('\n', .code '\n'), ('1', .code '1')] := by
      rw [placed, hsegments]
      rfl
    have h := (line_strip "/*\n*/\n1".toList).1 6 '1' (.code '1') (by rw [hplaced]; rfl) rfl
    have hkept : keptBefore "/*\n*/\n1".toList 6 = 1 := by
      rw [keptBefore, hplaced]
      rfl
    have hfeeds : blockFeedsBefore "/*\n*/\n1".toList 6 = 1 := by
      rw [blockFeedsBefore, hplaced]
      rfl
    rwa [hkept, hfeeds] at h

end Comment

end KeyOrder
