import KeyOrder.Comment.Detect
import KeyOrder.Comment.Strip
import KeyOrder.Json.Decode
import KeyOrder.Json.Print
import KeyOrder.Run.Fault
import KeyOrder.Sorting.Depth
/-!
# Processing a document

A document is decoded, sorted and printed.  A document with comments is left
alone unless they may be lost.  In check mode the printed document is compared
with the printed sorted one, so only the order of keys counts; otherwise the text
itself is compared.
-/

namespace KeyOrder

/-- How a document is processed. -/
structure ProcessOptions where
  /-- Whether the order is only checked. -/
  check : Bool
  /-- Whether a new text may be written. -/
  write : Bool
  /-- Whether comments may be lost. -/
  force : Bool
  tabs : Bool
  indent : Int
  sortFrom : Int
  /-- The keys that come first in the root mapping. -/
  sortOrder : List CodeText

/-- What came of a document. -/
inductive Outcome where
  /-- Nothing is to be written. -/
  | settled
  /-- The document has a new text. -/
  | updated (text : Text)
  /-- The keys are not in order. -/
  | unsorted
  /-- The document has comments. -/
  | commented
  /-- The document cannot be decoded. -/
  | malformed (error : Json.DecodeError)
  /-- The document has too many containers inside one another. -/
  | tooDeep
  deriving DecidableEq

/-- What comes of a decoded document whose text is `content`. -/
def processValue [Platform] (options : ProcessOptions) (content : Text) (v : Value) :
    Except Fault Outcome :=
  match sortFromDepth v options.sortFrom options.sortOrder with
  | .error .nestedTooDeeply => .ok .tooDeep
  | .error error => .error (.sort error)
  | .ok sorted => do
    let printed ← (Json.formatWith options.tabs options.indent sorted).mapError .print
    if options.check then
      let asRead ← (Json.formatWith options.tabs options.indent v).mapError .print
      return if printed = asRead then .settled else .unsorted
    return if options.write && printed != content then .updated printed else .settled

/-- What comes of a document. -/
def processText [Platform] (options : ProcessOptions) (content : Text) : Except Fault Outcome :=
  let commented := Comment.detect content
  if commented && !options.force then .ok .commented
  else
    match Json.parseDocument (if commented then Comment.strip content else content) with
    | .error error => .ok (.malformed error)
    | .ok v => processValue options content v

/-! ## Reports -/

/-- How a file fared. -/
inductive Status where
  | success
  | skipped
  | error
  | changed
  deriving DecidableEq, Repr

/-- The status of an outcome. -/
def Outcome.status : Outcome → Status
  | settled => .success
  | updated _ => .success
  | unsorted => .changed
  | commented => .skipped
  | malformed _ => .error
  | tooDeep => .error

/-- The message of an outcome. -/
def Outcome.message : Outcome → Option String
  | settled => none
  | updated _ => none
  | unsorted => some "Keys are not sorted"
  | commented => some "JSONC detected. Use --force to process (comments will be lost)"
  | malformed error => some ("Parse error: " ++ error.documentMessage)
  | tooDeep => some Json.nestedTooDeeply

/-- The text that an outcome asks to write. -/
def Outcome.output : Outcome → Option Text
  | updated text => some text
  | _ => none

end KeyOrder
