import KeyOrder.Config.Issue
import KeyOrder.Json.Error
import KeyOrder.Json.Print
import KeyOrder.Sorting.Depth
import KeyOrder.Store.Basic
/-!
# Faults

Everything that can end an operation.
-/

namespace KeyOrder

/-- Why an operation ended without an answer. -/
inductive Fault where
  /-- A document cannot be read. -/
  | document (error : Json.DecodeError)
  /-- A configuration text cannot be read. -/
  | decode (error : Json.DecodeError)
  /-- A configuration is not valid. -/
  | config (error : ConfigError)
  /-- A value cannot be sorted. -/
  | sort (error : SortError)
  /-- A value cannot be printed. -/
  | print (error : Json.PrintError)
  /-- A pattern cannot be used. -/
  | pattern (fault : Glob.Fault)
  /-- A store failed. -/
  | file (fault : FileFault)
  /-- A line cannot be written. -/
  | output (fault : Utf8.EncodeFault)
  deriving DecidableEq

/-- The wording of a fault. -/
def Fault.message : Fault → String
  | document error => error.documentMessage
  | decode error => error.message
  | config error => error.message
  | sort error => error.message
  | print error => error.message
  | pattern fault => fault.message
  | file fault => fault.message
  | output fault => fault.message

end KeyOrder
