import KeyOrder.Sorting.Shallow
import KeyOrder.Run.Publish
import KeyOrder.Main
import KeyOrder.Store.Memory
import KeyOrder.Proofs.Canonical
import KeyOrder.Proofs.Gaps
import KeyOrder.Proofs.Verdict
import KeyOrder.Proofs.Rerun
import KeyOrder.Proofs.Outcomes
import KeyOrder.Proofs.Detection
import KeyOrder.Proofs.Matching
import KeyOrder.Proofs.ExactPaths
import KeyOrder.Proofs.ConfigReports
import KeyOrder.Proofs.Candidates
import KeyOrder.Proofs.Discovery
import KeyOrder.Proofs.SegmentCuts
import KeyOrder.Proofs.BraceTexts
import KeyOrder.Proofs.IgnoredNames
import KeyOrder.Proofs.Conformance
import KeyOrder.Proofs.Composition
import KeyOrder.Proofs.LineNumbers
import KeyOrder.Proofs.Refinement
import KeyOrder.Proofs.PresentTargets
import KeyOrder.Proofs.StoredTexts
import KeyOrder.Proofs.Refusals
import KeyOrder.Proofs.RootSorting
import KeyOrder.Proofs.PlainPatterns
import KeyOrder.Proofs.Halves
import KeyOrder.Proofs.StarCounts
import KeyOrder.Proofs.PathsBelow
