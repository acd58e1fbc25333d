import ValueTrace.Main
import ValueTrace.Proofs.MultipleAssignment
import ValueTrace.Proofs.Specialization
import ValueTrace.Proofs.WellTyped
import ValueTrace.Proofs.Positional
import ValueTrace.Proofs.Filing
import ValueTrace.Proofs.Provenance
import ValueTrace.Proofs.Slicing
import ValueTrace.Proofs.Erasure
import ValueTrace.Proofs.Alternatives
import ValueTrace.Proofs.Stopping
import ValueTrace.Proofs.Representation
import ValueTrace.Proofs.Levels
import ValueTrace.Proofs.Diagnostics
import ValueTrace.Proofs.Ambiguity
import ValueTrace.Proofs.WriteSequences
import ValueTrace.Proofs.Naming
import ValueTrace.Proofs.CurrentLine
import ValueTrace.Proofs.LoweredLiterals
import ValueTrace.Proofs.Closures
import ValueTrace.Proofs.InheritedLines
import ValueTrace.Proofs.PayloadText
import ValueTrace.Proofs.ReportLines
import ValueTrace.Proofs.Verbosity
