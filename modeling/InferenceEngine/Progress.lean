import InferenceEngine.Json.Printer

/-!
# Progress of a run

A `Progress` says how far a run has come. The counts are natural numbers; the elapsed time is cut
off at the greatest 64-bit word.
-/

namespace InferenceEngine

/-- How far a run has come. -/
structure Progress where
  /-- instructions completed -/
  processed : Nat
  /-- instructions in all -/
  total : Nat
  /-- milliseconds since the run began -/
  elapsedMs : Nat
  /-- set on the last notification only -/
  finished : Bool
deriving DecidableEq

namespace Progress

/-- Nanoseconds as whole milliseconds of at most 64 bits. -/
def millis (nanos : Nat) : Nat := min (nanos / 1000000) (UInt64.size - 1)

/-- The line that reports progress. -/
def text (p : Progress) : String :=
  s!"Processed {p.processed}/{p.total} kernels in {p.elapsedMs} ms"

open Json

/-- The tree progress is written as. -/
def tree (p : Progress) : Tree :=
  .ofMembers [("processed", .ofNat p.processed), ("total", .ofNat p.total),
    ("elapsed_ms", .ofNat p.elapsedMs), ("finished", .bool p.finished)]

end Progress

end InferenceEngine
