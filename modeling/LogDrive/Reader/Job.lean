import LogDrive.Reader.Hash

/-!
# The jobs that make a HashDB (`hashIndex.java`, `samplingIndex.java`)

The framework divides the sequence file into splits, each of which one map task reads from its first record
to its last with a `key` and a `value` of its own. It sorts the pairs that the tasks write by their keys,
and the reducers of both jobs, which do not override the one of the framework, pass them on. So a HashDB is
some order of the pairs that the tasks have written. An exception of a mapper fails the job.
-/

set_option autoImplicit false

open Bytes Java

namespace LogDrive

/-- What the calls of a mapper write, in order. -/
def collect {α : Type} : List (Exec (Option α)) → Exec (List α)
  | [] => pure []
  | call :: calls => do
    let written ← call
    let rest ← collect calls
    pure (written.toList ++ rest)

/-- One map task of `hashIndex`. -/
def hashTask (md5 : MD5) (split : List (Mem × Mem)) : Exec (List (Text × Text)) :=
  collect (mapRecords md5 (.of []) (.of []) split)

/-- The pairs that all map tasks write. -/
def hashIndex (md5 : MD5) : List (List (Mem × Mem)) → Exec (List (Text × Text))
  | [] => pure []
  | split :: splits => do
    let pairs ← hashTask md5 split
    let rest ← hashIndex md5 splits
    pure (pairs ++ rest)

/-- The rate that `samplingIndex` takes: that of the option, and `0.0` without one. -/
def samplingRateOf (option : Option Nat) : Nat := option.getD 0

/-- The pairs that `SamplingMapper` passes on; the `i`th call gets the number `draw i`. -/
def samplingIndex {α : Type} (samplingRate : Nat) (draw : Nat → Fin (2 ^ 53)) : Nat → List α → List α
  | _, [] => []
  | i, pair :: pairs =>
    if (draw i).val ≤ samplingRate then pair :: samplingIndex samplingRate draw (i + 1) pairs
    else samplingIndex samplingRate draw (i + 1) pairs

end LogDrive
