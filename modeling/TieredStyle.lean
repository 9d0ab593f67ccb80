import TieredStyle.OrderedMap.Lemmas
import TieredStyle.Css.Sheet.Lemmas
import TieredStyle.Css.Tree.Print
import TieredStyle.Css.Update
import TieredStyle.Style.Decoding
import TieredStyle.Style.Json.Read
import TieredStyle.Style.Json.Write
import TieredStyle.Style.Merge
import TieredStyle.Style.Projection
import TieredStyle.Proofs.Lexing.Identifiers
import TieredStyle.Proofs.Printing.ReadBack
import TieredStyle.Proofs.Printing.Plain
import TieredStyle.Proofs.Tree.Lines
import TieredStyle.Proofs.Printing.Conserved
import TieredStyle.Proofs.Printing.Tails
import TieredStyle.Proofs.Printing.Exact
import TieredStyle.Proofs.Style.Projected
import TieredStyle.Proofs.Style.Survival
import TieredStyle.Proofs.Style.Selector
import TieredStyle.Proofs.Tree.Ruled
import TieredStyle.Proofs.Style.Layers
import TieredStyle.Proofs.Style.Written
import TieredStyle.Proofs.Style.RoundTrip
import TieredStyle.Proofs.Tree.Edited
import TieredStyle.Proofs.Tree.Declared
import TieredStyle.Proofs.Style.Merged
import TieredStyle.Proofs.Style.Updated
import TieredStyle.Proofs.Grammar.Shaped
import TieredStyle.Proofs.Tree.Coherent
import TieredStyle.Proofs.Tree.Entered
import TieredStyle.Proofs.Tree.Runs
import TieredStyle.Proofs.Tree.Shaped
import TieredStyle.Proofs.Tree.Grown
import TieredStyle.Proofs.Tree.Found
import TieredStyle.Proofs.Tree.Put
import TieredStyle.Proofs.Tree.Overwritten
import TieredStyle.Proofs.Style.Reprojected
import TieredStyle.Proofs.FirstSeen
import TieredStyle.Proofs.OrderedMap.Inserted
import TieredStyle.Proofs.Style.Combined
import TieredStyle.Proofs.Style.Staged
import TieredStyle.Proofs.Style.Difference
import TieredStyle.Proofs.Style.Extracted
import TieredStyle.Proofs.Tree.Enclosed
import TieredStyle.Proofs.Style.Cascade
import TieredStyle.Proofs.Style.Overlaid
import TieredStyle.Proofs.Tree.Bounded
import TieredStyle.Proofs.Tree.Course
import TieredStyle.Proofs.Tree.Traversed
import TieredStyle.Proofs.Json.Numeral
import TieredStyle.Proofs.Json.Text
import TieredStyle.Proofs.Json.Members
import TieredStyle.Proofs.Style.Json
import TieredStyle.Proofs.Style.History
import TieredStyle.Proofs.Tree.Ordered
import TieredStyle.Proofs.Tree.Lapsed
import TieredStyle.Proofs.Tree.Touched
import TieredStyle.Proofs.Tree.Retrieved
import TieredStyle.Proofs.Tree.Updatable
import TieredStyle.Proofs.Lexing.Rejoined
import TieredStyle.Proofs.Grammar.Fragment
import TieredStyle.Proofs.Lexing.Even
import TieredStyle.Proofs.Grammar.Normalized
import TieredStyle.Proofs.Printing.Literal
import TieredStyle.Proofs.Grammar.Failed
import TieredStyle.Proofs.Grammar.Raised
import TieredStyle.Proofs.Lexing.Placed
import TieredStyle.Proofs.Grammar.Blamed
import TieredStyle.Proofs.Lexing.Commented
import TieredStyle.Proofs.Lexing.CutInto
import TieredStyle.Proofs.Lexing.Continued
import TieredStyle.Proofs.Grammar.Retold
import TieredStyle.Proofs.Grammar.Completed
import TieredStyle.Proofs.Grammar.Padded
import TieredStyle.Proofs.Grammar.Headed
import TieredStyle.Proofs.Style.Addressed
import TieredStyle.Proofs.Tree.Halted
import TieredStyle.Proofs.Tree.Filtered
import TieredStyle.Proofs.Style.Assembled
import TieredStyle.Proofs.Tree.Filled
import TieredStyle.Proofs.Style.Faithful
import TieredStyle.Proofs.Style.Compared
import TieredStyle.Proofs.Lexing.Lossless
import TieredStyle.Proofs.Style.Faulted
import TieredStyle.Proofs.Lexing.Woven
import TieredStyle.Proofs.Breakpoint.Queried
import TieredStyle.Proofs.Lexing.Bytes
import TieredStyle.Proofs.Grammar.Progress
import TieredStyle.Proofs.Tree.Arena
import TieredStyle.Proofs.Tree.Tabled
import TieredStyle.Proofs.Tree.Appended
