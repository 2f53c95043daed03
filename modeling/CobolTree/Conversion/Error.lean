import CobolTree.Division
import CobolTree.Source.Position

/-!
Why a source tree has no rule tree. A rule begins and ends with a token, so a construct
without one cannot be converted, and neither can a unit whose nested unit was not.
-/

namespace CobolTree

/-- What was found without a token. -/
inductive Construct where
  | programUnit
  | division (which : Division)
  | procedureHeader | sectionHeader | paragraphHeader
deriving DecidableEq, Repr

/-- The construct as named in messages. -/
def Construct.phrase : Construct → String
  | programUnit => "program unit"
  | division which => which.name
  | procedureHeader => "procedure division"
  | sectionHeader => "section"
  | paragraphHeader => "paragraph"

/-- Why a source tree could not be converted. -/
inductive ConversionError where
  | missingStart (construct : Construct) (offset : Nat)
  | missingStop (construct : Construct) (offset : Nat)
  | unconvertedUnit (range : Range)
deriving DecidableEq, Repr

namespace ConversionError

def message : ConversionError → String
  | missingStart construct offset =>
      construct.phrase ++ " at offset " ++ toString offset ++ " has no start token"
  | missingStop construct offset =>
      construct.phrase ++ " at offset " ++ toString offset ++ " has no stop token"
  | unconvertedUnit range =>
      "program unit at " ++ toString range.start ++ ".." ++ toString range.stop ++
        " was not converted"

end ConversionError

end CobolTree
