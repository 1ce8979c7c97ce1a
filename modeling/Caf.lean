import Caf.Graph.Walk
import Caf.Graph.Iso
import Caf.Graph.Eval
import Caf.Bytes.LittleEndian
import Caf.Run.Ensures
import Caf.Spec.Value
import Caf.Spec.Stream
import Caf.Spec.Mutator
import Caf.Graph.Slots
import Caf.Proof.Bounds
import Caf.Proof.Deserialize
import Caf.Proof.Grammar
import Caf.Proof.Numbering
import Caf.Proof.Stored
import Caf.Proof.Store
import Caf.Proof.Descendents
import Caf.Proof.Reload
import Caf.Proof.Requests
import Caf.Proof.Region
import Caf.Proof.Decoded
import Caf.Proof.Made
import Caf.Proof.Random
import Caf.Proof.TreeShaped
import Caf.Proof.Tours
import Caf.Proof.Decided
import Caf.Proof.Frame
import Caf.Proof.Integers
import Caf.Proof.Escape
import Caf.Proof.Overrun
import Caf.Proof.Labels
import Caf.Proof.BrowserHost
import Caf.Proof.Imports
import Caf.Graph.Search
import Caf.Proof.Lifetimes
import Caf.Proof.FunctionDatabase
import Caf.Proof.ExtractAPI
import Caf.Proof.ApiNames
import Caf.Proof.FloatText
import Caf.Proof.Quoted
import Caf.Proof.PathLookup
import Caf.Proof.Symbol
import Caf.Proof.Constructor
import Caf.Proof.Optional
import Caf.Proof.StubInput
import Caf.Proof.StubSlots
import Caf.Proof.StubValid
