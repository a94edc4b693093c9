import CellularShader.Automaton
import CellularShader.Proofs.Configuration
import CellularShader.Proofs.Run
import CellularShader.Volume
import CellularShader.Proofs.Json.Decode
import CellularShader.Proofs.Record.Acceptance
import CellularShader.Proofs.Record.RoundTrip
import CellularShader.Proofs.Json.Finite
import CellularShader.Proofs.Json.Writable
import CellularShader.Proofs.Shader.Header
import CellularShader.Proofs.Text.Occurrence
import CellularShader.Proofs.Glsl.Words
import CellularShader.Proofs.Shader.Openings
import CellularShader.Proofs.Shader.Outline
import CellularShader.Proofs.Count.Text
import CellularShader.Proofs.Binary.Order
import CellularShader.Proofs.Decimal.Order
import CellularShader.Proofs.Json.Float
import CellularShader.Proofs.Json.Refusal
import CellularShader.Proofs.Configuration.Reload
import CellularShader.Proofs.Decimal.Digits
import CellularShader.Proofs.Record.Text
import CellularShader.Proofs.Count.Canonical
import CellularShader.Proofs.Rule.Canonical
import CellularShader.Proofs.Binary.Nearest
import CellularShader.Proofs.Neighbourhood.Enumeration
import CellularShader.Proofs.Edge.Policy
import CellularShader.Proofs.Decimal.Fewest
import CellularShader.Proofs.Literal.Faithful
import CellularShader.Proofs.Count.Dormant
import CellularShader.Proofs.Rule.Certain
import CellularShader.Proofs.Neighbourhood.Text
import CellularShader.Proofs.Edge.Codec
import CellularShader.Proofs.Count.Decomposition
import CellularShader.Proofs.Count.Partition
import CellularShader.Proofs.Json.Term
import CellularShader.Proofs.Record.Order
