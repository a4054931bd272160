import Reshape.Document.Format
import Reshape.Json.Reader
import Reshape.Yaml.Node

/-!
# Reading documents
-/

namespace Reshape.Document

def readYaml (text : String) : Except Fault Value :=
  match Yaml.Node.read text with
  | .error fault => .error (.yaml fault)
  | .ok node =>
    match node.toValue [] with
    | .ok v => .ok v
    | .error path => .error (.keyNotScalar path)

def readJson (text : String) : Except Fault Value :=
  match Json.read text with
  | .ok v => .ok v
  | .error fault => .error (.json fault)

def read (format : Format) (text : String) : Except Fault Value :=
  match format with
  | .json => readJson text
  | .yaml => readYaml text

def textOf (bytes : ByteArray) : Except ReadFault String :=
  match String.fromUTF8? bytes with
  | some text => .ok text
  | none => .error .notUtf8

def ofBytes (format : Format) (content : Except ReadFault ByteArray) : Except Fault Value :=
  match content.bind textOf with
  | .ok text => read format text
  | .error fault => .error (.unreadable fault)

/--
Reads the file at a path by `fetch`. Its format is the given one or that of its extension, and
nothing is fetched if the extension does not tell.
-/
def load [Monad m] (fetch : String → m (Except ReadFault ByteArray)) (path : String)
    (format : Option Format) : m (Except Fault Value) :=
  match format.elim (Format.ofPath path) .ok with
  | .ok format => do return ofBytes format (← fetch path)
  | .error fault => return .error fault

end Reshape.Document
