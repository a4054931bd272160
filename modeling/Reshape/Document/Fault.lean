import Reshape.Json.Fault
import Reshape.Path
import Reshape.Yaml.Fault

/-!
# Faults of documents
-/

namespace Reshape

inductive ReadFault where
  | notFound
  | notDirectory
  | isDirectory
  | nameTooLong
  | nameWithZero
  | notUtf8
  | system (description : String)
  deriving DecidableEq

def ReadFault.message : ReadFault → String
  | notFound => "No such file or directory (os error 2)"
  | notDirectory => "Not a directory (os error 20)"
  | isDirectory => "Is a directory (os error 21)"
  | nameTooLong => "File name too long (os error 36)"
  | nameWithZero => "file name contained an unexpected NUL byte"
  | notUtf8 => "stream did not contain valid UTF-8"
  | system description => description

namespace Document

inductive Fault where
  | unsupportedFormat (name : String)
  | noExtension
  | unknownExtension (extension : String)
  | json (fault : Json.Fault)
  | yaml (fault : Yaml.Fault)
  | keyNotScalar (path : Path)
  | unreadable (fault : ReadFault)
  deriving DecidableEq

def Fault.message : Fault → String
  | unsupportedFormat name => "unsupported format: " ++ name
  | noExtension => "cannot detect format: no file extension"
  | unknownExtension ext => "unknown file extension: ." ++ ext
  | json fault => "parse error: " ++ fault.message
  | yaml fault => "parse error: " ++ fault.message
  | keyNotScalar path => "parse error: at " ++ path.render ++ ": mapping keys must be scalars"
  | unreadable fault => "I/O error: " ++ fault.message

end Document

end Reshape
