import Reshape.Document.Fault
import Reshape.Template.Plan

/-!
# Reports

A report tells what the command was doing when it failed and, from the outside in, why.
-/

namespace Reshape.CommandLine

structure Report where
  summary : String
  causes : List String
  deriving DecidableEq

namespace Report

/-- A message in lines, of which the first is indented by `head` and all others by `tail`. -/
def indented (head tail message : String) : List String :=
  match message.toList.splitOn '\n' with
  | [] => [head]
  | first :: rest =>
    (head ++ String.ofList first) :: rest.map fun line => tail ++ String.ofList line

def numbered (index : Nat) : List String → List String
  | [] => []
  | cause :: rest =>
    let number := Text.decimal index
    let head := List.replicate (5 - number.length) ' ' ++ number ++ [':', ' ']
    indented (String.ofList head) "       " cause ++ numbered (index + 1) rest

/-- A single cause has no number. -/
def causeLines : List String → List String
  | [] => []
  | [cause] => "" :: "Caused by:" :: indented "    " "    " cause
  | causes => "" :: "Caused by:" :: numbered 0 causes

def lines (r : Report) : List String := indented "Error: " "" r.summary ++ causeLines r.causes

end Report

/-- A document's fault is its own cause; one of reading has the system's message as a second. -/
def documentCauses (fault : Document.Fault) : List String :=
  match fault with
  | .unreadable inner => [fault.message, inner.message]
  | _ => [fault.message]

def templateCauses (fault : Template.LocatedFault) : List String :=
  [fault.message, fault.fault.message]

end Reshape.CommandLine
