import Reshape.CommandLine.Invocation

/-!
# Help
-/

namespace Reshape.CommandLine

def Setting.description : Setting → String
  | .template => "Inline template; text that is not valid JSON is used as a string template"
  | .templateFile => "Load a template from a JSON or YAML file; applied before -t"
  | .file => "Input file (reads from stdin if omitted)"
  | .inputFormat => "Force input format [json, yaml]"
  | .width => "Indent width for pretty printing (compact when omitted or 0)"

def Setting.valueName (s : Setting) : String :=
  s.long.map fun c => if c = '-' then '_' else c.toUpper

def Setting.label (s : Setting) : String :=
  "-" ++ s.short.toString ++ ", --" ++ s.long ++ " <" ++ s.valueName ++ ">"

def flags : List (String × String) :=
  [ ("    --debug", "Log how the template compiled and where evaluation produced null"),
    ("-h, --help", "Print help"),
    ("-V, --version", "Print version") ]

/-- All options, with their descriptions in one column. -/
def optionLines : List String :=
  let options := Setting.all.map (fun s => (s.label, s.description)) ++ flags
  let column := (options.map (·.1.length)).foldl max 0
  options.map fun (label, description) =>
    "  " ++ label.pushn ' ' (column - label.length) ++ "  " ++ description

def expressionLines : List String :=
  [ "Template syntax:",
    "  \"$\"                 the root of the input",
    "  \"$.foo.bar\"         safe navigation, null if anything along the way is missing",
    "  \".foo\"              shorthand for $.foo",
    "  \"foo\"               the literal string foo",
    "  \"$[].bar\"           applies .bar to each element of $",
    "  \"$*.id\"             every value stored under an \"id\" key, at any depth",
    "  \".foo | .bar\"       fallback: .foo if truthy, else .bar",
    "  \".a & .b\"  \".a = .b\"  \".a + .b\"  \"!.a\"  \".a?\"",
    "  \".tags #\"           removes duplicates",
    "  \".xs !sort\"  \".xs !sortBy @.price\"  \".xs !filter @.ok\"  \".xs !map @.name\"",
    "  \".payload !json\"    parses strings holding JSON, recursively",
    "  \x7b\".foo\": true\x7d      keys starting with . $ or ( are templates too; \\\\ escapes",
    "  [\"literal\", ...]    an array of templates",
    "  [\"foreach\", \"<ARR>\", \"$var\", <TEMPLATE>]",
    "                      maps each element of ARR to TEMPLATE with $var bound to it",
    "",
    "When both -T and -t are given, the file template runs first and the inline",
    "template reshapes its output." ]

def helpText : String :=
  "\n".intercalate
    ([ "Transform JSON using a template that is also JSON", "",
        "Usage: jt [OPTIONS] <--template <TEMPLATE>|--template-file <TEMPLATE_FILE>>", "",
        "Options:" ] ++ optionLines ++ [""] ++ expressionLines) ++ "\n"

end Reshape.CommandLine
