/-!
# Fixed texts of the command line

The introduction is shown when no library is given, the help and the grammar on request.
-/

namespace Stencil

namespace CommandLine

/-- Lines of text, each with a line feed behind it. -/
def page (lines : List String) : String := String.join (lines.map (· ++ "\n"))

def introduction : String :=
  page [
    "Snipgen - generate simulation scripts from snippet libraries",
    "",
    "USAGE:",
    "    snipgen [OPTIONS] <LIBRARY>...",
    "    cat scene.toml | snipgen library.tcl",
    "",
    "OPTIONS:",
    "    -s, --scene              Scene to generate (TOML)",
    "    -m, --messages           Diagnostic message catalog (TOML)",
    "    --separator              Inline tag separator (default #)",
    "    --legacy-loops           Close dual-array loops in opening order",
    "    --distinct-colors        Give instances of a class distinct colors",
    "    -c, --check              Validate libraries and list classes",
    "    -g, --grammar            Show snippet grammar reference",
    "    -v, --verbose            Debug logging",
    "    -h, --help               Print help",
    "",
    "QUICK START:",
    "    snipgen --scene net.toml base.tcl > net.tcl",
    "",
    "Run --grammar for the snippet syntax."]

def help : String :=
  page [
    "Generate simulation scripts from snippet libraries",
    "",
    "Usage: snipgen [OPTIONS] [LIBRARIES]...",
    "",
    "Arguments:",
    "  [LIBRARIES]...  Snippet library files",
    "",
    "Options:",
    "  -s, --scene <SCENE>            Scene file (TOML); read from stdin if not provided",
    "  -m, --messages <MESSAGES>      Message catalog for generation diagnostics (TOML)",
    "      --separator <SEPARATOR>    Character delimiting inline tags in patterns [default: #]",
    "      --legacy-loops             Emit dual-array relation loops the way older scripts do",
    "      --distinct-colors <CLASS>  Reassign duplicate colors on instances of this class",
    "  -c, --check                    Load the libraries, report rejected snippets and list classes",
    "  -g, --grammar                  Show snippet grammar reference",
    "  -v, --verbose                  Log debug output to stderr",
    "  -h, --help                     Print help"]

def grammar : String :=
  page [
    "SNIPPET GRAMMAR",
    "===============",
    "",
    "LIBRARY FILE",
    "------------",
    "<library name>",
    "<toolbar name>",
    "<version>",
    "<snippet block>...",
    "",
    "A block ends at the first line ending with the word `end`.",
    "",
    "SNIPPET BLOCK",
    "-------------",
    "<header> : <attribute>; ... begin <pattern>; ... end",
    "",
    "HEADERS",
    "-------",
    "[!]entity <Name> <base> <icon>",
    "[!]relation <Name> [!]<fromBase> [!]<toBase> <baseStyle> <lineStyle> <lineWidth> <endStyle>",
    "",
    "Leading ! on the kind: at most one instance in a model.",
    "Leading ! on a base: an endpoint carries at most one relation of the class.",
    "Icons: 0 node, 1 agent, 2 application, 3 timer, 4 generic.",
    "",
    "ATTRIBUTES",
    "----------",
    "name                         No default",
    "name=default                 Default value",
    "name=default:opt1 opt2       Default restricted to listed options",
    "name:opt1 opt2               Options, no default",
    "",
    "PATTERNS",
    "--------",
    "text with #tag# tags         Literal line, tags substituted",
    "?attr=value:then:else        Conditional on an attribute's value",
    "",
    "TAGS",
    "----",
    "#name#       Instance name, name($array) when replicated",
    "#from# #to#  Relation endpoints",
    "#env.attr#   Attribute of the environment object",
    "#attr#       Attribute value; unknown tags print attr.NotFound"]

end CommandLine

end Stencil
