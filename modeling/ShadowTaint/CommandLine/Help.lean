import ShadowTaint.CommandLine.Request
/-!
# The help of the program

The pages that the program shows when it is asked for help: what it or one of its commands is for,
and what it takes.
-/

namespace ShadowTaint

/-- The name of the program. -/
def programName : String := "nodetaint"

/-- The version of the program. -/
def programVersion : String := "0.1.0"

namespace HelpPage

/-- Lines with line ends behind them. -/
def lines (ls : List String) : String := String.join (ls.map (· ++ "\n"))

/-- The values between which an option chooses, as the help shows them. -/
def possibleValues : String :=
  "[possible values: " ++ ", ".intercalate Request.logLevels ++ "]"

/-- The line about the level of logging. -/
def logLevelLine : String :=
  "      --log-level <LOG_LEVEL>  Set the log level [default: warn] " ++ possibleValues

/-- The line about the file for logging. -/
def logFileLine : String :=
  "      --log-file <LOG_FILE>    Write logs to the specified file"

/-- The line about the format for logging. -/
def logJsonLine : String := "      --log-json               Output logs in JSON format"

/-- The line about the format of the output. -/
def formatLine : String :=
  "  -f, --format <FORMAT>        Output format (text, json) [default: text]"

/-- The line about the help of a command. -/
def helpLine : String := "  -h, --help                   Print help"

/-- What the program takes, and its commands. -/
def programUsage : List String :=
  ["",
   s!"Usage: {programName} [OPTIONS] <COMMAND>",
   "",
   "Commands:",
   "  config  Print the configuration a run would use",
   "  triage  Summarize a JSON taint path export",
   "  dot     Render a JSON taint path export as a Graphviz graph",
   "  help    Print this message or the help of the given subcommand(s)",
   "",
   "Options:"]

/-- The text of a page. -/
def text : HelpPage → String
  | .program false => lines (
    ["Inspect nodetaint configurations and taint path exports"] ++ programUsage ++
    [logLevelLine,
     logFileLine,
     logJsonLine,
     "  -h, --help                   Print help (see more with '--help')",
     "  -V, --version                Print version"])
  | .program true => lines (
    ["nodetaint tracks untrusted data through instrumented JavaScript executions.",
     "",
     "This tool resolves run configurations, triages exported taint paths and",
     "renders them as Graphviz graphs."] ++ programUsage ++
    ["      --log-level <LOG_LEVEL>",
     "          Set the log level",
     "          ",
     "          [default: warn]",
     "          " ++ possibleValues,
     "",
     "      --log-file <LOG_FILE>",
     "          Write logs to the specified file",
     "",
     "      --log-json",
     "          Output logs in JSON format",
     "",
     "  -h, --help",
     "          Print help (see a summary with '-h')",
     "",
     "  -V, --version",
     "          Print version"])
  | .config => lines
    ["Print the configuration a run would use",
     "",
     s!"Usage: {programName} config [OPTIONS]",
     "",
     "Options:",
     logLevelLine,
     "      --tokens <TOKEN>...      \x60key=value\x60 tokens applied after the config file, " ++
       "as passed to the engine",
     "      --dir <PATH>             Directory to search for nodetaint.toml " ++
       "(defaults to the current directory)",
     logFileLine,
     formatLine,
     logJsonLine,
     helpLine]
  | .triage => lines
    ["Summarize a JSON taint path export",
     "",
     s!"Usage: {programName} triage [OPTIONS] <PATH>",
     "",
     "Arguments:",
     "  <PATH>  JSON export written by the engine (taint.json or taint_<n>.json)",
     "",
     "Options:",
     formatLine,
     logLevelLine,
     logFileLine,
     "      --no-color               Disable colored output",
     logJsonLine,
     helpLine]
  | .dot => lines
    ["Render a JSON taint path export as a Graphviz graph",
     "",
     s!"Usage: {programName} dot [OPTIONS] <PATH>",
     "",
     "Arguments:",
     "  <PATH>  JSON export written by the engine",
     "",
     "Options:",
     logLevelLine,
     "  -o, --output <FILE>          Write the graph to this file instead of stdout",
     logFileLine,
     logJsonLine,
     helpLine]
  | .help => lines
    ["Print this message or the help of the given subcommand(s)",
     "",
     s!"Usage: {programName} help [COMMAND]...",
     "",
     "Arguments:",
     "  [COMMAND]...  Print help for the subcommand(s)"]

end HelpPage

end ShadowTaint
