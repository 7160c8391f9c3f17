import ResourcePki.CommandLine.Run
import Std.Time.DateTime.Timestamp

/-! The program: it runs a command on the files and the clock of the machine. -/

namespace ResourcePki

/-- The files, the streams and the environment of the machine, with a fixed time. -/
def Host.machine (now : Time) : Host IO where
  now := pure now
  environment name := IO.getEnv name
  readFile path := do
    try
      return some (← IO.FS.readBinFile path)
    catch _ =>
      return none
  openFile path := do
    try
      let _ ← IO.FS.Handle.mk path .append
      return true
    catch _ =>
      return false
  appendFile path line := do
    let handle ← IO.FS.Handle.mk path .append
    handle.putStr line
  print text := do
    let out ← IO.getStdout
    out.putStr text
  printError text := do
    let err ← IO.getStderr
    err.putStr text

namespace CommandLine

def Failure.message : Failure → String
  | config .unreadable => "Configuration error: the file cannot be read"
  | config .malformed => "Configuration error: the file is malformed"
  | config (.other text) => s!"Configuration error: {text}"
  | io context => context
  | state => "Invalid CA tree"

def usageText : String :=
  String.intercalate "\n" ["Resource certificate issuing engine for an RPKI CA.", "",
    "Usage: rpki-issuer [OPTIONS] <COMMAND>", "", "Commands:",
    "  config  Print the default configuration",
    "  audit   Check the invariants of all CAs in a saved tree",
    "  help    Print this message or the help of the given subcommand(s)", "", "Options:",
    "  -c, --config <CONFIG>  The config file to use, defaults are used if absent",
    "  -h, --help             Print help", "  -V, --version          Print version", ""]

end CommandLine

end ResourcePki

open ResourcePki in
def main (args : List String) : IO UInt32 := do
  let elapsed ← Std.Time.Timestamp.now
  let now : Time := ⟨0⟩
  let host := Host.machine (now.addSeconds elapsed.toSecondsSinceUnixEpoch.val)
  match ← CommandLine.runArguments host args with
  | .ok (.ok outcome) => return outcome.exitCode
  | .ok (.error e) => do
    host.printError (e.message ++ "\n")
    return 1
  | .error .help => do
    host.print CommandLine.usageText
    return 0
  | .error .usage => do
    host.printError CommandLine.usageText
    return 2
