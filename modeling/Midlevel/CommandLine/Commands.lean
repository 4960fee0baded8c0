import Midlevel.CommandLine.Command
import Midlevel.Version

/-!
The commands of the program and their flags.
-/

namespace Midlevel.CommandLine

inductive Shell where
  | bash
  | zsh
  | fish
  | powershell
  deriving DecidableEq

inductive Work where
  | optimise
  | dump
  | listPasses
  | cleanCache
  | showCachePath
  | showVersion
  | explain
  | complete (shell : Shell)
  deriving DecidableEq

def lines (ls : List Text) : Text := Text.join "\n" ls

/-! ### Flags -/

def globalFlags : List Flag :=
  [{ name := "config", kind := .text
     help := "path to virc.toml (default: nearest one above the working directory)" },
   { name := "color", kind := .text, default := "auto", help := "colorize output (auto|on|off)" },
   { name := "quiet", kind := .toggle, help := "suppress non-essential output" },
   { name := "timings", kind := .toggle, help := "show timing information" },
   { name := "ui", kind := .text, default := "auto", help := "progress UI (auto|on|off)" },
   { name := "trace", kind := .text, help := "trace output file (- for stderr)" },
   { name := "trace-level", kind := .text, help := "trace level (off|phase|detail|debug)" },
   { name := "trace-mode", kind := .text, help := "trace storage mode (stream|ring|both)" },
   { name := "trace-format", kind := .text, help := "trace format (text|ndjson)" },
   { name := "cpuprofile", kind := .text, help := "write a CPU profile to file" },
   { name := "memprofile", kind := .text, help := "write a heap profile to file on exit" },
   { name := "exectrace", kind := .text, help := "write a Go execution trace to file" }]

def compileFlags : List Flag :=
  [{ name := "no-verify", kind := .toggle, help := "skip IR verification between passes" },
   { name := "library", kind := .toggle, help := "do not synthesise a main function" },
   { name := "jobs", kind := .number
     help := "max inputs processed in parallel (0=config or one per input)" },
   { name := "target", kind := .text, help := "target triple for the listing" },
   { name := "emit", kind := .text, default := "ir", help := "what to print (ir|listing|none)" },
   { name := "output", letter := some 0x6F, kind := .text
     help := "write one file per input into this directory instead of stdout" }]

def optimiseFlags : List Flag :=
  [{ name := "level", letter := some 0x4F, kind := .text,
     help := "optimisation level (off|low|high)" },
   { name := "disable", kind := .list, help := "passes to skip" },
   { name := "check-reproducible", kind := .toggle
     help := "recompile cache hits and compare the optimised IR" },
   { name := "no-cache", kind := .toggle, help := "ignore the IR cache" }]

def versionFlags : List Flag :=
  [{ name := "format", kind := .text, default := "pretty", help := "output format (pretty|json)" }]

def completionFlags : List Flag :=
  [{ name := "no-descriptions", kind := .toggle, help := "disable completion descriptions" }]

/-! ### Shells -/

def newShell : Text := "You will need to start a new shell for this setup to take effect."

def thisSession : Text := "To load completions in your current shell session:"

def everySession : Text := "To load completions for every new session, execute once:"

def Shell.setup : Shell → Text
  | bash => lines
    ["Generate the autocompletion script for the bash shell.", "",
     "This script depends on the 'bash-completion' package.",
     "If it is not installed already, you can install it via your OS's package manager.", "",
     thisSession, "", "\tsource <(virc completion bash)", "", everySession, "",
     "#### Linux:", "", "\tvirc completion bash > /etc/bash_completion.d/virc", "",
     "#### macOS:", "", "\tvirc completion bash > $(brew --prefix)/etc/bash_completion.d/virc", "",
       newShell]
  | zsh => lines
    ["Generate the autocompletion script for the zsh shell.", "",
     "If shell completion is not already enabled in your environment you will need",
     "to enable it.  You can execute the following once:", "",
     "\techo \"autoload -U compinit; compinit\" >> ~/.zshrc", "",
     thisSession, "", "\tsource <(virc completion zsh)", "", everySession, "",
     "#### Linux:", "", "\tvirc completion zsh > \"$\x7bfpath[1]\x7d/_virc\"", "",
     "#### macOS:", "", "\tvirc completion zsh > $(brew --prefix)/share/zsh/site-functions/_virc",
       "", newShell]
  | fish => lines
    ["Generate the autocompletion script for the fish shell.", "",
     thisSession, "", "\tvirc completion fish | source", "", everySession, "",
     "\tvirc completion fish > ~/.config/fish/completions/virc.fish", "", newShell]
  | powershell => lines
    ["Generate the autocompletion script for powershell.", "",
     thisSession, "", "\tvirc completion powershell | Out-String | Invoke-Expression", "",
     "To load completions for every new session, add the output of the above command",
     "to your powershell profile."]

def Shell.name : Shell → Text
  | bash => "bash"
  | zsh => "zsh"
  | fish => "fish"
  | powershell => "powershell"

def Shell.command (s : Shell) : Command Work :=
  { path := ["completion", s.name], summary := "Generate the autocompletion script for " ++ s.name
    description := s.setup, work := some (.complete s), arity := .none, flags := completionFlags
    terse := true }

/-! ### Commands -/

def commands : List (Command Work) :=
  [{ path := [], summary := "VIR mid-level IR optimiser"
     description :=
       "virc lowers typed AST modules into VIR, optimises them and prints the result" },
   { path := ["opt"], arguments := " [flags] <input.tast>..."
     summary := "Generate and optimise VIR for typed AST modules"
     work := some .optimise, arity := .atLeast 1, flags := optimiseFlags ++ compileFlags },
   { path := ["dump"], arguments := " [flags] <input.tast>..."
     summary := "Print freshly generated VIR without optimising it"
     work := some .dump, arity := .atLeast 1, flags := compileFlags },
   { path := ["passes"], summary := "List optimisation passes in pipeline order"
     work := some .listPasses, arity := .none },
   { path := ["cache"], summary := "Manage the optimised IR cache" },
   { path := ["cache", "clean"], summary := "Remove every cached entry"
     work := some .cleanCache, arity := .none },
   { path := ["cache", "path"], summary := "Print the cache directory"
     work := some .showCachePath, arity := .none },
   { path := ["version"], summary := "Show virc build metadata"
     work := some .showVersion, arity := .none, flags := versionFlags },
   { path := ["help"], arguments := " [command]", summary := "Help about any command"
     description := lines ["Help provides help for any command in the application.",
       "Simply type virc help [path to command] for full details."]
     work := some .explain },
   { path := ["completion"], summary := "Generate the autocompletion script for the specified shell"
     description := lines ["Generate the autocompletion script for virc for the specified shell.",
       "See each sub-command's help for details on how to use the generated script."]
     arity := .none },
   Shell.bash.command, Shell.zsh.command, Shell.fish.command, Shell.powershell.command]

def program (build : BuildInfo) : Program Work :=
  { name := "virc", version := build.version, commands, flags := globalFlags }

def Shell.script (s : Shell) (names : List Text) : Text :=
  let list := Text.join " " names
  match s with
  | bash => "complete -W \"" ++ list ++ "\" virc\n"
  | zsh => "compctl -k \"(" ++ list ++ ")\" virc\n"
  | fish => "complete -c virc -f -a \"" ++ list ++ "\"\n"
  | powershell =>
    "Register-ArgumentCompleter -Native -CommandName virc -ScriptBlock \x7b '" ++ list ++
      "' -split ' ' \x7d\n"

end Midlevel.CommandLine
