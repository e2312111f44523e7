import Casewise.Evaluation

/-! The fixed texts of the command line. -/
namespace Casewise.CommandLine

def usage : String :=
  "usage: kona [-h] [--tokens | --parse | --format] [--max-depth MAX_DEPTH]\n" ++
  "            [--debug] [--no-color] [--version]\n" ++
  "            script [entry] [ARG ...]\n"

def defaultEntry : String := "main"

def help : String :=
  usage ++ "\n" ++
  "Kona - evaluate pattern-matched integer functions\n\n" ++
  "positional arguments:\n" ++
  "  script                Kona source file\n" ++
  "  entry                 Function to apply (default: " ++ defaultEntry ++ ")\n" ++
  "  ARG                   Integer arguments for the entry function\n\n" ++
  "options:\n" ++
  "  -h, --help            show this help message and exit\n" ++
  "  --tokens              Tokenize only and print tokens\n" ++
  "  --parse               Parse only and print the AST\n" ++
  "  --format              Parse and print canonical source\n" ++
  "  --max-depth MAX_DEPTH\n" ++
  "                        Maximum call depth (default: " ++ toString Program.defaultLimit ++
  ")\n" ++
  "  --debug               Enable debug output for all stages\n" ++
  "  --no-color            Disable colored diagnostics\n" ++
  "  --version             show program's version number and exit\n\n" ++
  "Examples:\n" ++
  "  kona fib.kona fib 10          # Print fib 10\n" ++
  "  kona --tokens fib.kona        # Show the token stream\n" ++
  "  kona --parse fib.kona         # Show the AST\n" ++
  "  kona --format fib.kona        # Print canonical source\n" ++
  "  kona --debug fib.kona fib 5   # Trace every call\n" ++
  "        \n"

def version : String := "Kona v0.1.0\n"

def refusal (message : String) : String := usage ++ "kona: error: " ++ message ++ "\n"

end Casewise.CommandLine
