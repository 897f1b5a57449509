import ProgramHash.CommandLine.Grammar

namespace ProgramHash.CommandLine

def lines (l : List String) : String := String.join (l.map (· ++ "\n"))

def versionText : String := "hashx-cli 0.1.0\n"

namespace Page

def text : Page → String
  | .main => lines [
      "Command line front end for the hashx crate",
      "",
      "Usage: hashx [OPTIONS] [COMMAND]",
      "",
      "Commands:",
      "  hash    Hash a range of nonces, printing one little endian digest per line",
      "  verify  Check every available runtime and the batch paths against the interpreter",
      "  help    Print this message or the help of the given subcommand(s)",
      "",
      "Options:",
      "      --config-file <CONFIG_FILE>  The PATH of the `hashx` config file",
      "      --generate-config            Generate a config file and print it to stdout",
      "      --log-level <LOG_LEVEL>      Override the log level of the config file",
      "      --runtime <RUNTIME>          Override the runtime of the config file [possible values:",
      "                                   interpret_only, scalar_only, vector_only, try_compile]",
      "  -h, --help                       Print help",
      "  -V, --version                    Print version"]
  | .hash => lines [
      "Hash a range of nonces, printing one little endian digest per line",
      "",
      "Usage: hashx hash [OPTIONS] --seed <SEED>",
      "",
      "Options:",
      "      --seed <SEED>    The seed, in hex",
      "      --nonce <NONCE>  The first nonce [default: 0]",
      "      --count <COUNT>  How many nonces to hash [default: 1]",
      "  -h, --help           Print help"]
  | .verify => lines [
      "Check every available runtime and the batch paths against the interpreter",
      "",
      "Usage: hashx verify [OPTIONS] --seed <SEED>",
      "",
      "Options:",
      "      --seed <SEED>      The seed, in hex",
      "      --nonces <NONCES>  How many nonces to check, starting from 0 [default: 256]",
      "  -h, --help             Print help"]
  | .help => lines [
      "Print this message or the help of the given subcommand(s)",
      "",
      "Usage: hashx help [COMMAND]...",
      "",
      "Arguments:",
      "  [COMMAND]...  Print help for the subcommand(s)"]

end Page

end ProgramHash.CommandLine
