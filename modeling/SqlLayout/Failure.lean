import SqlLayout.Layout
import SqlLayout.Lexeme

/-! Everything that can go wrong, with the text that users see. -/

namespace SqlLayout
set_option autoImplicit false

inductive ConfigFault where
  | unknownDialect (name : String)
  | fileNotFound (path : String)
  | unknownOption (key : String)
  | invalidValue (key expected : String)
  | invalidRegistry
deriving DecidableEq, Repr

def ConfigFault.message : ConfigFault → String
  | .unknownDialect name => "Unknown dialect: " ++ name
  | .fileNotFound path => "Config file not found: " ++ path
  | .unknownOption key => "Unknown config option: " ++ key
  | .invalidValue key expected => "Invalid value for " ++ key ++ ": expected " ++ expected
  | .invalidRegistry => "Invalid registry table: not a list of vocabulary tables"

inductive LexFault where
  | comment | invalidUtf8
deriving DecidableEq, Repr

def LexFault.message : LexFault → String
  | .comment => "comments are not supported"
  | .invalidUtf8 => "invalid UTF-8 sequence"

inductive Failure where
  | config (fault : ConfigFault)
  /-- The position is a byte of the text. -/
  | lex (position : Nat) (fault : LexFault)
  | parse (e : ParseError)
  | build (fault : BuildFault)
  /-- The result would not have the content of the source. -/
  | safety (source : String)
  | io (detail : String)
  | toml (detail : String)
deriving DecidableEq, Repr

def Failure.message : Failure → String
  | .config fault => "sqlfmt config error: " ++ fault.message
  | .lex position fault =>
    "sqlfmt lexing error at byte " ++ Nat.repr position ++ ": " ++ fault.message
  | .parse e =>
    "sqlfmt parsing error at token " ++ Nat.repr e.position ++ ": " ++ e.fault.message
  | .build fault => "sqlfmt build error: " ++ fault.message
  | .safety _ => "sqlfmt safety error: the formatted statement has diffed from the source"
  | .io detail => "IO error: " ++ detail
  | .toml detail => "TOML parse error: " ++ detail

end SqlLayout
