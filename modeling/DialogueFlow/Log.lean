
namespace DialogueFlow.Log

inductive Level where
  | debug
  | info
  | warning
  | error
deriving DecidableEq, Repr

namespace Level

def severity : Level → Nat
  | .debug => 0
  | .info => 1
  | .warning => 2
  | .error => 3

/-- Five letters, cut or filled up with blanks. -/
def tag : Level → String
  | .debug => "DEBUG"
  | .info => "INFO "
  | .warning => "WARNI"
  | .error => "ERROR"

end Level

inductive Topic where
  | command
  | program
  | block
  | flow
  | lineRuns
deriving DecidableEq, Repr

def Topic.name : Topic → String
  | .command => "yarn_analysis"
  | .program => "yarn_analysis.instructions"
  | .block => "yarn_analysis.basic_block"
  | .flow => "yarn_analysis.block_builder"
  | .lineRuns => "yarn_analysis.line_runs"

structure Entry where
  level : Level
  topic : Topic
  message : String
deriving DecidableEq

def Entry.line (time : String) (e : Entry) : String :=
  s!"{time} [{e.level.tag}] {e.topic.name}: {e.message}\n"

end DialogueFlow.Log
