import NvdlaVp.CText

set_option autoImplicit false

/-!
# `log_parse`

The control string of the log, from its split into segments to the calls on
`sc_report_handler`. What is printed is kept beside the calls.
-/
namespace NvdlaVp.LogControl
open CText

inductive Severity where
  | info
  | warning
  | error
  | fatal
  deriving DecidableEq, Repr

def Severity.value : Severity → ℕ
  | .info => 0
  | .warning => 1
  | .error => 2
  | .fatal => 3

def severities : List Severity := [.info, .warning, .error, .fatal]

/-- `SC_DEFAULT_<severity>_ACTIONS`, or `SC_ACTION_DISABLE`. -/
inductive Actions where
  | default (severity : Severity)
  | disable
  deriving DecidableEq, Repr

inductive Call where
  | set_log_file_name (name : List Char)
  | set_verbosity_level (level : ℕ)
  | set_actions (severity : Severity) (actions : Actions)
  | set_msg_actions (msg_type : List Char) (severity : Severity) (actions : Actions)
  deriving DecidableEq, Repr

inductive Event where
  | cout (text : List Char)
  | call (c : Call)
  deriving DecidableEq, Repr

def print (text : String) : Event := .cout text.toList

/-- The fields that `getline` yields until it fails: a last field that is empty is none. -/
def split (delim : Char) : List Char → List (List Char)
  | [] => []
  | c :: cs =>
    if c = delim then [] :: split delim cs
    else match split delim cs with
      | [] => [[c]]
      | token :: tokens => (c :: token) :: tokens

def trim (s : List Char) : List Char :=
  ((s.dropWhile isspace).reverse.dropWhile isspace).reverse

/-- The characters before the first NUL. -/
def c_str (s : List Char) : List Char := s.takeWhile (· ≠ Char.ofNat 0)

def verbosityLevel (level : List Char) : Option ℕ :=
  if level = "sc_none".toList then some 0
  else if level = "sc_low".toList then some 100
  else if level = "sc_medium".toList then some 200
  else if level = "sc_high".toList then some 300
  else if level = "sc_full".toList then some 400
  else if level = "sc_debug".toList then some 500
  else none

def reportLevel (level : List Char) : Option ℕ :=
  if level = "info".toList then some 0
  else if level = "warning".toList then some 1
  else if level = "error".toList then some 2
  else if level = "fatal".toList then some 3
  else if level = "enable".toList then some 4
  else if level = "disable".toList then some 5
  else none

def scActions (report_lvl : ℕ) (v : Severity) : Actions :=
  if report_lvl = 5 then .disable
  else if report_lvl = 4 then .default v
  else if report_lvl ≤ v.value then .default v
  else .disable

def setOutfile (level : List Char) (t : ℕ) : List Event :=
  if t = 3 then
    [.call (.set_log_file_name (c_str level)),
      .cout ("Set SC LOG file to ".toList ++ c_str level ++ ['\n'])]
  else if t = 1 then
    [.call (.set_log_file_name "outfile".toList), print "Set SC LOG file to default outfile\n"]
  else [print "Error: Should not come here\n"]

def setVerbosity (level : List Char) : List Event :=
  match verbosityLevel level with
  | none => [.cout ("Invalid debug verbosity ".toList ++ level ++ " ...Ignore it\n".toList)]
  | some verbosity_lvl => [.call (.set_verbosity_level verbosity_lvl),
      .cout ("Set debug verbosity to ".toList ++ level ++ ['\n'])]

def setReport (msg level : List Char) (t : ℕ) : List Event :=
  match reportLevel level with
  | none => [.cout ("Invalid report level ".toList ++ level ++ " ...Ignore it\n".toList)]
  | some report_lvl =>
    if t = 0 ∨ t = 1 then [print "Error: Invalid control string. Should not come here\n"]
    else if t = 2 then
      severities.map fun v => .call (.set_actions v (scActions report_lvl v))
    else if t = 3 then
      severities.map fun v => .call (.set_msg_actions (c_str msg) v (scActions report_lvl v))
    else []

def set_sc_report (msg level : List Char) (t : ℕ) : List Event :=
  if msg = "outfile".toList then setOutfile level t
  else if msg = "verbosity_level".toList then setVerbosity level
  else setReport msg level t

/-- The bits for a key and for a value that are not empty. -/
def infoType (msg_str level_str : List Char) : ℕ :=
  (if msg_str ≠ [] then 1 else 0) + if level_str ≠ [] then 2 else 0

def formatError (s val : List Char) : List Event :=
  [.cout ("Error SC_LOG format '".toList ++ val ++ "' in ".toList ++ s),
    print " ...Ignore it\n"]

def setPair (key value : List Char) : List Event :=
  set_sc_report (trim key) (trim value) (infoType (trim key) (trim value))

/-- The body of the loop over `infos`. -/
def parseInfo (s val : List Char) : List Event :=
  if ':' ∉ val then formatError s val
  else
    match split ':' val with
    | [] => []
    | [key] => setPair key []
    | [key, value] => setPair key value
    | _ => formatError s val

def Event.call? : Event → Option Call
  | .cout _ => none
  | .call c => some c

def calls (es : List Event) : List Call := es.filterMap Event.call?

def Call.names : Call → Bool
  | .set_log_file_name _ => true
  | _ => false

/-- `named` says that a log file name has been set before. -/
def log_parse (named : Bool) (s : List Char) : List Event :=
  if s = [] then [print "Warning: No SC_LOG env Here\n"]
  else
    let es := (split ';' s).flatMap (parseInfo s)
    .cout ("sc_log control string: [".toList ++ s ++ "]\n".toList) :: es ++
      if named || (calls es).any Call.names then []
      else [.call (.set_log_file_name "outfile".toList),
        print "Set SC LOG file to default outfile\n"]

end NvdlaVp.LogControl
