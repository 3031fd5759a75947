import NvdlaVp.ArgumentScan
import NvdlaVp.KeyValueStore

set_option autoImplicit false

namespace NvdlaVp.CommandLine
open ArgumentScan KeyValueStore

abbrev Environment := Store String String

structure Exit where
  status : ℕ
  cerr : String
  deriving DecidableEq, Repr

def EXIT_SUCCESS : ℕ := 0
def EXIT_FAILURE : ℕ := 1

/-- Without the options of a build for the FPGA. -/
def showUsage (name : String) : String :=
  "Usage: " ++ name ++ " <option(s)>\n" ++
    "Options:\n" ++
    "\t-h,--help\t\t\tShow this help message\n" ++
    "\t-c,--conf CONFIGURATION_FILE\tSpecify the configuration file path" ++
    "\t--cosim\tRunning with QEMU/RTL co-simulation" ++
    "\t--simv\tRTL simv file path. Only required with --cosim option" ++
    "\t--timeout\tQemu wait timeout (simulation time in ns) with vcs. " ++
    "Only required with --cosim option" ++
    "\t--plusargs\trtl simulation args. Only required with --cosim option" ++
    "\n"

def requiresArgument (option : String) : Exit :=
  ⟨EXIT_FAILURE, option ++ " option requires one argument.\n"⟩

def argsLoop : Scanner String String where
  kind arg :=
    if arg = "-h" ∨ arg = "--help" then .stop
    else if arg = "-c" ∨ arg = "--conf" then .valued
    else .other
  onFlag configurationFilePath _ := configurationFilePath
  onValue _ _ value := value

def parseArgs (argv : List String) : Except Exit String :=
  (argsLoop.scan "" argv.tail).mapError fun
    | .asked _ => ⟨EXIT_SUCCESS, showUsage (argv.headD "")⟩
    | .missing _ => requiresArgument "--conf"

structure SimvArgs where
  simvFilePath : String
  env : Environment

def simvLoop : Scanner String SimvArgs where
  kind arg :=
    if arg = "--simv" then .valued
    else if arg = "--timeout" then .valued
    else .other
  onFlag s _ := s
  onValue s arg value :=
    if arg = "--simv" then { s with simvFilePath := value }
    else { s with env := s.env.put "COSIM_SHM_TIMEOUT_IN_NS" value }

def parseSimvArgs (env : Environment) (argv : List String) : Except Exit SimvArgs :=
  (simvLoop.scan ⟨"", env⟩ argv.tail).mapError fun e => requiresArgument e.option

structure PlusArgs where
  plusargs_str : String
  env : Environment

def plusArgsLoop : Scanner String PlusArgs where
  kind arg := if arg = "--plusargs" then .valued else .other
  onFlag s _ := s
  onValue s _ value := ⟨value, s.env.put "COSIM_PLUS_ARGS" value⟩

def parsePlusArgsArgs (env : Environment) (argv : List String) : Except Exit PlusArgs :=
  (plusArgsLoop.scan ⟨"", env⟩ argv.tail).mapError fun e => requiresArgument e.option

def scLogLoop : Scanner String String where
  kind arg := if arg = "-s" ∨ arg = "--sc_log" then .valued else .other
  onFlag sc_log_str _ := sc_log_str
  onValue _ _ value := value

def getSCLog (argv : List String) : Except Exit String :=
  (scLogLoop.scan "" argv.tail).mapError fun _ => requiresArgument "--sc_log"

structure CosimArgs where
  cosim_en : Bool
  simv : Bool

/-- The value of `--simv` is not skipped here. -/
def cosimLoop : Scanner String CosimArgs where
  kind arg :=
    if arg = "--cosim" then .flag
    else if arg = "--simv" then .flag
    else .other
  onFlag s arg := if arg = "--cosim" then { s with cosim_en := true } else { s with simv := true }
  onValue s _ _ := s

def parseCosimArgs (argv : List String) : Except Exit Bool := do
  let s ← (cosimLoop.scan ⟨false, false⟩ argv.tail).mapError fun e => requiresArgument e.option
  if s.simv = false ∧ s.cosim_en = true then
    throw ⟨EXIT_FAILURE, "Need to set simv file path with --simv option\n"⟩
  return s.cosim_en

def dmiLoop : Scanner String Bool where
  kind arg :=
    if arg = "--dmi" then .flag
    else if arg = "--dmi_disable" then .flag
    else .other
  onFlag _ arg := arg = "--dmi"
  onValue dmi_en _ _ := dmi_en

def parseDmiArgs (argv : List String) : Except Exit Bool :=
  (dmiLoop.scan true argv.tail).mapError fun e => requiresArgument e.option

@[ext] structure Result where
  configurationFilePath : String
  sc_log_str : String
  cosim_en : Bool
  simvFilePath : String
  timeout : Option String
  plusargs_str : String
  dmi_en : Bool
  deriving DecidableEq, Repr

/-- The scanners one after the other; the timeout is what they leave in the environment. -/
def scanners (env : Environment) (argv : List String) : Except Exit Result := do
  let configurationFilePath ← parseArgs argv
  let sc_log_str ← getSCLog argv
  let cosim_en ← parseCosimArgs argv
  let simv ← parseSimvArgs env argv
  let plusargs ← parsePlusArgsArgs simv.env argv
  let dmi_en ← parseDmiArgs argv
  return ⟨configurationFilePath, sc_log_str, cosim_en, simv.simvFilePath,
    plusargs.env.get "COSIM_SHM_TIMEOUT_IN_NS", plusargs.plusargs_str, dmi_en⟩

/-- What `sc_main` runs of them: the log string of the environment comes first, and the
    options of the co-simulation are read with `--cosim` only. -/
def sc_main (env : Environment) (argv : List String) : Except Exit Result := do
  let configurationFilePath ← parseArgs argv
  let sc_log_str ← match env.get "SC_LOG" with
    | some SC_LOG => pure SC_LOG
    | none => getSCLog argv
  let cosim_en ← parseCosimArgs argv
  let simv ← if cosim_en then parseSimvArgs env argv else pure ⟨"", env⟩
  let plusargs ← if cosim_en then parsePlusArgsArgs simv.env argv else pure ⟨"", simv.env⟩
  let dmi_en ← parseDmiArgs argv
  return ⟨configurationFilePath, sc_log_str, cosim_en, simv.simvFilePath,
    plusargs.env.get "COSIM_SHM_TIMEOUT_IN_NS", plusargs.plusargs_str, dmi_en⟩

example : parseCosimArgs ["aarch64_toplevel", "--cosim"] =
    .error ⟨1, "Need to set simv file path with --simv option\n"⟩ := by decide

end NvdlaVp.CommandLine
