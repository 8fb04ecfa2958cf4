import ParamServer.Numeral
import ParamServer.Options

/-!
# The command line

Options by name, each at most once. The value of an option is the next argument, or stands behind
`=`. An option that waits for its value is looked at when the next one comes, so an argument that
is none at all is found first.
-/

namespace ParamServer

/-- Why there are no options to run with. -/
inductive Usage where
  | unknownArgument
  /-- A number is expected, and one that fits. -/
  | badNumber
  /-- A value is missing, or none of the choices. -/
  | badChoice
  /-- A value where none is taken. -/
  | needlessValue
  | repeated
  | help
  | version
  deriving DecidableEq, Repr

inductive Flag where
  | shards
  | workers
  | keys
  | iterations
  | batch
  | model
  | storage
  | staleness
  | speculation
  | recorder
  | wireCodec
  | jsonLogs
  deriving DecidableEq, Repr

namespace Flag

def all : List Flag :=
  [.shards, .workers, .keys, .iterations, .batch, .model, .storage, .staleness, .speculation,
    .recorder, .wireCodec, .jsonLogs]

def name : Flag → String
  | .shards => "shards"
  | .workers => "workers"
  | .keys => "keys"
  | .iterations => "iterations"
  | .batch => "batch"
  | .model => "model"
  | .storage => "storage"
  | .staleness => "staleness"
  | .speculation => "speculation"
  | .recorder => "recorder"
  | .wireCodec => "wire-codec"
  | .jsonLogs => "json-logs"

def takesValue : Flag → Bool
  | .wireCodec | .jsonLogs => false
  | _ => true

def find? (name : List Char) : Option Flag := all.find? (·.name.toList = name)

end Flag

namespace CommandLine

def count (text : String) : Except Usage UInt64 :=
  match Numeral.natural? UInt64.size text.toList with
  | some n => .ok (UInt64.ofNat n)
  | none => .error .badNumber

def smallCount (text : String) : Except Usage UInt32 :=
  match Numeral.signed? UInt32.size text.toList with
  | some n => .ok (UInt32.ofNat n)
  | none => .error .badNumber

def model (text : String) : Except Usage Consistency :=
  match text with
  | "asp" => .ok .asp
  | "bsp" => .ok .bsp
  | "ssp" => .ok .ssp
  | "sparse-ssp" => .ok .sparseSsp
  | _ => .error .badChoice

def backing (text : String) : Except Usage Backing :=
  match text with
  | "sparse" => .ok .sparse
  | "dense" => .ok .dense
  | _ => .error .badChoice

/-- Sets what the flag stands for to the value typed with it. -/
def assign (o : Options) (text : String) : Flag → Except Usage Options
  | .shards => return { o with shards := ← count text }
  | .workers => return { o with workers := ← smallCount text }
  | .keys => return { o with keys := ← count text }
  | .iterations => return { o with iterations := ← count text }
  | .batch => return { o with batch := ← count text }
  | .model => return { o with model := ← model text }
  | .storage => return { o with storage := ← backing text }
  | .staleness => return { o with staleness := ← count text }
  | .speculation => return { o with speculation := ← count text }
  | .recorder => return { o with recorder := some (← backing text) }
  | .wireCodec => return { o with wireCodec := true }
  | .jsonLogs => return { o with jsonLogs := true }

structure Progress where
  options : Options := {}
  given : List Flag := []
  /-- A flag that was read but not yet looked at, with its value once that has come. -/
  held : Option (Flag × Option String) := none
  /-- Behind `--` nothing is a flag any more. -/
  literal : Bool := false

namespace Progress

def set (p : Progress) (flag : Flag) (text : String) : Except Usage Progress := do
  if flag ∈ p.given then throw .repeated
  return { p with options := ← assign p.options text flag, given := flag :: p.given }

/-- Looks at the flag that is held. -/
def resolve (p : Progress) : Except Usage Progress :=
  match p.held with
  | none => .ok p
  | some (_, none) => .error .badChoice
  | some (flag, some text) => { p with held := none }.set flag text

/-- Stops for the sake of help or the version, unless the flag that is held is in the way. -/
def interrupt (p : Progress) (reason : Usage) : Except Usage Progress := do
  discard p.resolve
  throw reason

/-- An argument behind two dashes. -/
def long (p : Progress) (argument : List Char) : Except Usage Progress := do
  let name := argument.takeWhile (· ≠ '=')
  let value? :=
    match argument.dropWhile (· ≠ '=') with
    | _ :: value => some (String.ofList value)
    | [] => none
  match Flag.find? name, value? with
  | some flag, none =>
    let p ← p.resolve
    if flag.takesValue then return { p with held := some (flag, none) } else p.set flag ""
  | some flag, some value =>
    if flag.takesValue then (← p.resolve).set flag value else throw .needlessValue
  | none, value? =>
    if name = "help".toList then
      if value?.isSome then throw .needlessValue else p.interrupt .help
    else if name = "version".toList then
      if value?.isSome then throw .needlessValue else p.interrupt .version
    else throw .unknownArgument

def argument (p : Progress) (arg : String) : Except Usage Progress :=
  if p.literal then .error .unknownArgument
  else
    match arg.toList, p.held with
    | ['-', '-'], _ => .ok { p with literal := true }
    | '-' :: '-' :: rest, _ => p.long rest
    | '-' :: 'h' :: _, _ => p.interrupt .help
    | '-' :: 'V' :: _, _ => p.interrupt .version
    | '-' :: _ :: _, _ => .error .unknownArgument
    | _, some (flag, none) => .ok { p with held := some (flag, some arg) }
    | _, _ => .error .unknownArgument

end Progress

end CommandLine

/-- Reads the arguments from left to right, up to the first that is wrong. -/
def Options.ofArguments (args : List String) : Except Usage Options := do
  let p ← args.foldlM CommandLine.Progress.argument {}
  return (← p.resolve).options

end ParamServer
