import ParamServer.Options.CommandLine
import ParamServer.Workload

/-!
# The program

Runs the workload that the command line describes and reports how it went.
-/

namespace ParamServer.Main

/-- A line of the log. -/
structure Entry where
  message : String
  fields : List (String × String)

def Entry.render (json : Bool) (e : Entry) : String :=
  if json then
    let pairs := ("message", e.message) :: e.fields
    "\x7b" ++ ",".intercalate (pairs.map fun (name, value) => name.quote ++ ":" ++ value.quote) ++
      "\x7d"
  else " ".intercalate (e.message :: e.fields.map fun (name, value) => s!"{name}={value}")

def startEntry (o : Options) : Entry where
  message := "starting workload"
  fields := [
    ("model", o.model.name), ("storage", o.storage.name), ("shards", toString o.shards),
    ("workers", toString o.workers), ("iterations", toString o.iterations)]

def statusEntry (shard : ThreadId) (s : TabletStatus) : Entry where
  message := "shard status"
  fields := [
    ("shard", toString shard), ("table_id", toString s.table), ("min_clock", toString s.minClock),
    ("buffered", toString s.waiting), ("stored_keys", toString s.stored)]

def totalEntry (sum : Double) : Entry where
  message := "all updates accounted for"
  fields := [("total", toString (Float.ofBits sum.bits))]

def entries (o : Options) (r : Report) : List Entry :=
  (if r.started then [startEntry o] else []) ++
    r.status.flatMap (fun (shard, tablets) => tablets.map (statusEntry shard)) ++
    match r.ending with
    | .total sum => [totalEntry sum]
    | _ => []

def usage : String :=
  "Options:\n" ++ String.join (Flag.all.map fun flag =>
    s!"      --{flag.name}" ++ (if flag.takesValue then " <VALUE>\n" else "\n"))

def Usage.describe : Usage → String
  | .unknownArgument => "error: unexpected argument"
  | .badNumber => "error: invalid number"
  | .badChoice => "error: invalid or missing value"
  | .needlessValue => "error: unexpected value"
  | .repeated => "error: an option is given twice"
  | .help => usage
  | .version => "0.1.0"

end ParamServer.Main

open ParamServer in
def main (args : List String) : IO UInt32 := do
  match Options.ofArguments args with
  | .error .help =>
    IO.print Main.usage
    return 0
  | .error .version =>
    IO.println (Main.Usage.describe .version)
    return 0
  | .error why =>
    IO.eprintln (Main.Usage.describe why)
    return 2
  | .ok o =>
    let seed ← IO.rand 0 0x7fffffff
    let report := Workload.run (.random seed o.keys o.batch) o
    for e in Main.entries o report do
      IO.println (e.render o.jsonLogs)
    match report.ending.complaint? with
    | some complaint => IO.eprintln s!"Error: {complaint}"
    | none => pure ()
    return report.ending.exitCode
