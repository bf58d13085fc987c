import Levin.Core.Common
import Levin.Framework.Text
import Mathlib.Data.List.DropRight
import Mathlib.Data.List.Lex
import Mathlib.Data.List.Sort
import Mathlib.Data.Prod.Lex

/-!
# The profiler (`levin/utils/profile.py`)

The interpreter calls the profile function with a frame, which is given here with the
frames below it, the ones that `f_back` leads to. `inspect.getsource` and the snapshots
of `tracemalloc` are parameters; a time is what the clock said, in some unit.
-/

namespace Levin

open Framework

/-- `(co_filename, co_firstlineno, co_name)` -/
structure CodeAlias where
  filename : Text
  firstlineno : Nat
  name : Text
  deriving DecidableEq, Repr

/-- A frame: `_get_code_alias(f_code)` and `f_lineno`. -/
structure ProfileFrame where
  code : CodeAlias
  lineno : Nat
  deriving DecidableEq, Repr

structure CallResult where
  lineno : Nat
  callerLineno : Nat
  filename : Text
  start : Nat
  depth : Nat := 0
  end_ : Nat := 0
  ncalls : Nat := 0
  mem : Nat := 0
  deriving DecidableEq, Repr

inductive ProfileEvent
  | call
  | ret
  | cCall
  | cReturn
  | cException
  deriving DecidableEq, Repr

/-- `C_CALLS` -/
def ProfileEvent.isCCall : ProfileEvent → Bool
  | cReturn | cException | cCall => true
  | call | ret => false

/-- `CALLS` -/
def ProfileEvent.isCall : ProfileEvent → Bool
  | cCall | call => true
  | ret | cReturn | cException => false

/-- A call of the profile function: the frame, with those below it, and what the clock says. -/
structure TraceEvent where
  event : ProfileEvent
  frame : List ProfileFrame
  time : Nat
  deriving DecidableEq, Repr

/-- A profile function: the `_trace` of the profiler, or another one. -/
inductive ProfileFunction
  | trace
  | other (n : Nat)
  deriving DecidableEq, Repr

/-- What there is in a snapshot for a line of a file. -/
abbrev Snapshot := Text → Nat → Nat

structure SimpleProfile where
  calls : List CallResult := []
  depth : Nat := 1
  targetFunc : List CodeAlias := []
  functionsCode : Dict (Text × Nat) Text := []
  traceMem : Bool := false
  /-- `sys.getprofile()`, at the last `trace`. -/
  origTrace : Option ProfileFunction := none
  traceMemSnapshot : Option Snapshot := none
  /-- `_stop` -/
  stopFlag : Bool := false

/-- The source of the code at a line of a file; `none` is an `OSError`. -/
abbrev GetSource := Text → Nat → Option Text

namespace SimpleProfile

def osError : Exc := .other "OSError"

/-- `_save_function(code)` -/
def saveFunction (getsource : GetSource) (code : CodeAlias) (p : SimpleProfile) : Except Exc Unit × SimpleProfile :=
  match getsource code.filename code.firstlineno with
  | none => (.error osError, p)
  | some text => (.ok (), { p with functionsCode := p.functionsCode.set (code.filename, code.firstlineno) text })

/-- The end of the list of targets gets one more, whose source is saved. -/
def appendTarget (getsource : GetSource) (code : CodeAlias) (p : SimpleProfile) : Except Exc Unit × SimpleProfile :=
  saveFunction getsource code { p with targetFunc := p.targetFunc ++ [code] }

/-- `add_target(func)`, of an object that has a `__code__`, or none. -/
def addTarget (getsource : GetSource) (func : Option CodeAlias) (p : SimpleProfile) : Except Exc Unit × SimpleProfile :=
  match func with
  | none => (.error .AttributeError, p)
  | some code => appendTarget getsource code p

/-- `_get_event_frame(event, frame)` -/
def eventFrame (event : ProfileEvent) (frame : List ProfileFrame) : List ProfileFrame := if event.isCCall then frame else frame.tail

/-- `_save_frame(frame)` -/
def saveFrame (getsource : GetSource) (frame : ProfileFrame) (below : List ProfileFrame) (p : SimpleProfile) :
    Except Exc Unit × SimpleProfile :=
  if p.targetFunc.length = p.depth then (.ok (), p)
  else
    match below with
    | [] => (.error .AttributeError, p)
    | back :: _ => if back.code ∈ p.targetFunc then appendTarget getsource frame.code p else (.ok (), p)

/-- The loop of `_get_depth_at_recursion`: how many frames below the first have its code; `none` if there are no more. -/
def recursionDepth (frame : ProfileFrame) : List ProfileFrame → Option Nat
  | [] => none
  | back :: below => if frame.code = back.code then (recursionDepth back below).map (· + 1) else some 0

/-- `_get_depth_at_recursion(mother_frame, recursion_depth)` -/
def depthAtRecursion (frame : ProfileFrame) (below : List ProfileFrame) (limit : Nat) : Except Exc (Option Nat) :=
  match recursionDepth frame below with
  | none => .error .AttributeError
  | some depth => .ok (if depth ≥ limit ∨ depth = 0 then none else some depth)

/-- What `_get_current_depth` finds in the list of targets. -/
def depthOf (targetFunc : List CodeAlias) (frame : ProfileFrame) (below : List ProfileFrame) : Except Exc (Option Nat) :=
  if frame.code ∉ targetFunc then .ok none
  else if targetFunc.count frame.code > 1 then depthAtRecursion frame below (targetFunc.count frame.code)
  else .ok (some (targetFunc.idxOf frame.code + 1))

/-- `_get_current_depth`, of the frame of an event. -/
def currentDepth (getsource : GetSource) (frame : ProfileFrame) (below : List ProfileFrame) (p : SimpleProfile) :
    Except Exc (Option Nat) × SimpleProfile :=
  match saveFrame getsource frame below p with
  | (.error e, p) => (.error e, p)
  | (.ok (), p) => (depthOf p.targetFunc frame below, p)

/-- `_is_the_same_call`, of a call from a frame at some depth. -/
def isTheSameCall (frame : ProfileFrame) (depth : Nat) (call : CallResult) : Bool :=
  depth = call.depth && frame.code.filename = call.filename && frame.lineno = call.lineno

/-- `_get_the_same_call(frame, depth)` -/
def getTheSameCall? (frame : ProfileFrame) (depth : Nat) (p : SimpleProfile) : Option CallResult :=
  p.calls.find? (isTheSameCall frame depth)

/-- Something is done to the first call that is the same. -/
def changeCall (frame : ProfileFrame) (depth : Nat) (change : CallResult → CallResult) : List CallResult → List CallResult
  | [] => []
  | call :: calls =>
    if isTheSameCall frame depth call then change call :: calls else call :: changeCall frame depth change calls

/-- `_create_call_from(frame, depth)` -/
def createCallFrom (frame : ProfileFrame) (depth time : Nat) : CallResult where
  lineno := frame.lineno
  callerLineno := frame.code.firstlineno
  filename := frame.code.filename
  start := time
  depth := depth

/-- `_trace_call(target_frame, depth)` -/
def traceCall (frame : ProfileFrame) (depth time : Nat) (p : SimpleProfile) : SimpleProfile :=
  match p.getTheSameCall? frame depth with
  | none => { p with calls := p.calls ++ [createCallFrom frame depth time] }
  | some _ => { p with calls := changeCall frame depth (fun call => { call with ncalls := call.ncalls + 1 }) p.calls }

/-- What `_trace` does at the end of a call. -/
def traceReturn (frame : ProfileFrame) (depth time : Nat) (p : SimpleProfile) : Except Exc Unit × SimpleProfile :=
  match p.getTheSameCall? frame depth with
  | none => (.error .AttributeError, p)
  | some _ => (.ok (), { p with calls := changeCall frame depth (fun call => { call with end_ := time }) p.calls })

/-- `_trace(frame, event, arg)` -/
def _trace (getsource : GetSource) (e : TraceEvent) (p : SimpleProfile) : Except Exc Unit × SimpleProfile :=
  if e.frame = [] then (.ok (), p)
  else
    match eventFrame e.event e.frame with
    | [] => (.error .AttributeError, p)
    | frame :: below =>
      match currentDepth getsource frame below p with
      | (.error exc, p) => (.error exc, p)
      | (.ok none, p) => (.ok (), p)
      | (.ok (some depth), p) =>
        if e.event.isCall then (.ok (), traceCall frame depth e.time p) else traceReturn frame depth e.time p

/-! ## Lines -/

/-- `_get_memory_for_call(call)`: without a snapshot there is nothing to filter. -/
def memoryForCall (p : SimpleProfile) (call : CallResult) : Except Exc Nat :=
  if p.traceMem then
    match p.traceMemSnapshot with
    | none => .error .AttributeError
    | some snapshot => .ok (snapshot call.filename call.lineno)
  else .ok 0

/-- The key of a line: `(lineno, filename, depth)`. -/
abbrev LineKey : Type := Nat × Text × Nat

def lineKey (call : CallResult) : LineKey := (call.lineno, call.filename, call.depth)

/-- `_get_line`, for the line at an index of a target function; then `line.depth` and `line.mem` are set. -/
def getLine (p : SimpleProfile) (code : CodeAlias) (depth index : Nat) (line : Option CallResult) : Except Exc CallResult :=
  let line := line.getD
    { lineno := index + code.firstlineno, filename := code.filename, start := 0, callerLineno := code.firstlineno }
  (p.memoryForCall line).map fun mem => { line with depth, mem }

/-- The inner loop of `get_lines`, over the lines of a function from an index on, with the lines there are. -/
def functionLines (p : SimpleProfile) (code : CodeAlias) (depth : Nat) :
    Nat → List Text → Dict LineKey CallResult → Except Exc Unit × Dict LineKey CallResult
  | _, [], lines => (.ok (), lines)
  | index, text :: texts, lines =>
    if Text.isBlank text then functionLines p code depth (index + 1) texts lines
    else
      match p.getLine code depth index (lines.get? (index + code.firstlineno, code.filename, depth)) with
      | .error e => (.error e, lines)
      | .ok line => functionLines p code depth (index + 1) texts (lines.set (lineKey line) line)

/-- The loop of `get_lines` over the target functions, from a depth on. -/
def targetLines (p : SimpleProfile) :
    Nat → List CodeAlias → Dict LineKey CallResult → Except Exc Unit × Dict LineKey CallResult
  | _, [], lines => (.ok (), lines)
  | depth, code :: codes, lines =>
    match p.functionsCode.get? (code.filename, code.firstlineno) with
    | none => (.error .AttributeError, lines)
    | some text =>
      match functionLines p code depth 1 (Text.splitlines text).tail lines with
      | (.error e, lines) => (.error e, lines)
      | (.ok (), lines) => targetLines p (depth + 1) codes lines

/-- `(c.filename, c.depth, c.lineno)`, in the order of tuples. -/
def sortKey (call : CallResult) : Text ×ₗ Nat ×ₗ Nat := toLex (call.filename, toLex (call.depth, call.lineno))

/-- `get_lines()`. The recorded calls among the lines are the objects themselves, which are changed. -/
def getLines (p : SimpleProfile) : Except Exc (List CallResult) × SimpleProfile :=
  let found := targetLines p 1 p.targetFunc (Dict.ofItems (p.calls.map fun call => (lineKey call, call)))
  (found.1.map fun () => (found.2.map Prod.snd).insertionSort fun a b => sortKey a ≤ sortKey b,
    { p with calls := p.calls.map fun call => (found.2.get? (lineKey call)).getD call })

/-! ## Printing -/

/-- `call.time` -/
def time (call : CallResult) : Int := call.end_ - call.start

/-- `call.code`, with what `linecache.getline` returns. -/
def code (getline : Text → Nat → Text) (call : CallResult) : Text :=
  (getline call.filename call.lineno).rdropWhile fun c => c = 10

/-- A text of ASCII characters, as a text. -/
def literal (s : String) : Text := Text.decodeLatin1 (Bytes.ascii s)

/-- `str(n)` -/
def number (n : Nat) : Text := Text.decodeLatin1 (Bytes.decimal n)

/-- What is printed in front of the lines of a file. -/
def fileText (filename : Text) : Text := literal "--> " ++ filename

/-- What is printed of a line; `showTime` makes text of a time. -/
def lineText (getline : Text → Nat → Text) (showTime : Int → Text) (line : CallResult) : Text :=
  number line.lineno ++ literal ": " ++ code getline line ++
    if line.mem ≠ 0 ∨ time line ≠ 0 then
      literal " \t <- " ++ showTime (time line) ++ literal "s; " ++ number line.mem ++ literal "B nc " ++ number line.ncalls
    else []

/-- The loop of `print_result`, after a line of some file. -/
def printLines (getline : Text → Nat → Text) (showTime : Int → Text) : Option Text → List CallResult → List Text
  | _, [] => []
  | filename, line :: lines =>
    if filename ≠ some line.filename then
      fileText line.filename :: lineText getline showTime line :: printLines getline showTime (some line.filename) lines
    else lineText getline showTime line :: printLines getline showTime filename lines

/-- `print_result(profile)`: what it prints, and how it ends. -/
def printResult (getline : Text → Nat → Text) (showTime : Int → Text) (p : SimpleProfile) :
    (List Text × Except Exc Unit) × SimpleProfile :=
  match p.getLines with
  | (.error e, p) => (([], .error e), p)
  | (.ok lines, p) => ((printLines getline showTime none lines, .ok ()), p)

/-! ## Runs -/

/-- The profile function is called with one event after another, until it raises. -/
def traceAll (getsource : GetSource) : List TraceEvent → SimpleProfile → Except Exc Unit × SimpleProfile
  | [], p => (.ok (), p)
  | e :: es, p =>
    match _trace getsource e p with
    | (.error exc, p) => (.error exc, p)
    | (.ok (), p) => traceAll getsource es p

/-- A call of `run`: the function, what is traced while it runs, and how it ends. -/
structure ProfiledRun where
  func : Option CodeAlias
  events : List TraceEvent
  /-- The profile function of the interpreter when the function ends: `_trace`, unless the function has set another, or
  `_trace` has raised. -/
  leaves : Option ProfileFunction
  result : Except Exc Unit
  /-- `tracemalloc.take_snapshot()` -/
  snapshot : Except Exc Snapshot

/-- The profiler, and the profile function of the interpreter. -/
structure Interpreter where
  profiler : SimpleProfile
  profile : Option ProfileFunction

/-- `trace(func)` -/
def trace (s : Interpreter) : Interpreter := { s with profiler := { s.profiler with origTrace := s.profile } }

/-- `start_trace()` -/
def startTrace (s : Interpreter) : Interpreter := { s with profile := some .trace }

/-- `stop()` -/
def stop (snapshot : Except Exc Snapshot) (s : Interpreter) : Except Exc Unit × Interpreter :=
  if s.profiler.stopFlag then (.ok (), s)
  else
    let s := { s with profile := s.profiler.origTrace }
    if s.profiler.traceMem then
      match snapshot with
      | .error e => (.error e, s)
      | .ok snapshot =>
        (.ok (), { s with profiler := { s.profiler with traceMemSnapshot := some snapshot, stopFlag := true } })
    else (.ok (), { s with profiler := { s.profiler with stopFlag := true } })

/-- The function runs under the profile function. -/
def runFunc (getsource : GetSource) (run : ProfiledRun) (s : Interpreter) : Interpreter where
  profiler := (traceAll getsource run.events s.profiler).2
  profile := run.leaves

/-- `_run(func)`, and `_run_async(func)` up to its end. What `stop` raises comes before the result. -/
def _run (getsource : GetSource) (run : ProfiledRun) (s : Interpreter) : Except Exc Unit × Interpreter :=
  match stop run.snapshot (runFunc getsource run (startTrace s)) with
  | (.error e, s) => (.error e, s)
  | (.ok (), s) => (run.result, s)

/-- `run(func)` -/
def run (getsource : GetSource) (run : ProfiledRun) (s : Interpreter) : Except Exc Unit × Interpreter :=
  match addTarget getsource run.func s.profiler with
  | (.error e, profiler) => (.error e, { s with profiler })
  | (.ok (), profiler) => _run getsource run (trace { s with profiler })

end SimpleProfile

end Levin
