import DimEquiv.Findings
import DimEquiv.SizeRead
import DimEquiv.Trace

/-!
# The analysis of a program

The blocks are visited once, in stored order. Every assignment to an array gets a shape, and behind
it come the reads of those dimension sizes that nothing else provides. An array that is assigned two
different shapes loses its shape. A failure ends the run: the block at hand and those after it keep
their bodies, while types, call signatures and diagnostics keep what was added to them.
-/

namespace DimEquiv

/-- A step of the analysis. -/
abbrev Pass (α : Type) : Type := Attempt ShapeError State α

namespace Pass

/-- The inferred shape. Where no rule covers the expression, that is reported and no dimension is
known. -/
def inferOrReport (options : Options) (rank : Nat) (a : Assign) : Pass Shape := fun s =>
  let (answer, s') := (State.onStore ((s.scope options).infer a.target a.value)).run s
  match answer with
  | .error (.unsupported cause) => (.ok (.unknown rank), s'.report (cause.diagnostic a.target))
  | _ => (answer, s')

/-- The text of the report that an inferred shape has another number of dimensions than declared. -/
def rankMessage (inferred declared : Nat) : String :=
  "inferred rank " ++ toString inferred ++ " does not match declared rank " ++ toString declared

/-- A shape of the declared rank. Another rank is reported and leaves no dimension known. -/
def fitRank (rank : Nat) (a : Assign) (shape : Shape) (s : State) : Shape × State :=
  if shape.length = rank then (shape, s)
  else
    (.unknown rank,
      s.report (.unsupportedOperation a.target a.value.op (rankMessage shape.length rank)))

/-- Records the shape of the target and answers the reads that its dimensions need. A conflict with
the shape recorded before is reported and needs none. -/
def record (a : Assign) (shape : Shape) (s : State) : List Assign × State :=
  let (outcome, store) := s.store.record a.target shape
  let s := { s with store := store }
  match outcome with
  | .conflict previous incoming => ([], s.report (.conflict a.target previous incoming))
  | _ =>
    let (reads, s) := (SizeRead.ofShape a.target shape a.loc).run s
    (reads.instructions, { s with store := s.store.setSizeVars a.target reads.sizes })

/-- Analyzes an assignment and answers the reads that go behind it. -/
def assign (options : Options) (a : Assign) : Pass (List Assign) := do
  Attempt.ofState fun s => ((), s.observe a)
  match ← Attempt.ofState fun s => ((s.types.find? a.target).bind StaticType.rank?, s) with
  | none => return []
  | some rank =>
    let inferred ← inferOrReport options rank a
    let shape ← Attempt.ofState (fitRank rank a inferred)
    Attempt.ofState (record a shape)

/-- Analyzes an instruction and answers it with the reads behind it. -/
def instruction (options : Options) (i : Instruction) : Pass (List Instruction) :=
  match i with
  | .assign a => do return i :: (← assign options a).map .assign
  | _ => return [i]

/-- Analyzes the instructions of a block in order. -/
def body (options : Options) : List Instruction → Pass (List Instruction)
  | [] => return []
  | i :: is => do return (← instruction options i) ++ (← body options is)

/-- Analyzes blocks in order, up to the first failure. -/
def blocks (options : Options) : List Block → State → Except ShapeError Unit × State × List Block
  | [], s => (.ok (), s, [])
  | b :: bs, s =>
    match (body options b.body).run s with
    | (.error e, s') => (.error e, s', b :: bs)
    | (.ok is, s') =>
      let (outcome, s'', bs') := blocks options bs s'
      (outcome, s'', { b with body := is } :: bs')

end Pass

/-- One run of the analysis, finished or failed. -/
structure Run where
  outcome : Except ShapeError Unit
  /-- The state at the end. -/
  state : State
  /-- The program with the reads that were added. -/
  program : Program
  trace : List String

namespace Run

/-- What a finished run has found, or the failure that ended it. -/
def findings (r : Run) : Except ShapeError Findings := r.outcome.map fun _ => .ofState r.state

def types (r : Run) : Types := r.state.types

def callTypes (r : Run) : CallTypes := r.state.callTypes

/-- Everything reported, also by a run that failed later. -/
def diagnostics (r : Run) : List Diagnostic := r.state.diagnostics

end Run

/-- The state in which the blocks of a program are first visited. -/
def State.start (p : Program) (types : Types) (callTypes : CallTypes) : State :=
  (State.initial types callTypes).scan p

/-- Analyzes a program. -/
def analyze (options : Options) (p : Program) (types : Types) (callTypes : CallTypes) : Run :=
  let (outcome, state, blocks) := Pass.blocks options p.blocks (.start p types callTypes)
  let tables := match outcome with
    | .ok _ => Trace.tables state
    | .error _ => []
  { outcome, state,
    program := { p with blocks }
    trace := if options.debug then Trace.opening p ++ tables else [] }

end DimEquiv
