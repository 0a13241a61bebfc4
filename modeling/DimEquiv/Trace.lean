import DimEquiv.State

/-!
# The trace of an analysis

Lines that show the program before a run and the tables after it. Entries stand in the order of
their tables.
-/

namespace DimEquiv.Trace

def line (text : String) : String := "[array-analysis] " ++ text

/-- The program to be analyzed. -/
def opening (p : Program) : List String := [line "starting array analysis", p.text]

def braced (entries : List String) : String := "\x7b" ++ "; ".intercalate entries ++ "\x7d"

def bracketed (items : List String) : String := "[" ++ commaSeparated items ++ "]"

def sizes (values : List SizeValue) : String := bracketed (values.map SizeValue.text)

/-- One line for every table. -/
def tables (s : State) : List String :=
  let shapes := s.store.shapes.toList.map fun (x, shape) =>
    x ++ ": " ++ bracketed (shape.map toString)
  let classSizes := s.store.classSizes.toList.map fun (c, values) =>
    toString c ++ ": " ++ sizes values
  let sizeVars := s.store.sizeVars.toList.map fun (x, values) => x ++ ": " ++ sizes values
  let moduleCalls := s.symbols.moduleCalls.toList.map fun (x, name) => x ++ ": " ++ name
  let methodCalls := s.symbols.methodCalls.toList.map fun (x, call) =>
    x ++ ": " ++ call.receiver ++ "." ++ call.method
  let tuples := s.symbols.tuples.toList.map fun (x, items) =>
    x ++ ": (" ++ commaSeparated (items.map SizeValue.text) ++ ")"
  [line ("classes: " ++ braced shapes),
    line ("class sizes: " ++ braced classSizes),
    line ("array size vars: " ++ braced sizeVars),
    line ("array-math globals: " ++ bracketed s.symbols.arrayModules.toList),
    line ("array-math calls: " ++ braced moduleCalls),
    line ("array attr calls: " ++ braced methodCalls),
    line ("map calls: " ++ bracketed s.symbols.mapCalls.toList),
    line ("tuple table: " ++ braced tuples)]

end DimEquiv.Trace
