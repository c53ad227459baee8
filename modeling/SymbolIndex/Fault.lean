/-!
# Faults

What can go wrong, as the storage interface reports it and as the engine reports it, and how one
report is turned into the other. A storage fault keeps its text on the way; any other fault is
told whole inside an internal one.
-/

namespace SymbolIndex

/-- A fault at the storage interface. -/
inductive StorageFault where
  | notFound (text : String)
  | invalidArgument (text : String)
  | storage (text : String)
  | internal (text : String)
  deriving DecidableEq, Repr

/-- A fault of the engine. -/
inductive EngineFault where
  | device (text : String)
  | encoding (text : String)
  | decoding (text : String)
  | cache (text : String)
  | internal (text : String)
  deriving DecidableEq, Repr

namespace StorageFault

def message : StorageFault → String
  | notFound text => "Not found: " ++ text
  | invalidArgument text => "Invalid argument: " ++ text
  | storage text => "Storage error: " ++ text
  | internal text => "Internal error: " ++ text

def toEngine : StorageFault → EngineFault
  | storage text | notFound text => .cache text
  | fault => .internal fault.message

end StorageFault

namespace EngineFault

def message : EngineFault → String
  | device text => "I/O error: " ++ text
  | encoding text => "Encode error: " ++ text
  | decoding text => "Decode error: " ++ text
  | cache text => "Cache error: " ++ text
  | internal text => "Internal error: " ++ text

def toStorage : EngineFault → StorageFault
  | device text | cache text => .storage text
  | fault => .internal fault.message

end EngineFault

end SymbolIndex
