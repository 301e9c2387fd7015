-- Performing actions, one at a time and in the order of a text.
import Quadlang.Generator.Call
import Quadlang.Generator.Control
import Quadlang.Generator.Declare
import Quadlang.Generator.Reference

namespace Quadlang

/-- What an action answers. -/
inductive Reply
  | done
  | symbol (s : Symbol)
  | program (p : Program)

namespace Generate

def perform : Action → Generate Reply
  | .start name => do start name; return .done
  | .main => do beginMain; return .done
  | .finish => do return .program (← finish)
  | .leaveScope => do leaveScope; return .done
  | .resolve id expected expectFunction => do
    return .symbol (← resolve id expected expectFunction)
  | .declare id typeName options => do return .symbol (← declare id typeName options)
  | .endFunction => do endFunction; return .done
  | .declareClass id => do return .symbol (← declareClass id)
  | .pushPending id => do pushPending id; return .done
  | .addDim size => do addPendingDim size; return .done
  | .declarePending typeName => do declarePending typeName; return .done
  | .pushOperator op => do pushOperator op; return .done
  | .pushConst ty v => do pushConst ty v; return .done
  | .openGroup => do openGroup; return .done
  | .closeGroup => do closeGroup; return .done
  | .collapse level => do collapse level; return .done
  | .write => do write; return .done
  | .read => do read; return .done
  | .ifCond => do jumpIfFalse; return .done
  | .orElse => do orElse; return .done
  | .endIf => do fillJump false; return .done
  | .whileStart => do whileStart; return .done
  | .whileCond => do jumpIfFalse; return .done
  | .whileEnd => do whileEnd; return .done
  | .fillJump usePop => do fillJump usePop; return .done
  | .var name => do var name; return .done
  | .member name => do member name; return .done
  | .indexStart => do indexStart; return .done
  | .indexEnd => do indexEnd; return .done
  | .varEnd => do varEnd; return .done
  | .callStart name => do callStart name; return .done
  | .argument => do argument; return .done
  | .callEnd discard => do callEnd discard; return .done
  | .ret hasValue => do ret hasValue; return .done

/-- Sets the line that the next actions belong to. -/
def setLine (line : Int) : Generate Unit := modify fun g => { g with line }

/-- Performs events in their order, up to the first that fails. -/
def performAll : List Event → Generate Unit
  | [] => return
  | e :: rest => do
    setLine e.line
    let _ ← perform e.action
    performAll rest

end Generate

end Quadlang
