import GuidedDataflow.Flow.Fact
import GuidedDataflow.Program.Basic

/-!
Transfer of facts across one statement. A forward step looks at the target of the fact's
edge, the statement about to run; a backward step looks at the start of the edge, the
statement just run. Values are copied by assignments, passed into callees and handed back
by returns. A call of a method that the program does not hold is opaque: forward facts pass
over it, and a value that it produced is not followed further back.
-/

namespace GuidedDataflow.Flow

/-- The value on every edge that leaves the statement. -/
def alongSuccs (p : Program) (id : StmtId) (value : Value) (context : CallString) : List Fact :=
  (p.succEdges id).map (⟨·, value, context⟩)

/-- The value on every edge that enters the statement. -/
def alongPreds (p : Program) (id : StmtId) (value : Value) (context : CallString) : List Fact :=
  (p.predEdges id).map (⟨·, value, context⟩)

/-- Where a method returns to: the innermost call site, or every call of the method where
the caller is unknown. -/
def returnSites (p : Program) (method : Signature) (context : CallString) :
    List (StmtId × CallString) :=
  match context.pop? with
  | some (site, caller) => [(site, caller)]
  | none => (p.callersOf method).map (·, CallString.empty)

/-- The facts that a call passes into its callee: each formal whose actual is the value
holds after the identity statement that binds it. -/
def intoCallee (p : Program) (call : Call) (value : Value) (inner : CallString) : List Fact :=
  match p.method? call.target with
  | none => []
  | some callee =>
    callee.identities.flatMap fun (formal, id) =>
      if call.actual? formal = some value then
        match (p.statement? id).map Statement.action with
        | some (.identity target _) => alongSuccs p id target inner
        | _ => []
      else []

/-- The facts that a return hands to the callers that keep the result. -/
def intoCallers (p : Program) (method : Signature) (context : CallString) : List Fact :=
  (returnSites p method context).flatMap fun (site, caller) =>
    match (p.statement? site).bind Statement.left? with
    | some result => alongSuccs p site result caller
    | none => []

/-- The facts one forward step after `f`. -/
def forward (p : Program) (depth : Nat) (f : Fact) : List Fact :=
  let id := f.edge.target
  let survivors := alongSuccs p id f.value f.context
  match p.statement? id with
  | none => []
  | some s =>
    match s.action with
    | .assign target source =>
      (if source = f.value ∧ target ≠ f.value then alongSuccs p id target f.context else []) ++
        (if target = f.value ∧ source ≠ f.value then [] else survivors)
    | .identity target _ => if target = f.value then [] else survivors
    | .invoke result call =>
      intoCallee p call f.value (f.context.pushBounded id depth) ++
        (if result = some f.value then [] else survivors)
    | .ret value => if value = some f.value then intoCallers p s.method f.context else []
    | .nop => survivors

/-- The facts that stand before the returns of a callee whose result is asked for. -/
def fromReturns (p : Program) (call : Call) (inner : CallString) : List Fact :=
  match p.method? call.target with
  | none => []
  | some callee =>
    callee.returns.flatMap fun id =>
      match (p.statement? id).bind Statement.returned? with
      | some value => if value.isLocal then alongPreds p id value inner else []
      | none => []

/-- The actuals, before the calls, that a formal may have been bound to. -/
def fromCallers (p : Program) (method : Signature) (formal : Formal) (context : CallString) :
    List Fact :=
  (returnSites p method context).flatMap fun (site, caller) =>
    match ((p.statement? site).bind Statement.call?).bind (·.actual? formal) with
    | some actual => if actual.isLocal then alongPreds p site actual caller else []
    | none => []

/-- The facts one backward step before `f`. -/
def backward (p : Program) (depth : Nat) (f : Fact) : List Fact :=
  let id := f.edge.start
  let earlier := alongPreds p id f.value f.context
  match p.statement? id with
  | none => []
  | some s =>
    match s.action with
    | .assign target source =>
      if target = f.value then
        if source.isAllocation then [] else alongPreds p id source f.context
      else earlier
    | .invoke result call =>
      if result = some f.value then fromReturns p call (f.context.pushBounded id depth)
      else earlier
    | .identity target formal =>
      if target = f.value then fromCallers p s.method formal f.context else earlier
    | _ => earlier

/-- The allocation that a backward step ends at: an assignment of a constant or of a new
object to the fact's value. -/
def allocation? (p : Program) (f : Fact) : Option ForwardQuery :=
  match (p.statement? f.edge.start).map Statement.action with
  | some (.assign target source) =>
    if target = f.value ∧ source.isAllocation then
      some ⟨f.edge, ⟨f.value, f.edge.start, source⟩⟩
    else none
  | _ => none

end GuidedDataflow.Flow
