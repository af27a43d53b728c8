import TypedHoles.Inference
import TypedHoles.TermText

/-!
# What inference logs

Each phase of inference leaves events behind, up to the point at which it fails:
the nodes that have been annotated, the constraints, the equations as they are
when they are solved, the solution and the result.
-/

namespace TypedHoles

/-- How detailed a log record is. -/
inductive LogLevel where
  | debug
  | trace
  deriving DecidableEq, Repr

/-- The word for a level. -/
def LogLevel.text : LogLevel → String
  | debug => "debug"
  | trace => "trace"

/-- A line of a log. -/
structure LogRecord where
  level : LogLevel
  message : String
  deriving DecidableEq, Repr

/-- Something that happens during inference. -/
inductive InferenceEvent where
  /-- A node has its types. -/
  | finished (node : AnnotatedTerm)
  /-- The whole term has its types, for which so many type variables were drawn. -/
  | annotated (term : Term) (typeVars : Nat)
  /-- The number of constraints is known. -/
  | collected (constraints : Nat)
  /-- A constraint has been collected. -/
  | required (constraint : Constraint)
  /-- A constraint, with the substitution applied to it, is solved. -/
  | solving (constraint : Constraint)
  /-- All constraints are solved with so many bindings. -/
  | solved (bindings : Nat)
  /-- The bindings that solve the constraints. -/
  | solution (substitution : Substitution)
  /-- So many type variables are left. -/
  | remaining (typeVars : Nat)
  /-- The type of the term is known. -/
  | inferred (term : Term) (ty : Ty)

/-- The log record of an event. -/
def InferenceEvent.record : InferenceEvent → LogRecord
  | finished node => ⟨.trace, "ANNOTATED: " ++ node.text⟩
  | annotated term typeVars =>
      ⟨.debug, "Annotated " ++ term.text ++ " with " ++ toString typeVars ++
        " type variables"⟩
  | collected constraints =>
      ⟨.debug, "Collected " ++ toString constraints ++ " constraints"⟩
  | required constraint => ⟨.trace, "CONSTRAINT: " ++ constraint.text⟩
  | solving constraint => ⟨.trace, "SOLVING: " ++ constraint.text⟩
  | solved bindings =>
      ⟨.debug, "Solved with " ++ toString bindings ++ " bindings"⟩
  | solution substitution => ⟨.trace, "Substitution:\n" ++ substitution.text⟩
  | remaining typeVars =>
      ⟨.debug, toString typeVars ++ " free type variables remain"⟩
  | inferred term ty =>
      ⟨.debug, "Inferred " ++ term.text ++ " : " ++ ty.text⟩

/-- The nodes that get their types when a term is annotated, in the order in which
they do. -/
def Annotate.finishedNodes (context : Context) (term : Term)
    (supply : NameSupply .typeVar) : List AnnotatedTerm :=
  let parts := match term with
    | .unit => []
    | .var _ => []
    | .hole _ => []
    | .abs binder body =>
        match freshType supply with
        | .ok domain supply =>
            finishedNodes (context.extend binder.name domain) body supply
        | .error _ _ => []
    | .app first second | .pair first second =>
        finishedNodes context first supply ++
          match annotate context first supply with
          | .ok _ supply => finishedNodes context second supply
          | .error _ _ => []
    | .proj1 argument | .proj2 argument =>
        finishedNodes context argument supply
  match annotate context term supply with
  | .ok node _ => parts ++ [node]
  | .error _ _ => parts

/-- The constraints that are taken up when constraints are solved, with the
substitution applied to them at that time. -/
def Unify.takenUp (substitution : Substitution) :
    List Constraint → List Constraint
  | [] => []
  | constraint :: constraints =>
      match (applyConstraint constraint).run substitution with
      | .error _ _ => []
      | .ok applied _ =>
          match (satisfy constraint).run substitution with
          | .error _ _ => [applied]
          | .ok _ substitution => applied :: takenUp substitution constraints

/-- The events of solving constraints. -/
def Unify.events (substitution : Substitution) (constraints : List Constraint) :
    List InferenceEvent :=
  (takenUp substitution constraints).map .solving

/-- The events of annotating a term. -/
def Annotate.events (context : Context) (term : Term)
    (supply : NameSupply .typeVar) : List InferenceEvent :=
  (finishedNodes context term supply).map .finished

/-- The events of inferring the type of an annotated term. -/
def AnnotatedTerm.inferenceEvents (annotated : AnnotatedTerm) (term : Term) :
    List InferenceEvent :=
  let constraints := annotated.constraints
  .collected constraints.length :: constraints.map .required ++
    Unify.events .empty constraints ++
    match (Unify.solve constraints).run .empty with
    | .error _ _ => []
    | .ok _ substitution =>
        [.solved substitution.size, .solution substitution] ++
          match (annotated.applySubstitution substitution).canonical with
          | .error _ => []
          | .ok (normal, _) =>
              [.remaining normal.typeVars.length, .inferred term normal.ty]

/-- The events of inferring the type of a term. -/
def Term.inferenceEvents (term : Term) : List InferenceEvent :=
  Annotate.events .empty term .full ++
    match term.annotated with
    | .error _ _ => []
    | .ok annotated supply =>
        .annotated term supply.count :: annotated.inferenceEvents term

end TypedHoles
