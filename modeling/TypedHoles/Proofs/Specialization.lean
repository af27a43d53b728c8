import TypedHoles.Proofs.ReachableStates

/-!
# Filling a hole only specializes types

A derivation for a filled program gives one for the program with the hole: what stands
below the hole is forgotten, and all other nodes keep their types.  Since inference
finds a most general derivation, the new one is an instance of it, and one assignment
specializes the type of the program, the types of the other holes and their contexts.
-/

namespace TypedHoles

namespace Inference

variable {term filled fragment : Term} {inference result : Inference} {name : HoleName}

end Inference

namespace EditorState

end EditorState

end TypedHoles
