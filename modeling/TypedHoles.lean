import TypedHoles.EditorReport
import TypedHoles.EditorJson
import TypedHoles.EditorLog
import TypedHoles.JsonReading
import TypedHoles.Proofs.ActionFilling
import TypedHoles.Proofs.CandidateAgreement
import TypedHoles.Proofs.CanonicalNumbering
import TypedHoles.Proofs.FreshAnnotation
import TypedHoles.Proofs.HoleFilling
import TypedHoles.Proofs.Instantiation
import TypedHoles.Proofs.Labels
import TypedHoles.Proofs.MostGeneralUnifier
import TypedHoles.Proofs.PrincipalTyping
import TypedHoles.Proofs.ReachableStates
import TypedHoles.Proofs.Resolution
import TypedHoles.Proofs.Typing
import TypedHoles.Proofs.ReachableSubstitutions
import TypedHoles.Proofs.OfferedActions
import TypedHoles.Proofs.BindingStores
import TypedHoles.Proofs.SubstitutionInvariant
import TypedHoles.Proofs.PathCompression
import TypedHoles.Proofs.SavedStates
import TypedHoles.Proofs.BuildablePrograms
import TypedHoles.Proofs.CanonicalForms
import TypedHoles.Proofs.ConstraintOrder
import TypedHoles.Proofs.Specialization
import TypedHoles.Proofs.FilledPrograms
import TypedHoles.Proofs.NameDiscipline
import TypedHoles.Proofs.CommutingFills
import TypedHoles.Proofs.RenamedPrograms
import TypedHoles.Proofs.CosmeticLabels
import TypedHoles.Proofs.NameBudget
import TypedHoles.Proofs.ReportedNames
import TypedHoles.Proofs.HoleMaps
import TypedHoles.Proofs.RenamingClasses
import TypedHoles.Proofs.HoleNumbers
import TypedHoles.Proofs.ReadingOrder
import TypedHoles.Proofs.FirstOccurrences
import TypedHoles.Proofs.Places
import TypedHoles.Proofs.EagerSubstitution
import TypedHoles.Proofs.UnboundVariables
import TypedHoles.Proofs.InsertedFragments
import TypedHoles.Proofs.SelectionBoundary
import TypedHoles.Proofs.TakenNames
import TypedHoles.Proofs.EndingInference
import TypedHoles.Proofs.TermReading
import TypedHoles.Proofs.TypeReading
import TypedHoles.Proofs.FirstHole
import TypedHoles.Proofs.FirstBinder
import TypedHoles.Proofs.Shadowing
import TypedHoles.Proofs.ReportedChanges
import TypedHoles.Proofs.DrawnSlots
