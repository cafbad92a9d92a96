import Hermit.Structural.UnfoldingSatisfiability
import Hermit.Structural.Regularity
import Hermit.Structural.ClausifiedModels
import Hermit.Structural.RuleEquivalence
import Hermit.Structural.RuleSafety
import Hermit.Structural.RoleSatisfiability
import Hermit.Structural.DefinitionNames
import Hermit.Structural.BuiltInPropertyModels
import Hermit.Structural.GraphRules
import Hermit.Structural.AutomatonRestriction
import Hermit.Structural.AutomatonMinimization
import Hermit.Structural.CardinalityNumbers
import Hermit.Structural.RuleFacts
import Hermit.Strings.UriReferences
import Hermit.Strings.LanguageRange
import Hermit.Tableau.ClauseCoreFlags
import Hermit.Tableau.BodyOrder
import Hermit.Datatypes.ComponentExactness
import Hermit.Datatypes.BinaryData
import Hermit.Datatypes.DateTimeForms
import Hermit.Datatypes.FloatValueSpace
import Hermit.Hierarchy.ReadOff
import Hermit.Hierarchy.InstanceQueries
import Hermit.Hierarchy.RoleRealization
import Hermit.Datalog.QueryEvaluation
import Hermit.Reasoner.Explanations
import Hermit.Reasoner.Interrupts
import Hermit.Tableau.GraphImages
import Hermit.Tableau.CoreBlockingRuns
import Hermit.Tableau.CoreFlags
import Hermit.Tableau.ReuseDependencies
import Hermit.Tableau.UnequalNodes
import Hermit.Tableau.DisjunctionOrder
import Hermit.InternedGraph
import Hermit.Prefixes
import Hermit.Tableau.UsageCounts
