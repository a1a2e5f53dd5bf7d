import Arbor.Scalar
import Arbor.Scalar.Double
import Arbor.Scalar.Real
import Arbor.Decimal.Notation
import Arbor.Text.Padding
import Arbor.Random.Generator
import Arbor.Json.Reader
import Arbor.Json.Printer
import Arbor.Json.Decoding
import Arbor.Grammar.Call
import Arbor.Grammar.Instruction
import Arbor.Fault
import Arbor.Parameter.Store
import Arbor.Parameter.Table
import Arbor.Parameter.Document
import Arbor.Parameter.Config
import Arbor.Geometry.Vector
import Arbor.Geometry.Triangle
import Arbor.Geometry.Box
import Arbor.Geometry.Ray
import Arbor.Mesh.Basic
import Arbor.Mesh.Merge
import Arbor.Mesh.Shell
import Arbor.Solid.Location
import Arbor.Solid.Round
import Arbor.Solid.Tessellation
import Arbor.Solid.Shape
import Arbor.Turtle.Pose
import Arbor.Turtle.Forest
import Arbor.Grammar.Interpretation
import Arbor.Grammar.Count
import Arbor.Grammar.Derivation
import Arbor.Species.Kind
import Arbor.Species.Plant
import Arbor.Species.Registry
import Arbor.Leaf.Layer
import Arbor.Leaf.Pattern
import Arbor.Assembly.Settings
import Arbor.Assembly.Volume
import Arbor.Assembly.Structure
import Arbor.Assembly.Overlap
import Arbor.Assembly.Branches
import Arbor.Assembly.Build
import Arbor.Text.LetterCase
import Arbor.Text.Lowercase
import Arbor.Report.Options
import Arbor.Report.Figures
import Arbor.Report.Transcript
import Arbor.Main
import Arbor.Proofs.ForestSlots
import Arbor.Proofs.ReplayEffects
import Arbor.Proofs.ReplayRuns
import Arbor.Proofs.Brackets
import Arbor.Proofs.Sketches
import Arbor.Proofs.BracketedBlocks
import Arbor.Proofs.Acceptance
import Arbor.Proofs.RetiredForest
import Arbor.Proofs.ForestLineage
import Arbor.Proofs.Outcomes
import Arbor.Proofs.WordDerivation
import Arbor.Proofs.LeafPrograms
import Arbor.Proofs.TreePrograms
import Arbor.Proofs.CountingTrees
import Arbor.Proofs.PlantPrograms
import Arbor.Proofs.LeafTriangles
import Arbor.Proofs.MeshTables
import Arbor.Proofs.ReverseIndex
import Arbor.Proofs.MergedSurfaces
import Arbor.Proofs.NamedCorners
import Arbor.Proofs.TriangleEdges
import Arbor.Proofs.NonfiniteDoubles
import Arbor.Proofs.ClosedShells
import Arbor.Proofs.Descents
import Arbor.Proofs.PlacedBranches
import Arbor.Proofs.TriedLeaves
import Arbor.Proofs.LeafLayers
import Arbor.Proofs.AssembledPlants
import Arbor.Proofs.DrawnValues
import Arbor.Proofs.RowChanges
import Arbor.Proofs.StoreEdits
import Arbor.Proofs.StoreRuns
import Arbor.Proofs.RoundedIntegers
import Arbor.Proofs.HiddenRanges
import Arbor.Proofs.CountedViolations
import Arbor.Proofs.HollowLeaves
import Arbor.Proofs.AddedFaces
import Arbor.Proofs.InertTriangles
import Arbor.Proofs.NearestDoubles
import Arbor.Proofs.ShortestDecimals
import Arbor.Proofs.PrintedNumbers
import Arbor.Proofs.PrintedDocuments
import Arbor.Proofs.ComparedStores
import Arbor.Proofs.SavedStores
import Arbor.Proofs.RealVectors
import Arbor.Proofs.SafeDistances
import Arbor.Proofs.Rotations
import Arbor.Proofs.TurtleFrames
import Arbor.Proofs.ContextFreeWords
import Arbor.Proofs.UndrawnSpecies
import Arbor.Proofs.SeededDraws
import Arbor.Proofs.ProgramShapes
import Arbor.Proofs.ShapedWords
import Arbor.Proofs.TreeShapes
import Arbor.Proofs.SavedConfigs
import Arbor.Proofs.VertexClusters
import Arbor.Proofs.MisshapenFaces
import Arbor.Proofs.ShellAreas
import Arbor.Proofs.WoundEdges
import Arbor.Proofs.EdgeNormals
import Arbor.Proofs.FlatSkirts
import Arbor.Proofs.FlatShells
import Arbor.Proofs.ExactScalars
import Arbor.Proofs.ClosestPoints
import Arbor.Proofs.RayHits
import Arbor.Proofs.FittingLayers
import Arbor.Proofs.SignificantDigits
import Arbor.Proofs.CompactNumbers
import Arbor.Proofs.AppliedEntries
import Arbor.Proofs.RefusedDefinitions
import Arbor.Proofs.RedrawnStores
import Arbor.Proofs.FailedSteps
import Arbor.Proofs.Calculations
import Arbor.Proofs.StalkSuccessors
import Arbor.Proofs.CountedMaterials
import Arbor.Proofs.ComparedNumbers
import Arbor.Proofs.SplitStalks
import Arbor.Proofs.ReachedCalculations
import Arbor.Proofs.TwigGrowth
import Arbor.Proofs.LinkedTurtles
import Arbor.Proofs.BaseLeaves
import Arbor.Proofs.DrawnPoints
import Arbor.Proofs.ConePoints
import Arbor.Proofs.EnclosingBoxes
import Arbor.Proofs.SampledSurfaces
import Arbor.Proofs.TreeExtents
import Arbor.Proofs.CheckedDistances
import Arbor.Proofs.SpreadTriangles
