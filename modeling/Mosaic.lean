import Mosaic.Anchor.Lattice
import Mosaic.Anchor.Word
import Mosaic.Atlas.Basic
import Mosaic.Atlas.Expand
import Mosaic.Atlas.Step
import Mosaic.Conversion.Analysis
import Mosaic.Conversion.Classes
import Mosaic.Conversion.Complex
import Mosaic.Conversion.Convert
import Mosaic.Conversion.Minimise
import Mosaic.Conversion.Refinement
import Mosaic.Cyclic
import Mosaic.Descent
import Mosaic.Description.Directive
import Mosaic.Description.Draft
import Mosaic.Description.Error
import Mosaic.Description.Load
import Mosaic.Description.Tile
import Mosaic.Expression.Numeral
import Mosaic.Expression.Parser
import Mosaic.Expression.Scope
import Mosaic.Inspector
import Mosaic.Plane.IdealPolygon
import Mosaic.Plane.Motion
import Mosaic.Plane.Orthonormal
import Mosaic.Plane.Point
import Mosaic.Plane.Space
import Mosaic.Proofs.Anchor.WordProblem
import Mosaic.Reading.Fault
import Mosaic.Reading.Reader
import Mosaic.Scalar
import Mosaic.Scalar.Double
import Mosaic.Scalar.Double.Basic
import Mosaic.Scalar.Double.Hyperbolic
import Mosaic.Scalar.Tolerance
import Mosaic.Settings
import Mosaic.Settings.Json
import Mosaic.Shape.Basic
import Mosaic.Shape.Edge
import Mosaic.Shape.Polygon
import Mosaic.Text.Blank
import Mosaic.Text.SixPlaces
import Mosaic.Text.Utf8
import Mosaic.Tiling.Adjacency
import Mosaic.Tiling.Basic
import Mosaic.Tiling.DoubleCover
import Mosaic.Tiling.Error
import Mosaic.Tiling.Gluing
import Mosaic.Tiling.Period
import Mosaic.Tiling.Valence
import Mosaic.View.Document
import Mosaic.View.Nodes
import Mosaic.View.Tiling
import Mosaic.Workspace
import Mosaic.Proofs.Tiling.DoubleCover
import Mosaic.Proofs.Tiling.Symmetry
import Mosaic.Proofs.Tiling.Gluing
import Mosaic.Proofs.Atlas.Link
import Mosaic.Proofs.Atlas.Step
import Mosaic.Proofs.Atlas.Run
import Mosaic.Proofs.Atlas.Involution
import Mosaic.Proofs.Atlas.Footprint
import Mosaic.Proofs.Atlas.Reach
import Mosaic.Proofs.Atlas.Expansion
import Mosaic.Proofs.Conversion.Walk
import Mosaic.Proofs.Descent
import Mosaic.Proofs.Conversion.Congruence
import Mosaic.Proofs.Conversion.Survey
import Mosaic.Proofs.Conversion.Records
import Mosaic.Proofs.Conversion.Soundness
import Mosaic.Proofs.Conversion.Examination
import Mosaic.Proofs.Conversion.LeastCongruence
import Mosaic.Proofs.Conversion.Lawful
import Mosaic.Proofs.Tiling.Period
import Mosaic.Proofs.Conversion.Coverage
import Mosaic.Proofs.Conversion.Emission
import Mosaic.Proofs.Conversion.Periodicity
import Mosaic.Proofs.Conversion.Coherence
import Mosaic.Proofs.Conversion.Minimisation
import Mosaic.Proofs.Tiling.Annotation
import Mosaic.Proofs.Tiling.Folding
import Mosaic.Proofs.Tiling.Quotient
import Mosaic.Proofs.Conversion.Quotient
import Mosaic.Proofs.Expression.Completeness
import Mosaic.Proofs.Description.Directive
import Mosaic.Proofs.Description.Finish
import Mosaic.Proofs.Description.Load
import Mosaic.Proofs.Tiling.EdgeLengths
import Mosaic.Proofs.Tiling.Turning
import Mosaic.Proofs.Workspace.Run
import Mosaic.Proofs.Workspace.Generation
import Mosaic.Proofs.Workspace.Provenance
import Mosaic.Proofs.Description.Reload
import Mosaic.Proofs.Tiling.ThereAndBack
import Mosaic.Proofs.Description.Comment
import Mosaic.Proofs.Description.Ends
import Mosaic.Proofs.Conversion.Forms
import Mosaic.Proofs.Conversion.Operations
import Mosaic.Proofs.Conversion.Passes
import Mosaic.Proofs.Conversion.Budget
import Mosaic.Proofs.Tiling.Orbit
import Mosaic.Proofs.Tiling.Restarts
import Mosaic.Proofs.Atlas.Ancestry
import Mosaic.Proofs.Atlas.BreadthFirst
import Mosaic.Proofs.Atlas.Search
import Mosaic.Proofs.Anchor.Around
import Mosaic.Proofs.Atlas.Cells
import Mosaic.Proofs.Scalar.Rounding
import Mosaic.Proofs.Scalar.Double
import Mosaic.Proofs.Tiling.Turns
import Mosaic.Proofs.Tiling.Folds
import Mosaic.Proofs.Description.Turns
import Mosaic.Proofs.Anchor.Canonical
import Mosaic.Proofs.Atlas.Names
import Mosaic.Proofs.Anchor.Frames
import Mosaic.Proofs.Anchor.Settling
import Mosaic.Proofs.Tiling.Decoration
import Mosaic.Proofs.Scalar.Zero
import Mosaic.Proofs.Tiling.Greatest
import Mosaic.Proofs.Tiling.Reversal
import Mosaic.Proofs.Conversion.Reversal
import Mosaic.Proofs.Description.Progress
import Mosaic.Proofs.Description.Repetition
import Mosaic.Proofs.Inspector
import Mosaic.Proofs.Conversion.Refinement
import Mosaic.Proofs.Conversion.Mixing
import Mosaic.Proofs.Description.Quotation
